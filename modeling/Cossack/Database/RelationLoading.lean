import Cossack.Database.EntitySaves
import Cossack.Lib.Batches

/-! # Loading relations

    `loadRelations` collects the keys of a list of entities, asks for them in chunks
    that fit the parameter limit of the driver, and hands out what it has loaded by
    the texts of the keys.  An entity that has been loaded is known by its row.  The
    comparison of values in the database and the parts of the language that depend on
    the characters of a text are parameters. -/

namespace Cossack.Database.RelationLoading

open EntitySaves (Value Num JoinTable)

/-! ## Section 1: The codec -/

inductive LogicalType where
  | boolean
  | datetime
  | date
  | json
  | bigint
  | decimal
  | enumeration
  | other

inductive Dialect where
  | sqlite
  | mysql
  | postgres
  deriving DecidableEq

structure Runtime where
  /-- `String` of a date, of bytes, and of what a JSON text says. -/
  dateString : Int → String
  bytesString : List Nat → String
  jsonString : String → String
  toISOString : Int → String
  /-- `JSON.stringify` and `JSON.parse`. -/
  stringify : Value → String
  parse : String → Value
  /-- `decodeDateTime` of what is no date, and `BigInt(String(value))`. -/
  readDate : Value → Int
  readBigint : Value → Int

/-- `String(value)`. -/
def Runtime.string (js : Runtime) : Value → String
  | .undefined => "undefined"
  | .null => "null"
  | .boolean b => if b then "true" else "false"
  | .number .nan => "NaN"
  | .number (.int n) => toString n
  | .bigint n => toString n
  | .text s => s
  | .date time => js.dateString time
  | .bytes b => js.bytesString b
  | .json text => js.jsonString text

/-- `value == null`. -/
def isNullish : Value → Bool
  | .undefined | .null => true
  | _ => false

/-- `Boolean(value)`. -/
def truthy : Value → Bool
  | .undefined | .null => false
  | .boolean b => b
  | .number .nan => false
  | .number (.int n) => n != 0
  | .bigint n => n != 0
  | .text s => s != ""
  | .date _ | .bytes _ | .json _ => true

structure ColumnMetadata where
  propertyName : String
  columnName : String
  logicalType : LogicalType
  primary : Bool

def slice (s : String) (start stop : Nat) : String :=
  String.ofList ((s.toList.take stop).drop start)

def encodeDateTime (js : Runtime) (time : Int) : Dialect → String
  | .postgres => js.toISOString time
  | _ => slice (js.toISOString time) 0 10 ++ " " ++ slice (js.toISOString time) 11 23

def encodeValue (js : Runtime) (dialect : Dialect) (column : ColumnMetadata) (v : Value) : Value :=
  if isNullish v then .null
  else
    match column.logicalType, v with
    | .boolean, v =>
        if dialect = .sqlite then .number (.int (if truthy v then 1 else 0)) else .boolean (truthy v)
    | .datetime, .date time => .text (encodeDateTime js time dialect)
    | .date, .date time => .text (slice (js.toISOString time) 0 10)
    | .json, .text s => .text s
    | .json, v => .text (js.stringify v)
    | .bigint, .bigint n => if dialect = .postgres then .bigint n else .text (toString n)
    | .decimal, .number n => .text (js.string (.number n))
    | .enumeration, v => .text (js.string v)
    | _, v => v

def decodeValue (js : Runtime) (column : ColumnMetadata) (v : Value) : Value :=
  if isNullish v then .null
  else
    match column.logicalType, v with
    | .boolean, v =>
        .boolean (v = .boolean true ∨ v = .number (.int 1) ∨ v = .text "1" ∨ v = .text "true")
    | .datetime, .date time | .date, .date time => .date time
    | .datetime, v | .date, v => .date (js.readDate v)
    | .json, .text s => js.parse s
    | .bigint, .bigint n => .bigint n
    | .bigint, v => .bigint (js.readBigint v)
    | _, v => v

/-! ## Section 2: Metadata and the database -/

inductive RelationKind where
  | manyToOne
  | oneToOne
  | oneToMany
  | manyToMany
  deriving DecidableEq

structure RelationMetadata where
  propertyName : String
  kind : RelationKind
  target : String
  owner : Bool
  inverseProperty : Option String
  joinColumn : Option String
  referencedProperty : Option String
  joinTable : Option JoinTable

structure EntityMetadata where
  modelName : String
  tableName : String
  columns : List ColumnMetadata
  relations : List RelationMetadata

def EntityMetadata.columnByProperty (m : EntityMetadata) (property : String) :
    Option ColumnMetadata :=
  m.columns.reverse.find? (·.propertyName == property)

def EntityMetadata.primaryColumns (m : EntityMetadata) : List ColumnMetadata :=
  m.columns.filter (·.primary)

def EntityMetadata.relation (m : EntityMetadata) (property : String) : Option RelationMetadata :=
  m.relations.find? (·.propertyName == property)

abbrev Row := List (String × Value)

def cell (row : Row) (column : String) : Value := (Entries.get row column).getD .undefined

structure Tables where
  tables : String → List Row
  /-- What `=` says of a value in a column of a table and a parameter; neither is
      null. -/
  equal : String → String → Value → Value → Bool

/-- `column = parameter` for a row. -/
def Tables.answers (db : Tables) (table column : String) (parameter : Value) (row : Row) : Bool :=
  !isNullish parameter && !isNullish (cell row column) &&
    db.equal table column (cell row column) parameter

/-- A value; two dates, byte arrays or JSON objects are one object when `object` is the
    same. -/
structure Held where
  object : Nat
  value : Value

def isObject : Value → Bool
  | .date _ | .bytes _ | .json _ => true
  | _ => false

/-- The equality of `Set`. -/
def Held.same (a b : Held) : Bool := a.value == b.value && (!isObject a.value || a.object == b.object)

/-- `[...new Set(values)]`. -/
def distinct : List Held → List Held
  | [] => []
  | value :: values => value :: (distinct values).filter fun other => !value.same other

/-- An entity of the list, with the row it was made of and what its column properties
    hold. -/
structure Entity where
  raw : List (String × Held)
  property : String → Held

def Entity.cell (entity : Entity) (column : String) : Held :=
  (Entries.get entity.raw column).getD ⟨0, .undefined⟩

structure ORM where
  js : Runtime
  dialect : Dialect
  database : Tables
  parameterLimit : Nat
  metadata : List EntityMetadata

inductive Error where
  | configuration (message : String)
  | unsupportedCapability (capability : String)

/-! ## Section 3: What a relation looks up -/

inductive Lookup where
  /-- The join column of the entity has a key of the target. -/
  | reference (joinColumn : String) (target : EntityMetadata) (column : ColumnMetadata)
  /-- The join column of the target has a key of the entity. -/
  | children (single : Bool) (target : EntityMetadata) (joinColumn : String) (ownerColumn : ColumnMetadata)
  | junction (table : String) (currentProperty currentJoinColumn : String)
      (target : EntityMetadata) (targetColumn : ColumnMetadata) (targetJoinColumn : String)

namespace ORM

variable (orm : ORM)

def metadataByTarget (target : String) : Option EntityMetadata :=
  orm.metadata.reverse.find? (·.modelName == target)

def resolveJunction (metadata target : EntityMetadata) (relation : RelationMetadata) :
    Except Error (Option Lookup) :=
  let ownerRelation :=
    if relation.joinTable.isSome then some relation
    else target.relations.find? fun candidate =>
      candidate.kind == .manyToMany && candidate.joinTable.isSome &&
        candidate.inverseProperty == some relation.propertyName
  match ownerRelation.bind RelationMetadata.joinTable with
  | none =>
      .error (.configuration ("Many-to-many relation " ++ metadata.modelName ++ "." ++
        relation.propertyName ++ " requires @JoinTable() on one side."))
  | some join =>
      if relation.joinTable.isSome then
        match target.columnByProperty join.inverseReferencedProperty with
        | none => .error (.configuration "Unknown property.")
        | some column =>
            .ok (some (.junction join.name join.referencedProperty join.joinColumn target column
              join.inverseJoinColumn))
      else
        match target.columnByProperty join.referencedProperty with
        | none => .error (.configuration "Unknown property.")
        | some column =>
            .ok (some (.junction join.name join.inverseReferencedProperty join.inverseJoinColumn target
              column join.joinColumn))

/-- Nothing is loaded for a relation whose columns are not known. -/
def resolve (metadata : EntityMetadata) (property : String) : Except Error (Option Lookup) :=
  match metadata.relation property with
  | none =>
      .error (.configuration ("Unknown relation " ++ metadata.modelName ++ "." ++ property ++ "."))
  | some relation =>
      match orm.metadataByTarget relation.target with
      | none =>
          .error (.configuration ("Unregistered relation target " ++ relation.target ++ "."))
      | some target =>
          match relation.kind, relation.owner with
          | .manyToOne, _ | .oneToOne, true =>
              match relation.joinColumn, relation.referencedProperty.bind target.columnByProperty with
              | some joinColumn, some column => .ok (some (.reference joinColumn target column))
              | _, _ => .ok none
          | .oneToMany, _ | .oneToOne, false =>
              let inverse := relation.inverseProperty.bind target.relation
              let ownerColumn :=
                match inverse.bind RelationMetadata.referencedProperty with
                | some referenced => metadata.columnByProperty referenced
                | none => metadata.primaryColumns.head?
              match inverse.bind RelationMetadata.joinColumn, ownerColumn with
              | some joinColumn, some column =>
                  .ok (some (.children (relation.kind == RelationKind.oneToOne) target joinColumn column))
              | _, _ => .ok none
          | .manyToMany, _ => resolveJunction metadata target relation

end ORM

/-! ## Section 4: Loading -/

/-- What is assigned to the property of an entity. -/
inductive Related where
  | one (row : Option Row)
  | many (rows : List Row)

def Related.rows : Related → List Row
  | .one row => row.toList
  | .many rows => rows

namespace ORM

variable (orm : ORM)

/-- `String` of the property that a row of the target gives to its entity. -/
def decodedText (column : ColumnMetadata) (row : Row) : String :=
  orm.js.string (decodeValue orm.js column (cell row column.columnName))

def rawText (column : String) (row : Row) : String := orm.js.string (cell row column)

/-- `WHERE property = key` for a row of the target. -/
def finds (target : EntityMetadata) (column : ColumnMetadata) (key : Value) (row : Row) : Bool :=
  orm.database.answers target.tableName column.columnName
    (encodeValue orm.js orm.dialect column key) row

/-- The parameters of one query after the other; a query may not have more than
    `parameterLimit` of them. -/
def chunked (keys : List Value) : Except Error (List (List Value)) :=
  if orm.parameterLimit = 0 ∧ keys ≠ [] then .error (.unsupportedCapability "query parameter limit")
  else .ok (Batches.chunks orm.parameterLimit keys)

/-- `chunkedFind`, by a property of the target. -/
def chunkedFind (target : EntityMetadata) (column : ColumnMetadata) (keys : List Value) :
    Except Error (List Row) := do
  let chunks ← orm.chunked keys
  .ok (Batches.fetch (orm.finds target column) (orm.database.tables target.tableName) chunks)

/-- `chunkedFindPhysical`, by a column. -/
def chunkedFindPhysical (table column : String) (keys : List Value) : Except Error (List Row) := do
  let chunks ← orm.chunked keys
  .ok (Batches.fetch (orm.database.answers table column) (orm.database.tables table) chunks)

def loadReference (joinColumn : String) (target : EntityMetadata) (column : ColumnMetadata)
    (entities : List Entity) : Except Error (Entity → Related) := do
  let keys := distinct ((entities.map (·.cell joinColumn)).filter fun key => !isNullish key.value)
  let loaded ← orm.chunkedFind target column (keys.map Held.value)
  .ok fun entity =>
    let key := (entity.cell joinColumn).value
    -- A later row takes the place of an earlier one with the same text.
    .one (if isNullish key then none
      else (loaded.filter fun row => orm.decodedText column row = orm.js.string key).getLast?)

def loadChildren (single : Bool) (target : EntityMetadata) (joinColumn : String)
    (ownerColumn : ColumnMetadata) (entities : List Entity) : Except Error (Entity → Related) := do
  let keys := distinct ((entities.map (·.property ownerColumn.propertyName)).filter fun key =>
    !isNullish key.value)
  let loaded ← orm.chunkedFindPhysical target.tableName joinColumn (keys.map Held.value)
  .ok fun entity =>
    let group := loaded.filter fun row =>
      orm.rawText joinColumn row = orm.js.string (entity.property ownerColumn.propertyName).value
    if single then .one group.head? else .many group

def loadJunction (table currentProperty currentJoinColumn : String) (target : EntityMetadata)
    (targetColumn : ColumnMetadata) (targetJoinColumn : String) (entities : List Entity) :
    Except Error (Entity → Related) := do
  let keys := entities.map fun entity => (entity.property currentProperty).value
  let junctionRows ← orm.chunkedFindPhysical table currentJoinColumn keys
  -- Every row that a query returns has its own objects.
  let targetKeys := distinct (junctionRows.zipIdx.map fun row => ⟨row.2, cell row.1 targetJoinColumn⟩)
  let loaded ← orm.chunkedFind target targetColumn (targetKeys.map Held.value)
  let target := fun row : Row =>
    (loaded.filter fun t => orm.decodedText targetColumn t = orm.rawText targetJoinColumn row).getLast?
  .ok fun entity =>
    .many ((junctionRows.filter fun row =>
      orm.rawText currentJoinColumn row = orm.js.string (entity.property currentProperty).value).filterMap target)

def load (entities : List Entity) : Lookup → Except Error (Entity → Related)
  | .reference joinColumn target column => orm.loadReference joinColumn target column entities
  | .children single target joinColumn ownerColumn =>
      orm.loadChildren single target joinColumn ownerColumn entities
  | .junction table currentProperty currentJoinColumn target targetColumn targetJoinColumn =>
      orm.loadJunction table currentProperty currentJoinColumn target targetColumn targetJoinColumn entities

def loadEach (entities : List Entity) (metadata : EntityMetadata) :
    List String → Except Error (List (String × (Entity → Related)))
  | [] => .ok []
  | property :: relations => do
      match ← orm.resolve metadata property with
      | none => loadEach entities metadata relations
      | some lookup =>
          let values ← orm.load entities lookup
          let others ← loadEach entities metadata relations
          .ok ((property, values) :: others)

/-- What is assigned to which property of each entity. -/
def loadRelations (entities : List Entity) (metadata : EntityMetadata) (relations : List String) :
    Except Error (List (String × (Entity → Related))) :=
  if entities.isEmpty then .ok [] else orm.loadEach entities metadata relations

end ORM

end Cossack.Database.RelationLoading
