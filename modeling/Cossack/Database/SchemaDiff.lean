import Cossack.Lib.Entries
import Cossack.Lib.JsString

/-! # The schema diff

    `diffSchemas` with the comparison of columns, and `describeOperation`.  Of
    the metadata a schema has what they read: a relation has its join table, and
    a default is a JSON scalar. -/

namespace Cossack.Database.Schema

/-! ## Section 1: Schemas -/

inductive Dialect where
  | sqlite
  | postgres
  | mysql
  deriving DecidableEq

inductive LogicalType where
  | varchar
  | text
  | integer
  | bigint
  | decimal
  | boolean
  | datetime
  | date
  | json
  | enum
  | blob
  | uuid
  | custom (declared : String)
  deriving DecidableEq

def LogicalType.name : LogicalType → String
  | .varchar => "varchar"
  | .text => "text"
  | .integer => "integer"
  | .bigint => "bigint"
  | .decimal => "decimal"
  | .boolean => "boolean"
  | .datetime => "datetime"
  | .date => "date"
  | .json => "json"
  | .enum => "enum"
  | .blob => "blob"
  | .uuid => "uuid"
  | .custom declared => "custom:" ++ declared

inductive Generated where
  | never
  | increment
  | identity
  | uuid
  deriving DecidableEq

inductive Default where
  | null
  | bool (b : Bool)
  | number (n : Rat)
  | string (s : String)
  deriving DecidableEq

structure ColumnSchema where
  columnName : String
  logicalType : LogicalType
  nullable : Bool
  primary : Bool
  generated : Generated
  unique : Bool
  length : Option Nat
  precision : Option Nat
  scale : Option Nat
  default : Option Default
  enumValues : Option (List String)
  array : Option Bool
  renamedFrom : Option String
  deriving DecidableEq

structure JoinTable where
  name : String
  joinColumn : String
  inverseJoinColumn : String
  referencedLogicalType : LogicalType
  inverseReferencedLogicalType : LogicalType
  deriving DecidableEq

structure RelationSchema where
  owner : Bool
  joinTable : Option JoinTable
  deriving DecidableEq

structure IndexSchema where
  name : String
  columns : List String
  unique : Bool
  deriving DecidableEq

structure EntitySchema where
  tableName : String
  renamedFrom : Option String
  columns : List ColumnSchema
  relations : List RelationSchema
  indexes : List IndexSchema
  deriving DecidableEq

structure OrmSchema where
  dialect : Option Dialect
  entities : List EntitySchema

inductive SchemaOperation where
  | createTable (entity : EntitySchema)
  | dropTable (tableName : String)
  | renameTable (source target : String)
  | addColumn (tableName : String) (column : ColumnSchema)
  | dropColumn (tableName columnName : String)
  | renameColumn (tableName source target : String)
  | alterColumn (tableName : String) (before after : ColumnSchema)
  | createIndex (tableName : String) (index : IndexSchema)
  | dropIndex (tableName indexName : String)
  deriving DecidableEq

/-! ## Section 2: The comparison of columns -/

def sqliteStorageType : LogicalType → String
  | .integer | .bigint | .boolean => "integer"
  | .decimal => "numeric"
  | .blob => "blob"
  | .custom declared =>
      let declared := declared.toLower
      let includes := fun part : String => declared.toList.tails.any part.toList.isPrefixOf
      if includes "int" then "integer"
      else if includes "char" || includes "clob" || includes "text" then "text"
      else if includes "blob" || declared.isEmpty then "blob"
      else if includes "real" || includes "floa" || includes "doub" then "real"
      else "numeric"
  | _ => "text"

def trim (s : String) : List Char :=
  ((s.toList.dropWhile JsString.isSpace).reverse.dropWhile JsString.isSpace).reverse

/-- The digits of `current_timestamp(…)` or `now(…)`, in lower case. -/
def precisionDigits (lower : List Char) : Option (List Char) :=
  let after := fun start : String =>
    if start.toList.isPrefixOf lower then some (lower.drop start.length) else none
  match ((after "current_timestamp(").or (after "now(")).map List.reverse with
  | some (')' :: digits) =>
      if !digits.isEmpty && digits.all Char.isDigit then some digits.reverse else none
  | _ => none

def normalizeDefault : Option Default → Option Default
  | some (.string value) =>
      let lower := (trim value).map Char.toLower
      if lower = "now()".toList ∨ lower = "current_timestamp".toList ∨
          lower = "transaction_timestamp()".toList then some (.string "CURRENT_TIMESTAMP")
      else
        match precisionDigits lower with
        | some digits => some (.string ("CURRENT_TIMESTAMP(" ++ String.ofList digits ++ ")"))
        | none => some (.string value)
  | value => value

def booleanDefault : Option Default → Option Default
  | some (.bool b) => some (.bool b)
  | some (.number n) =>
      if n = 1 then some (.bool true) else if n = 0 then some (.bool false) else some (.number n)
  | some (.string s) =>
      if s = "1" ∨ s.toLower = "true" then some (.bool true)
      else if s = "0" ∨ s.toLower = "false" then some (.bool false)
      else some (.string s)
  | value => value

def enforcesUnique (indexes : List IndexSchema) (column : ColumnSchema) : Bool :=
  column.unique || indexes.any fun index => index.unique && index.columns = [column.columnName]

/-- The object that is printed to compare columns. -/
structure ComparableColumn where
  logicalType : String
  nullable : Bool
  primary : Bool
  generated : Generated
  unique : Bool
  length : Option Nat
  precision : Option Nat
  scale : Option Nat
  default : Option Default
  enumValues : Option (List String)
  array : Option Bool
  deriving DecidableEq

def comparableColumn (column : ColumnSchema) (dialect : Option Dialect) (unique : Bool) :
    ComparableColumn :=
  let logicalType :=
    if dialect = some .sqlite then sqliteStorageType column.logicalType else column.logicalType.name
  let length :=
    if dialect = some .sqlite ∨ column.logicalType = .enum then none else column.length
  -- the database does not tell whether SQLite fills a rowid
  let generated :=
    if dialect = some .sqlite ∧ column.primary ∧ logicalType = "integer" ∧
        (column.generated = .never ∨ column.generated = .increment) then .never
    else column.generated
  let generated :=
    if dialect = some .postgres ∧ generated = .identity then .increment else generated
  let isUuid := dialect = some .mysql ∧ logicalType = "uuid"
  let logicalType' := if isUuid then "varchar" else logicalType
  let length := if isUuid then some (column.length.getD 36) else length
  let isDecimal := dialect = some .mysql ∧ logicalType' = "decimal"
  let normalizedDefault :=
    if column.logicalType = .boolean then booleanDefault column.default
    else normalizeDefault column.default
  { logicalType := logicalType'
    nullable := column.nullable
    primary := column.primary
    generated := generated
    unique := unique
    length := length
    precision := if isDecimal then some (column.precision.getD 10) else column.precision
    scale := if isDecimal then some (column.scale.getD 0) else column.scale
    default :=
      if dialect = some .mysql ∧ logicalType' = "datetime" ∧
          normalizedDefault = some (.string "CURRENT_TIMESTAMP(3)") then
        some (.string "CURRENT_TIMESTAMP")
      else normalizedDefault
    enumValues := column.enumValues
    array := column.array }

/-! ## Section 3: The operations -/

def findExistingEntity (existing : OrmSchema) (desired : EntitySchema) : Option EntitySchema :=
  existing.entities.find? fun entity =>
    entity.tableName = desired.tableName || some entity.tableName = desired.renamedFrom

def findExistingColumn (source : EntitySchema) (desiredColumn : ColumnSchema) : Option ColumnSchema :=
  source.columns.find? fun column =>
    column.columnName = desiredColumn.columnName || some column.columnName = desiredColumn.renamedFrom

/-- The join tables an entity owns. -/
def EntitySchema.ownedJoinTables (entity : EntitySchema) : List JoinTable :=
  entity.relations.filterMap fun relation => if relation.owner then relation.joinTable else none

def columnChanges (dialect : Option Dialect) (source target : EntitySchema)
    (existingColumn desiredColumn : ColumnSchema) : Bool :=
  comparableColumn existingColumn dialect (enforcesUnique source.indexes existingColumn) !=
    comparableColumn desiredColumn dialect (enforcesUnique target.indexes desiredColumn)

def diffColumn (dialect : Option Dialect) (source target : EntitySchema)
    (desiredColumn : ColumnSchema) : List SchemaOperation :=
  match findExistingColumn source desiredColumn with
  | none => [.addColumn target.tableName desiredColumn]
  | some existingColumn =>
      (if existingColumn.columnName ≠ desiredColumn.columnName then
        [.renameColumn target.tableName existingColumn.columnName desiredColumn.columnName]
      else []) ++
      if columnChanges dialect source target existingColumn desiredColumn then
        [.alterColumn target.tableName existingColumn desiredColumn]
      else []

def matchedColumns (source target : EntitySchema) : List String :=
  (target.columns.filterMap (findExistingColumn source)).map ColumnSchema.columnName

/-- `new Map(indexes.map((index) => [index.name, index]))`. -/
def indexesByName (indexes : List IndexSchema) : List (String × IndexSchema) :=
  indexes.foldl (fun entries index => Entries.set entries index.name index) []

def diffIndexes (source target : EntitySchema) : List SchemaOperation :=
  let desiredIndexes := indexesByName target.indexes
  let existingIndexes := indexesByName source.indexes
  (desiredIndexes.flatMap fun (name, index) =>
    match Entries.get existingIndexes name with
    | none => [.createIndex target.tableName index]
    | some previous =>
        if previous = index then []
        else [.dropIndex target.tableName name, .createIndex target.tableName index]) ++
  ((existingIndexes.map Prod.fst).filter fun name => (Entries.get desiredIndexes name).isNone).map
    fun name => .dropIndex target.tableName name

/-- What changes in a table once it has its name. -/
def diffTable (dialect : Option Dialect) (source target : EntitySchema) : List SchemaOperation :=
  target.columns.flatMap (diffColumn dialect source target) ++
  (source.columns.filter fun column => column.columnName ∉ matchedColumns source target).map
    (fun column => .dropColumn target.tableName column.columnName) ++
  diffIndexes source target

def diffEntity (dialect : Option Dialect) (existing : OrmSchema) (target : EntitySchema) :
    List SchemaOperation :=
  match findExistingEntity existing target with
  | none => [.createTable target]
  | some source =>
      (if source.tableName ≠ target.tableName then [.renameTable source.tableName target.tableName]
      else []) ++ diffTable dialect source target

def matchedTables (existing desired : OrmSchema) : List String :=
  (desired.entities.flatMap EntitySchema.ownedJoinTables).map JoinTable.name ++
    (desired.entities.filterMap (findExistingEntity existing)).map EntitySchema.tableName

/-- The tables that are dropped at the end. -/
def droppedTables (existing desired : OrmSchema) : List String :=
  (existing.entities.filter fun source => source.tableName ∉ matchedTables existing desired).map
    EntitySchema.tableName

def schemaOperations (existing desired : OrmSchema) : List SchemaOperation :=
  desired.entities.flatMap (diffEntity (existing.dialect.or desired.dialect) existing) ++
    (droppedTables existing desired).map .dropTable

/-- A missing length is no bound. -/
def shorter (after before : Option Nat) : Bool :=
  match after, before with
  | some after, some before => decide (after < before)
  | some _, none => true
  | none, _ => false

/-- The operations that are listed as destructive too. -/
def SchemaOperation.isDestructive : SchemaOperation → Bool
  | .alterColumn _ before after =>
      (before.nullable && !after.nullable) || before.logicalType != after.logicalType ||
        shorter after.length before.length
  | .dropColumn _ _ => true
  | .dropTable _ => true
  | _ => false

def describeOperation : SchemaOperation → String
  | .createTable entity => "create table " ++ entity.tableName
  | .dropTable tableName => "drop table " ++ tableName
  | .renameTable source target => "rename table " ++ source ++ " to " ++ target
  | .addColumn tableName column => "add " ++ tableName ++ "." ++ column.columnName
  | .dropColumn tableName columnName => "drop " ++ tableName ++ "." ++ columnName
  | .renameColumn tableName source target =>
      "rename " ++ tableName ++ "." ++ source ++ " to " ++ target
  | .alterColumn tableName _ after => "alter " ++ tableName ++ "." ++ after.columnName
  | .createIndex _ index => "create index " ++ index.name
  | .dropIndex _ indexName => "drop index " ++ indexName

structure SchemaDiff where
  operations : List SchemaOperation
  destructive : List SchemaOperation
  deriving DecidableEq

structure DestructiveSchemaChangeError where
  message : String
  deriving DecidableEq

def diffSchemas (existing desired : OrmSchema) (allowDestructive : Bool) :
    Except DestructiveSchemaChangeError SchemaDiff :=
  let operations := schemaOperations existing desired
  let destructive := operations.filter SchemaOperation.isDestructive
  if !destructive.isEmpty && !allowDestructive then
    .error ⟨"Schema diff contains destructive changes: " ++
      ", ".intercalate (destructive.map describeOperation) ++
      ". Re-run with --allow-destructive after review."⟩
  else .ok ⟨operations, destructive⟩

end Cossack.Database.Schema
