import Cossack.Lib.Deferred
import Cossack.Lib.Entries
import Mathlib

/-! # Saving entities

    `ORM.save` over a database of tables and a heap of entities, after
    `packages/database/src/orm.ts`.

    The methods of objects (lifecycle hooks, the `save` of a related object) are
    called by name, as in the source; `ORM.linked` gives registered entities the
    `save` of `BaseEntity`.  The database engine and the codec are parameters. -/

namespace Cossack.Database.EntitySaves

/-! ## Section 1: Values -/

/-- Integral numbers and `NaN`. -/
inductive Num where
  | nan
  | int (n : Int)
  deriving DecidableEq

/-- The double nearest to an integer, ties to even. -/
def nearestDouble (n : Int) : Int :=
  let m := n.natAbs
  let unit := 2 ^ (m.log2 + 1 - 53)
  let q := m / unit
  let r := m % unit
  let rounded := if unit < 2 * r ∨ (2 * r = unit ∧ q % 2 = 1) then q + 1 else q
  n.sign * (rounded * unit : Nat)

def Num.plusOne : Num → Num
  | .nan => .nan
  | .int n => .int (nearestDouble (n + 1))

/-- What a column property holds; `json` is an object or array, by its JSON text. -/
inductive Value where
  | undefined
  | null
  | boolean (b : Bool)
  | number (n : Num)
  | bigint (n : Int)
  | text (s : String)
  | date (time : Int)
  | bytes (b : List Nat)
  | json (text : String)
  deriving DecidableEq

/-- `value ?? other`. -/
def Value.orElse : Value → Value → Value
  | .undefined, other => other
  | .null, other => other
  | v, _ => v

/-- The parts of the language that depend on a text's characters. -/
structure Language where
  toISOString : Int → String
  /-- `Number` of a text or of an object. -/
  readNumber : Value → Num

/-- `Number(value)`. -/
def Language.number (js : Language) : Value → Num
  | .undefined => .nan
  | .null => .int 0
  | .boolean b => .int (if b then 1 else 0)
  | .number n => n
  | .bigint n => .int (nearestDouble n)
  | .date time => .int time
  | v => js.readNumber v

/-- `JSON.stringify` of an object. -/
def Language.objectText (js : Language) : Value → Option String
  | .date time => some ("\"" ++ js.toISOString time ++ "\"")
  | .bytes b =>
    some ("\x7b" ++ ",".intercalate (b.zipIdx.map fun p => "\"" ++ toString p.2 ++ "\":" ++ toString p.1)
      ++ "\x7d")
  | .json text => some text
  | _ => none

def Language.equalValue (js : Language) (left right : Value) : Bool :=
  match left, right with
  | .date a, .date b => a == b
  | .bytes a, .bytes b => a == b
  | left, right =>
    match js.objectText left, js.objectText right with
    | some a, some b => a == b
    | _, _ => left == right

/-! ## Section 2: Metadata -/

inductive Cascade where
  | insert
  | update
  deriving DecidableEq

inductive Generated where
  | increment
  | uuid
  deriving DecidableEq

structure ColumnMetadata where
  propertyName : String
  columnName : String
  primary : Bool
  insert : Bool
  update : Bool
  createDate : Bool
  updateDate : Bool
  version : Bool
  generated : Option Generated

structure JoinTable where
  name : String
  joinColumn : String
  referencedProperty : String
  inverseJoinColumn : String
  inverseReferencedProperty : String

structure RelationMetadata where
  propertyName : String
  cascade : List Cascade
  owner : Bool
  joinProperty : Option String
  referencedProperty : Option String
  joinTable : Option JoinTable

inductive LifecycleEvent where
  | beforeInsert
  | afterInsert
  | beforeUpdate
  | afterUpdate

structure EntityMetadata where
  modelName : String
  tableName : String
  columns : List ColumnMetadata
  relations : List RelationMetadata
  hooks : LifecycleEvent → List String

def EntityMetadata.primaryColumns (m : EntityMetadata) : List ColumnMetadata :=
  m.columns.filter (·.primary)

def EntityMetadata.columnByProperty (m : EntityMetadata) (property : String) :
    Option ColumnMetadata :=
  m.columns.reverse.find? (·.propertyName == property)

/-! ## Section 3: The database and the heap -/

abbrev Ref := Nat

abbrev Fields := String → Value

/-- The value of a relation property. -/
inductive Related where
  | absent
  | null
  | one (r : Ref)
  | many (rs : List Ref)

/-- What the ORM remembers of an entity; a property that is not a key of the snapshot
    has no value there. -/
structure EntityState where
  metadata : EntityMetadata
  original : String → Option Value
  isNew : Bool

abbrev Tables := String → List Fields

structure World where
  tables : Tables
  fields : Ref → Fields
  relations : Ref → String → Related
  states : Ref → Option EntityState

def World.setField (w : World) (e : Ref) (property : String) (v : Value) : World :=
  { w with fields := Function.update w.fields e (Function.update (w.fields e) property v) }

/-- `state.original[property]`. -/
def World.original (w : World) (e : Ref) (property : String) : Value :=
  match w.states e with
  | some state => (state.original property).getD .undefined
  | none => .undefined

inductive Cause where
  | configurationError (message : String)
  | unsupportedCapability (capability dialect : String)
  | queryError (message : String)
  /-- What user code, the codec or the engine throws. -/
  | thrown (what : String)

abbrev Values := List (String × Value)

inductive Statement where
  | update (table : String) (where_ set : Values)
  | insert (table : String) (values : Values) (returning : Bool)
  | deleteRows (table column : String) (key : Value)
  | insertRows (table : String) (rows : List Values)

def Statement.operation : Statement → String
  | .update .. => "update"
  | .insert .. => "insert"
  | .deleteRows .. => "delete"
  | .insertRows .. => "insert"

/-- How many parameters a statement binds. -/
def Statement.parameters : Statement → Nat
  | .update _ where_ set => set.length + where_.length
  | .insert _ values _ => values.length
  | .deleteRows _ _ _ => 1
  | .insertRows _ rows => (rows.map List.length).sum

structure Result where
  rows : List Fields
  rowsAffected : Option Nat
  lastInsertId : Option Value

structure Capabilities where
  transactions : Bool
  returning : Bool
  batch : Bool
  batchLimit : Nat
  parameterLimit : Nat

/-- A driver and the engine behind it. -/
structure Driver where
  dialect : String
  capabilities : Capabilities
  /-- Whether the driver has the methods `transaction` and `batch`. -/
  transaction : Bool
  batch : Bool
  reportsRowsAffected : Bool
  /-- Constraints, and whatever else makes the engine refuse a statement. -/
  refuses : Statement → Tables → Option Cause
  refusesCommit : Tables → Tables → Option Cause
  /-- The engine's `=`. -/
  equal : Value → Value → Bool
  /-- The row stored for an insert, its defaults filled in. -/
  stored : Tables → String → Values → Fields
  insertId : Tables → String → Values → Option Value

def Driver.selects (d : Driver) (where_ : Values) (row : Fields) : Bool :=
  where_.all fun c => d.equal (row c.1) c.2

def assign (row : Fields) (set : Values) : Fields :=
  set.foldl (fun row c => Function.update row c.1 c.2) row

/-- What a statement the engine accepts does to the tables. -/
def Driver.run (d : Driver) (tables : Tables) : Statement → Tables
  | .update table where_ set =>
    Function.update tables table
      ((tables table).map fun row => if d.selects where_ row then assign row set else row)
  | .insert table values _ =>
    Function.update tables table (tables table ++ [d.stored tables table values])
  | .deleteRows table column key =>
    Function.update tables table ((tables table).filter fun row => !d.equal (row column) key)
  | .insertRows table rows =>
    Function.update tables table (tables table ++ rows.map (d.stored tables table))

def Driver.result (d : Driver) (tables : Tables) : Statement → Result
  | .update table where_ _ =>
    ⟨[], if d.reportsRowsAffected then some ((tables table).countP (d.selects where_)) else none, none⟩
  | .insert table values returning =>
    ⟨if returning then [d.stored tables table values] else [], some 1,
      d.insertId tables table values⟩
  | .deleteRows table column key =>
    ⟨[], some ((tables table).countP fun row => d.equal (row column) key), none⟩
  | .insertRows _ rows => ⟨[], some rows.length, none⟩

/-! ## Section 4: Running statements -/

abbrev Task := Deferred World Cause

/-- An ORM, seen from inside a scope. -/
structure ORM where
  js : Language
  driver : Driver
  transactionDepth : Nat
  now : World → Int
  randomUUID : World → String
  encode : ColumnMetadata → Value → Except Cause Value
  decode : ColumnMetadata → Value → Except Cause Value
  /-- The constructor's name of an object, and its metadata where it is registered. -/
  constructorName : Ref → String
  metadataByTarget : Ref → Option EntityMetadata
  /-- The methods of an object, by name. -/
  method : Ref → String → Option (Task Unit)

namespace ORM

variable (orm : ORM)

/-- `cause instanceof QueryError ? cause : new QueryError(message)`. -/
def asQueryError (message : String) : Cause → Cause
  | .queryError m => .queryError m
  | _ => .queryError message

def executeFragment (statement : Statement) : Task Result := fun w =>
  if orm.driver.capabilities.parameterLimit < statement.parameters then
    .rejected (.unsupportedCapability "query parameter limit" orm.driver.dialect) w
  else
    match orm.driver.refuses statement w.tables with
    | some cause =>
      .rejected (asQueryError s!"Failed to execute {statement.operation} query." cause) w
    | none =>
      .resolved (orm.driver.result w.tables statement)
        { w with tables := orm.driver.run w.tables statement }

/-- `transaction(callback)` outside any transaction: the tables go back when it fails. -/
def transaction (callback : Task Unit) : Task Unit := fun w =>
  match callback w with
  | .resolved _ w' =>
    match orm.driver.refusesCommit w.tables w'.tables with
    | some cause => .rejected cause { w' with tables := w.tables }
    | none => .resolved () w'
  | .rejected cause w' => .rejected cause { w' with tables := w.tables }
  | .pending => .pending

def runAll (tables : Tables) : List Statement → Except Cause Tables
  | [] => .ok tables
  | statement :: rest =>
    match orm.driver.refuses statement tables with
    | some cause => .error cause
    | none => runAll (orm.driver.run tables statement) rest

/-- `driver.batch(statements)`: all of them or none. -/
def batch (statements : List Statement) : Task Unit := fun w =>
  match orm.runAll w.tables statements with
  | .ok tables => .resolved () { w with tables }
  | .error cause => .rejected (asQueryError "Failed to execute batch." cause) w

def sequential (statements : List Statement) : Task Unit :=
  Deferred.each (fun statement => do
    let _ ← orm.executeFragment statement
    pure ()) statements

def executeAtomically (statements : List Statement) : Task Unit :=
  let limits := orm.driver.capabilities
  if statements.length < 2 || 0 < orm.transactionDepth then orm.sequential statements
  else if limits.transactions && orm.driver.transaction then
    orm.transaction (orm.sequential statements)
  else if limits.batch && orm.driver.batch then
    if limits.batchLimit < statements.length then
      Deferred.throw (.unsupportedCapability
        s!"atomic batch of {statements.length} statements (limit {limits.batchLimit})"
        orm.driver.dialect)
    else if statements.any (limits.parameterLimit < ·.parameters) then
      Deferred.throw (.unsupportedCapability "query parameter limit" orm.driver.dialect)
    else orm.batch statements
  else orm.sequential statements

/-! ## Section 5: Join tables -/

def rowsPerStatement : Nat :=
  max 1 (min orm.driver.capabilities.batchLimit (orm.driver.capabilities.parameterLimit / 2))

/-- The `DELETE` of an owner's join rows and the `INSERT`s of its collection. -/
def joinStatements (w : World) (join : JoinTable) (ownerKey : Value) (related : List Ref) :
    List Statement :=
  let rows := related.map fun target =>
    [(join.joinColumn, ownerKey),
      (join.inverseJoinColumn, w.fields target join.inverseReferencedProperty)]
  .deleteRows join.name join.joinColumn ownerKey ::
    (rows.toChunks orm.rowsPerStatement).map (.insertRows join.name)

/-- The statements that replace the join rows of a relation, where it is to be synced. -/
def joinReplacement (w : World) (e : Ref) (operation : Cascade) (relation : RelationMetadata) :
    Option (List Statement) :=
  match relation.joinTable, w.relations e relation.propertyName with
  | some join, .many related =>
    let ownerKey := w.fields e join.referencedProperty
    if !relation.cascade.contains operation || ownerKey = .null || ownerKey = .undefined then none
    else some (orm.joinStatements w join ownerKey related)
  | _, _ => none

def syncJoinTables (e : Ref) (operation : Cascade) : List RelationMetadata → Bool → Task Bool
  | [], changed => pure changed
  | relation :: rest, changed => do
    let w ← Deferred.get
    match orm.joinReplacement w e operation relation with
    | none => syncJoinTables e operation rest changed
    | some statements => do
      orm.executeAtomically statements
      syncJoinTables e operation rest true

/-! ## Section 6: Hooks, cascades and relation columns -/

def invokeHooks (e : Ref) (m : EntityMetadata) (event : LifecycleEvent) : Task Unit :=
  Deferred.each (fun method =>
    match orm.method e method with
    | some callback => callback
    | none => pure ()) (m.hooks event)

def relatedObjects : Related → List Ref
  | .many rs => rs
  | .one r => [r]
  | .absent => []
  | .null => []

def saveCascades (e : Ref) (m : EntityMetadata) (operation : Cascade) : Task Unit :=
  Deferred.each (fun relation =>
    if relation.cascade.contains operation then do
      let w ← Deferred.get
      Deferred.each (fun related =>
        match orm.method related "save" with
        | some save => save
        | none => pure ()) (relatedObjects (w.relations e relation.propertyName))
    else pure ()) m.relations

/-- The key that a relation's value gives its join column, if it gives one. -/
def relatedKey (w : World) (e : Ref) (relation : RelationMetadata) (referenced : String) :
    Option Value :=
  match w.relations e relation.propertyName with
  | .null => some .null
  | .one r => if w.fields r referenced = .undefined then none else some (w.fields r referenced)
  | .absent => none
  | .many _ => none

/-- A join column changed by hand wins over a relation that still has the stored key. -/
def changedByHand (original : Option (String → Option Value)) (current key : Value)
    (joinProperty : String) : Bool :=
  match original.bind (· joinProperty) with
  | none => false
  | some stored =>
    !orm.js.equalValue current stored &&
      orm.js.equalValue (key.orElse .null) (stored.orElse .null)

def syncRelationColumn (e : Ref) (original : Option (String → Option Value)) (w : World)
    (relation : RelationMetadata) : World :=
  match relation.owner, relation.joinProperty, relation.referencedProperty with
  | true, some joinProperty, some referenced =>
    match relatedKey w e relation referenced with
    | none => w
    | some key =>
      if orm.changedByHand original (w.fields e joinProperty) key joinProperty then w
      else w.setField e joinProperty key
  | _, _, _ => w

def syncRelationColumns (e : Ref) (m : EntityMetadata)
    (original : Option (String → Option Value)) (w : World) : World :=
  m.relations.foldl (orm.syncRelationColumn e original) w

/-! ## Section 7: Rows of an entity -/

/-- `columns[property]` of a statement, refused where `allowed` says so. -/
def statementColumn (m : EntityMetadata) (allowed : ColumnMetadata → Bool)
    (refusal property : String) : Except Cause ColumnMetadata :=
  match m.columnByProperty property with
  | none => .error (.configurationError s!"Unknown property {m.modelName}.{property}.")
  | some column =>
    if allowed column then .ok column
    else .error (.configurationError s!"{m.modelName}.{property} {refusal}")

def encodeEntry (m : EntityMetadata) (entry : String × Value) : Except Cause (String × Value) :=
  match m.columnByProperty entry.1 with
  | none => .error (.configurationError s!"Unknown property {m.modelName}.{entry.1}.")
  | some column => (orm.encode column entry.2).map (column.columnName, ·)

/-- `model(target).update(where, values)` as a statement. -/
def updateStatement (m : EntityMetadata) (where_ values : Values) : Except Cause Statement :=
  if where_.isEmpty then
    .error (.configurationError
      (s!"{m.modelName}.update() requires a where clause with at least one condition. " ++
        s!"Use {m.modelName}.updateAll(values) to update every row."))
  else do
    let _ ← values.mapM fun entry => statementColumn m (·.update)
      "cannot be updated: its column is declared with update: false." entry.1
    if values.isEmpty then
      .error (.configurationError "update requires at least one column value.")
    else do
      let set ← values.mapM (orm.encodeEntry m)
      let conditions ← where_.mapM (orm.encodeEntry m)
      return .update m.tableName conditions set

def insertStatement (m : EntityMetadata) (values : Values) : Except Cause Statement := do
  let _ ← values.mapM fun entry => statementColumn m (·.insert)
    "cannot be inserted: its column is declared with insert: false." entry.1
  let encoded ← values.mapM (orm.encodeEntry m)
  return .insert m.tableName encoded orm.driver.capabilities.returning

def persistedValues (m : EntityMetadata) (fields : Fields) : Values :=
  (m.columns.filter (·.insert)).filterMap fun column =>
    if fields column.propertyName = .undefined then none
    else some (column.propertyName, fields column.propertyName)

def primaryWhere (m : EntityMetadata) (fields : Fields) : Except Cause Values :=
  m.primaryColumns.foldlM (fun where_ primary =>
    let value := fields primary.propertyName
    if value = .undefined ∨ value = .null then
      .error (.configurationError
        s!"{m.modelName}.{primary.propertyName} is required for this operation.")
    else .ok (Entries.set where_ primary.propertyName value)) []

def applyRow (e : Ref) (m : EntityMetadata) (row : Fields) : Task Unit :=
  Deferred.each (fun column =>
    let raw := (row column.columnName).orElse (row column.propertyName)
    if raw = .undefined then pure ()
    else do
      let value ← Deferred.ofExcept (orm.decode column raw)
      Deferred.modify (·.setField e column.propertyName value)) m.columns

def refreshSnapshot (e : Ref) (w : World) : World :=
  match w.states e with
  | none => w
  | some state =>
    let original := state.metadata.columns.foldl
      (fun (original : String → Option Value) column =>
        Function.update original column.propertyName (some (w.fields e column.propertyName)))
      state.original
    { w with states := Function.update w.states e (some { state with original }) }

def markSaved (e : Ref) (w : World) : World :=
  match w.states e with
  | none => w
  | some state => { w with states := Function.update w.states e (some { state with isNew := false }) }

/-! ## Section 8: Inserting -/

/-- The values a new entity is given before it is inserted. -/
def fillColumn (e : Ref) (now : Int) (uuid : String) (w : World) (column : ColumnMetadata) :
    World :=
  let fill (w : World) (v : Value) :=
    w.setField e column.propertyName ((w.fields e column.propertyName).orElse v)
  let dated := if column.createDate || column.updateDate then fill w (.date now) else w
  let versioned := if column.version then fill dated (.number (.int 1)) else dated
  if column.generated = some .uuid then fill versioned (.text uuid) else versioned

def fillColumns (e : Ref) (m : EntityMetadata) (w : World) : World :=
  m.columns.foldl (fillColumn e (orm.now w) (orm.randomUUID w)) w

/-- What the result of the `INSERT` says about the entity. -/
def applyInserted (e : Ref) (m : EntityMetadata) (result : Result) : Task Unit :=
  match result.rows, m.primaryColumns, result.lastInsertId with
  | row :: _, _, _ => orm.applyRow e m row
  | [], [primary], some id => do
    let value ← Deferred.ofExcept (orm.decode primary id)
    Deferred.modify (·.setField e primary.propertyName value)
  | [], _, _ => pure ()

def saveNew (e : Ref) (m : EntityMetadata) : Task Unit := do
  orm.invokeHooks e m .beforeInsert
  Deferred.modify (orm.fillColumns e m)
  orm.saveCascades e m .insert
  Deferred.modify (orm.syncRelationColumns e m none)
  let w ← Deferred.get
  let statement ← Deferred.ofExcept (orm.insertStatement m (persistedValues m (w.fields e)))
  let result ← orm.executeFragment statement
  orm.applyInserted e m result
  Deferred.modify (refreshSnapshot e ∘ markSaved e)
  let _ ← orm.syncJoinTables e .insert m.relations false
  orm.invokeHooks e m .afterInsert

/-! ## Section 9: Updating -/

/-- The updatable columns whose property is not what it was when loaded. -/
def changedColumns (e : Ref) (m : EntityMetadata) (w : World) : Values :=
  (m.columns.filter fun column =>
    column.update && !column.primary && !column.updateDate && !column.version).foldl
    (fun changes column =>
      let current := w.fields e column.propertyName
      if orm.js.equalValue current (w.original e column.propertyName) then changes
      else Entries.set changes column.propertyName current) []

/-- An update under way: what is to be written, and the heap as assigned so far. -/
structure Update where
  world : World
  changes : Values

/-- The relation columns synced, the changes taken and the update date assigned. -/
def stamped (e : Ref) (m : EntityMetadata) (w : World) : Update :=
  let synced := orm.syncRelationColumns e m ((w.states e).map (·.original)) w
  let changes := orm.changedColumns e m synced
  match m.columns.find? fun column => column.updateDate && column.update with
  | some updateDate =>
    if changes.isEmpty then ⟨synced, changes⟩
    else
      ⟨synced.setField e updateDate.propertyName (.date (orm.now synced)),
        Entries.set changes updateDate.propertyName (.date (orm.now synced))⟩
  | none => ⟨synced, changes⟩

def versionColumn (m : EntityMetadata) : Option ColumnMetadata :=
  m.columns.find? fun column => column.version && column.update

/-- `Number(state.original[version] ?? 1)`. -/
def oldVersion (e : Ref) (version : ColumnMetadata) (w : World) : Num :=
  orm.js.number ((w.original e version.propertyName).orElse (.number (.int 1)))

/-- The version condition and the version raised, where there is something to write. -/
def raised (e : Ref) (m : EntityMetadata) (where_ : Values) (u : Update) : Update × Values :=
  match versionColumn m with
  | some version =>
    if u.changes.isEmpty then (u, where_)
    else
      let old := orm.oldVersion e version u.world
      (⟨u.world.setField e version.propertyName (.number old.plusOne),
          Entries.set u.changes version.propertyName (.number old.plusOne)⟩,
        Entries.set where_ version.propertyName (.number old))
  | none => (u, where_)

/-- The assignments of an update, up to the first statement. -/
def prepare (e : Ref) (m : EntityMetadata) : Task (Values × Values) := fun w =>
  let u := orm.stamped e m w
  match primaryWhere m (u.world.fields e) with
  | .error cause => .rejected cause u.world
  | .ok where_ =>
    let (raised, where_) := orm.raised e m where_ u
    .resolved (where_, raised.changes) raised.world

def lockFailed (m : EntityMetadata) (result : Result) : Bool :=
  (versionColumn m).isSome && result.rowsAffected == some 0

def lockError (m : EntityMetadata) : Cause :=
  .queryError s!"Optimistic lock failed for {m.modelName}; the row was updated elsewhere."

/-- The `UPDATE` and what follows it. -/
def writeChanges (e : Ref) (m : EntityMetadata) (where_ changes : Values) : Task Unit := do
  let statement ← Deferred.ofExcept (orm.updateStatement m where_ changes)
  let result ← orm.executeFragment statement
  if lockFailed m result then Deferred.throw (lockError m)
  else do
    Deferred.modify (refreshSnapshot e)
    orm.invokeHooks e m .afterUpdate

def saveLoaded (e : Ref) (m : EntityMetadata) : Task Unit := do
  orm.invokeHooks e m .beforeUpdate
  orm.saveCascades e m .update
  let (where_, changes) ← orm.prepare e m
  let relationChanged ← orm.syncJoinTables e .update m.relations false
  if !changes.isEmpty then orm.writeChanges e m where_ changes
  else if relationChanged then orm.invokeHooks e m .afterUpdate
  else pure ()

/-! ## Section 10: Saving -/

def stateFor (e : Ref) : Task EntityState := fun w =>
  match w.states e, orm.metadataByTarget e with
  | some state, _ => .resolved state w
  | none, some metadata =>
    let state : EntityState := ⟨metadata, fun _ => none, true⟩
    .resolved state { w with states := Function.update w.states e (some state) }
  | none, none =>
    .rejected (.configurationError s!"{orm.constructorName e} is not a registered entity.") w

def save (e : Ref) : Task Unit := do
  let state ← orm.stateFor e
  if state.isNew then orm.saveNew e state.metadata else orm.saveLoaded e state.metadata

end ORM

/-- The ORM in which the `save` of a registered entity is that of the ORM itself, to a
    depth of nested saves; deeper ones do not settle. -/
def ORM.linked (orm : ORM) : Nat → ORM
  | 0 =>
    { orm with method := fun r name =>
        if name = "save" ∧ (orm.metadataByTarget r).isSome then some fun _ => .pending
        else orm.method r name }
  | depth + 1 =>
    { orm with method := fun r name =>
        if name = "save" ∧ (orm.metadataByTarget r).isSome then some ((orm.linked depth).save r)
        else orm.method r name }

end Cossack.Database.EntitySaves
