import Cossack.Database.SchemaDiff
import Cossack.Lib.Edits

/-! # Executing schema operations

    What an operation does to the structure of a database, in the order in which
    `renderOperation` and `createTableDDL` put its statements; whether a dialect
    can render an operation is left out.  A name is taken once, an index follows
    its columns when they are renamed, and a column of an index is not dropped. -/

namespace Cossack.Database.Schema

open Edits (Store)

/-! ## Section 1: Databases -/

structure Table where
  columns : Store String ColumnSchema
  indexes : List IndexSchema

abbrev Catalog := Store String Table

def Table.addColumn (t : Table) (column : ColumnSchema) : Option Table :=
  (Edits.insert t.columns column.columnName column).map fun columns => ⟨columns, t.indexes⟩

def Table.dropColumn (t : Table) (columnName : String) : Option Table :=
  if t.indexes.any fun index => columnName ∈ index.columns then none
  else (Edits.remove t.columns columnName).map fun columns => ⟨columns, t.indexes⟩

def IndexSchema.mapColumns (f : String → String) (index : IndexSchema) : IndexSchema :=
  { index with columns := index.columns.map f }

def Table.renameColumn (t : Table) (source target : String) : Option Table :=
  ((Edits.move t.columns source target).bind fun columns =>
      Edits.modify columns target fun column => some { column with columnName := target }).map
    fun columns =>
      ⟨columns, t.indexes.map (IndexSchema.mapColumns fun c => if source = c then target else c)⟩

def Table.alterColumn (t : Table) (after : ColumnSchema) : Option Table :=
  (Edits.modify t.columns after.columnName fun _ => some after).map fun columns =>
    ⟨columns, t.indexes⟩

def Table.createIndex (t : Table) (index : IndexSchema) : Option Table :=
  if (t.indexes.any fun other => other.name = index.name) ||
      index.columns.any fun column => (t.columns column).isNone then none
  else some { t with indexes := t.indexes ++ [index] }

def Table.dropIndex (t : Table) (indexName : String) : Option Table :=
  if t.indexes.any fun index => index.name = indexName then
    some { t with indexes := t.indexes.filter fun index => index.name ≠ indexName }
  else none

/-! ## Section 2: Operations -/

def Table.empty : Table := ⟨fun _ => none, []⟩

def createTable (db : Catalog) (tableName : String) (columns : List ColumnSchema) :
    Option Catalog :=
  (columns.foldlM Table.addColumn Table.empty).bind (Edits.insert db tableName)

def joinTableColumn (columnName : String) (logicalType : LogicalType) : ColumnSchema where
  columnName := columnName
  logicalType := logicalType
  nullable := false
  primary := true
  generated := .never
  unique := false
  length := if logicalType = .varchar then some 255 else none
  precision := none
  scale := none
  default := none
  enumValues := none
  array := none
  renamedFrom := none

def JoinTable.columns (join : JoinTable) : List ColumnSchema :=
  [joinTableColumn join.joinColumn join.referencedLogicalType,
    joinTableColumn join.inverseJoinColumn join.inverseReferencedLogicalType]

def execute (db : Catalog) : SchemaOperation → Option Catalog
  | .createTable entity => do
      let db ← createTable db entity.tableName entity.columns
      let db ← entity.indexes.foldlM
        (fun db index => Edits.modify db entity.tableName (·.createIndex index)) db
      entity.ownedJoinTables.foldlM (fun db join => createTable db join.name join.columns) db
  | .dropTable tableName => Edits.remove db tableName
  | .renameTable source target => Edits.move db source target
  | .addColumn tableName column => Edits.modify db tableName (·.addColumn column)
  | .dropColumn tableName columnName => Edits.modify db tableName (·.dropColumn columnName)
  | .renameColumn tableName source target =>
      Edits.modify db tableName (·.renameColumn source target)
  | .alterColumn tableName _ after => Edits.modify db tableName (·.alterColumn after)
  | .createIndex tableName index => Edits.modify db tableName (·.createIndex index)
  | .dropIndex tableName indexName => Edits.modify db tableName (·.dropIndex indexName)

def executeAll (operations : List SchemaOperation) (db : Catalog) : Option Catalog :=
  operations.foldlM execute db

/-! ## Section 3: What a database has -/

def JoinTable.entity (join : JoinTable) : EntitySchema where
  tableName := join.name
  renamedFrom := none
  columns := join.columns
  relations := []
  indexes := []

/-- The tables of a schema: each entity with the join tables it owns. -/
def OrmSchema.tables (s : OrmSchema) : List EntitySchema :=
  s.entities.flatMap fun entity => entity :: entity.ownedJoinTables.map JoinTable.entity

def EntitySchema.columnNames (entity : EntitySchema) : List String :=
  entity.columns.map ColumnSchema.columnName

def OrmSchema.tableNames (s : OrmSchema) : List String := s.tables.map EntitySchema.tableName

def EntitySchema.table (entity : EntitySchema) : Table where
  columns := Edits.byKey ColumnSchema.columnName entity.columns
  indexes := entity.indexes

def OrmSchema.catalog (s : OrmSchema) : Catalog := fun name =>
  (Edits.byKey EntitySchema.tableName s.tables name).map EntitySchema.table

/-- The names in an entity are distinct, as those in a table are. -/
structure EntitySchema.Distinct (entity : EntitySchema) : Prop where
  columns : entity.columnNames.Nodup
  indexes : (entity.indexes.map IndexSchema.name).Nodup

/-- A table has exactly the columns and indexes of an entity, up to what the
    comparison of columns covers. -/
structure EntitySchema.Agrees (dialect : Option Dialect) (entity : EntitySchema) (t : Table) : Prop where
  distinct : entity.Distinct
  column : ∀ column ∈ entity.columns, ∃ held, t.columns column.columnName = some held ∧
    comparableColumn held dialect (enforcesUnique t.indexes held) =
      comparableColumn column dialect (enforcesUnique entity.indexes column)
  only : ∀ name, t.columns name ≠ none → name ∈ entity.columnNames
  index : ∀ index, index ∈ t.indexes ↔ index ∈ entity.indexes

/-- A database has exactly the tables of a schema, each under its own name. -/
structure Holds (dialect : Option Dialect) (s : OrmSchema) (db : Catalog) : Prop where
  distinct : s.tableNames.Nodup
  table : ∀ entity ∈ s.tables, ∃ t, db entity.tableName = some t ∧ entity.Agrees dialect t
  only : ∀ name, db name ≠ none → name ∈ s.tableNames

/-- What the metadata checks: the tables of the entities have distinct names, so
    have the columns of an entity, and an index is on columns of its entity. -/
structure OrmSchema.Accepted (s : OrmSchema) : Prop where
  tables : (s.entities.map EntitySchema.tableName).Nodup
  columns : ∀ entity ∈ s.entities, entity.columnNames.Nodup
  indexes : ∀ entity ∈ s.entities, ∀ index ∈ entity.indexes, ∀ column ∈ index.columns,
    column ∈ entity.columnNames

/-- There is a database with these tables. -/
structure OrmSchema.Stored (s : OrmSchema) : Prop where
  tables : s.tableNames.Nodup
  distinct : ∀ entity ∈ s.tables, entity.Distinct

end Cossack.Database.Schema
