import Mathlib.Data.List.Pairwise
import Cossack.Database.SchemaTables

/-! # The schema diff is complete

    When the operations of a diff turn a database that has the existing schema
    into one that has the desired schema. -/

namespace Cossack.Database.Schema

open Edits (Store Step)

/-! ## Section 1: New tables -/

theorem addColumns (held rest : List ColumnSchema) (indexes : List IndexSchema)
    (hheld : (held.map ColumnSchema.columnName).Nodup) :
    rest.foldlM Table.addColumn ⟨Edits.byKey ColumnSchema.columnName held, indexes⟩ =
      if ((held ++ rest).map ColumnSchema.columnName).Nodup then
        some ⟨Edits.byKey ColumnSchema.columnName (held ++ rest), indexes⟩
      else none := by
  induction rest generalizing held with
  | nil =>
    rw [List.append_nil, if_pos hheld]
    rfl
  | cons column rest ih =>
    show ((Edits.insert (Edits.byKey ColumnSchema.columnName held) column.columnName column).map
      (Table.mk · indexes)).bind (rest.foldlM Table.addColumn) = _
    cases hname : Edits.byKey ColumnSchema.columnName held column.columnName with
    | some other =>
      have hmem := Edits.byKey_ne_none.mp (hname ▸ Option.some_ne_none other)
      rw [if_neg]
      · rw [show Edits.insert _ _ _ = none from if_neg (by simp [hname])]
        rfl
      · rw [List.map_append, List.map_cons]
        intro hnodup
        exact (List.nodup_append.mp hnodup).2.2 _ hmem _ (List.mem_cons_self ..) rfl
    | none =>
      rw [Edits.insert_eq_some.mpr ⟨hname, rfl⟩, Option.map_some, Option.bind_some,
        ← Edits.byKey_append hname, ih, List.append_assoc]
      · rfl
      · rw [List.map_append]
        refine List.Nodup.append hheld (List.nodup_singleton _) ?_
        simpa using fun other hmem heq => Edits.byKey_eq_none.mp hname other hmem heq

theorem createTable_eq_some {db db' : Catalog} {tableName : String} {columns : List ColumnSchema} :
    createTable db tableName columns = some db' ↔ (columns.map ColumnSchema.columnName).Nodup ∧
      Edits.insert db tableName ⟨Edits.byKey ColumnSchema.columnName columns, []⟩ = some db' := by
  unfold createTable
  rw [show columns.foldlM Table.addColumn Table.empty = _ from addColumns [] columns [] List.nodup_nil]
  rw [List.nil_append]
  by_cases hnodup : (columns.map ColumnSchema.columnName).Nodup
  · rw [if_pos hnodup]
    exact (and_iff_right hnodup).symm
  · rw [if_neg hnodup]
    exact ⟨nofun, fun h => absurd h.1 hnodup⟩

theorem createIndexes (tableName : String) (held rest : List IndexSchema) (columns : Store String ColumnSchema)
    (hheld : IndexNames held)
    (hcolumns : ∀ index ∈ rest, ∀ column ∈ index.columns, columns column ≠ none) {t : Table} :
    editAll (rest.map (.createIndex tableName)) ⟨columns, held⟩ = some t ↔
      IndexNames (held ++ rest) ∧ t = ⟨columns, held ++ rest⟩ := by
  induction rest generalizing held with
  | nil =>
    rw [List.append_nil]
    exact ⟨fun h => ⟨hheld, (Option.some.inj h).symm⟩, fun h => congrArg some h.2.symm⟩
  | cons index rest ih =>
    rw [List.map_cons, editAll_cons]
    show ((⟨columns, held⟩ : Table).createIndex index).bind _ = some t ↔ _
    cases hname : byName held index.name with
    | some other =>
      have hnone : (⟨columns, held⟩ : Table).createIndex index = none := by
        obtain ⟨hmem, heq⟩ := Edits.byKey_some hname
        exact if_pos (Bool.or_eq_true_iff.mpr (.inl (List.any_eq_true.mpr ⟨other, hmem, decide_eq_true heq⟩)))
      rw [hnone]
      refine ⟨nofun, fun h => absurd h.1 fun hnodup => ?_⟩
      unfold IndexNames at hnodup
      rw [List.map_append, List.map_cons] at hnodup
      exact (List.nodup_append.mp hnodup).2.2 _
        (byName_ne_none.mp (hname ▸ Option.some_ne_none other)) _ (List.mem_cons_self ..) rfl
    | none =>
      obtain ⟨t', hcreate, hcols, hnames, -⟩ := createIndex_of (t := ⟨columns, held⟩) index hheld hname
        (hcolumns index (List.mem_cons_self ..))
      have ht' : t' = ⟨columns, held ++ [index]⟩ := by
        unfold Table.createIndex at hcreate
        split at hcreate
        · cases hcreate
        · exact (Option.some.inj hcreate).symm
      subst ht'
      rw [hcreate, Option.bind_some, ih (held ++ [index]) hnames fun other hother =>
        hcolumns other (List.mem_cons_of_mem _ hother), List.append_assoc]
      rfl

/-- The steps that make the tables of an entity. -/
def makeSteps (entity : EntitySchema) : List (Step String Table) :=
  (entity :: entity.ownedJoinTables.map JoinTable.entity).map fun entity =>
    .make entity.tableName entity.table

theorem createJoinTables {joins : List JoinTable} {db db' : Catalog} :
    joins.foldlM (fun db join => createTable db join.name join.columns) db = some db' ↔
      (∀ entity ∈ joins.map JoinTable.entity, entity.Distinct) ∧
        Edits.run ((joins.map JoinTable.entity).map fun entity =>
          Step.make entity.tableName entity.table) db = some db' := by
  induction joins generalizing db with
  | nil => exact ⟨fun h => ⟨nofun, h⟩, fun h => h.2⟩
  | cons join rest ih =>
    show (createTable db join.name join.columns).bind _ = some db' ↔ _ ∧
      (Edits.insert db join.name join.entity.table).bind _ = some db'
    rw [Option.bind_eq_some_iff, Option.bind_eq_some_iff, List.map_cons, List.forall_mem_cons]
    constructor
    · rintro ⟨next, hcreate, hrest⟩
      obtain ⟨hnodup, hinsert⟩ := createTable_eq_some.mp hcreate
      obtain ⟨hdistinct, hrun⟩ := ih.mp hrest
      exact ⟨⟨⟨hnodup, List.nodup_nil⟩, hdistinct⟩, next, hinsert, hrun⟩
    · rintro ⟨⟨hhead, hdistinct⟩, next, hinsert, hrun⟩
      exact ⟨next, createTable_eq_some.mpr ⟨hhead.columns, hinsert⟩, ih.mpr ⟨hdistinct, hrun⟩⟩

/-- A new entity has its own table and its join tables. -/
theorem execute_createTable {entity : EntitySchema}
    (hindexed : ∀ index ∈ entity.indexes, ∀ column ∈ index.columns, column ∈ entity.columnNames)
    {db db' : Catalog} :
    execute db (.createTable entity) = some db' ↔
      (∀ table ∈ entity :: entity.ownedJoinTables.map JoinTable.entity, table.Distinct) ∧
        Edits.run (makeSteps entity) db = some db' := by
  show (createTable db entity.tableName entity.columns).bind (fun db => Option.bind _ _) = some db' ↔ _ ∧
    (Edits.insert db entity.tableName entity.table).bind _ = some db'
  rw [Option.bind_eq_some_iff, Option.bind_eq_some_iff, List.forall_mem_cons]
  -- the indexes are created on the table that was just made
  have hindexes : ∀ db next : Catalog,
      Edits.insert db entity.tableName ⟨Edits.byKey ColumnSchema.columnName entity.columns, []⟩ = some next →
      ∀ after, entity.indexes.foldlM
          (fun db index => Edits.modify db entity.tableName (·.createIndex index)) next = some after ↔
        IndexNames entity.indexes ∧ Edits.insert db entity.tableName entity.table = some after := by
    intro db next hinsert after
    obtain ⟨hfree, rfl⟩ := Edits.insert_eq_some.mp hinsert
    have honTable : ∀ operation ∈ entity.indexes.map (SchemaOperation.createIndex entity.tableName),
        operation.OnTable entity.tableName := by
      intro operation hmem
      obtain ⟨index, -, rfl⟩ := List.mem_map.mp hmem
      exact fun db => rfl
    have hfold : ∀ db : Catalog, entity.indexes.foldlM
        (fun db index => Edits.modify db entity.tableName (·.createIndex index)) db =
          executeAll (entity.indexes.map (.createIndex entity.tableName)) db := by
      intro db
      unfold executeAll
      rw [List.foldlM_map]
      rfl
    have hcreate := fun t => createIndexes entity.tableName [] entity.indexes
      entity.table.columns List.nodup_nil
      (fun index hindex column hcolumn => Edits.byKey_ne_none.mpr (hindexed index hindex column hcolumn))
      (t := t)
    rw [hfold, executeAll_onTable honTable, Edits.insert_eq_some, and_iff_right hfree]
    by_cases hnil : entity.indexes.map (SchemaOperation.createIndex entity.tableName) = []
    · have hempty : entity.table = ⟨Edits.byKey ColumnSchema.columnName entity.columns, []⟩ := by
        unfold EntitySchema.table
        rw [List.map_eq_nil_iff.mp hnil]
      rw [if_pos hnil, hempty, List.map_eq_nil_iff.mp hnil]
      exact ⟨fun h => ⟨List.nodup_nil, (Option.some.inj h).symm⟩, fun h => congrArg some h.2.symm⟩
    · rw [if_neg hnil, Edits.modify_eq_some]
      constructor
      · rintro ⟨bare, made, hbare, hmade, rfl⟩
        rw [Function.update_self] at hbare
        obtain rfl := Option.some.inj hbare
        obtain ⟨hnames, rfl⟩ := (hcreate made).mp hmade
        exact ⟨hnames, Function.update_idem ..⟩
      · rintro ⟨hnames, rfl⟩
        refine ⟨_, entity.table, Function.update_self .., (hcreate _).mpr ⟨hnames, rfl⟩, ?_⟩
        rw [Function.update_idem]
  constructor
  · rintro ⟨next, hcreate, hrest⟩
    obtain ⟨hnodup, hinsert⟩ := createTable_eq_some.mp hcreate
    obtain ⟨after, hafter, hjoins⟩ := Option.bind_eq_some_iff.mp hrest
    obtain ⟨hnames, hmade⟩ := (hindexes db next hinsert after).mp hafter
    obtain ⟨hdistinct, hrun⟩ := createJoinTables.mp hjoins
    exact ⟨⟨⟨hnodup, hnames⟩, hdistinct⟩, after, hmade, hrun⟩
  · rintro ⟨⟨hhead, hdistinct⟩, after, hmade, hrun⟩
    have hbare : ∃ next, Edits.insert db entity.tableName
        ⟨Edits.byKey ColumnSchema.columnName entity.columns, []⟩ = some next :=
      ⟨_, Edits.insert_eq_some.mpr ⟨(Edits.insert_eq_some.mp hmade).1, rfl⟩⟩
    obtain ⟨next, hinsert⟩ := hbare
    refine ⟨next, createTable_eq_some.mpr ⟨hhead.columns, hinsert⟩, Option.bind_eq_some_iff.mpr ⟨after, ?_, ?_⟩⟩
    · exact (hindexes db next hinsert after).mpr ⟨hhead.indexes, hmade⟩
    · exact createJoinTables.mpr ⟨hdistinct, hrun⟩

/-! ## Section 2: The tables of a database -/

/-- What happens to the table of a desired entity. -/
def entitySteps (dialect : Option Dialect) (existing : OrmSchema) (target : EntitySchema) :
    List (Step String Table) :=
  match findExistingEntity existing target with
  | none => makeSteps target
  | some source =>
      [.reuse source.tableName target.tableName
        (if diffTable dialect source target = [] then none
        else some (editAll (diffTable dialect source target)))]

theorem entitySteps_none {dialect : Option Dialect} {existing : OrmSchema} {target : EntitySchema}
    (h : findExistingEntity existing target = none) :
    entitySteps dialect existing target = makeSteps target := by
  unfold entitySteps
  rw [h]

theorem entitySteps_some {dialect : Option Dialect} {existing : OrmSchema} {target source : EntitySchema}
    (h : findExistingEntity existing target = some source) :
    entitySteps dialect existing target =
      [.reuse source.tableName target.tableName
        (if diffTable dialect source target = [] then none
        else some (editAll (diffTable dialect source target)))] := by
  unfold entitySteps
  rw [h]

theorem mem_diffTable_onTable {dialect : Option Dialect} {source target : EntitySchema}
    {operation : SchemaOperation} (h : operation ∈ diffTable dialect source target) :
    operation.OnTable target.tableName := by
  rw [diffTable_eq] at h
  rcases List.mem_append.mp h with hcolumn | h
  · obtain ⟨column, -, hmem⟩ := List.mem_flatMap.mp hcolumn
    cases hfind : findExistingColumn source column with
    | none =>
      rw [diffColumn_none hfind] at hmem
      obtain rfl := List.mem_singleton.mp hmem
      exact fun db => rfl
    | some existing =>
      rw [diffColumn_some hfind] at hmem
      rcases List.mem_append.mp hmem with hmem | hmem
      · split at hmem
        · obtain rfl := List.mem_singleton.mp hmem
          exact fun db => rfl
        · cases hmem
      · split at hmem
        · obtain rfl := List.mem_singleton.mp hmem
          exact fun db => rfl
        · cases hmem
  · rcases List.mem_append.mp h with hdrop | hindex
    · obtain ⟨column, -, rfl⟩ := List.mem_map.mp hdrop
      exact fun db => rfl
    · rcases mem_diffIndexes hindex with ⟨index, rfl⟩ | ⟨name, rfl⟩
      · exact fun db => rfl
      · exact fun db => rfl

/-- The names in the tables that are made for an entity are distinct. -/
def MadeDistinct (existing : OrmSchema) (target : EntitySchema) : Prop :=
  findExistingEntity existing target = none →
    ∀ table ∈ target :: target.ownedJoinTables.map JoinTable.entity, table.Distinct

/-- The operations of an entity are steps on the tables. -/
theorem executeAll_diffEntity (dialect : Option Dialect) (existing : OrmSchema) {target : EntitySchema}
    (hindexed : ∀ index ∈ target.indexes, ∀ column ∈ index.columns, column ∈ target.columnNames)
    {db db' : Catalog} :
    executeAll (diffEntity dialect existing target) db = some db' ↔
      MadeDistinct existing target ∧ Edits.run (entitySteps dialect existing target) db = some db' := by
  unfold diffEntity MadeDistinct
  cases hfind : findExistingEntity existing target with
  | none =>
    rw [entitySteps_none hfind, imp_iff_right rfl, ← execute_createTable hindexed]
    show (execute db (.createTable target)).bind some = some db' ↔ _
    rw [Option.bind_fun_some]
  | some source =>
    rw [entitySteps_some hfind]
    have hsteps : executeAll ((if source.tableName ≠ target.tableName then
        [.renameTable source.tableName target.tableName] else []) ++ diffTable dialect source target) db =
        Edits.run [.reuse source.tableName target.tableName
          (if diffTable dialect source target = [] then none
          else some (editAll (diffTable dialect source target)))] db := by
      have htable : ∀ db, executeAll (diffTable dialect source target) db =
          Edits.touch db target.tableName (if diffTable dialect source target = [] then none
            else some (editAll (diffTable dialect source target))) := by
        intro db
        rw [executeAll_onTable fun operation hmem => mem_diffTable_onTable hmem]
        by_cases hnil : diffTable dialect source target = []
        · rw [if_pos hnil, if_pos hnil]
          rfl
        · rw [if_neg hnil, if_neg hnil]
          rfl
      show _ = ((if source.tableName = target.tableName then some db else
        Edits.move db source.tableName target.tableName).bind _).bind some
      rw [executeAll_append, Option.bind_fun_some]
      by_cases hname : source.tableName = target.tableName
      · rw [if_neg (not_not.mpr hname), if_pos hname]
        exact htable db
      · rw [if_pos hname, if_neg hname]
        show ((Edits.move db source.tableName target.tableName).bind some).bind _ = _
        rw [Option.bind_fun_some]
        exact congrArg _ (funext htable)
    rw [hsteps]
    exact (and_iff_right nofun).symm

theorem executeAll_diffEntities (dialect : Option Dialect) (existing : OrmSchema) {targets : List EntitySchema}
    (hindexed : ∀ target ∈ targets, ∀ index ∈ target.indexes, ∀ column ∈ index.columns,
      column ∈ target.columnNames) {db db' : Catalog} :
    executeAll (targets.flatMap (diffEntity dialect existing)) db = some db' ↔
      (∀ target ∈ targets, MadeDistinct existing target) ∧
        Edits.run (targets.flatMap (entitySteps dialect existing)) db = some db' := by
  induction targets generalizing db with
  | nil => exact ⟨fun h => ⟨nofun, h⟩, fun h => h.2⟩
  | cons target rest ih =>
    have hrest : ∀ next, executeAll (rest.flatMap (diffEntity dialect existing)) next = some db' ↔ _ :=
      fun next => ih fun other hother => hindexed other (List.mem_cons_of_mem _ hother)
    have hhead : ∀ next, executeAll (diffEntity dialect existing target) db = some next ↔ _ :=
      fun next => executeAll_diffEntity dialect existing (hindexed target (List.mem_cons_self ..))
    rw [List.flatMap_cons, List.flatMap_cons, executeAll_append, Edits.run_append,
      Option.bind_eq_some_iff, Option.bind_eq_some_iff, List.forall_mem_cons]
    simp only [hhead, hrest]
    constructor
    · rintro ⟨next, ⟨hdistinct, hrun⟩, hdistincts, hruns⟩
      exact ⟨⟨hdistinct, hdistincts⟩, next, hrun, hruns⟩
    · rintro ⟨⟨hdistinct, hdistincts⟩, next, hrun, hruns⟩
      exact ⟨next, ⟨hdistinct, hrun⟩, hdistincts, hruns⟩

theorem executeAll_dropTables (names : List String) (db : Catalog) :
    executeAll (names.map .dropTable) db = Edits.removeAll names db := by
  induction names generalizing db with
  | nil => rfl
  | cons name rest ih => exact congrArg _ (funext ih)

/-- The steps on the tables of a database. -/
def tableSteps (existing desired : OrmSchema) : List (Step String Table) :=
  desired.entities.flatMap (entitySteps (existing.dialect.or desired.dialect) existing)

theorem executeAll_schemaOperations (existing : OrmSchema) {desired : OrmSchema} (hdesired : desired.Accepted)
    {db db' : Catalog} :
    executeAll (schemaOperations existing desired) db = some db' ↔
      (∀ target ∈ desired.entities, MadeDistinct existing target) ∧
        ∃ edited, Edits.run (tableSteps existing desired) db = some edited ∧
          Edits.removeAll (droppedTables existing desired) edited = some db' := by
  unfold schemaOperations tableSteps
  rw [executeAll_append, Option.bind_eq_some_iff]
  simp only [executeAll_diffEntities _ existing hdesired.indexes, executeAll_dropTables]
  constructor
  · rintro ⟨edited, ⟨hdistinct, hrun⟩, hremove⟩
    exact ⟨hdistinct, edited, hrun, hremove⟩
  · rintro ⟨hdistinct, edited, hrun, hremove⟩
    exact ⟨edited, ⟨hdistinct, hrun⟩, hremove⟩

/-! ## Section 3: Names -/

/-- The names of the tables that are edited, each with the one it comes from. -/
def tablePairs (existing desired : OrmSchema) : List (String × Option String) :=
  desired.entities.flatMap fun target =>
    match findExistingEntity existing target with
    | none => (target :: target.ownedJoinTables.map JoinTable.entity).map fun table =>
        (table.tableName, none)
    | some source => [(target.tableName, some source.tableName)]

/-- The tables that are found for desired ones. -/
def matchedSources (existing desired : OrmSchema) : List String :=
  (desired.entities.filterMap (findExistingEntity existing)).map EntitySchema.tableName

theorem mem_matchedSources {existing desired : OrmSchema} {name : String} :
    name ∈ matchedSources existing desired ↔ ∃ target ∈ desired.entities, ∃ source,
      findExistingEntity existing target = some source ∧ source.tableName = name := by
  unfold matchedSources
  simp only [List.mem_map, List.mem_filterMap]
  constructor
  · rintro ⟨source, ⟨target, hmem, hfind⟩, rfl⟩
    exact ⟨target, hmem, source, hfind, rfl⟩
  · rintro ⟨target, hmem, source, hfind, rfl⟩
    exact ⟨source, ⟨target, hmem, hfind⟩, rfl⟩

theorem mem_tables {s : OrmSchema} {table : EntitySchema} :
    table ∈ s.tables ↔ ∃ entity ∈ s.entities,
      table ∈ entity :: entity.ownedJoinTables.map JoinTable.entity := List.mem_flatMap

section names

variable {existing desired : OrmSchema}

theorem tableSteps_pair : (tableSteps existing desired).map Step.pair = tablePairs existing desired := by
  unfold tableSteps tablePairs
  rw [List.map_flatMap]
  congr 1
  funext target
  cases hfind : findExistingEntity existing target with
  | none =>
    rw [entitySteps_none hfind]
    exact List.map_map ..
  | some source =>
    rw [entitySteps_some hfind]
    rfl

theorem tablePairs_sources :
    (tablePairs existing desired).filterMap Prod.snd = matchedSources existing desired := by
  unfold tablePairs matchedSources
  induction desired.entities with
  | nil => rfl
  | cons target rest ih =>
    rw [List.flatMap_cons, List.filterMap_append, ih]
    cases hfind : findExistingEntity existing target with
    | none =>
      rw [List.filterMap_cons_none hfind, List.filterMap_map]
      simp
    | some source =>
      rw [List.filterMap_cons_some hfind]
      rfl

theorem tablePairs_names :
    ((tablePairs existing desired).map Prod.fst).Sublist desired.tableNames := by
  unfold tablePairs OrmSchema.tableNames OrmSchema.tables
  induction desired.entities with
  | nil => exact .slnil
  | cons target rest ih =>
    rw [List.flatMap_cons, List.flatMap_cons, List.map_append, List.map_append]
    refine List.Sublist.append ?_ ih
    cases findExistingEntity existing target with
    | none =>
      rw [List.map_map]
      exact List.Sublist.refl _
    | some source => exact List.singleton_sublist.mpr (List.mem_cons_self ..)

theorem tableSteps_names :
    Edits.names (tableSteps existing desired) = (tablePairs existing desired).map Prod.fst := by
  rw [← tableSteps_pair, List.map_map]
  rfl

theorem tableSteps_sources :
    Edits.sources (tableSteps existing desired) = matchedSources existing desired := by
  rw [← Edits.sources_pair, tableSteps_pair, tablePairs_sources]

theorem tableNames_eq (s : OrmSchema) : s.tableNames =
    s.entities.flatMap fun entity => entity.tableName :: entity.ownedJoinTables.map JoinTable.name := by
  unfold OrmSchema.tableNames OrmSchema.tables
  rw [List.map_flatMap]
  congr 1
  funext entity
  rw [List.map_cons, List.map_map]
  rfl

theorem join_mem_tables {s : OrmSchema} {owner : EntitySchema} (howner : owner ∈ s.entities)
    {join : JoinTable} (hjoin : join ∈ owner.ownedJoinTables) : join.entity ∈ s.tables :=
  mem_tables.mpr ⟨owner, howner, List.mem_cons_of_mem _ (List.mem_map_of_mem hjoin)⟩

theorem entity_mem_tables {s : OrmSchema} {entity : EntitySchema} (h : entity ∈ s.entities) :
    entity ∈ s.tables := mem_tables.mpr ⟨entity, h, List.mem_cons_self ..⟩

/-- A name belongs to one entity, and not both to it and to a join table of it. -/
theorem owner_unique {s : OrmSchema} (h : s.tableNames.Nodup) {owner other : EntitySchema}
    (howner : owner ∈ s.entities) (hother : other ∈ s.entities) {name : String}
    (hname : name ∈ owner.tableName :: owner.ownedJoinTables.map JoinTable.name)
    (hname' : name ∈ other.tableName :: other.ownedJoinTables.map JoinTable.name) : owner = other := by
  rw [tableNames_eq, List.nodup_flatMap] at h
  by_contra hne
  have : Std.Symm (Function.onFun List.Disjoint fun entity : EntitySchema =>
      entity.tableName :: entity.ownedJoinTables.map JoinTable.name) :=
    ⟨fun _ _ hdisjoint _ hleft hright => hdisjoint hright hleft⟩
  exact h.2.forall howner hother hne hname hname'

theorem join_ne_entity {s : OrmSchema} (h : s.tableNames.Nodup) {owner entity : EntitySchema}
    (howner : owner ∈ s.entities) (hentity : entity ∈ s.entities) {join : JoinTable}
    (hjoin : join ∈ owner.ownedJoinTables) : join.name ≠ entity.tableName := by
  intro heq
  have hmem : join.name ∈ owner.tableName :: owner.ownedJoinTables.map JoinTable.name :=
    List.mem_cons_of_mem _ (List.mem_map_of_mem hjoin)
  obtain rfl := owner_unique h howner hentity hmem (heq ▸ List.mem_cons_self ..)
  rw [tableNames_eq, List.nodup_flatMap] at h
  exact (List.nodup_cons.mp (h.1 owner howner)).1 (heq ▸ List.mem_map_of_mem hjoin)

/-- The join tables of an entity that is found are not edited. -/
theorem join_not_edited (existing : OrmSchema) (h : desired.tableNames.Nodup) {target source : EntitySchema}
    (htarget : target ∈ desired.entities) (hfind : findExistingEntity existing target = some source)
    {join : JoinTable} (hjoin : join ∈ target.ownedJoinTables) :
    join.name ∉ Edits.names (tableSteps existing desired) := by
  intro hmem
  rw [tableSteps_names] at hmem
  obtain ⟨pair, hpair, hname⟩ := List.mem_map.mp hmem
  obtain ⟨other, hother, hpair⟩ := List.mem_flatMap.mp hpair
  have hjoinName : join.name ∈ target.tableName :: target.ownedJoinTables.map JoinTable.name :=
    List.mem_cons_of_mem _ (List.mem_map_of_mem hjoin)
  have hotherName : join.name ∈ other.tableName :: other.ownedJoinTables.map JoinTable.name := by
    rw [← hname]
    cases hfound : findExistingEntity existing other with
    | none =>
      rw [hfound] at hpair
      obtain ⟨table, htable, rfl⟩ := List.mem_map.mp hpair
      rcases List.mem_cons.mp htable with rfl | htable
      · exact List.mem_cons_self ..
      · obtain ⟨owned, howned, rfl⟩ := List.mem_map.mp htable
        exact List.mem_cons_of_mem _ (List.mem_map_of_mem howned)
    | some found =>
      rw [hfound] at hpair
      rw [List.mem_singleton.mp hpair]
      exact List.mem_cons_self ..
  obtain rfl := owner_unique h htarget hother hjoinName hotherName
  rw [hfind] at hpair
  rw [List.mem_singleton.mp hpair] at hname
  exact join_ne_entity h htarget htarget hjoin hname.symm

theorem catalog_ne_none {s : OrmSchema} {name : String} : s.catalog name ≠ none ↔ name ∈ s.tableNames := by
  unfold OrmSchema.catalog
  rw [ne_eq, Option.map_eq_none_iff]
  exact Edits.byKey_ne_none

theorem catalog_of_mem {s : OrmSchema} (h : s.tableNames.Nodup) {table : EntitySchema}
    (htable : table ∈ s.tables) : s.catalog table.tableName = some table.table := by
  unfold OrmSchema.catalog
  rw [(Edits.byKey_eq_some h).mpr ⟨htable, rfl⟩]
  rfl

theorem findExistingEntity_mem {target source : EntitySchema}
    (h : findExistingEntity existing target = some source) : source ∈ existing.entities :=
  List.mem_of_find?_eq_some h

/-- The value of a table that is found is what its diff makes of it. -/
theorem tableStep_result (hexisting : existing.tableNames.Nodup) {target source : EntitySchema}
    (hfind : findExistingEntity existing target = some source) {dialect : Option Dialect} :
    (Step.reuse source.tableName target.tableName
        (if diffTable dialect source target = [] then none
        else some (editAll (diffTable dialect source target)))).result existing.catalog =
      editAll (diffTable dialect source target) source.table := by
  show (existing.catalog source.tableName).bind _ = _
  rw [catalog_of_mem hexisting (entity_mem_tables (findExistingEntity_mem hfind)), Option.bind_some]
  by_cases hnil : diffTable dialect source target = []
  · rw [if_pos hnil, hnil]
    rfl
  · rw [if_neg hnil]
    rfl

theorem matched_step {target source : EntitySchema} (htarget : target ∈ desired.entities)
    (hfind : findExistingEntity existing target = some source) :
    (Step.reuse source.tableName target.tableName
      (if diffTable (existing.dialect.or desired.dialect) source target = [] then none
      else some (editAll (diffTable (existing.dialect.or desired.dialect) source target)))) ∈
        tableSteps existing desired := by
  refine List.mem_flatMap.mpr ⟨target, htarget, ?_⟩
  rw [entitySteps_some hfind]
  exact List.mem_singleton.mpr rfl

theorem made_step {target table : EntitySchema} (htarget : target ∈ desired.entities)
    (hfind : findExistingEntity existing target = none)
    (htable : table ∈ target :: target.ownedJoinTables.map JoinTable.entity) :
    Step.make table.tableName table.table ∈ tableSteps existing desired := by
  refine List.mem_flatMap.mpr ⟨target, htarget, ?_⟩
  rw [entitySteps_none hfind]
  exact List.mem_map_of_mem htable

end names

/-! ## Section 4: When the diff is complete -/

/-- What the diff of two schemas has to meet. -/
structure Covered (existing desired : OrmSchema) : Prop where
  /-- The tables of the desired schema have distinct names, and so have what is in them. -/
  names : desired.tableNames.Nodup
  distinct : ∀ table ∈ desired.tables, table.Distinct
  /-- No table is used twice, and a new name is free or was renamed before. -/
  order : Edits.Orderly (tablePairs existing desired) (· ∈ existing.tableNames)
  table : ∀ target ∈ desired.entities, ∀ source, findExistingEntity existing target = some source →
    TableCovered (existing.dialect.or desired.dialect) source target
  /-- An entity that is found has its join tables already. -/
  join : ∀ target ∈ desired.entities, ∀ source, findExistingEntity existing target = some source →
    ∀ join ∈ target.ownedJoinTables, ∃ held ∈ existing.tables, held.tableName = join.name ∧
      held.tableName ∉ matchedSources existing desired ∧
      join.entity.Agrees (existing.dialect.or desired.dialect) held.table
  /-- No join table is to go. -/
  stays : ∀ owner ∈ existing.entities, ∀ join ∈ owner.ownedJoinTables, join.name ∈ desired.tableNames

theorem agrees_self (dialect : Option Dialect) {entity : EntitySchema} (h : entity.Distinct) :
    entity.Agrees dialect entity.table where
  distinct := h
  column := fun column hcolumn => ⟨column, (Edits.byKey_eq_some h.columns).mpr ⟨hcolumn, rfl⟩, rfl⟩
  only := fun _ => Edits.byKey_ne_none.mp
  index := fun _ => Iff.rfl

theorem mem_droppedTables {existing desired : OrmSchema} {name : String} :
    name ∈ droppedTables existing desired ↔ name ∈ existing.entities.map EntitySchema.tableName ∧
      name ∉ (desired.entities.flatMap EntitySchema.ownedJoinTables).map JoinTable.name ∧
      name ∉ matchedSources existing desired := by
  unfold droppedTables matchedTables
  rw [show matchedSources existing desired =
    (desired.entities.filterMap (findExistingEntity existing)).map EntitySchema.tableName from rfl]
  simp only [List.mem_map, List.mem_filter, decide_eq_true_eq, List.mem_append, not_or]
  constructor
  · rintro ⟨source, ⟨hmem, hjoin, hmatched⟩, rfl⟩
    exact ⟨⟨source, hmem, rfl⟩, hjoin, hmatched⟩
  · rintro ⟨⟨source, hmem, rfl⟩, hjoin, hmatched⟩
    exact ⟨source, ⟨hmem, hjoin, hmatched⟩, rfl⟩

section complete

variable {existing desired : OrmSchema}

theorem covered_of_holds (hexisting : existing.Accepted) (hstored : existing.Stored)
    (hdesired : desired.Accepted) {db : Catalog}
    (hrun : executeAll (schemaOperations existing desired) existing.catalog = some db)
    (hholds : Holds (existing.dialect.or desired.dialect) desired db) : Covered existing desired := by
  obtain ⟨-, edited, hedit, hremove⟩ := (executeAll_schemaOperations existing hdesired).mp hrun
  have hget := Edits.removeAll_get hremove
  -- what is there at the end was not dropped
  have hthere : ∀ name, db name ≠ none → db name = edited name := by
    intro name hsome
    rw [hget] at hsome ⊢
    by_cases hdropped : name ∈ droppedTables existing desired
    · exact absurd (if_pos hdropped) hsome
    · exact if_neg hdropped
  have hnames : (Edits.names (tableSteps existing desired)).Nodup := by
    rw [tableSteps_names]
    exact hholds.distinct.sublist tablePairs_names
  have hfits : Edits.Fits (tableSteps existing desired) existing.catalog := by
    refine Edits.fits_of_run hnames hedit fun step hstep => ?_
    have hmem : step.name ∈ (tablePairs existing desired).map Prod.fst := by
      rw [← tableSteps_names]
      exact List.mem_map_of_mem hstep
    obtain ⟨table, htable, hname⟩ := List.mem_map.mp (tablePairs_names.subset hmem)
    obtain ⟨t, hheld, -⟩ := hholds.table table htable
    have hsome : db table.tableName ≠ none := hheld ▸ Option.some_ne_none t
    rw [← hname, ← hthere _ hsome]
    exact hsome
  obtain ⟨edited', hedit', hfinal⟩ := Edits.run_of_fits hfits
  obtain rfl := Option.some.inj (hedit'.symm.trans hedit)
  obtain ⟨-, horder, -⟩ := Edits.fits_iff.mp hfits
  have hexists : (fun name => existing.catalog name ≠ none) = (· ∈ existing.tableNames) :=
    funext fun name => propext catalog_ne_none
  rw [tableSteps_pair, hexists] at horder
  have hdistinct : ∀ table ∈ desired.tables, table.Distinct := by
    intro table htable
    obtain ⟨t, -, hagrees⟩ := hholds.table table htable
    exact hagrees.distinct
  refine ⟨hholds.distinct, hdistinct, horder, ?_, ?_, ?_⟩
  · intro target htarget source hfind
    have hsource := findExistingEntity_mem hfind
    obtain ⟨t, hheld, hagrees⟩ := hholds.table target (entity_mem_tables htarget)
    rw [hthere _ (hheld ▸ Option.some_ne_none t)] at hheld
    have hnamed := hfinal.named _ (matched_step htarget hfind)
    rw [tableStep_result hstored.tables hfind] at hnamed
    apply (editAll_agrees_iff _ (hstored.distinct source (entity_mem_tables hsource))
      (hdistinct target (entity_mem_tables htarget)) (hexisting.indexes source hsource)
      (hdesired.indexes target htarget)).mp
    exact ⟨t, hnamed.symm.trans hheld, hagrees⟩
  · intro target htarget source hfind join hjoin
    obtain ⟨t, hheld, hagrees⟩ := hholds.table join.entity (join_mem_tables htarget hjoin)
    change db join.name = some t at hheld
    rw [hthere _ (hheld ▸ Option.some_ne_none t)] at hheld
    have hnot := join_not_edited existing hholds.distinct htarget hfind hjoin
    have hunused : join.name ∉ Edits.sources (tableSteps existing desired) := fun hmem => by
      rw [hfinal.taken _ hmem hnot] at hheld
      cases hheld
    rw [hfinal.other _ hunused hnot] at hheld
    obtain ⟨held, hfound, rfl⟩ := Option.map_eq_some_iff.mp hheld
    obtain ⟨hmem, hname⟩ := Edits.byKey_some hfound
    rw [tableSteps_sources] at hunused
    exact ⟨held, hmem, hname, hname ▸ hunused, hagrees⟩
  · intro owner howner join hjoin
    by_cases hnot : join.name ∈ Edits.names (tableSteps existing desired)
    · rw [tableSteps_names] at hnot
      exact tablePairs_names.subset hnot
    · apply hholds.only
      have hunused : join.name ∉ matchedSources existing desired := by
        intro hmem
        obtain ⟨target, -, source, hfind, hname⟩ := mem_matchedSources.mp hmem
        exact join_ne_entity hstored.tables howner (findExistingEntity_mem hfind) hjoin hname.symm
      have hundropped : join.name ∉ droppedTables existing desired := by
        intro hmem
        obtain ⟨entity, hentity, hname⟩ := List.mem_map.mp (mem_droppedTables.mp hmem).1
        exact join_ne_entity hstored.tables howner hentity hjoin hname.symm
      rw [hget, if_neg hundropped, hfinal.other _ (by rwa [tableSteps_sources]) hnot]
      exact catalog_ne_none.mpr (List.mem_map_of_mem (join_mem_tables howner hjoin))

theorem holds_of_covered (hexisting : existing.Accepted) (hstored : existing.Stored)
    (hdesired : desired.Accepted) (h : Covered existing desired) :
    ∃ db, executeAll (schemaOperations existing desired) existing.catalog = some db ∧
      Holds (existing.dialect.or desired.dialect) desired db := by
  have hexists : (fun name => existing.catalog name ≠ none) = (· ∈ existing.tableNames) :=
    funext fun name => propext catalog_ne_none
  have hnames : (Edits.names (tableSteps existing desired)).Nodup := by
    rw [tableSteps_names]
    exact h.names.sublist tablePairs_names
  have hedited : ∀ target ∈ desired.entities, ∀ source, findExistingEntity existing target = some source →
      ∃ t, editAll (diffTable (existing.dialect.or desired.dialect) source target) source.table = some t ∧
        target.Agrees (existing.dialect.or desired.dialect) t := by
    intro target htarget source hfind
    have hsource := findExistingEntity_mem hfind
    exact (editAll_agrees_iff _ (hstored.distinct source (entity_mem_tables hsource))
      (h.distinct target (entity_mem_tables htarget)) (hexisting.indexes source hsource)
      (hdesired.indexes target htarget)).mpr (h.table target htarget source hfind)
  have hfits : Edits.Fits (tableSteps existing desired) existing.catalog := by
    refine Edits.fits_iff.mpr ⟨hnames, ?_, fun step hstep => ?_⟩
    · rw [tableSteps_pair, hexists]
      exact h.order
    · obtain ⟨target, htarget, hmem⟩ := List.mem_flatMap.mp hstep
      cases hfind : findExistingEntity existing target with
      | none =>
        rw [entitySteps_none hfind] at hmem
        obtain ⟨table, -, rfl⟩ := List.mem_map.mp hmem
        exact Option.some_ne_none table.table
      | some source =>
        rw [entitySteps_some hfind] at hmem
        obtain ⟨t, hedit, -⟩ := hedited target htarget source hfind
        rw [List.mem_singleton.mp hmem, tableStep_result hstored.tables hfind, hedit]
        exact Option.some_ne_none t
  obtain ⟨edited, hedit, hfinal⟩ := Edits.run_of_fits hfits
  -- an existing name that is edited is that of a table that was found
  have hedits : ∀ name ∈ Edits.names (tableSteps existing desired), name ∈ existing.tableNames →
      name ∈ matchedSources existing desired := by
    intro name hname hthere
    rw [tableSteps_names] at hname
    rw [← tablePairs_sources]
    exact h.order.mem hname hthere
  have hunedited : ∀ name ∈ droppedTables existing desired, name ∈ existing.tableNames ∧
      name ∉ Edits.names (tableSteps existing desired) ∧
      name ∉ Edits.sources (tableSteps existing desired) := by
    intro name hname
    obtain ⟨hentity, -, hunmatched⟩ := mem_droppedTables.mp hname
    obtain ⟨entity, hmem, rfl⟩ := List.mem_map.mp hentity
    have hthere : entity.tableName ∈ existing.tableNames := List.mem_map_of_mem (entity_mem_tables hmem)
    refine ⟨hthere, fun hnamed => hunmatched (hedits _ hnamed hthere), ?_⟩
    rwa [tableSteps_sources]
  have hdroppable : ∀ name ∈ droppedTables existing desired, edited name ≠ none := by
    intro name hname
    obtain ⟨hthere, hnot, hunused⟩ := hunedited name hname
    rw [hfinal.other name hunused hnot]
    exact catalog_ne_none.mpr hthere
  have hdropped : (droppedTables existing desired).Nodup :=
    hexisting.tables.sublist (List.filter_sublist.map _)
  obtain ⟨db, hremove⟩ := Edits.removeAll_of hdropped hdroppable
  have hget := Edits.removeAll_get hremove
  have hstep : ∀ step ∈ tableSteps existing desired, db step.name = step.result existing.catalog := by
    intro step hmem
    have hname : step.name ∈ Edits.names (tableSteps existing desired) := List.mem_map_of_mem hmem
    rw [hget, if_neg fun hdrop => (hunedited _ hdrop).2.1 hname]
    exact hfinal.named step hmem
  refine ⟨db, (executeAll_schemaOperations existing hdesired).mpr
    ⟨fun target htarget _ table htable => h.distinct table (mem_tables.mpr ⟨target, htarget, htable⟩),
      edited, hedit, hremove⟩, h.names, fun table htable => ?_, fun name hname => ?_⟩
  · obtain ⟨target, htarget, hmem⟩ := mem_tables.mp htable
    cases hfind : findExistingEntity existing target with
    | none => exact ⟨_, hstep _ (made_step htarget hfind hmem), agrees_self _ (h.distinct table htable)⟩
    | some source =>
      rcases List.mem_cons.mp hmem with rfl | hjoined
      · obtain ⟨t, hresult, hagrees⟩ := hedited table htarget source hfind
        have hnamed := hstep _ (matched_step htarget hfind)
        rw [tableStep_result hstored.tables hfind, hresult] at hnamed
        exact ⟨t, hnamed, hagrees⟩
      · obtain ⟨join, hjoin, rfl⟩ := List.mem_map.mp hjoined
        obtain ⟨held, hheld, hname, hunmatched, hagrees⟩ := h.join target htarget source hfind join hjoin
        have hnot := join_not_edited existing h.names htarget hfind hjoin
        have hkept : join.name ∉ droppedTables existing desired := fun hdrop =>
          (mem_droppedTables.mp hdrop).2.1
            (List.mem_map_of_mem (List.mem_flatMap.mpr ⟨target, htarget, hjoin⟩))
        refine ⟨held.table, ?_, hagrees⟩
        show db join.name = _
        rw [hget, if_neg hkept, hfinal.other _ (by rw [tableSteps_sources, ← hname]; exact hunmatched) hnot,
          ← hname]
        exact catalog_of_mem hstored.tables hheld
  · rw [hget] at hname
    by_cases hdrop : name ∈ droppedTables existing desired
    · exact absurd (if_pos hdrop) hname
    · rw [if_neg hdrop] at hname
      by_cases hnamed : name ∈ Edits.names (tableSteps existing desired)
      · rw [tableSteps_names] at hnamed
        exact tablePairs_names.subset hnamed
      · by_cases hused : name ∈ Edits.sources (tableSteps existing desired)
        · exact absurd (hfinal.taken name hused hnamed) hname
        · rw [hfinal.other name hused hnamed] at hname
          obtain ⟨table, htable, rfl⟩ := List.mem_map.mp (catalog_ne_none.mp hname)
          obtain ⟨owner, howner, hmem⟩ := mem_tables.mp htable
          rcases List.mem_cons.mp hmem with rfl | hjoined
          · -- an entity that is not found stays only under the name of a join table
            by_contra hnone
            apply hdrop
            refine mem_droppedTables.mpr ⟨List.mem_map_of_mem howner, fun hjoin => hnone ?_, ?_⟩
            · obtain ⟨join, hjoin, hname⟩ := List.mem_map.mp hjoin
              obtain ⟨target, htarget, hjoin⟩ := List.mem_flatMap.mp hjoin
              rw [← hname]
              exact List.mem_map_of_mem (join_mem_tables htarget hjoin)
            · rwa [← tableSteps_sources]
          · obtain ⟨join, hjoin, rfl⟩ := List.mem_map.mp hjoined
            exact h.stays owner howner join hjoin

end complete

def idColumn : ColumnSchema where
  columnName := "id"
  logicalType := .integer
  nullable := false
  primary := true
  generated := .never
  unique := false
  length := none
  precision := none
  scale := none
  default := none
  enumValues := none
  array := none
  renamedFrom := none

def nameColumn : ColumnSchema :=
  { idColumn with columnName := "name", logicalType := .text, primary := false }

def usersEntity : EntitySchema := ⟨"users", none, [idColumn, nameColumn], [], []⟩

def rolesEntity : EntitySchema := ⟨"roles", none, [idColumn, nameColumn], [], []⟩

def peopleEntity : EntitySchema :=
  ⟨"people", some "users", [idColumn, { nameColumn with columnName := "title", renamedFrom := some "name" }],
    [], [⟨"by_title", ["title"], false⟩]⟩

/-- The entity of the users, with a join table to the roles. -/
def usersWithRoles : EntitySchema :=
  { usersEntity with
    relations := [⟨true, some ⟨"users_roles", "users_id", "roles_id", .integer, .integer⟩⟩] }

theorem accepted_users : OrmSchema.Accepted ⟨some .sqlite, [usersEntity]⟩ where
  tables := by decide
  columns := by decide
  indexes := by decide

theorem accepted_users_roles : OrmSchema.Accepted ⟨some .sqlite, [usersEntity, rolesEntity]⟩ where
  tables := by decide
  columns := by decide
  indexes := by decide

theorem accepted_people : OrmSchema.Accepted ⟨some .sqlite, [peopleEntity]⟩ where
  tables := by decide
  columns := by decide
  indexes := by decide

theorem stored_users : OrmSchema.Stored ⟨some .sqlite, [usersEntity]⟩ where
  tables := by decide
  distinct := fun table htable => by
    obtain rfl : table = usersEntity := List.mem_singleton.mp htable
    exact ⟨by decide, by decide⟩

/-- A table and a column get new names, and there is a new index. -/
theorem renamed_covered : Covered ⟨some .sqlite, [usersEntity]⟩ ⟨some .sqlite, [peopleEntity]⟩ where
  names := by decide
  distinct := fun table htable => by
    obtain rfl : table = peopleEntity := List.mem_singleton.mp htable
    exact ⟨by decide, by decide⟩
  order := Edits.orderly_of_new (by decide) (by decide)
  table := fun target htarget source hfind => by
    obtain rfl : target = peopleEntity := List.mem_singleton.mp htarget
    obtain rfl : usersEntity = source := Option.some.inj hfind
    exact ⟨Edits.orderly_of_new (by decide) (by decide), by decide, by decide, by decide⟩
  join := fun target htarget source _ join hjoin => by
    obtain rfl : target = peopleEntity := List.mem_singleton.mp htarget
    cases hjoin
  stays := fun owner howner join hjoin => by
    obtain rfl : owner = usersEntity := List.mem_singleton.mp howner
    cases hjoin

theorem accepted_usersWithRoles : OrmSchema.Accepted ⟨some .sqlite, [usersWithRoles, rolesEntity]⟩ where
  tables := by decide
  columns := by decide
  indexes := by decide

theorem stored_users_roles : OrmSchema.Stored ⟨some .sqlite, [usersEntity, rolesEntity]⟩ where
  tables := by decide
  distinct := fun table htable => by
    rcases List.mem_cons.mp htable with rfl | htable
    · exact ⟨by decide, by decide⟩
    · obtain rfl : table = rolesEntity := List.mem_singleton.mp htable
      exact ⟨by decide, by decide⟩

end Cossack.Database.Schema
