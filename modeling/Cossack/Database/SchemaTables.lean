import Cossack.Database.SchemaExecution

/-! # The diff of a table

    When the operations that are found for a table and its entity turn the one
    into the other: first the columns, which are renamed in order, then the drops,
    then the indexes. -/

namespace Cossack.Database.Schema

open Edits (Store Step)

/-! ## Section 1: Operations on one table -/

/-- What an operation does to its table. -/
def SchemaOperation.edit (operation : SchemaOperation) (t : Table) : Option Table :=
  match operation with
  | .addColumn _ column => t.addColumn column
  | .dropColumn _ columnName => t.dropColumn columnName
  | .renameColumn _ source target => t.renameColumn source target
  | .alterColumn _ _ after => t.alterColumn after
  | .createIndex _ index => t.createIndex index
  | .dropIndex _ indexName => t.dropIndex indexName
  | .createTable _ | .dropTable _ | .renameTable _ _ => some t

def editAll (operations : List SchemaOperation) (t : Table) : Option Table :=
  operations.foldlM (fun t operation => operation.edit t) t

def SchemaOperation.OnTable (tableName : String) (operation : SchemaOperation) : Prop :=
  ∀ db, execute db operation = Edits.modify db tableName operation.edit

theorem executeAll_cons (operation : SchemaOperation) (rest : List SchemaOperation) (db : Catalog) :
    executeAll (operation :: rest) db = (execute db operation).bind (executeAll rest) := rfl

theorem executeAll_append (operations rest : List SchemaOperation) (db : Catalog) :
    executeAll (operations ++ rest) db = (executeAll operations db).bind (executeAll rest) :=
  List.foldlM_append ..

theorem editAll_cons (operation : SchemaOperation) (rest : List SchemaOperation) (t : Table) :
    editAll (operation :: rest) t = (operation.edit t).bind (editAll rest) := rfl

theorem editAll_append (operations rest : List SchemaOperation) (t : Table) :
    editAll (operations ++ rest) t = (editAll operations t).bind (editAll rest) :=
  List.foldlM_append ..

theorem editAll_singleton (operation : SchemaOperation) (t : Table) :
    editAll [operation] t = operation.edit t := Option.bind_fun_some ..

/-- Operations on one table are one modification of it. -/
theorem executeAll_onTable {tableName : String} {operations : List SchemaOperation}
    (h : ∀ operation ∈ operations, operation.OnTable tableName) (db : Catalog) :
    executeAll operations db =
      if operations = [] then some db else Edits.modify db tableName (editAll operations) := by
  induction operations generalizing db with
  | nil => rfl
  | cons operation rest ih =>
    rw [executeAll_cons, h operation (List.mem_cons_self ..), if_neg (List.cons_ne_nil _ _)]
    have hrest := ih fun other hother => h other (List.mem_cons_of_mem _ hother)
    rw [funext hrest]
    by_cases hnil : rest = []
    · subst hnil
      simp only [if_true]
      rw [Option.bind_fun_some, funext (editAll_singleton operation)]
    · simp only [if_neg hnil]
      exact Edits.modify_bind ..

/-! ## Section 2: Columns -/

/-- What happens to the column of a desired column. -/
def columnStep (dialect : Option Dialect) (source target : EntitySchema)
    (desiredColumn : ColumnSchema) : Step String ColumnSchema :=
  match findExistingColumn source desiredColumn with
  | none => .make desiredColumn.columnName desiredColumn
  | some existingColumn =>
      let changes := columnChanges dialect source target existingColumn desiredColumn
      .reuse existingColumn.columnName desiredColumn.columnName
        (if existingColumn.columnName = desiredColumn.columnName then
          if changes then some fun _ => some desiredColumn else none
        else some fun held => some
          (if changes then desiredColumn else { held with columnName := desiredColumn.columnName }))

theorem columnStep_none {dialect : Option Dialect} {source target : EntitySchema}
    {desiredColumn : ColumnSchema} (h : findExistingColumn source desiredColumn = none) :
    columnStep dialect source target desiredColumn =
      .make desiredColumn.columnName desiredColumn := by
  unfold columnStep
  rw [h]

theorem columnStep_some {dialect : Option Dialect} {source target : EntitySchema}
    {desiredColumn existingColumn : ColumnSchema}
    (h : findExistingColumn source desiredColumn = some existingColumn) :
    columnStep dialect source target desiredColumn =
      .reuse existingColumn.columnName desiredColumn.columnName
        (if existingColumn.columnName = desiredColumn.columnName then
          if columnChanges dialect source target existingColumn desiredColumn then
            some fun _ => some desiredColumn
          else none
        else some fun held => some
          (if columnChanges dialect source target existingColumn desiredColumn then desiredColumn
          else { held with columnName := desiredColumn.columnName })) := by
  unfold columnStep
  rw [h]

theorem columnStep_name (dialect : Option Dialect) (source target : EntitySchema)
    (desiredColumn : ColumnSchema) :
    (columnStep dialect source target desiredColumn).name = desiredColumn.columnName := by
  cases h : findExistingColumn source desiredColumn with
  | none => rw [columnStep_none h]; rfl
  | some existingColumn => rw [columnStep_some h]; rfl

theorem columnStep_source (dialect : Option Dialect) (source target : EntitySchema)
    (desiredColumn : ColumnSchema) :
    (columnStep dialect source target desiredColumn).source =
      (findExistingColumn source desiredColumn).map ColumnSchema.columnName := by
  cases h : findExistingColumn source desiredColumn with
  | none => rw [columnStep_none h]; rfl
  | some existingColumn => rw [columnStep_some h]; rfl

theorem diffColumn_none {dialect : Option Dialect} {source target : EntitySchema}
    {desiredColumn : ColumnSchema} (h : findExistingColumn source desiredColumn = none) :
    diffColumn dialect source target desiredColumn =
      [.addColumn target.tableName desiredColumn] := by
  unfold diffColumn
  rw [h]

theorem diffColumn_some {dialect : Option Dialect} {source target : EntitySchema}
    {desiredColumn existingColumn : ColumnSchema}
    (h : findExistingColumn source desiredColumn = some existingColumn) :
    diffColumn dialect source target desiredColumn =
      (if existingColumn.columnName ≠ desiredColumn.columnName then
        [.renameColumn target.tableName existingColumn.columnName desiredColumn.columnName]
      else []) ++
      if columnChanges dialect source target existingColumn desiredColumn then
        [.alterColumn target.tableName existingColumn desiredColumn]
      else [] := by
  unfold diffColumn
  rw [h]

theorem mapColumns_id {f : String → String} (h : ∀ c, f c = c) (indexes : List IndexSchema) :
    indexes.map (IndexSchema.mapColumns f) = indexes := by
  have hid : IndexSchema.mapColumns f = id := by
    funext index
    unfold IndexSchema.mapColumns
    rw [show f = id from funext h, List.map_id]
    rfl
  rw [hid, List.map_id]

/-- The operations of a column are a step on the columns, which the indexes follow. -/
theorem editAll_diffColumn (dialect : Option Dialect) (source target : EntitySchema)
    (desiredColumn : ColumnSchema) (t : Table) :
    editAll (diffColumn dialect source target desiredColumn) t =
      ((columnStep dialect source target desiredColumn).run t.columns).map fun columns =>
        ⟨columns, t.indexes.map
          (IndexSchema.mapColumns (columnStep dialect source target desiredColumn).follow)⟩ := by
  cases h : findExistingColumn source desiredColumn with
  | none =>
    rw [diffColumn_none h, columnStep_none h, mapColumns_id (Edits.follow_make _ _), editAll_singleton]
    rfl
  | some existingColumn =>
    rw [diffColumn_some h, columnStep_some h]
    generalize columnChanges dialect source target existingColumn desiredColumn = changes
    by_cases hname : existingColumn.columnName = desiredColumn.columnName
    · rw [mapColumns_id fun c => by rw [Edits.follow_reuse, hname, ite_eq_right_iff]; exact id,
        if_neg (not_not.mpr hname), if_pos hname, List.nil_append]
      show _ = ((if existingColumn.columnName = desiredColumn.columnName then some t.columns
        else _).bind _).map _
      rw [if_pos hname, Option.bind_some]
      cases changes with
      | false => rfl
      | true => exact editAll_singleton ..
    · rw [if_pos hname, if_neg hname, funext (Edits.follow_reuse _ _ _)]
      show (t.renameColumn _ _).bind _ = ((if existingColumn.columnName = desiredColumn.columnName then _
        else Edits.move t.columns _ _).bind _).map _
      rw [if_neg hname]
      unfold Table.renameColumn
      cases Edits.move t.columns existingColumn.columnName desiredColumn.columnName with
      | none => rfl
      | some columns =>
        rw [Option.bind_some, Option.bind_some]
        cases changes with
        | false => exact Option.bind_fun_some ..
        | true =>
          -- the altered column replaces the one that got its name
          have hboth := Edits.modify_bind columns desiredColumn.columnName
            (fun column => some { column with columnName := desiredColumn.columnName })
            (fun _ => some desiredColumn)
          show _ = (Edits.modify columns desiredColumn.columnName fun _ => some desiredColumn).map _
          rw [show (Edits.modify columns desiredColumn.columnName fun _ => some desiredColumn) = _
            from hboth.symm]
          cases Edits.modify columns desiredColumn.columnName
              fun column => some { column with columnName := desiredColumn.columnName } with
          | none => rfl
          | some columns => exact Option.bind_fun_some ..

def columnSteps (dialect : Option Dialect) (source target : EntitySchema) :
    List (Step String ColumnSchema) :=
  target.columns.map (columnStep dialect source target)

theorem mapColumns_follow (step : Step String ColumnSchema) (rest : List (Step String ColumnSchema))
    (indexes : List IndexSchema) :
    (indexes.map (IndexSchema.mapColumns step.follow)).map
        (IndexSchema.mapColumns (Edits.follow rest)) =
      indexes.map (IndexSchema.mapColumns (Edits.follow (step :: rest))) := by
  rw [List.map_map]
  apply List.map_congr_left
  intro index _
  show IndexSchema.mapColumns _ (IndexSchema.mapColumns _ index) = _
  unfold IndexSchema.mapColumns
  rw [List.map_map]
  rfl

/-- The columns of a table are edited in order, and the indexes follow. -/
theorem editAll_columns (dialect : Option Dialect) (source target : EntitySchema)
    (desired : List ColumnSchema) (t : Table) :
    editAll (desired.flatMap (diffColumn dialect source target)) t =
      (Edits.run (desired.map (columnStep dialect source target)) t.columns).map fun columns =>
        ⟨columns, t.indexes.map
          (IndexSchema.mapColumns (Edits.follow (desired.map (columnStep dialect source target))))⟩ := by
  induction desired generalizing t with
  | nil =>
    show some t = some ⟨t.columns, t.indexes.map (IndexSchema.mapColumns fun c => c)⟩
    rw [mapColumns_id fun c => rfl]
  | cons column rest ih =>
    rw [List.flatMap_cons, editAll_append, editAll_diffColumn, List.map_cons]
    show _ = (((columnStep dialect source target column).run t.columns).bind _).map _
    cases (columnStep dialect source target column).run t.columns with
    | none => rfl
    | some columns =>
      rw [Option.map_some, Option.bind_some, Option.bind_some, ih, ← mapColumns_follow]

theorem dropColumn_eq_some {t t' : Table} {columnName : String} :
    t.dropColumn columnName = some t' ↔ (∀ index ∈ t.indexes, columnName ∉ index.columns) ∧
      t'.indexes = t.indexes ∧ Edits.remove t.columns columnName = some t'.columns := by
  unfold Table.dropColumn
  by_cases hused : t.indexes.any fun index => columnName ∈ index.columns
  · rw [if_pos hused]
    obtain ⟨index, hmem, hcolumn⟩ := List.any_eq_true.mp hused
    exact ⟨nofun, fun h => absurd (of_decide_eq_true hcolumn) (h.1 index hmem)⟩
  · rw [if_neg hused, Option.map_eq_some_iff]
    have hfree : ∀ index ∈ t.indexes, columnName ∉ index.columns := fun index hmem hcolumn =>
      hused (List.any_eq_true.mpr ⟨index, hmem, decide_eq_true hcolumn⟩)
    constructor
    · rintro ⟨columns, hremove, rfl⟩
      exact ⟨hfree, rfl, hremove⟩
    · rintro ⟨-, hindexes, hremove⟩
      exact ⟨t'.columns, hremove, by rw [← hindexes]⟩

/-- The columns that are dropped are in no index. -/
theorem editAll_drops {tableName : String} {dropped : List String} {t t' : Table} :
    editAll (dropped.map (.dropColumn tableName)) t = some t' ↔
      (∀ column ∈ dropped, ∀ index ∈ t.indexes, column ∉ index.columns) ∧
        t'.indexes = t.indexes ∧ Edits.removeAll dropped t.columns = some t'.columns := by
  induction dropped generalizing t with
  | nil =>
    constructor
    · intro h
      cases h
      exact ⟨nofun, rfl, rfl⟩
    · rintro ⟨-, hindexes, hcolumns⟩
      obtain ⟨columns, indexes⟩ := t
      obtain ⟨columns', indexes'⟩ := t'
      cases hindexes
      cases hcolumns
      rfl
  | cons column rest ih =>
    rw [List.map_cons, editAll_cons, Option.bind_eq_some_iff]
    constructor
    · rintro ⟨next, hdrop, hrest⟩
      obtain ⟨hfree, hindexes, hremove⟩ := dropColumn_eq_some.mp hdrop
      obtain ⟨hfrees, hindexes', hremoves⟩ := ih.mp hrest
      rw [hindexes] at hfrees hindexes'
      refine ⟨fun other hother => ?_, hindexes', ?_⟩
      · rcases List.mem_cons.mp hother with rfl | hmem
        · exact hfree
        · exact hfrees other hmem
      · show (Edits.remove _ _).bind _ = _
        rw [hremove]
        exact hremoves
    · rintro ⟨hfree, hindexes, hremoves⟩
      obtain ⟨columns, hremove, hrest⟩ := Option.bind_eq_some_iff.mp hremoves
      refine ⟨⟨columns, t.indexes⟩, ?_, ?_⟩
      · exact dropColumn_eq_some.mpr ⟨hfree column (List.mem_cons_self ..), rfl, hremove⟩
      · exact ih.mpr ⟨fun other hother => hfree other (List.mem_cons_of_mem _ hother), hindexes, hrest⟩

/-! ## Section 3: Indexes -/

/-- The indexes of a table by their names. -/
abbrev byName (indexes : List IndexSchema) : Store String IndexSchema :=
  Edits.byKey IndexSchema.name indexes

theorem byName_cons (index : IndexSchema) (rest : List IndexSchema) (name : String) :
    byName (index :: rest) name = if index.name = name then some index else byName rest name :=
  Edits.byKey_cons ..

theorem byName_ne_none {indexes : List IndexSchema} {name : String} :
    byName indexes name ≠ none ↔ name ∈ indexes.map IndexSchema.name := Edits.byKey_ne_none

def IndexNames (indexes : List IndexSchema) : Prop := (indexes.map IndexSchema.name).Nodup

theorem createIndex_of {t : Table} (index : IndexSchema) (hnames : IndexNames t.indexes)
    (hname : byName t.indexes index.name = none)
    (hcolumns : ∀ column ∈ index.columns, t.columns column ≠ none) :
    ∃ t', t.createIndex index = some t' ∧ t'.columns = t.columns ∧ IndexNames t'.indexes ∧
      byName t'.indexes = Function.update (byName t.indexes) index.name (some index) := by
  have hother := Edits.byKey_eq_none.mp hname
  refine ⟨{ t with indexes := t.indexes ++ [index] }, ?_, rfl, ?_, Edits.byKey_append hname⟩
  · unfold Table.createIndex
    rw [if_neg]
    simpa using ⟨hother, hcolumns⟩
  · unfold IndexNames
    rw [List.map_append]
    refine List.Nodup.append hnames (List.nodup_singleton _) ?_
    simpa using fun other hmem heq => hother other hmem heq

theorem dropIndex_of {t : Table} {indexName : String} (hnames : IndexNames t.indexes)
    (hname : byName t.indexes indexName ≠ none) :
    ∃ t', t.dropIndex indexName = some t' ∧ t'.columns = t.columns ∧ IndexNames t'.indexes ∧
      byName t'.indexes = Function.update (byName t.indexes) indexName none := by
  refine ⟨_, if_pos ?_, rfl, hnames.sublist (List.filter_sublist.map _), Edits.byKey_filter ..⟩
  obtain ⟨index, hmem, heq⟩ := List.mem_map.mp (byName_ne_none.mp hname)
  exact List.any_eq_true.mpr ⟨index, hmem, decide_eq_true heq⟩

theorem indexesByName_eq {indexes : List IndexSchema} (h : IndexNames indexes) :
    indexesByName indexes = indexes.map fun index => (index.name, index) := by
  have hfold : ∀ (rest : List IndexSchema) (entries : List (String × IndexSchema)),
      (entries.map Prod.fst ++ rest.map IndexSchema.name).Nodup →
      rest.foldl (fun entries index => Entries.set entries index.name index) entries =
        entries ++ rest.map fun index => (index.name, index) := by
    intro rest
    induction rest with
    | nil => exact fun entries _ => (List.append_nil _).symm
    | cons index rest ih =>
      intro entries hnodup
      have hnew : Entries.get entries index.name = none := by
        unfold Entries.get
        rw [Entries.find_of_not_mem fun hmem =>
          (List.nodup_append.mp hnodup).2.2 _ hmem _ (List.mem_cons_self ..) rfl]
        rfl
      rw [List.foldl_cons, Entries.set_of_get_none hnew, ih, List.append_assoc]
      · rfl
      · rw [List.map_append, List.append_assoc]
        exact hnodup
  exact hfold indexes [] h

theorem get_indexes (indexes : List IndexSchema) (name : String) :
    Entries.get (indexes.map fun index => (index.name, index)) name = byName indexes name := by
  induction indexes with
  | nil => rfl
  | cons index rest ih =>
    rw [List.map_cons, Entries.get_cons, ih, byName_cons]

/-- What is done for a desired index. -/
def indexChange (source target : EntitySchema) (index : IndexSchema) : List SchemaOperation :=
  match byName source.indexes index.name with
  | none => [.createIndex target.tableName index]
  | some previous =>
      if previous = index then []
      else [.dropIndex target.tableName index.name, .createIndex target.tableName index]

/-- The names of the indexes that are not desired. -/
def otherIndexes (source target : EntitySchema) : List String :=
  (source.indexes.map IndexSchema.name).filter fun name => (byName target.indexes name).isNone

theorem diffIndexes_eq {source target : EntitySchema} (hsource : IndexNames source.indexes)
    (htarget : IndexNames target.indexes) :
    diffIndexes source target = target.indexes.flatMap (indexChange source target) ++
      (otherIndexes source target).map (.dropIndex target.tableName) := by
  unfold diffIndexes otherIndexes
  rw [indexesByName_eq hsource, indexesByName_eq htarget]
  simp only [get_indexes]
  rw [List.flatMap_map, List.map_map]
  rfl

section indexes

variable {source target : EntitySchema} {f : IndexSchema → IndexSchema}

/-- What becomes of a desired index: one that is there already stays as it is. -/
def kept (source : EntitySchema) (f : IndexSchema → IndexSchema) (index : IndexSchema) : IndexSchema :=
  if byName source.indexes index.name = some index then f index else index

theorem editAll_indexChange (target : EntitySchema) {t : Table} {index : IndexSchema} (hnames : IndexNames t.indexes)
    (hthere : byName t.indexes index.name = (byName source.indexes index.name).map f)
    (hcolumns : ∀ column ∈ index.columns, t.columns column ≠ none) :
    ∃ t', editAll (indexChange source target index) t = some t' ∧ t'.columns = t.columns ∧
      IndexNames t'.indexes ∧
      byName t'.indexes = Function.update (byName t.indexes) index.name (some (kept source f index)) := by
  unfold indexChange kept
  cases hprevious : byName source.indexes index.name with
  | none =>
    rw [hprevious] at hthere
    rw [if_neg nofun]
    simp only [editAll_singleton]
    exact createIndex_of index hnames hthere hcolumns
  | some previous =>
    rw [hprevious] at hthere
    by_cases hsame : previous = index
    · subst hsame
      rw [if_pos rfl]
      simp only [if_true]
      refine ⟨t, rfl, rfl, hnames, ?_⟩
      rw [← Option.map_some, ← hthere, Function.update_eq_self]
    · rw [if_neg fun heq => hsame (Option.some.inj heq)]
      simp only [if_neg hsame]
      obtain ⟨dropped, hdrop, hcols, hnames', hbyName⟩ := dropIndex_of hnames
        (by rw [hthere]; exact Option.some_ne_none _)
      obtain ⟨t', hcreate, hcols', hnames'', hbyName'⟩ := createIndex_of index hnames'
        (by rw [hbyName, Function.update_self]) (by rwa [hcols])
      refine ⟨t', ?_, hcols'.trans hcols, hnames'', ?_⟩
      · rw [editAll_cons]
        show (t.dropIndex index.name).bind _ = _
        rw [hdrop, Option.bind_some, editAll_singleton]
        exact hcreate
      · rw [hbyName', hbyName, Function.update_idem]

theorem editAll_indexChanges (target : EntitySchema) {t : Table} {indexes : List IndexSchema} (hindexes : IndexNames indexes)
    (hnames : IndexNames t.indexes)
    (hthere : ∀ index ∈ indexes,
      byName t.indexes index.name = (byName source.indexes index.name).map f)
    (hcolumns : ∀ index ∈ indexes, ∀ column ∈ index.columns, t.columns column ≠ none) :
    ∃ t', editAll (indexes.flatMap (indexChange source target)) t = some t' ∧ t'.columns = t.columns ∧
      IndexNames t'.indexes ∧
      ∀ name, byName t'.indexes name =
        ((byName indexes name).map (kept source f)).or (byName t.indexes name) := by
  induction indexes generalizing t with
  | nil => exact ⟨t, rfl, rfl, hnames, fun name => rfl⟩
  | cons index rest ih =>
    obtain ⟨hnew, hrest⟩ := List.nodup_cons.mp hindexes
    obtain ⟨next, hnext, hcols, hnames', hbyName⟩ := editAll_indexChange target hnames
      (hthere index (List.mem_cons_self ..)) (hcolumns index (List.mem_cons_self ..))
    obtain ⟨t', ht', hcols', hnames'', hbyName'⟩ := ih hrest hnames'
      (fun other hother => by
        have hne : other.name ≠ index.name := fun heq =>
          hnew (heq ▸ List.mem_map_of_mem hother)
        rw [hbyName, Function.update_of_ne hne]
        exact hthere other (List.mem_cons_of_mem _ hother))
      (fun other hother column hcolumn => by
        rw [hcols]
        exact hcolumns other (List.mem_cons_of_mem _ hother) column hcolumn)
    refine ⟨t', ?_, hcols'.trans hcols, hnames'', fun name => ?_⟩
    · rw [List.flatMap_cons, editAll_append, hnext]
      exact ht'
    · rw [hbyName', hbyName, byName_cons]
      by_cases hname : index.name = name
      · subst hname
        have hnone : byName rest index.name = none := Edits.byKey_eq_none.mpr fun other hother heq =>
          hnew (heq ▸ List.mem_map_of_mem hother)
        rw [hnone, if_pos rfl, Function.update_self]
        rfl
      · rw [if_neg hname, Function.update_of_ne (Ne.symm hname)]

theorem editAll_dropIndexes {t : Table} (tableName : String) {names : List String} (hdistinct : names.Nodup)
    (hnames : IndexNames t.indexes) (hthere : ∀ name ∈ names, byName t.indexes name ≠ none) :
    ∃ t', editAll (names.map (.dropIndex tableName)) t = some t' ∧ t'.columns = t.columns ∧
      IndexNames t'.indexes ∧
      ∀ name, byName t'.indexes name = if name ∈ names then none else byName t.indexes name := by
  induction names generalizing t with
  | nil => exact ⟨t, rfl, rfl, hnames, fun name => (if_neg List.not_mem_nil).symm⟩
  | cons first rest ih =>
    obtain ⟨hnew, hrest⟩ := List.nodup_cons.mp hdistinct
    obtain ⟨next, hdrop, hcols, hnames', hbyName⟩ := dropIndex_of hnames
      (hthere first (List.mem_cons_self ..))
    obtain ⟨t', ht', hcols', hnames'', hbyName'⟩ := ih hrest hnames' fun name hname => by
      have hne : name ≠ first := by
        rintro rfl
        exact hnew hname
      rw [hbyName, Function.update_of_ne hne]
      exact hthere name (List.mem_cons_of_mem _ hname)
    refine ⟨t', ?_, hcols'.trans hcols, hnames'', fun name => ?_⟩
    · rw [List.map_cons, editAll_cons]
      show (t.dropIndex first).bind _ = _
      rw [hdrop]
      exact ht'
    · rw [hbyName', hbyName]
      by_cases hname : name = first
      · subst hname
        simp
      · simp [hname]

/-- The indexes become the desired ones, but for those that are there already. -/
theorem editAll_diffIndexes {t : Table} (hsource : IndexNames source.indexes)
    (htarget : IndexNames target.indexes) (hnames : IndexNames t.indexes)
    (hthere : ∀ name, byName t.indexes name = (byName source.indexes name).map f)
    (hcolumns : ∀ index ∈ target.indexes, ∀ column ∈ index.columns, t.columns column ≠ none) :
    ∃ t', editAll (diffIndexes source target) t = some t' ∧ t'.columns = t.columns ∧
      IndexNames t'.indexes ∧
      ∀ name, byName t'.indexes name = (byName target.indexes name).map (kept source f) := by
  obtain ⟨changed, hchange, hcols, hnames', hbyName⟩ := editAll_indexChanges target htarget
    hnames (fun index _ => hthere index.name) hcolumns
  have hother : ∀ name ∈ otherIndexes source target, byName changed.indexes name ≠ none := by
    intro name hname
    obtain ⟨hmem, hnone⟩ := List.mem_filter.mp hname
    rw [hbyName, Option.isNone_iff_eq_none.mp hnone, hthere]
    simpa using byName_ne_none.mpr hmem
  have hdistinct : (otherIndexes source target).Nodup := List.Nodup.filter _ hsource
  obtain ⟨t', hdrop, hcols', hnames'', hbyName'⟩ := editAll_dropIndexes target.tableName
    hdistinct hnames' hother
  refine ⟨t', ?_, hcols'.trans hcols, hnames'', fun name => ?_⟩
  · rw [diffIndexes_eq hsource htarget, editAll_append, hchange]
    exact hdrop
  · rw [hbyName', hbyName, hthere]
    cases hdesired : byName target.indexes name with
    | some index =>
      rw [if_neg]
      · rfl
      · intro hmem
        have hnone := Option.isNone_iff_eq_none.mp (List.mem_filter.mp hmem).2
        rw [hdesired] at hnone
        cases hnone
    | none =>
      by_cases hmem : name ∈ otherIndexes source target
      · rw [if_pos hmem]
        rfl
      · rw [if_neg hmem]
        cases hprevious : byName source.indexes name with
        | none => rfl
        | some previous =>
          refine absurd (List.mem_filter.mpr ⟨byName_ne_none.mp ?_, ?_⟩) hmem
          · rw [hprevious]
            exact Option.some_ne_none _
          · rw [hdesired]
            rfl

end indexes

/-! ## Section 4: What becomes of a table -/

/-- The names of the columns, each with the one it comes from. -/
def columnPairs (source target : EntitySchema) : List (String × Option String) :=
  target.columns.map fun column =>
    (column.columnName, (findExistingColumn source column).map ColumnSchema.columnName)

/-- The column that is found for a desired one, with its new name. -/
def finalColumn (dialect : Option Dialect) (source target : EntitySchema) (column : ColumnSchema) :
    ColumnSchema :=
  match findExistingColumn source column with
  | none => column
  | some existing =>
      if columnChanges dialect source target existing column then column
      else { existing with columnName := column.columnName }

section table

variable (dialect : Option Dialect) {source target : EntitySchema}

theorem findExistingColumn_mem {column existing : ColumnSchema}
    (h : findExistingColumn source column = some existing) : existing ∈ source.columns :=
  List.mem_of_find?_eq_some h

theorem columnSteps_pair :
    (columnSteps dialect source target).map Step.pair = columnPairs source target := by
  unfold columnSteps columnPairs
  rw [List.map_map]
  apply List.map_congr_left
  intro column _
  exact Prod.ext (columnStep_name ..) (columnStep_source ..)

theorem columnSteps_names : Edits.names (columnSteps dialect source target) = target.columnNames := by
  unfold columnSteps Edits.names EntitySchema.columnNames
  rw [List.map_map]
  exact List.map_congr_left fun column _ => columnStep_name ..

theorem columnPairs_sources :
    (columnPairs source target).filterMap Prod.snd = matchedColumns source target := by
  unfold columnPairs matchedColumns
  rw [List.filterMap_map, List.map_filterMap]
  rfl

theorem columnSteps_sources :
    Edits.sources (columnSteps dialect source target) = matchedColumns source target := by
  rw [← Edits.sources_pair, columnSteps_pair, columnPairs_sources]

theorem mem_matchedColumns {name : String} : name ∈ matchedColumns source target ↔
    ∃ column ∈ target.columns, ∃ existing, findExistingColumn source column = some existing ∧
      existing.columnName = name := by
  unfold matchedColumns
  simp only [List.mem_map, List.mem_filterMap]
  constructor
  · rintro ⟨existing, ⟨column, hmem, hfind⟩, rfl⟩
    exact ⟨column, hmem, existing, hfind, rfl⟩
  · rintro ⟨column, hmem, existing, hfind, rfl⟩
    exact ⟨existing, ⟨column, hmem, hfind⟩, rfl⟩

theorem columnStep_result (hsource : source.columnNames.Nodup) (column : ColumnSchema) :
    (columnStep dialect source target column).result source.table.columns =
      some (finalColumn dialect source target column) := by
  unfold finalColumn
  cases h : findExistingColumn source column with
  | none =>
    rw [columnStep_none h]
    rfl
  | some existing =>
    have hheld : source.table.columns existing.columnName = some existing :=
      (Edits.byKey_eq_some hsource).mpr ⟨findExistingColumn_mem h, rfl⟩
    rw [columnStep_some h]
    show (source.table.columns existing.columnName).bind _ = _
    rw [hheld, Option.bind_some]
    simp only
    generalize columnChanges dialect source target existing column = changes
    by_cases hname : existing.columnName = column.columnName
    · rw [if_pos hname, ← hname]
      cases changes <;> rfl
    · rw [if_neg hname]
      rfl

theorem columnSteps_fits (hsource : source.columnNames.Nodup) (htarget : target.columnNames.Nodup) :
    Edits.Fits (columnSteps dialect source target) source.table.columns ↔
      Edits.Orderly (columnPairs source target) (· ∈ source.columnNames) := by
  have hthere : (fun name => source.table.columns name ≠ none) = (· ∈ source.columnNames) :=
    funext fun name => propext Edits.byKey_ne_none
  rw [Edits.fits_iff, columnSteps_names, columnSteps_pair, hthere]
  refine ⟨fun h => h.2.1, fun h => ⟨htarget, h, ?_⟩⟩
  intro step hstep
  obtain ⟨column, -, rfl⟩ := List.mem_map.mp hstep
  rw [columnStep_result dialect hsource]
  exact Option.some_ne_none _

/-- The columns that are dropped. -/
def droppedColumns (source target : EntitySchema) : List String :=
  source.columnNames.filter fun name => name ∉ matchedColumns source target

theorem diffTable_eq : diffTable dialect source target =
    target.columns.flatMap (diffColumn dialect source target) ++
      ((droppedColumns source target).map (.dropColumn target.tableName) ++
        diffIndexes source target) := by
  unfold diffTable droppedColumns EntitySchema.columnNames
  rw [List.filter_map, List.map_map, List.append_assoc]
  rfl

/-- Where the indexes' references go. -/
def followed (dialect : Option Dialect) (source target : EntitySchema) : IndexSchema → IndexSchema :=
  IndexSchema.mapColumns (Edits.follow (columnSteps dialect source target))

theorem editAll_targetColumns (t : Table) :
    editAll (target.columns.flatMap (diffColumn dialect source target)) t =
      (Edits.run (columnSteps dialect source target) t.columns).map fun columns =>
        ⟨columns, t.indexes.map (followed dialect source target)⟩ := editAll_columns ..

theorem mem_diffIndexes {operation : SchemaOperation} (h : operation ∈ diffIndexes source target) :
    (∃ index, operation = .createIndex target.tableName index) ∨
      ∃ name, operation = .dropIndex target.tableName name := by
  rcases List.mem_append.mp h with hchange | hdrop
  · obtain ⟨⟨name, index⟩, -, hmem⟩ := List.mem_flatMap.mp hchange
    simp only at hmem
    split at hmem
    · exact .inl ⟨index, List.mem_singleton.mp hmem⟩
    · split at hmem
      · cases hmem
      · rcases List.mem_cons.mp hmem with rfl | hmem
        · exact .inr ⟨name, rfl⟩
        · exact .inl ⟨index, List.mem_singleton.mp hmem⟩
  · obtain ⟨name, -, rfl⟩ := List.mem_map.mp hdrop
    exact .inr ⟨name, rfl⟩

theorem createIndex_columns {t t' : Table} {index : IndexSchema} (h : t.createIndex index = some t') :
    t'.columns = t.columns := by
  unfold Table.createIndex at h
  split at h
  · cases h
  · cases h
    rfl

theorem dropIndex_columns {t t' : Table} {name : String} (h : t.dropIndex name = some t') :
    t'.columns = t.columns := by
  unfold Table.dropIndex at h
  split at h
  · cases h
    rfl
  · cases h

/-- Indexes are no columns. -/
theorem editAll_indexes_columns {operations : List SchemaOperation} {tableName : String}
    (h : ∀ operation ∈ operations, (∃ index, operation = .createIndex tableName index) ∨
      ∃ name, operation = .dropIndex tableName name) {t t' : Table}
    (hedit : editAll operations t = some t') : t'.columns = t.columns := by
  induction operations generalizing t with
  | nil =>
    cases hedit
    rfl
  | cons operation rest ih =>
    rw [editAll_cons] at hedit
    obtain ⟨next, hnext, hrest⟩ := Option.bind_eq_some_iff.mp hedit
    rw [ih (fun other hother => h other (List.mem_cons_of_mem _ hother)) hrest]
    rcases h operation (List.mem_cons_self ..) with ⟨index, rfl⟩ | ⟨name, rfl⟩
    · exact createIndex_columns hnext
    · exact dropIndex_columns hnext

/-- A desired name is not that of a column to be dropped. -/
theorem not_dropped (h : Edits.Orderly (columnPairs source target) (· ∈ source.columnNames))
    {name : String} (hname : name ∈ target.columnNames) : name ∉ droppedColumns source target := by
  intro hdropped
  obtain ⟨hthere, hunmatched⟩ := List.mem_filter.mp hdropped
  have hpairs : (columnPairs source target).map Prod.fst = target.columnNames := List.map_map ..
  have hmatched := h.mem (hpairs ▸ hname) hthere
  rw [columnPairs_sources] at hmatched
  exact of_decide_eq_true hunmatched hmatched

theorem indexNames_map {indexes : List IndexSchema} (h : IndexNames indexes) (f : String → String) :
    IndexNames (indexes.map (IndexSchema.mapColumns f)) := by
  unfold IndexNames
  rw [List.map_map]
  exact h

theorem byName_map (indexes : List IndexSchema) (f : String → String) (name : String) :
    byName (indexes.map (IndexSchema.mapColumns f)) name =
      (byName indexes name).map (IndexSchema.mapColumns f) := by
  induction indexes with
  | nil => rfl
  | cons index rest ih =>
    rw [List.map_cons, byName_cons, byName_cons, ih]
    show (if index.name = name then _ else _) = _
    by_cases hname : index.name = name
    · rw [if_pos hname, if_pos hname]
      rfl
    · rw [if_neg hname, if_neg hname]

theorem follow_matched (hfits : Edits.Fits (columnSteps dialect source target) source.table.columns)
    {column existing : ColumnSchema} (hcolumn : column ∈ target.columns)
    (hfind : findExistingColumn source column = some existing) :
    Edits.follow (columnSteps dialect source target) existing.columnName = column.columnName := by
  have hstep : columnStep dialect source target column ∈ columnSteps dialect source target :=
    List.mem_map_of_mem hcolumn
  rw [hfits.follow hstep (by rw [columnStep_source, hfind]; rfl), columnStep_name]

/-- A table whose columns are edited in order becomes the desired one, but for
    what stays as it is. -/
theorem editAll_diffTable (hsource : source.Distinct) (htarget : target.Distinct)
    (hindexed : ∀ index ∈ target.indexes, ∀ column ∈ index.columns, column ∈ target.columnNames)
    (horder : Edits.Orderly (columnPairs source target) (· ∈ source.columnNames))
    (hdropped : ∀ index ∈ source.indexes, ∀ column ∈ index.columns,
      column ∈ matchedColumns source target) :
    ∃ t, editAll (diffTable dialect source target) source.table = some t ∧ IndexNames t.indexes ∧
      (∀ column ∈ target.columns,
        t.columns column.columnName = some (finalColumn dialect source target column)) ∧
      (∀ name, t.columns name ≠ none → name ∈ target.columnNames) ∧
      ∀ name, byName t.indexes name =
        (byName target.indexes name).map (kept source (followed dialect source target)) := by
  have hfits := (columnSteps_fits dialect hsource.columns htarget.columns).mpr horder
  obtain ⟨edited, hrun, hfinal⟩ := Edits.run_of_fits hfits
  have hnamed : ∀ column ∈ target.columns,
      edited column.columnName = some (finalColumn dialect source target column) := by
    intro column hcolumn
    have hresult := hfinal.named _ (List.mem_map_of_mem hcolumn)
    rwa [columnStep_name, columnStep_result dialect hsource.columns] at hresult
  have hother : ∀ name ∈ droppedColumns source target, edited name ≠ none := by
    intro name hname
    obtain ⟨hthere, hunmatched⟩ := List.mem_filter.mp hname
    rw [hfinal.other]
    · exact Edits.byKey_ne_none.mpr hthere
    · rw [columnSteps_sources]
      exact of_decide_eq_true hunmatched
    · rw [columnSteps_names]
      exact fun hmem => not_dropped horder hmem hname
  have hdistinct : (droppedColumns source target).Nodup := hsource.columns.filter _
  obtain ⟨columns, hremove⟩ := Edits.removeAll_of hdistinct hother
  have hcolumns := Edits.removeAll_get hremove
  -- no index has a column that is dropped, since its columns went to desired names
  have hfree : ∀ column ∈ droppedColumns source target,
      ∀ index ∈ source.indexes.map (followed dialect source target), column ∉ index.columns := by
    intro column hcolumn index hindex hmem
    obtain ⟨original, horiginal, rfl⟩ := List.mem_map.mp hindex
    obtain ⟨reference, hreference, rfl⟩ := List.mem_map.mp hmem
    obtain ⟨desired, hdesired, existing, hfind, rfl⟩ :=
      mem_matchedColumns.mp (hdropped original horiginal reference hreference)
    rw [follow_matched dialect hfits hdesired hfind] at hcolumn
    exact not_dropped horder (List.mem_map_of_mem hdesired) hcolumn
  have hkept : ∀ column ∈ target.columns,
      columns column.columnName = some (finalColumn dialect source target column) := by
    intro column hcolumn
    rw [hcolumns, if_neg (not_dropped horder (List.mem_map_of_mem hcolumn))]
    exact hnamed column hcolumn
  have hthere : ∀ index ∈ target.indexes, ∀ column ∈ index.columns, columns column ≠ none := by
    intro index hindex column hcolumn
    obtain ⟨desired, hdesired, rfl⟩ := List.mem_map.mp (hindexed index hindex column hcolumn)
    rw [hkept desired hdesired]
    exact Option.some_ne_none _
  obtain ⟨t, hindexes, hcols, hnames, hbyName⟩ := editAll_diffIndexes
    (t := ⟨columns, source.indexes.map (followed dialect source target)⟩) hsource.indexes
    htarget.indexes (indexNames_map hsource.indexes _) (byName_map _ _) hthere
  replace hcols : t.columns = columns := hcols
  refine ⟨t, ?_, hnames, fun column hcolumn => ?_, fun name hname => ?_, hbyName⟩
  · have hdrops : editAll ((droppedColumns source target).map (.dropColumn target.tableName))
        ⟨edited, source.table.indexes.map (followed dialect source target)⟩ =
          some ⟨columns, source.indexes.map (followed dialect source target)⟩ :=
      editAll_drops.mpr ⟨hfree, rfl, hremove⟩
    rw [diffTable_eq, editAll_append, editAll_targetColumns, hrun, Option.map_some, Option.bind_some,
      editAll_append, hdrops]
    exact hindexes
  · rw [hcols]
    exact hkept column hcolumn
  · rw [hcols, hcolumns] at hname
    by_cases hdrop : name ∈ droppedColumns source target
    · exact absurd (if_pos hdrop) hname
    · rw [if_neg hdrop] at hname
      by_contra hnot
      have hunnamed : name ∉ Edits.names (columnSteps dialect source target) := by
        rwa [columnSteps_names]
      by_cases hmatched : name ∈ matchedColumns source target
      · rw [← columnSteps_sources dialect] at hmatched
        exact hname (hfinal.taken name hmatched hunnamed)
      · rw [hfinal.other name (by rwa [columnSteps_sources]) hunnamed] at hname
        exact hdrop (List.mem_filter.mpr ⟨Edits.byKey_ne_none.mp hname, decide_eq_true hmatched⟩)

/-- The names and the drops of a table that gets every desired column. -/
theorem orderly_of_editAll (hsource : source.Distinct) (htarget : target.Distinct)
    (hindexed : ∀ index ∈ source.indexes, ∀ column ∈ index.columns, column ∈ source.columnNames)
    {t : Table} (hedit : editAll (diffTable dialect source target) source.table = some t)
    (hcolumns : ∀ name ∈ target.columnNames, t.columns name ≠ none) :
    Edits.Orderly (columnPairs source target) (· ∈ source.columnNames) ∧
      ∀ index ∈ source.indexes, ∀ column ∈ index.columns, column ∈ matchedColumns source target := by
  rw [diffTable_eq, editAll_append, editAll_targetColumns] at hedit
  obtain ⟨edited, hmap, hrest⟩ := Option.bind_eq_some_iff.mp hedit
  obtain ⟨columns, hrun, rfl⟩ := Option.map_eq_some_iff.mp hmap
  rw [editAll_append] at hrest
  obtain ⟨remaining, hdrops, hindexes⟩ := Option.bind_eq_some_iff.mp hrest
  obtain ⟨hfree, -, hremove⟩ := editAll_drops.mp hdrops
  have hfits : Edits.Fits (columnSteps dialect source target) source.table.columns := by
    refine Edits.fits_of_run ?_ hrun fun step hstep hnone => ?_
    · rw [columnSteps_names]
      exact htarget.columns
    · obtain ⟨column, hcolumn, rfl⟩ := List.mem_map.mp hstep
      rw [columnStep_name] at hnone
      apply hcolumns column.columnName (List.mem_map_of_mem hcolumn)
      rw [editAll_indexes_columns (fun operation => mem_diffIndexes) hindexes,
        Edits.removeAll_get hremove]
      exact ite_eq_left_iff.mpr fun _ => hnone
  refine ⟨(columnSteps_fits dialect hsource.columns htarget.columns).mp hfits,
    fun index hindex column hcolumn => ?_⟩
  by_contra hunmatched
  have hdropped : column ∈ droppedColumns source target :=
    List.mem_filter.mpr ⟨hindexed index hindex column hcolumn, decide_eq_true hunmatched⟩
  apply hfree column hdropped _ (List.mem_map_of_mem hindex)
  refine List.mem_map.mpr ⟨column, hcolumn, ?_⟩
  apply Edits.follow_other
  rw [columnSteps_sources]
  exact hunmatched

/-! ## Section 5: When a table becomes the desired one -/

def onlyUniqueIndex (indexes : List IndexSchema) (columnName : String) : Bool :=
  indexes.any fun index => index.unique && index.columns = [columnName]

/-- What the diff of a table has to meet. -/
structure TableCovered (dialect : Option Dialect) (source target : EntitySchema) : Prop where
  /-- No column is used twice, and a new name is free or was renamed before. -/
  order : Edits.Orderly (columnPairs source target) (· ∈ source.columnNames)
  /-- No column of an index is dropped. -/
  dropped : ∀ index ∈ source.indexes, ∀ column ∈ index.columns, column ∈ matchedColumns source target
  /-- No column of an index that stays as it is gets another name. -/
  index : ∀ index ∈ target.indexes, index ∈ source.indexes → ∀ column ∈ target.columns, ∀ existing,
    findExistingColumn source column = some existing → existing.columnName ∈ index.columns →
    column.columnName = existing.columnName
  /-- No unique index is the only thing that makes a desired unique column unique. -/
  unique : ∀ column ∈ target.columns, ∀ existing, findExistingColumn source column = some existing →
    columnChanges dialect source target existing column = false → column.unique →
    existing.unique ∨ onlyUniqueIndex target.indexes column.columnName

theorem enforcesUnique_eq (indexes : List IndexSchema) (column : ColumnSchema) :
    enforcesUnique indexes column = (column.unique || onlyUniqueIndex indexes column.columnName) := rfl

/-- Whether a column is unique depends on which indexes there are. -/
theorem onlyUniqueIndex_congr {indexes indexes' : List IndexSchema}
    (h : ∀ index, index ∈ indexes ↔ index ∈ indexes') (columnName : String) :
    onlyUniqueIndex indexes columnName = onlyUniqueIndex indexes' columnName := by
  rw [Bool.eq_iff_iff]
  unfold onlyUniqueIndex
  simp only [List.any_eq_true]
  exact exists_congr fun index => and_congr_left fun _ => h index

/-- An index stays what it is when its columns keep their names. -/
theorem kept_eq_iff (hsource : source.Distinct)
    (hfits : Edits.Fits (columnSteps dialect source target) source.table.columns)
    (hdropped : ∀ index ∈ source.indexes, ∀ column ∈ index.columns,
      column ∈ matchedColumns source target) (index : IndexSchema) :
    kept source (followed dialect source target) index = index ↔
      (index ∈ source.indexes → ∀ column ∈ target.columns, ∀ existing,
        findExistingColumn source column = some existing → existing.columnName ∈ index.columns →
        column.columnName = existing.columnName) := by
  have hthere : byName source.indexes index.name = some index ↔ index ∈ source.indexes :=
    (Edits.byKey_eq_some hsource.indexes).trans (and_iff_left rfl)
  unfold kept
  by_cases hmem : index ∈ source.indexes
  · rw [if_pos (hthere.mpr hmem), imp_iff_right hmem]
    have hcolumns : followed dialect source target index = index ↔
        ∀ name ∈ index.columns, Edits.follow (columnSteps dialect source target) name = name := by
      unfold followed IndexSchema.mapColumns
      obtain ⟨name, columns, unique⟩ := index
      simp only [IndexSchema.mk.injEq, true_and, and_true]
      have hmap := List.map_eq_map_iff (l := columns) (g := id)
        (f := Edits.follow (columnSteps dialect source target))
      rwa [List.map_id] at hmap
    rw [hcolumns]
    constructor
    · intro h column hcolumn existing hfind hname
      rw [← follow_matched dialect hfits hcolumn hfind]
      exact h _ hname
    · intro h name hname
      obtain ⟨column, hcolumn, existing, hfind, rfl⟩ := mem_matchedColumns.mp (hdropped index hmem name hname)
      rw [follow_matched dialect hfits hcolumn hfind]
      exact h column hcolumn existing hfind hname
  · rw [if_neg fun heq => hmem (hthere.mp heq)]
    exact ⟨fun _ hsome => absurd hsome hmem, fun _ => rfl⟩

/-- A column is as desired when it is unique through itself where it must be. -/
theorem finalColumn_comparable (column : ColumnSchema) :
    comparableColumn (finalColumn dialect source target column) dialect
        (enforcesUnique target.indexes (finalColumn dialect source target column)) =
      comparableColumn column dialect (enforcesUnique target.indexes column) ↔
    ∀ existing, findExistingColumn source column = some existing →
      columnChanges dialect source target existing column = false → column.unique →
      existing.unique ∨ onlyUniqueIndex target.indexes column.columnName := by
  unfold finalColumn
  cases hfind : findExistingColumn source column with
  | none => exact ⟨fun _ existing h => (nomatch h), fun _ => rfl⟩
  | some existing =>
    simp only
    cases hchanges : columnChanges dialect source target existing column with
    | true =>
      rw [if_pos rfl]
      refine ⟨fun _ other h hsame => ?_, fun _ => rfl⟩
      rw [← Option.some.inj h, hchanges] at hsame
      cases hsame
    | false =>
      rw [if_neg Bool.false_ne_true]
      have hsame : comparableColumn existing dialect (enforcesUnique source.indexes existing) =
          comparableColumn column dialect (enforcesUnique target.indexes column) := by
        simpa [columnChanges] using hchanges
      have hunique := congrArg ComparableColumn.unique hsame
      change enforcesUnique source.indexes existing = enforcesUnique target.indexes column at hunique
      have hothers : ∀ unique, comparableColumn existing dialect unique =
          comparableColumn column dialect unique := fun unique =>
        congrArg (fun comparable => { comparable with unique := unique }) hsame
      show comparableColumn existing dialect (existing.unique ||
        onlyUniqueIndex target.indexes column.columnName) = _ ↔ _
      rw [hothers, enforcesUnique_eq]
      rw [enforcesUnique_eq, enforcesUnique_eq] at hunique
      constructor
      · intro h other hother _ hcolumn
        obtain rfl := Option.some.inj hother
        have heq := congrArg ComparableColumn.unique h
        change (existing.unique || _) = (column.unique || _) at heq
        rw [hcolumn, Bool.true_or] at heq
        exact Bool.or_eq_true_iff.mp heq
      · intro h
        have hcolumn := h existing rfl hchanges
        revert hunique hcolumn
        cases existing.unique <;> cases column.unique <;>
          cases onlyUniqueIndex target.indexes column.columnName <;> simp

/-- The diff of a table turns it into the desired one exactly when it is covered. -/
theorem editAll_agrees_iff (hsource : source.Distinct) (htarget : target.Distinct)
    (hindexed : ∀ index ∈ source.indexes, ∀ column ∈ index.columns, column ∈ source.columnNames)
    (hindexed' : ∀ index ∈ target.indexes, ∀ column ∈ index.columns, column ∈ target.columnNames) :
    (∃ t, editAll (diffTable dialect source target) source.table = some t ∧ target.Agrees dialect t) ↔
      TableCovered dialect source target := by
  have hheld : ∀ {indexes : List IndexSchema}, IndexNames indexes → ∀ index,
      byName indexes index.name = some index ↔ index ∈ indexes := fun hnames index =>
    (Edits.byKey_eq_some hnames).trans (and_iff_left rfl)
  constructor
  · rintro ⟨t, hedit, hagrees⟩
    obtain ⟨horder, hdropped⟩ := orderly_of_editAll dialect hsource htarget hindexed hedit fun name hname => by
      obtain ⟨column, hcolumn, rfl⟩ := List.mem_map.mp hname
      obtain ⟨held, hheld, -⟩ := hagrees.column column hcolumn
      rw [hheld]
      exact Option.some_ne_none held
    have hfits := (columnSteps_fits dialect hsource.columns htarget.columns).mpr horder
    obtain ⟨t', hedit', hnames, hfinal, -, hbyName⟩ :=
      editAll_diffTable dialect hsource htarget hindexed' horder hdropped
    obtain rfl := Option.some.inj (hedit'.symm.trans hedit)
    refine ⟨horder, hdropped, fun index hindex => ?_, fun column hcolumn => ?_⟩
    · apply (kept_eq_iff dialect hsource hfits hdropped index).mp
      have hsome := (hheld hnames index).mpr ((hagrees.index index).mpr hindex)
      rw [hbyName, (hheld htarget.indexes index).mpr hindex] at hsome
      exact Option.some.inj hsome
    · apply (finalColumn_comparable dialect column).mp
      obtain ⟨held, hcolumnHeld, hcomparable⟩ := hagrees.column column hcolumn
      rw [hfinal column hcolumn] at hcolumnHeld
      obtain rfl := Option.some.inj hcolumnHeld
      rwa [enforcesUnique_eq, onlyUniqueIndex_congr hagrees.index, ← enforcesUnique_eq] at hcomparable
  · intro h
    have hfits := (columnSteps_fits dialect hsource.columns htarget.columns).mpr h.order
    obtain ⟨t, hedit, hnames, hfinal, honly, hbyName⟩ :=
      editAll_diffTable dialect hsource htarget hindexed' h.order h.dropped
    have hindex : ∀ index, index ∈ t.indexes ↔ index ∈ target.indexes := by
      intro index
      rw [← hheld hnames, ← hheld htarget.indexes, hbyName]
      cases hdesired : byName target.indexes index.name with
      | none => rfl
      | some other =>
        have hmem := (Edits.byKey_some hdesired).1
        rw [Option.map_some,
          (kept_eq_iff dialect hsource hfits h.dropped other).mpr (h.index other hmem)]
    refine ⟨t, hedit, htarget, fun column hcolumn => ⟨_, hfinal column hcolumn, ?_⟩, honly, hindex⟩
    rw [enforcesUnique_eq, onlyUniqueIndex_congr hindex, ← enforcesUnique_eq]
    exact (finalColumn_comparable dialect column).mpr (h.unique column hcolumn)

end table

end Cossack.Database.Schema
