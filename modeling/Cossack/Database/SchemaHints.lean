import Mathlib.Data.List.Nodup
import Cossack.Database.SchemaCompleteness

/-! # A schema against itself

    A rename hint stays in the model after the rename was applied.  A table or
    column is matched with the first one that has its name or the name of its
    hint, so a hint does harm exactly when it names one that is listed earlier. -/

namespace Cossack.Database.Schema

/-! ## Section 1: Matching a list with itself -/

/-- Every item is found first exactly when no earlier item answers for it. -/
theorem find_self_iff {A : Type} {answers : A → A → Bool} {items : List A} (hnodup : items.Nodup)
    (hself : ∀ x ∈ items, answers x x = true) :
    (∀ x ∈ items, items.find? (answers x) = some x) ↔
      items.Pairwise fun earlier x => answers x earlier = false := by
  induction items with
  | nil => simp
  | cons a rest ih =>
    obtain ⟨hnew, hrest⟩ := List.nodup_cons.mp hnodup
    have hself' : ∀ x ∈ rest, answers x x = true := fun x hx => hself x (List.mem_cons_of_mem _ hx)
    rw [List.pairwise_cons, ← ih hrest hself', List.forall_mem_cons]
    have hhead : (a :: rest).find? (answers a) = some a :=
      List.find?_cons_of_pos (hself a List.mem_cons_self)
    constructor
    · rintro ⟨-, hall⟩
      have hmissed : ∀ x ∈ rest, answers x a = false := by
        intro x hx
        by_contra hanswers
        have hfound := hall x hx
        rw [List.find?_cons_of_pos (by simpa using hanswers)] at hfound
        exact hnew (Option.some.inj hfound ▸ hx)
      refine ⟨hmissed, ?_⟩
      intro x hx
      have hfound := hall x hx
      rwa [List.find?_cons_of_neg (by simp [hmissed x hx])] at hfound
    · rintro ⟨hmissed, hall⟩
      refine ⟨hhead, ?_⟩
      intro x hx
      rw [List.find?_cons_of_neg (by simp [hmissed x hx])]
      exact hall x hx

/-- No item is hinted at the name of an item before it. -/
def HintsForward {A : Type} (name : A → String) (hint : A → Option String) (items : List A) : Prop :=
  items.Pairwise fun earlier x => hint x ≠ some (name earlier)

theorem find_named_iff {A : Type} {name : A → String} {hint : A → Option String} {items : List A}
    (hnames : (items.map name).Nodup) :
    (∀ x ∈ items, items.find? (fun y => name y = name x || some (name y) = hint x) = some x) ↔
      HintsForward name hint items := by
  have hdistinct : items.Pairwise fun earlier x => name earlier ≠ name x := List.pairwise_map.mp hnames
  rw [find_self_iff (hnames.of_map name) (fun x _ => by simp)]
  constructor
  · intro h
    apply h.imp
    intro earlier x hmissed heq
    simp [heq] at hmissed
  · intro h
    apply (hdistinct.and h).imp
    intro earlier x hboth
    simp [hboth.1, hboth.2.symm]

/-! ## Section 2: One table -/

/-- A column without changes is matched with itself. -/
theorem diffColumn_self_iff (dialect : Option Dialect) {entity : EntitySchema}
    (hnames : entity.columnNames.Nodup) {column : ColumnSchema} (hmem : column ∈ entity.columns) :
    diffColumn dialect entity entity column = [] ↔
      findExistingColumn entity column = some column := by
  unfold diffColumn
  cases hfound : findExistingColumn entity column with
  | none => simp
  | some existing =>
    have hexisting := findExistingColumn_mem hfound
    constructor
    · intro hnone
      have hname : existing.columnName = column.columnName := by
        by_contra hne
        simp [hne] at hnone
      rw [List.inj_on_of_nodup_map hnames hexisting hmem hname]
    · intro hself
      obtain rfl := Option.some.inj hself
      simp [columnChanges]

theorem indexesByName_nodup (indexes : List IndexSchema) :
    ((indexesByName indexes).map Prod.fst).Nodup := by
  have hfold (rest : List IndexSchema) : ∀ entries : List (String × IndexSchema),
      (entries.map Prod.fst).Nodup →
        ((rest.foldl (fun entries index => Entries.set entries index.name index) entries).map
          Prod.fst).Nodup := by
    induction rest with
    | nil => exact fun _ h => h
    | cons index rest ih => exact fun entries h => ih _ (Entries.nodup_set h index.name index)
  exact hfold indexes [] List.nodup_nil

theorem diffIndexes_self (entity : EntitySchema) : diffIndexes entity entity = [] := by
  have hget {name : String} {index : IndexSchema} (h : (name, index) ∈ indexesByName entity.indexes) :
      Entries.get (indexesByName entity.indexes) name = some index :=
    (Entries.get_eq_some (indexesByName_nodup entity.indexes)).mpr h
  unfold diffIndexes
  dsimp only
  rw [List.append_eq_nil_iff, List.flatMap_eq_nil_iff, List.map_eq_nil_iff, List.filter_eq_nil_iff]
  constructor
  · rintro ⟨name, index⟩ hmem
    simp [hget hmem]
  · intro name hname
    obtain ⟨⟨name, index⟩, hmem, rfl⟩ := List.mem_map.mp hname
    simp [hget hmem]

/-- A table has no changes exactly when none of its columns has. -/
theorem diffTable_self_iff (dialect : Option Dialect) {entity : EntitySchema}
    (hnames : entity.columnNames.Nodup) :
    diffTable dialect entity entity = [] ↔
      HintsForward ColumnSchema.columnName ColumnSchema.renamedFrom entity.columns := by
  rw [← find_named_iff hnames]
  unfold diffTable
  rw [diffIndexes_self, List.append_nil, List.append_eq_nil_iff, List.flatMap_eq_nil_iff]
  constructor
  · rintro ⟨hcolumns, -⟩ column hmem
    exact (diffColumn_self_iff dialect hnames hmem).mp (hcolumns column hmem)
  · intro hfound
    refine ⟨fun column hmem => (diffColumn_self_iff dialect hnames hmem).mpr (hfound column hmem), ?_⟩
    rw [List.map_eq_nil_iff, List.filter_eq_nil_iff]
    intro column hmem
    have hmatched : column.columnName ∈ matchedColumns entity entity :=
      List.mem_map_of_mem (List.mem_filterMap.mpr ⟨column, hmem, hfound column hmem⟩)
    simp [hmatched]

/-! ## Section 3: The schema -/

theorem diffEntity_self_iff (dialect : Option Dialect) {s : OrmSchema} (h : s.Accepted)
    {entity : EntitySchema} (hmem : entity ∈ s.entities) :
    diffEntity dialect s entity = [] ↔
      findExistingEntity s entity = some entity ∧
        HintsForward ColumnSchema.columnName ColumnSchema.renamedFrom entity.columns := by
  rw [← diffTable_self_iff dialect (h.columns entity hmem)]
  unfold diffEntity
  cases hfound : findExistingEntity s entity with
  | none => simp
  | some source =>
    have hsource := findExistingEntity_mem hfound
    rw [List.append_eq_nil_iff]
    constructor
    · rintro ⟨hrename, htable⟩
      have hname : source.tableName = entity.tableName := by
        by_contra hne
        simp [hne] at hrename
      obtain rfl := List.inj_on_of_nodup_map h.tables hsource hmem hname
      exact ⟨rfl, htable⟩
    · rintro ⟨hself, htable⟩
      obtain rfl := Option.some.inj hself
      exact ⟨by simp, htable⟩

/-- The hints of a schema that do no harm: none names a table, or a column of the
    same table, that is listed before its own. -/
structure OrmSchema.HintsForward (s : OrmSchema) : Prop where
  tables : Schema.HintsForward EntitySchema.tableName EntitySchema.renamedFrom s.entities
  columns : ∀ entity ∈ s.entities,
    Schema.HintsForward ColumnSchema.columnName ColumnSchema.renamedFrom entity.columns

theorem schemaOperations_self_iff {s : OrmSchema} (h : s.Accepted) :
    schemaOperations s s = [] ↔ s.HintsForward := by
  have htables : (∀ entity ∈ s.entities, findExistingEntity s entity = some entity) ↔
      Schema.HintsForward EntitySchema.tableName EntitySchema.renamedFrom s.entities :=
    find_named_iff h.tables
  unfold schemaOperations
  rw [List.append_eq_nil_iff, List.flatMap_eq_nil_iff]
  constructor
  · rintro ⟨hentities, -⟩
    have hself (entity : EntitySchema) (hmem : entity ∈ s.entities) :=
      (diffEntity_self_iff _ h hmem).mp (hentities entity hmem)
    exact ⟨htables.mp fun entity hmem => (hself entity hmem).1, fun entity hmem => (hself entity hmem).2⟩
  · intro hhints
    have hfound (entity : EntitySchema) (hmem : entity ∈ s.entities) :
        findExistingEntity s entity = some entity := htables.mpr hhints.tables entity hmem
    refine ⟨?_, ?_⟩
    · intro entity hmem
      exact (diffEntity_self_iff _ h hmem).mpr ⟨hfound entity hmem, hhints.columns entity hmem⟩
    · unfold droppedTables
      rw [List.map_eq_nil_iff, List.map_eq_nil_iff, List.filter_eq_nil_iff]
      intro entity hmem
      have hmatched : entity.tableName ∈ matchedTables s s :=
        List.mem_append_right _ (List.mem_map_of_mem
          (List.mem_filterMap.mpr ⟨entity, hmem, hfound entity hmem⟩))
      simp [hmatched]

theorem operations_of_empty {existing desired : OrmSchema} {allowDestructive : Bool}
    (h : diffSchemas existing desired allowDestructive = .ok ⟨[], []⟩) :
    schemaOperations existing desired = [] := by
  unfold diffSchemas at h
  dsimp only at h
  split at h
  · cases h
  · exact congrArg SchemaDiff.operations (Except.ok.inj h)

/-- The diff of a schema with itself is empty exactly when its hints do no harm. -/
theorem diff_self_empty_iff {s : OrmSchema} (h : s.Accepted) (allowDestructive : Bool) :
    diffSchemas s s allowDestructive = .ok ⟨[], []⟩ ↔ s.HintsForward := by
  rw [← schemaOperations_self_iff h]
  refine ⟨operations_of_empty, ?_⟩
  intro hnone
  simp [diffSchemas, hnone]

/-- The people of `peopleEntity` were split off from a table that is still there. -/
theorem diff_self_empty_people :
    diffSchemas ⟨some .sqlite, [peopleEntity]⟩ ⟨some .sqlite, [peopleEntity]⟩ false = .ok ⟨[], []⟩ :=
  (diff_self_empty_iff accepted_people false).mpr
    ⟨List.pairwise_singleton _ _, fun entity hmem => by
      obtain rfl : entity = peopleEntity := List.mem_singleton.mp hmem
      simp [HintsForward, peopleEntity, idColumn, nameColumn]⟩

/-- A table that was renamed once, beside a new table of its old name. -/
theorem diff_self_renames :
    OrmSchema.Accepted ⟨some .sqlite, [usersEntity, peopleEntity]⟩ ∧
    diffSchemas ⟨some .sqlite, [usersEntity, peopleEntity]⟩ ⟨some .sqlite, [usersEntity, peopleEntity]⟩
      true ≠ .ok ⟨[], []⟩ := by
  have haccepted : OrmSchema.Accepted ⟨some .sqlite, [usersEntity, peopleEntity]⟩ :=
    ⟨by decide, by decide, by decide⟩
  refine ⟨haccepted, ?_⟩
  intro hempty
  have hhints := ((schemaOperations_self_iff haccepted).mp (operations_of_empty hempty)).tables
  exact absurd rfl (List.rel_of_pairwise_cons hhints List.mem_cons_self)

end Cossack.Database.Schema
