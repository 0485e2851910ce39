import Cossack.Database.EntitySaves
import Cossack.Lib.Outcome
import Mathlib

/-! # Saves refused by the optimistic lock

    When a save that rejects leaves the database and the entity as they were. -/

namespace Cossack.Database.EntitySaves

namespace ORM

variable (orm : ORM)

/-! ## Section 1: What each part leaves alone -/

theorem executeFragment_leaves_fields (statement : Statement) :
    Deferred.Leaves World.fields (orm.executeFragment statement) := by
  intro w w' h
  unfold executeFragment at h
  split at h
  · cases h
    rfl
  · split at h <;> cases h <;> rfl

theorem sequential_leaves_fields (statements : List Statement) :
    Deferred.Leaves World.fields (orm.sequential statements) :=
  Deferred.leaves_each (fun statement =>
    Deferred.leaves_bind (orm.executeFragment_leaves_fields statement) fun _ =>
      Deferred.leaves_pure _) statements

theorem transaction_leaves_fields {callback : Task Unit}
    (h : Deferred.Leaves World.fields callback) :
    Deferred.Leaves World.fields (orm.transaction callback) := by
  intro w w' hw
  unfold transaction at hw
  cases hrun : callback w with
  | resolved a w₁ =>
    have hfields := h.resolved hrun
    rw [hrun] at hw
    dsimp only at hw
    split at hw <;> cases hw <;> exact hfields
  | rejected cause w₁ =>
    have hfields := h.rejected hrun
    rw [hrun] at hw
    cases hw
    exact hfields
  | pending =>
    rw [hrun] at hw
    exact (nomatch hw)

theorem batch_leaves_fields (statements : List Statement) :
    Deferred.Leaves World.fields (orm.batch statements) := by
  intro w w' h
  unfold batch at h
  split at h <;> cases h <;> rfl

theorem executeAtomically_leaves_fields (statements : List Statement) :
    Deferred.Leaves World.fields (orm.executeAtomically statements) := by
  have hsequential := orm.sequential_leaves_fields statements
  unfold executeAtomically
  dsimp only
  split
  · exact hsequential
  split
  · exact orm.transaction_leaves_fields hsequential
  split
  · split
    · exact Deferred.leaves_throw _
    split
    · exact Deferred.leaves_throw _
    · exact orm.batch_leaves_fields statements
  · exact hsequential

/-- Replacing join rows touches no entity. -/
theorem syncJoinTables_leaves_fields (e : Ref) (operation : Cascade)
    (relations : List RelationMetadata) (changed : Bool) :
    Deferred.Leaves World.fields (orm.syncJoinTables e operation relations changed) := by
  induction relations generalizing changed with
  | nil => exact Deferred.leaves_pure _
  | cons relation rest ih =>
    refine Deferred.leaves_bind Deferred.leaves_get fun w => ?_
    cases orm.joinReplacement w e operation relation with
    | none => exact ih changed
    | some statements =>
      exact Deferred.leaves_bind (orm.executeAtomically_leaves_fields statements) fun _ => ih true

/-! ## Section 2: The assignments -/

@[simp] theorem setField_tables (w : World) (e : Ref) (property : String) (v : Value) :
    (w.setField e property v).tables = w.tables := rfl

@[simp] theorem setField_fields (w : World) (e : Ref) (property : String) (v : Value) :
    (w.setField e property v).fields e = Function.update (w.fields e) property v := by
  simp [World.setField]

theorem syncRelationColumns_tables (e : Ref) (m : EntityMetadata)
    (original : Option (String → Option Value)) (w : World) :
    (orm.syncRelationColumns e m original w).tables = w.tables := by
  unfold syncRelationColumns
  induction m.relations generalizing w with
  | nil => rfl
  | cons relation rest ih =>
    rw [List.foldl_cons, ih]
    unfold syncRelationColumn
    split
    · split
      · rfl
      · split <;> rfl
    · rfl

theorem stamped_tables (e : Ref) (m : EntityMetadata) (w : World) :
    (orm.stamped e m w).world.tables = w.tables := by
  unfold stamped
  dsimp only
  split
  · split <;> simp [syncRelationColumns_tables]
  · simp [syncRelationColumns_tables]

theorem prepare_error {e : Ref} {m : EntityMetadata} {w : World} {cause : Cause}
    (h : primaryWhere m ((orm.stamped e m w).world.fields e) = .error cause) :
    orm.prepare e m w = .rejected cause (orm.stamped e m w).world := by
  simp [prepare, h]

theorem prepare_ok {e : Ref} {m : EntityMetadata} {w : World} {where_ : Values}
    (h : primaryWhere m ((orm.stamped e m w).world.fields e) = .ok where_) :
    orm.prepare e m w =
      .resolved ((orm.raised e m where_ (orm.stamped e m w)).2,
        (orm.raised e m where_ (orm.stamped e m w)).1.changes)
        (orm.raised e m where_ (orm.stamped e m w)).1.world := by
  simp [prepare, h]

theorem rejects_prepare {Q : World → Prop} (e : Ref) (m : EntityMetadata) (w : World) :
    (orm.prepare e m).Rejects Q w ↔
      ∃ cause, primaryWhere m ((orm.stamped e m w).world.fields e) = .error cause ∧
        Q (orm.stamped e m w).world := by
  unfold Deferred.Rejects
  cases hkey : primaryWhere m ((orm.stamped e m w).world.fields e) with
  | error cause => simp [orm.prepare_error hkey]
  | ok where_ => simp [orm.prepare_ok hkey]

theorem resolves_prepare {P : Values × Values → World → Prop} (e : Ref) (m : EntityMetadata)
    (w : World) :
    (orm.prepare e m).Resolves P w ↔
      ∃ where_, primaryWhere m ((orm.stamped e m w).world.fields e) = .ok where_ ∧
        P ((orm.raised e m where_ (orm.stamped e m w)).2,
          (orm.raised e m where_ (orm.stamped e m w)).1.changes)
          (orm.raised e m where_ (orm.stamped e m w)).1.world := by
  unfold Deferred.Resolves
  cases hkey : primaryWhere m ((orm.stamped e m w).world.fields e) with
  | error cause => simp [orm.prepare_error hkey]
  | ok where_ =>
    rw [orm.prepare_ok hkey]
    constructor
    · rintro ⟨_, _, h, hP⟩
      cases h
      exact ⟨where_, rfl, hP⟩
    · rintro ⟨_, h, hP⟩
      cases h
      exact ⟨_, _, rfl, hP⟩

end ORM

/-! ## Section 3: Saves that reject and leave everything unchanged -/

/-- The database and the entity's own fields are those of `w`. -/
def Same (e : Ref) (w w' : World) : Prop := w'.tables = w.tables ∧ w'.fields e = w.fields e

namespace ORM

variable (orm : ORM)

/-- The save rejects, with the database and the entity's own fields as before. -/
def FailsUnchanged (e : Ref) (w : World) : Prop := (orm.save e).Rejects (Same e w) w

/-- What runs before the save does anything itself: the hooks of the entity and the
    `save` of the related objects it cascades to. -/
def callees (e : Ref) (m : EntityMetadata) : Task Unit := do
  orm.invokeHooks e m .beforeUpdate
  orm.saveCascades e m .update

/-- The update as it stands when the first statement is sent. -/
def assigned (e : Ref) (m : EntityMetadata) (where_ : Values) (w : World) : Update :=
  (orm.raised e m where_ (orm.stamped e m w)).1

/-- The conditions of its `UPDATE`. -/
def conditions (e : Ref) (m : EntityMetadata) (where_ : Values) (w : World) : Values :=
  (orm.raised e m where_ (orm.stamped e m w)).2

/-- The `UPDATE` cannot be made, is refused, or finds no row of the version. -/
def CannotWrite (m : EntityMetadata) (where_ changes : Values) (tables : Tables) : Prop :=
  match orm.updateStatement m where_ changes with
  | .error _ => True
  | .ok statement =>
    orm.driver.capabilities.parameterLimit < statement.parameters ∨
      (orm.driver.refuses statement tables).isSome ∨
      lockFailed m (orm.driver.result tables statement)

/-- The world in which the hooks after an update run, where they do. -/
def Written (e : Ref) (m : EntityMetadata) (where_ changes : Values) (changed : Bool)
    (w₂ w₃ : World) : Prop :=
  if changes = [] then changed = true ∧ w₃ = w₂
  else
    ∃ statement result w', orm.updateStatement m where_ changes = .ok statement ∧
      orm.executeFragment statement w₂ = .resolved result w' ∧
      lockFailed m result = false ∧ w₃ = refreshSnapshot e w'

/-- Where a save of a loaded entity can stop with nothing changed. -/
inductive Untouched (e : Ref) (m : EntityMetadata) (w : World) : Prop
  /-- A hook or a related object's save rejects, having changed nothing. -/
  | called (h : (orm.callees e m).Rejects (Same e w) w)
  /-- A primary key property has no value, and no relation column or update date was due. -/
  | keyMissing (w₁ : World) (cause : Cause) (hcallees : orm.callees e m w = .resolved () w₁)
      (hkey : primaryWhere m ((orm.stamped e m w₁).world.fields e) = .error cause)
      (htables : w₁.tables = w.tables)
      (hfields : (orm.stamped e m w₁).world.fields e = w.fields e)
  /-- Nothing was to be assigned, and the join rows could not be replaced. -/
  | joinsRefused (w₁ : World) (where_ : Values) (hcallees : orm.callees e m w = .resolved () w₁)
      (hkey : primaryWhere m ((orm.stamped e m w₁).world.fields e) = .ok where_)
      (hfields : (orm.assigned e m where_ w₁).world.fields e = w.fields e)
      (hjoins : (orm.syncJoinTables e .update m.relations false).Rejects
        (fun w' => w'.tables = w.tables) (orm.assigned e m where_ w₁).world)
  /-- The version property held the raised version already, the join tables the rows
      they were given, and the `UPDATE` came to nothing. -/
  | notWritten (w₁ w₂ : World) (where_ : Values) (changed : Bool)
      (hcallees : orm.callees e m w = .resolved () w₁)
      (hkey : primaryWhere m ((orm.stamped e m w₁).world.fields e) = .ok where_)
      (hfields : (orm.assigned e m where_ w₁).world.fields e = w.fields e)
      (hjoins : orm.syncJoinTables e .update m.relations false (orm.assigned e m where_ w₁).world =
        .resolved changed w₂)
      (htables : w₂.tables = w.tables)
      (hchanges : (orm.assigned e m where_ w₁).changes ≠ [])
      (hwrite : orm.CannotWrite m (orm.conditions e m where_ w₁)
        (orm.assigned e m where_ w₁).changes w₂.tables)
  /-- The save went through and a hook after it rejects, with everything back in place. -/
  | hook (w₁ w₂ w₃ : World) (where_ : Values) (changed : Bool)
      (hcallees : orm.callees e m w = .resolved () w₁)
      (hkey : primaryWhere m ((orm.stamped e m w₁).world.fields e) = .ok where_)
      (hjoins : orm.syncJoinTables e .update m.relations false (orm.assigned e m where_ w₁).world =
        .resolved changed w₂)
      (hwritten : orm.Written e m (orm.conditions e m where_ w₁)
        (orm.assigned e m where_ w₁).changes changed w₂ w₃)
      (hhook : (orm.invokeHooks e m .afterUpdate).Rejects (Same e w) w₃)

/-! ## Section 4: The last step -/

theorem updateStatement_ok {m : EntityMetadata} {where_ changes : Values} {statement : Statement}
    (h : orm.updateStatement m where_ changes = .ok statement) :
    ∃ conditions set, statement = .update m.tableName conditions set := by
  unfold updateStatement at h
  split at h
  · exact (nomatch h)
  obtain ⟨_, -, h⟩ := Outcome.bind_eq_ok.mp h
  split at h
  · exact (nomatch h)
  obtain ⟨set, -, h⟩ := Outcome.bind_eq_ok.mp h
  obtain ⟨conditions, -, h⟩ := Outcome.bind_eq_ok.mp h
  cases h
  exact ⟨conditions, set, rfl⟩

/-- An `UPDATE` that finds no row changes none. -/
theorem run_of_lockFailed {m : EntityMetadata} {tables : Tables} {table : String}
    {conditions set : Values}
    (h : lockFailed m (orm.driver.result tables (.update table conditions set)) = true) :
    orm.driver.run tables (.update table conditions set) = tables := by
  have hnone : (tables table).countP (orm.driver.selects conditions) = 0 := by
    unfold lockFailed Driver.result at h
    rw [Bool.and_eq_true, beq_iff_eq] at h
    obtain ⟨-, h⟩ := h
    dsimp only at h
    split at h
    · exact Option.some.inj h
    · exact (nomatch h)
  rw [List.countP_eq_zero] at hnone
  have hrows : ((tables table).map fun row =>
      if orm.driver.selects conditions row then assign row set else row) = tables table := by
    rw [List.map_congr_left fun row hrow => if_neg (hnone row hrow), List.map_id']
  show Function.update tables table _ = tables
  rw [hrows, Function.update_eq_self]

theorem rejects_executeFragment {Q : World → Prop} (statement : Statement) (w : World) :
    (orm.executeFragment statement).Rejects Q w ↔
      (orm.driver.capabilities.parameterLimit < statement.parameters ∨
        (orm.driver.refuses statement w.tables).isSome) ∧ Q w := by
  unfold Deferred.Rejects executeFragment
  by_cases hlimit : orm.driver.capabilities.parameterLimit < statement.parameters
  · simp [hlimit]
  · cases horefuses : orm.driver.refuses statement w.tables <;> simp [hlimit, horefuses]

theorem executeFragment_resolved {statement : Statement} {w w' : World} {result : Result}
    (h : orm.executeFragment statement w = .resolved result w') :
    ¬ orm.driver.capabilities.parameterLimit < statement.parameters ∧
      orm.driver.refuses statement w.tables = none ∧
      result = orm.driver.result w.tables statement ∧
      w' = { w with tables := orm.driver.run w.tables statement } := by
  unfold executeFragment at h
  split at h
  · exact (nomatch h)
  · rename_i hlimit
    split at h
    · exact (nomatch h)
    · rename_i hrefuses
      cases h
      exact ⟨hlimit, hrefuses, rfl, rfl⟩

theorem executeFragment_run {statement : Statement} {w : World}
    (hlimit : ¬ orm.driver.capabilities.parameterLimit < statement.parameters)
    (hrefuses : orm.driver.refuses statement w.tables = none) :
    orm.executeFragment statement w = .resolved (orm.driver.result w.tables statement)
      { w with tables := orm.driver.run w.tables statement } := by
  unfold executeFragment
  rw [if_neg hlimit, hrefuses]

/-- The `UPDATE` and what follows rejects in a world as it was, or in a later hook. -/
theorem rejects_writeChanges (e : Ref) (m : EntityMetadata) (where_ changes : Values)
    (w w₂ : World) :
    (orm.writeChanges e m where_ changes).Rejects (Same e w) w₂ ↔
      (Same e w w₂ ∧ orm.CannotWrite m where_ changes w₂.tables) ∨
        ∃ statement result w', orm.updateStatement m where_ changes = .ok statement ∧
          orm.executeFragment statement w₂ = .resolved result w' ∧ lockFailed m result = false ∧
          (orm.invokeHooks e m .afterUpdate).Rejects (Same e w) (refreshSnapshot e w') := by
  unfold writeChanges CannotWrite
  cases hstatement : orm.updateStatement m where_ changes with
  | error cause =>
    rw [Deferred.rejects_bind]
    simp [Deferred.ofExcept, Deferred.Rejects, Deferred.Resolves]
  | ok statement =>
    obtain ⟨conditions, set, hshape⟩ := orm.updateStatement_ok hstatement
    have hread : ∀ P : Statement → World → Prop,
        (Deferred.ofExcept (Except.ok statement) : Task Statement).Resolves P w₂ ↔
          P statement w₂ := by
      intro P
      constructor
      · rintro ⟨_, _, h, hP⟩
        cases h
        exact hP
      · exact fun hP => ⟨statement, w₂, rfl, hP⟩
    have hnever : ¬ (Deferred.ofExcept (Except.ok statement) : Task Statement).Rejects
        (Same e w) w₂ := by
      rintro ⟨_, _, h, _⟩
      cases h
    rw [Deferred.rejects_bind, hread, Deferred.rejects_bind, rejects_executeFragment]
    constructor
    · rintro (h | ⟨⟨hrefused, hsame⟩⟩ | ⟨result, w', hrun, hrest⟩)
      · exact absurd h hnever
      · exact Or.inl ⟨hsame, by tauto⟩
      · obtain ⟨hlimit, hrefuses, hresult, hworld⟩ := orm.executeFragment_resolved hrun
        by_cases hlock : lockFailed m result = true
        · -- no row was found, so the tables are those before the statement
          rw [if_pos hlock, Deferred.rejects_throw] at hrest
          rw [hresult, hshape] at hlock
          have hsame : w' = w₂ := by
            rw [hworld, hshape, orm.run_of_lockFailed hlock]
          rw [hsame] at hrest
          exact Or.inl ⟨hrest, Or.inr (Or.inr (hshape ▸ hlock))⟩
        · rw [if_neg hlock, Deferred.rejects_bind] at hrest
          have hhook := hrest.resolve_left Deferred.rejects_modify
          rw [Deferred.resolves_modify] at hhook
          exact Or.inr ⟨statement, result, w', rfl, hrun, by simpa using hlock, hhook⟩
    · rintro (⟨hsame, hwrite⟩ | ⟨statement', result, w', hstatement', hrun, hlock, hhook⟩)
      · by_cases hrefused : orm.driver.capabilities.parameterLimit < statement.parameters ∨
          (orm.driver.refuses statement w₂.tables).isSome
        · exact Or.inr (Or.inl ⟨hrefused, hsame⟩)
        · rw [not_or] at hrefused
          have hrefuses : orm.driver.refuses statement w₂.tables = none := by
            simpa using hrefused.2
          have hlock : lockFailed m (orm.driver.result w₂.tables statement) = true := by
            tauto
          refine Or.inr (Or.inr ⟨_, _, orm.executeFragment_run hrefused.1 hrefuses, ?_⟩)
          dsimp only
          rw [if_pos hlock, Deferred.rejects_throw]
          rw [hshape] at hlock ⊢
          rw [orm.run_of_lockFailed hlock]
          exact hsame
      · cases hstatement'
        refine Or.inr (Or.inr ⟨result, w', hrun, ?_⟩)
        dsimp only
        rw [if_neg (by simp [hlock]), Deferred.rejects_bind, Deferred.resolves_modify]
        exact Or.inr hhook

/-! ## Section 5: The save -/

theorem save_loaded {e : Ref} {w : World} {state : EntityState} (hstate : w.states e = some state)
    (hloaded : state.isNew = false) : orm.save e w = orm.saveLoaded e state.metadata w := by
  have hread : orm.stateFor e w = .resolved state w := by
    unfold stateFor
    rw [hstate]
  unfold save
  rw [Deferred.bind_apply, hread]
  simp [hloaded]

theorem saveLoaded_eq (e : Ref) (m : EntityMetadata) :
    orm.saveLoaded e m = (do
      orm.callees e m
      let update ← orm.prepare e m
      let relationChanged ← orm.syncJoinTables e .update m.relations false
      if !update.2.isEmpty then orm.writeChanges e m update.1 update.2
      else if relationChanged then orm.invokeHooks e m .afterUpdate
      else pure ()) := by
  unfold saveLoaded callees
  rw [bind_assoc]

/-- What is left of a save once its update is prepared. -/
theorem rejects_statements (e : Ref) (m : EntityMetadata) (where_ changes : Values) (w w₁ : World) :
    (do
      let relationChanged ← orm.syncJoinTables e .update m.relations false
      if !changes.isEmpty then orm.writeChanges e m where_ changes
      else if relationChanged then orm.invokeHooks e m .afterUpdate
      else pure () : Task Unit).Rejects (Same e w) w₁ ↔
      (w₁.fields e = w.fields e ∧ (orm.syncJoinTables e .update m.relations false).Rejects
        (fun w' => w'.tables = w.tables) w₁) ∨
      (w₁.fields e = w.fields e ∧ changes ≠ [] ∧ ∃ changed w₂,
        orm.syncJoinTables e .update m.relations false w₁ = .resolved changed w₂ ∧
          w₂.tables = w.tables ∧ orm.CannotWrite m where_ changes w₂.tables) ∨
      ∃ changed w₂ w₃, orm.syncJoinTables e .update m.relations false w₁ = .resolved changed w₂ ∧
        orm.Written e m where_ changes changed w₂ w₃ ∧
        (orm.invokeHooks e m .afterUpdate).Rejects (Same e w) w₃ := by
  have hleaves := orm.syncJoinTables_leaves_fields e .update m.relations false
  rw [Deferred.rejects_bind]
  refine or_congr ?_ ?_
  · -- refused while the join rows are replaced
    constructor
    · rintro ⟨cause, w₂, hjoins, htables, hfields⟩
      rw [hleaves.rejected hjoins] at hfields
      exact ⟨hfields, cause, w₂, hjoins, htables⟩
    · rintro ⟨hfields, cause, w₂, hjoins, htables⟩
      exact ⟨cause, w₂, hjoins, htables, by rw [hleaves.rejected hjoins, hfields]⟩
  by_cases hchanges : changes = []
  · constructor
    · rintro ⟨changed, w₂, hjoins, h⟩
      rw [hchanges] at h
      cases changed with
      | false => exact absurd h Deferred.rejects_pure
      | true => exact Or.inr ⟨true, w₂, w₂, hjoins, by simp [Written, hchanges], h⟩
    · rintro (⟨-, hne, -⟩ | ⟨changed, w₂, w₃, hjoins, hwritten, hhook⟩)
      · exact absurd hchanges hne
      · rw [Written, if_pos hchanges] at hwritten
        obtain ⟨rfl, rfl⟩ := hwritten
        exact ⟨true, w₃, hjoins, by simpa [hchanges] using hhook⟩
  · have hempty : (!changes.isEmpty) = true := by simpa using hchanges
    constructor
    · rintro ⟨changed, w₂, hjoins, h⟩
      rw [if_pos hempty, rejects_writeChanges] at h
      obtain ⟨⟨htables, hfields⟩, hwrite⟩ | ⟨statement, result, w', hstatement, hrun, hlock, hhook⟩ :=
        h
      · rw [hleaves.resolved hjoins] at hfields
        exact Or.inl ⟨hfields, hchanges, changed, w₂, hjoins, htables, hwrite⟩
      · refine Or.inr ⟨changed, w₂, _, hjoins, ?_, hhook⟩
        rw [Written, if_neg hchanges]
        exact ⟨statement, result, w', hstatement, hrun, hlock, rfl⟩
    · rintro (⟨hfields, -, changed, w₂, hjoins, htables, hwrite⟩ |
        ⟨changed, w₂, w₃, hjoins, hwritten, hhook⟩)
      · refine ⟨changed, w₂, hjoins, ?_⟩
        dsimp only
        rw [if_pos hempty, rejects_writeChanges]
        exact Or.inl ⟨⟨htables, by rw [hleaves.resolved hjoins, hfields]⟩, hwrite⟩
      · rw [Written, if_neg hchanges] at hwritten
        obtain ⟨statement, result, w', hstatement, hrun, hlock, rfl⟩ := hwritten
        refine ⟨changed, w₂, hjoins, ?_⟩
        dsimp only
        rw [if_pos hempty, rejects_writeChanges]
        exact Or.inr ⟨statement, result, w', hstatement, hrun, hlock, hhook⟩

/-- The stored row of a loaded entity has another version than the entity. -/
def Stale (e : Ref) (w : World) : Prop :=
  ∃ state version where_ conditions old, w.states e = some state ∧ state.isNew = false ∧
    versionColumn state.metadata = some version ∧
    primaryWhere state.metadata (w.fields e) = .ok where_ ∧
    where_.mapM (orm.encodeEntry state.metadata) = .ok conditions ∧
    orm.encode version (.number (orm.oldVersion e version w)) = .ok old ∧
    (∃ row ∈ w.tables state.metadata.tableName, orm.driver.selects conditions row = true) ∧
    ∀ row ∈ w.tables state.metadata.tableName, orm.driver.selects conditions row = true →
      orm.driver.equal (row version.columnName) old = false

end ORM

/-! ## Section 7: A stale save -/

private def column (name : String) (primary version updateDate : Bool) : ColumnMetadata where
  propertyName := name
  columnName := name
  primary := primary
  insert := true
  update := true
  createDate := false
  updateDate := updateDate
  version := version
  generated := none

private def tags : RelationMetadata where
  propertyName := "tags"
  cascade := [.insert, .update]
  owner := false
  joinProperty := none
  referencedProperty := none
  joinTable := some ⟨"post_tags", "post", "id", "tag", "id"⟩

private def post : EntityMetadata where
  modelName := "Post"
  tableName := "post"
  columns := [column "id" true false false, column "title" false false false,
    column "version" false true false, column "updatedAt" false false true]
  relations := [tags]
  hooks := fun _ => []

private def number (n : Int) : Value := .number (.int n)

private def driver : Driver where
  dialect := "sqlite"
  capabilities := ⟨true, true, false, 100, 999⟩
  transaction := true
  batch := false
  reportsRowsAffected := true
  refuses := fun _ _ => none
  refusesCommit := fun _ _ => none
  equal := fun a b => a == b
  stored := fun _ _ values => assign (fun _ => .null) values
  insertId := fun _ _ _ => none

private def blog : ORM where
  js := ⟨fun _ => "", fun _ => .nan⟩
  driver := driver
  transactionDepth := 0
  now := fun _ => 9
  randomUUID := fun _ => ""
  encode := fun _ v => .ok v
  decode := fun _ v => .ok v
  constructorName := fun _ => "Post"
  metadataByTarget := fun r => if r = 0 then some post else none
  method := fun _ _ => none

private def row (values : Values) : Fields := assign (fun _ => .undefined) values

private def loadedPost : EntityState where
  metadata := post
  original := fun property =>
    Entries.get [("id", number 1), ("title", .text "a"), ("version", number 1),
      ("updatedAt", .date 3)] property
  isNew := false

/-- Post 1 has been saved elsewhere since it was loaded; its title and tags have changed. -/
private def behind : World where
  tables := fun table =>
    if table = "post" then
      [row [("id", number 1), ("title", .text "c"), ("version", number 2), ("updatedAt", .date 5)]]
    else if table = "post_tags" then [row [("post", number 1), ("tag", number 7)]]
    else []
  fields := fun r =>
    if r = 0 then
      row [("id", number 1), ("title", .text "b"), ("version", number 1), ("updatedAt", .date 3)]
    else row [("id", number 8)]
  relations := fun r property => if r = 0 ∧ property = "tags" then .many [1] else .absent
  states := fun r => if r = 0 then some loadedPost else none

/-- The property `property` of the entity after a save that rejects. -/
private def after (property : String) : Option Value :=
  match (blog.linked 1).save 0 behind with
  | .rejected _ w => some (w.fields 0 property)
  | _ => none

/-- The tags of post 1 in the database after a save that rejects. -/
private def tagsAfter : Option (List Value) :=
  match (blog.linked 1).save 0 behind with
  | .rejected _ w => some ((w.tables "post_tags").map (· "tag"))
  | _ => none

end Cossack.Database.EntitySaves
