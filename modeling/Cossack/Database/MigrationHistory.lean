import Cossack.Database.MigrationConvergence
import Cossack.Lib.Runs

/-! # What the migration history says

    `up` and `down` of declarative migrations on a database where any statement
    may fail.  A run is kept with its journal, the migrations that completed in
    it, and the history table is compared with the journal. -/

namespace Cossack.Database

open Runs

variable {σ : Type}

/-! ## Section 1: Runs in which statements fail -/

/-- The statements up to position `fault`; a fault behind the last of them is
    one of the commit. -/
def World.execUntil (w : World σ) : Option Nat → List (Statement σ) → World σ × Bool
  | some 0, _ => (w, false)
  | _, [] => (w, true)
  | fault, s :: rest =>
      match w.exec s with
      | none => (w, false)
      | some w' => w'.execUntil (fault.map (· - 1)) rest

/-- `executeAtomic` with a failing statement. -/
def executeAtomicUntil (d : Driver) (fault : Option Nat) (queue : List (QueueItem σ))
    (bookkeeping : Statement σ) (w : World σ) : World σ × Except MigrationError Unit :=
  match renderQueue queue with
  | none => (w, .error { message := "unsupported operation" })
  | some statements =>
      match w.execUntil fault (statements ++ [bookkeeping]) with
      | (w', true) => (w', .ok ())
      | (w', false) =>
          (if !d.transactions && d.batch then w else w', .error { message := "statement failed" })

/-- `apply` and `revert`: the operations of one direction and their bookkeeping. -/
def migrateUntil (d : Driver) (fault : Option Nat) (direction : Direction) (m : Migration σ)
    (bookkeeping : Statement σ) (w : World σ) : World σ × Except MigrationError Unit :=
  match queueMigration m direction w with
  | (w', .error e) => (w', .error e)
  | (w', .ok queue) => executeAtomicUntil d fault queue bookkeeping w'

/-- The body of the loop of `up`. -/
def upOneUntil (d : Driver) (now : String → String) (batch : Nat) (fault : String → Option Nat)
    (s : MigrationStatus σ) (w : World σ) : World σ × Except MigrationError Unit :=
  let name := s.migration.name
  let replacements := s.migration.replaces.getD []
  let appliedReplacements := replacements.filter (· ∈ w.history.names)
  if replacements ≠ [] ∧ appliedReplacements ≠ [] ∧
      appliedReplacements.length ≠ replacements.length then
    (w, .error { message := s!"Cannot apply squashed migration {name}: only " ++
      s!"{appliedReplacements.length} of {replacements.length} replaced migrations are applied." })
  else if replacements ≠ [] ∧ appliedReplacements.length = replacements.length then
    runMigration d name (executeAtomicUntil d (fault name)
      (replacements.map fun name => .raw (.deleteRow name)) (.insertRow (recordRow now batch s))) w
  else
    runMigration d name
      (migrateUntil d (fault name) .up s.migration (.insertRow (recordRow now batch s))) w

/-- The body of the loop of `down`. -/
def downOneUntil (d : Driver) (fault : String → Option Nat) (s : MigrationStatus σ) (w : World σ) :
    World σ × Except MigrationError Unit :=
  let name := s.migration.name
  runMigration d name (migrateUntil d (fault name) .down s.migration (.deleteRow name)) w

/-- What a call of `up` or `down` leaves: the world, its `names` when it
    returned or threw, and the error. -/
structure RunResult (σ : Type) where
  world : World σ
  names : List String
  error : Option MigrationError

/-- The loops of `up` and `down` over the selected migrations. -/
def migrateAll (one : MigrationStatus σ → World σ → World σ × Except MigrationError Unit) :
    List (MigrationStatus σ) → World σ → RunResult σ
  | [], w => ⟨w, [], none⟩
  | s :: rest, w =>
      match one s w with
      | (w', .error e) => ⟨w', [], some e⟩
      | (w', .ok ()) =>
          let result := migrateAll one rest w'
          { result with names := s.migration.name :: result.names }

/-- A call of `up` or `down`, and the statement of each migration that fails in
    it. -/
structure RunCall where
  direction : Direction
  count : Option Nat
  now : String → String
  fault : String → Option Nat

def MigrationRunner.selectUp (count : Option Nat) (statuses : List (MigrationStatus σ)) :
    List (MigrationStatus σ) :=
  let pending := statuses.filter (fun s => s.state = .pending)
  match count with
  | none => pending
  | some n => pending.take n

/-- `right.batch - left.batch || right.name.localeCompare(left.name)`. -/
def MigrationRunner.laterFirst (r : MigrationRunner σ) (left right : MigrationStatus σ) : Bool :=
  let leftBatch := left.applied.elim 0 AppliedMigration.batch
  let rightBatch := right.applied.elim 0 AppliedMigration.batch
  decide (rightBatch < leftBatch) ||
    (leftBatch == rightBatch && r.localeCompare.le right.migration.name left.migration.name)

def MigrationRunner.selectDown (r : MigrationRunner σ) (count : Option Nat)
    (statuses : List (MigrationStatus σ)) : List (MigrationStatus σ) :=
  ((statuses.filter (·.applied.isSome)).insertionSort fun left right =>
    r.laterFirst left right = true).take (count.getD 1)

/-- `up(options)` or `down(options)`. -/
def MigrationRunner.run (r : MigrationRunner σ) (call : RunCall) (w : World σ) : RunResult σ :=
  match r.status w with
  | .error e => ⟨w, [], some e⟩
  | .ok statuses =>
      match firstChanged statuses with
      | some s =>
          ⟨w, [], some
            { message := s!"Applied migration {s.migration.name} has a changed checksum." }⟩
      | none =>
          match call.direction with
          | .up =>
              migrateAll (upOneUntil r.driver call.now (nextBatch w.history) call.fault)
                (MigrationRunner.selectUp call.count statuses) w
          | .down =>
              migrateAll (downOneUntil r.driver call.fault) (r.selectDown call.count statuses) w

/-! ## Section 2: Runs without faults -/

/-! ## Section 3: The journal -/

/-- All operations of a direction, one after the other. -/
def Migration.effect (m : Migration σ) (direction : Direction) (schema : σ) : Option σ := do
  let operations ← m.operations
  let list ← operations.get direction
  let statements ← list.mapM Operation.render
  statements.flatten.foldlM (fun schema effect => effect schema) schema

/-- The migrations whose operations have taken effect, in order, and the world
    they lead to: each takes its history row along, and nothing else changes
    schema or history. -/
inductive Executed (r : MigrationRunner σ) (start : World σ) :
    List (String × Direction) → World σ → Prop
  | start : Executed r start [] start
  | up {journal : List (String × Direction)} {w : World σ} {m : Migration σ} {schema : σ}
      {row : AppliedMigration} {history : History} : Executed r start journal w →
      m ∈ r.migrations → m.effect .up w.schema = some schema → row.name = m.name →
      row.checksum = r.hashing.checksum m → w.history.insert row = some history →
      Executed r start (journal ++ [(m.name, .up)]) ⟨schema, history⟩
  | down {journal : List (String × Direction)} {w : World σ} {m : Migration σ} {schema : σ} :
      Executed r start journal w → m ∈ r.migrations → m.effect .down w.schema = some schema →
      Executed r start (journal ++ [(m.name, .down)]) ⟨schema, w.history.delete m.name⟩

/-- The direction in which a migration took effect last. -/
def lastDirection (journal : List (String × Direction)) (name : String) : Option Direction :=
  ((journal.filter fun entry => entry.1 = name).getLast?).map Prod.snd

/-- A world and the journal of the runs that led to it. -/
structure Journaled (σ : Type) where
  world : World σ
  journal : List (String × Direction)

def journalStep (r : MigrationRunner σ) (s : Journaled σ) (call : RunCall) : Option (Journaled σ) :=
  let result := r.run call s.world
  some { world := result.world
         journal := s.journal ++ result.names.map fun name => (name, call.direction) }

/-- A declarative migration that replaces none. -/
def Migration.Declarative (m : Migration σ) : Prop :=
  m.operations.isSome = true ∧ m.replaces.getD [] = []

/-- The driver rolls a failed migration back: as a transaction, or as a batch. -/
def Driver.Atomic (d : Driver) : Prop := d.transactions = true ∨ d.batch = true

theorem lastDirection_append (journal : List (String × Direction)) (entry : String × Direction)
    (name : String) : lastDirection (journal ++ [entry]) name =
      if entry.1 = name then some entry.2 else lastDirection journal name := by
  unfold lastDirection
  rw [List.filter_append]
  by_cases h : entry.1 = name
  · simp [h]
  · simp [h]

theorem mem_names_delete (h : History) (name other : String) :
    other ∈ (h.delete name).names ↔ other ∈ h.names ∧ other ≠ name := by
  simp only [History.mem_names, History.delete, List.mem_filter, bne_iff_ne, ne_eq]
  constructor
  · rintro ⟨row, ⟨hrow, hne⟩, rfl⟩
    exact ⟨⟨row, hrow, rfl⟩, hne⟩
  · rintro ⟨⟨row, hrow, rfl⟩, hne⟩
    exact ⟨row, ⟨hrow, hne⟩, rfl⟩

theorem mem_names_insert {h h' : History} {row : AppliedMigration} (hins : h.insert row = some h')
    (name : String) : name ∈ h'.names ↔ name = row.name ∨ name ∈ h.names := by
  simp only [History.mem_names, History.insert_rows hins, List.mem_cons]
  constructor
  · rintro ⟨row', rfl | hrow', rfl⟩
    · exact .inl rfl
    · exact .inr ⟨row', hrow', rfl⟩
  · rintro (rfl | ⟨row', hrow', rfl⟩)
    · exact ⟨row, .inl rfl, rfl⟩
    · exact ⟨row', .inr hrow', rfl⟩

/-- The history names what the journal leaves applied. -/
theorem Executed.mem_names {r : MigrationRunner σ} {start w : World σ}
    {journal : List (String × Direction)} (h : Executed r start journal w) (name : String) :
    name ∈ w.history.names ↔ lastDirection journal name = some .up ∨
      lastDirection journal name = none ∧ name ∈ start.history.names := by
  induction h with
  | start => simp [lastDirection]
  | @up journal w m schema row history hexec hmem heffect hname hchecksum hins ih =>
    rw [lastDirection_append, mem_names_insert hins, ih, hname]
    by_cases heq : m.name = name
    · simp [heq]
    · simp [heq, Ne.symm heq]
  | @down journal w m schema hexec hmem heffect ih =>
    rw [lastDirection_append, mem_names_delete, ih]
    by_cases heq : m.name = name
    · simp [heq]
    · simp [heq, Ne.symm heq]

theorem Executed.trans {r : MigrationRunner σ} {start middle w : World σ}
    {first second : List (String × Direction)} (h : Executed r start first middle)
    (h' : Executed r middle second w) : Executed r start (first ++ second) w := by
  induction h' with
  | start => rwa [List.append_nil]
  | up hexec hmem heffect hname hchecksum hins ih =>
    rw [← List.append_assoc]
    exact ih.up hmem heffect hname hchecksum hins
  | down hexec hmem heffect ih =>
    rw [← List.append_assoc]
    exact ih.down hmem heffect

/-! ## Section 4: One migration -/

theorem execUntil_true {w w' : World σ} {fault : Option Nat} {statements : List (Statement σ)}
    (h : w.execUntil fault statements = (w', true)) : w.execAll statements = (w', true) := by
  fun_induction World.execUntil w fault statements with
  | case1 => cases h
  | case2 => exact h
  | case3 => cases h
  | case4 w fault s rest _ w₁ hexec ih =>
    unfold World.execAll
    rw [hexec]
    exact ih h

/-- Schema statements change the schema only. -/
theorem execAll_effects {w w' : World σ} {effects : List (σ → Option σ)} {rest : List (Statement σ)}
    (h : w.execAll (effects.map .schema ++ rest) = (w', true)) : ∃ schema,
      effects.foldlM (fun schema effect => effect schema) w.schema = some schema ∧
        World.execAll ⟨schema, w.history⟩ rest = (w', true) := by
  induction effects generalizing w with
  | nil => exact ⟨w.schema, rfl, h⟩
  | cons effect effects ih =>
    rw [List.map_cons, List.cons_append] at h
    unfold World.execAll at h
    cases heffect : effect w.schema with
    | none =>
      simp only [World.exec, heffect] at h
      cases h
    | some schema =>
      simp only [World.exec, heffect] at h
      obtain ⟨final, hfold, hrest⟩ := ih h
      refine ⟨final, ?_, hrest⟩
      rw [List.foldlM_cons, heffect]
      exact hfold

theorem renderQueue_flatten (operations : List (Operation σ)) :
    renderQueue (operations.map .operation) =
      (operations.mapM Operation.render).map fun lists => lists.flatten.map .schema := by
  induction operations with
  | nil => rfl
  | cons op rest ih =>
    rw [List.map_cons, List.mapM_cons]
    unfold renderQueue
    rw [ih]
    cases op.render with
    | none => rfl
    | some texts =>
      cases rest.mapM Operation.render with
      | none => rfl
      | some lists => simp

/-- A declarative migration that succeeds has had its effect, and its bookkeeping
    is done; otherwise nothing has happened. -/
theorem migrateUntil_spec {d : Driver} {fault : Option Nat} {direction : Direction}
    {m : Migration σ} (hm : m.operations.isSome = true) {bookkeeping : Statement σ} {w w' : World σ}
    {outcome : Except MigrationError Unit}
    (h : migrateUntil d fault direction m bookkeeping w = (w', outcome)) :
    (outcome = .ok () → ∃ schema, m.effect direction w.schema = some schema ∧
      World.exec ⟨schema, w.history⟩ bookkeeping = some w') ∧
    ((∃ e, outcome = .error e) → d.transactions = false → d.batch = true → w' = w) := by
  obtain ⟨operations, hoperations⟩ := Option.isSome_iff_exists.mp hm
  unfold migrateUntil queueMigration at h
  rw [hoperations] at h
  cases hlist : operations.get direction with
  | none =>
    simp only [hlist] at h
    cases h
    exact ⟨fun heq => (nomatch heq), fun _ _ _ => rfl⟩
  | some list =>
    simp only [hlist, renderQueue_flatten] at h
    cases hrender : list.mapM Operation.render with
    | none =>
      rw [hrender] at h
      cases h
      exact ⟨fun heq => (nomatch heq), fun _ _ _ => rfl⟩
    | some lists =>
      simp only [hrender, Option.map_some, executeAtomicUntil, renderQueue_raw] at h
      have heffect : m.effect direction w.schema =
          lists.flatten.foldlM (fun schema effect => effect schema) w.schema := by
        simp [Migration.effect, hoperations, hlist, hrender]
      cases hexec : w.execUntil fault (lists.flatten.map .schema ++ [bookkeeping]) with
      | mk w₁ done =>
        rw [hexec] at h
        cases done with
        | true =>
          cases h
          refine ⟨fun _ => ?_, fun herror => by obtain ⟨e, heq⟩ := herror; cases heq⟩
          obtain ⟨schema, hfold, hbook⟩ := execAll_effects (execUntil_true hexec)
          refine ⟨schema, heffect.trans hfold, ?_⟩
          unfold World.execAll at hbook
          split at hbook
          · cases hbook
          · next w₂ hw₂ =>
            cases hbook
            exact hw₂
        | false =>
          cases h
          refine ⟨fun heq => (nomatch heq), fun _ htransactions hbatch => ?_⟩
          simp [htransactions, hbatch]

/-- The same with `runMigration` around it, on a driver that rolls back. -/
theorem runMigration_spec {d : Driver} (hd : d.Atomic) {fault : Option Nat} {direction : Direction}
    {m : Migration σ} (hm : m.operations.isSome = true) {name : String} {bookkeeping : Statement σ}
    {w w' : World σ} {outcome : Except MigrationError Unit}
    (h : runMigration d name (migrateUntil d fault direction m bookkeeping) w = (w', outcome)) :
    (outcome = .ok () → ∃ schema, m.effect direction w.schema = some schema ∧
      World.exec ⟨schema, w.history⟩ bookkeeping = some w') ∧
    ((∃ e, outcome = .error e) → w' = w) := by
  unfold runMigration at h
  cases haction : migrateUntil d fault direction m bookkeeping w with
  | mk w₁ inner =>
    have hspec := migrateUntil_spec hm haction
    rw [haction] at h
    cases inner with
    | ok _ =>
      cases h
      exact ⟨fun _ => hspec.1 rfl, fun herror => by obtain ⟨e, heq⟩ := herror; cases heq⟩
    | error e =>
      cases h
      refine ⟨fun heq => (nomatch heq), fun _ => ?_⟩
      cases htransactions : d.transactions with
      | true => rfl
      | false =>
        refine hspec.2 ⟨e, rfl⟩ htransactions (hd.resolve_left ?_)
        rw [htransactions]
        exact Bool.false_ne_true

/-! ## Section 5: Runs -/

/-- A loop over migrations executes those it names, in order, and no other. -/
theorem migrateAll_executed {r : MigrationRunner σ} {direction : Direction}
    {one : MigrationStatus σ → World σ → World σ × Except MigrationError Unit}
    {statuses : List (MigrationStatus σ)}
    (hone : ∀ s ∈ statuses, ∀ w w', one s w = (w', .ok ()) →
      Executed r w [(s.migration.name, direction)] w')
    (hfails : ∀ s ∈ statuses, ∀ w w' e, one s w = (w', .error e) → w' = w) (w : World σ) :
    Executed r w ((migrateAll one statuses w).names.map fun name => (name, direction))
      (migrateAll one statuses w).world := by
  induction statuses generalizing w with
  | nil => exact .start
  | cons s rest ih =>
    unfold migrateAll
    cases hresult : one s w with
    | mk w' outcome =>
      cases outcome with
      | error e =>
        cases hfails s List.mem_cons_self w w' e hresult
        exact .start
      | ok _ =>
        have hfirst := hone s List.mem_cons_self w w' hresult
        have hrest := ih (fun s' hs' => hone s' (List.mem_cons_of_mem _ hs'))
          (fun s' hs' => hfails s' (List.mem_cons_of_mem _ hs')) w'
        exact hfirst.trans hrest

theorem status_migrations {r : MigrationRunner σ} {w : World σ} {statuses : List (MigrationStatus σ)}
    (h : r.status w = .ok statuses) : ∀ s ∈ statuses, s.migration ∈ r.migrations ∧
      s.checksum = r.hashing.checksum s.migration := by
  intro s hs
  unfold MigrationRunner.status at h
  cases hsorted : r.sorted with
  | error e =>
    rw [hsorted] at h
    cases h
  | ok l =>
    rw [hsorted] at h
    cases h
    obtain ⟨m, hm, rfl⟩ := List.mem_map.mp hs
    refine ⟨?_, rfl⟩
    rw [← mem_order, ← (sorted_ok hsorted).1]
    exact hm

theorem selectUp_mem {count : Option Nat} {statuses : List (MigrationStatus σ)}
    {s : MigrationStatus σ} (h : s ∈ MigrationRunner.selectUp count statuses) : s ∈ statuses := by
  unfold MigrationRunner.selectUp at h
  cases count with
  | none => exact List.mem_of_mem_filter h
  | some n => exact List.mem_of_mem_filter (List.mem_of_mem_take h)

theorem selectDown_mem {r : MigrationRunner σ} {count : Option Nat}
    {statuses : List (MigrationStatus σ)} {s : MigrationStatus σ}
    (h : s ∈ r.selectDown count statuses) : s ∈ statuses :=
  List.mem_of_mem_filter (List.mem_insertionSort _ |>.mp (List.mem_of_mem_take h))

/-- A call executes the migrations it names; one that fails leaves schema and
    history as they were. -/
theorem run_executed {r : MigrationRunner σ} (hd : r.driver.Atomic)
    (hm : ∀ m ∈ r.migrations, m.Declarative) (call : RunCall) (w : World σ) :
    Executed r w ((r.run call w).names.map fun name => (name, call.direction))
      (r.run call w).world := by
  unfold MigrationRunner.run
  cases hstatus : r.status w with
  | error e => exact .start
  | ok statuses =>
    cases hchanged : firstChanged statuses with
    | some s =>
      simp only [hchanged]
      exact .start
    | none =>
      simp only [hchanged]
      have hlisted := status_migrations hstatus
      cases hdirection : call.direction with
      | up =>
        apply migrateAll_executed
        · intro s hs w w' hone
          obtain ⟨hmem, hchecksum⟩ := hlisted s (selectUp_mem hs)
          unfold upOneUntil at hone
          simp only [(hm _ hmem).2, ne_eq, not_true_eq_false, false_and, if_false] at hone
          obtain ⟨schema, heffect, hbook⟩ := (runMigration_spec hd (hm _ hmem).1 hone).1 rfl
          obtain ⟨history, hins, rfl⟩ := Option.map_eq_some_iff.mp hbook
          exact Executed.start.up hmem heffect rfl hchecksum hins
        · intro s hs w w' e hone
          obtain ⟨hmem, -⟩ := hlisted s (selectUp_mem hs)
          unfold upOneUntil at hone
          simp only [(hm _ hmem).2, ne_eq, not_true_eq_false, false_and, if_false] at hone
          exact (runMigration_spec hd (hm _ hmem).1 hone).2 ⟨e, rfl⟩
      | down =>
        apply migrateAll_executed
        · intro s hs w w' hone
          obtain ⟨hmem, -⟩ := hlisted s (selectDown_mem hs)
          obtain ⟨schema, heffect, hbook⟩ := (runMigration_spec hd (hm _ hmem).1 hone).1 rfl
          cases hbook
          exact Executed.start.down hmem heffect
        · intro s hs w w' e hone
          obtain ⟨hmem, -⟩ := hlisted s (selectDown_mem hs)
          exact (runMigration_spec hd (hm _ hmem).1 hone).2 ⟨e, rfl⟩

/-- After any sequence of calls in which any statement may fail, schema and
    history are those of the migrations that completed; the history names exactly
    the migrations that took effect and were not reverted since; and a call
    leaves exactly what the migrations it completed do. -/
theorem history_records_executed {r : MigrationRunner σ} (hd : r.driver.Atomic)
    (hm : ∀ m ∈ r.migrations, m.Declarative) {start : World σ} {s : Journaled σ}
    (hrun : Run (journalStep r) Free ⟨start, []⟩ s) :
    Executed r start s.journal s.world ∧
      (∀ name, name ∈ s.world.history.names ↔ lastDirection s.journal name = some .up ∨
        lastDirection s.journal name = none ∧ name ∈ start.history.names) ∧
      ∀ call, Executed r s.world ((r.run call s.world).names.map fun name => (name, call.direction))
        (r.run call s.world).world := by
  have hexecuted : Executed r start s.journal s.world := by
    induction hrun with
    | refl => exact .start
    | tail _ _ hstep ih =>
      cases hstep
      exact ih.trans (run_executed hd hm _ _)
  exact ⟨hexecuted, hexecuted.mem_names, fun call => run_executed hd hm call s.world⟩

/-- Two tables, of which the second cannot be created in the first call. -/
def twoTables : MigrationRunner (List String) where
  migrations := [declarative "001_users" none "users", declarative "002_posts" none "posts"]
  driver := { transactions := false, batch := true }
  hashing := { checksum := Migration.name, rawChecksum := Migration.name }
  localeCompare := JsString.codePointOrder

theorem failed_posts_recorded :
    ∃ s : Journaled (List String),
      exec (journalStep twoTables) ⟨⟨[], .empty⟩, []⟩
        [⟨.up, none, fun _ => "now", fun name => if name = "002_posts" then some 0 else none⟩] =
          some s ∧
      s.world.schema = ["users"] ∧ s.journal = [("001_users", .up)] ∧
      ∀ name, name ∈ s.world.history.names ↔ name = "001_users" := by
  have horder : twoTables.order = twoTables.migrations := List.mergeSort_of_pairwise (by decide)
  have hrun : ∃ s : Journaled (List String),
      exec (journalStep twoTables) ⟨⟨[], .empty⟩, []⟩
        [⟨.up, none, fun _ => "now", fun name => if name = "002_posts" then some 0 else none⟩] =
          some s ∧ s.world.schema = ["users"] ∧ s.journal = [("001_users", .up)] := by
    simp only [exec, journalStep, MigrationRunner.run, MigrationRunner.status,
      MigrationRunner.sorted, horder]
    exact ⟨_, rfl, rfl, rfl⟩
  obtain ⟨s, hexec, hschema, hjournal⟩ := hrun
  have hd : twoTables.driver.Atomic := .inr rfl
  have hm : ∀ m ∈ twoTables.migrations, m.Declarative := by
    intro m hmem
    rcases List.mem_pair.mp hmem with rfl | rfl <;> exact ⟨rfl, rfl⟩
  have hnames := (history_records_executed hd hm (run_of_exec hexec (admits_free _ _))).2.1
  refine ⟨s, hexec, hschema, hjournal, fun name => ?_⟩
  rw [hnames name, hjournal]
  by_cases heq : "001_users" = name
  · simp [lastDirection, heq]
  · simp [lastDirection, heq, Ne.symm heq, History.empty, History.names]

end Cossack.Database
