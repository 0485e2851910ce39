import Cossack.Database.MigrationHistory
import Cossack.Lib.SingleUse

/-! # Plans and their application

    `plan` and `applyPlan` of `MigrationRunner` and `SeederRunner`.  A call of
    `applyPlan` is a task for a single use: the entry of the `planned` map is its
    token.  A call goes on at each `await`, and any number of calls may be under
    way; what a call returns or throws is left out. -/

namespace Cossack.Database

open SingleUse (Task)

variable {σ : Type}

/-! ## Section 1: What a run of a plan leaves in the log -/

/-- The statements of an entry begin to run; its effects are there to stay. -/
inductive Logged (E : Type) where
  | started (entry : E)
  | committed (entry : E)
  deriving DecidableEq

def committed {E : Type} (log : List (Logged E)) : List E :=
  log.filterMap fun
    | .committed entry => some entry
    | .started _ => none

/-- Nothing outside the plan has been executed, and no entry was committed
    twice. -/
def UsedOnce {E : Type} (planned : List E) (log : List (Logged E)) : Prop :=
  (∀ entry, .started entry ∈ log ∨ .committed entry ∈ log → entry ∈ planned) ∧
    (committed log).Nodup

/-! ## Section 2: Migration plans -/

inductive Mode where
  | apply
  | revert
  | consolidate
  deriving DecidableEq

structure PlanEntry where
  name : String
  mode : Mode
  complete : Bool

/-- A plan and the evidence `planned` keeps for it; the rows of the history are
    serialized in the order of batch and name. -/
structure MigrationPlan (σ : Type) where
  direction : Direction
  entries : List PlanEntry
  history : List AppliedMigration
  checksums : List String
  definitions : List (Migration σ)

def MigrationPlan.keys (plan : MigrationPlan σ) : List (String × Mode) :=
  plan.entries.map fun entry => (entry.name, entry.mode)

/-- How `up` treats a pending migration: a squash whose replaced migrations are
    all recorded is consolidated; `none` when only some of them are. -/
def upMode (recorded : List String) (m : Migration σ) : Option Mode :=
  let replacements := m.replaces.getD []
  let appliedReplacements := replacements.filter (· ∈ recorded)
  if appliedReplacements ≠ [] ∧ appliedReplacements.length ≠ replacements.length then none
  else if replacements ≠ [] ∧ appliedReplacements.length = replacements.length then
    some .consolidate
  else some .apply

def planMode (direction : Direction) (recorded : List String) (m : Migration σ) : Option Mode :=
  match direction with
  | .up => upMode recorded m
  | .down => some .revert

/-- The entry of a selected migration; it is incomplete where its operations are
    not declared or cannot be rendered. -/
def planEntry (direction : Direction) (recorded : List String) (s : MigrationStatus σ) :
    Except MigrationError PlanEntry :=
  match planMode direction recorded s.migration with
  | none =>
      .error { message := s!"Cannot apply squashed migration {s.migration.name}: only some " ++
        "replaced migrations are applied." }
  | some mode =>
      let operations := s.migration.operations.bind (·.get direction)
      .ok { name := s.migration.name
            mode := mode
            complete := mode == .consolidate ||
              operations.any fun list => (list.mapM Operation.render).isSome }

def MigrationRunner.selectPlanned (r : MigrationRunner σ) (direction : Direction)
    (count : Option Nat) (statuses : List (MigrationStatus σ)) : List (MigrationStatus σ) :=
  match direction with
  | .up => MigrationRunner.selectUp count statuses
  | .down => r.selectDown count statuses

def MigrationRunner.plan (r : MigrationRunner σ) (direction : Direction) (w : World σ) :
    Except MigrationError (MigrationPlan σ) :=
  match r.status w with
  | .error e => .error e
  | .ok statuses =>
      match firstChanged statuses with
      | some s =>
          .error { message := s!"Applied migration {s.migration.name} has a changed checksum." }
      | none =>
          match (r.selectPlanned direction none statuses).mapM (planEntry direction w.history.names) with
          | .error e => .error e
          | .ok entries =>
              .ok { direction := direction
                    entries := entries
                    history := w.history.rows
                    checksums := statuses.map MigrationStatus.checksum
                    definitions := statuses.map MigrationStatus.migration }

/-! ## Section 3: `applyPlan` of migrations -/

/-- Where `up` or `down` awaits: the statuses, the rows the batch number is taken
    from, the rows a squash is compared with, the migration itself or, without
    transactions and batches, its next statement. -/
inductive Execution (σ : Type) where
  | status
  | batch (selected : List (MigrationStatus σ))
  | next (batch : Nat) (rest : List (MigrationStatus σ))
  | migrate (batch : Nat) (mode : Mode) (s : MigrationStatus σ) (rest : List (MigrationStatus σ))
  | statements (batch : Nat) (entry : String × Mode) (remaining : List (Statement σ))
      (rest : List (MigrationStatus σ))

/-- The statements of a migration in a mode, before its bookkeeping. -/
def modeQueue (mode : Mode) (m : Migration σ) (w : World σ) :
    World σ × Except MigrationError (List (QueueItem σ)) :=
  match mode with
  | .apply => queueMigration m .up w
  | .revert => queueMigration m .down w
  | .consolidate => (w, .ok ((m.replaces.getD []).map fun name => .raw (.deleteRow name)))

def modeBookkeeping (now : String → String) (batch : Nat) (mode : Mode) (s : MigrationStatus σ) :
    Statement σ :=
  match mode with
  | .revert => .deleteRow s.migration.name
  | _ => .insertRow (recordRow now batch s)

def executeMode (d : Driver) (fault : Option Nat) (mode : Mode) (m : Migration σ)
    (bookkeeping : Statement σ) (w : World σ) : World σ × Except MigrationError Unit :=
  match modeQueue mode m w with
  | (w', .error e) => (w', .error e)
  | (w', .ok queue) => executeAtomicUntil d fault queue bookkeeping w'

/-- The driver runs a migration and its bookkeeping as one transaction or batch. -/
def Driver.atomic (d : Driver) : Bool := d.transactions || d.batch

/-- One step of `up` or `down` of the runner with the planned definitions.  An
    awaited operation fails when `fault` is there. -/
def MigrationRunner.executionStep (r : MigrationRunner σ) (now : String → String)
    (direction : Direction) (count : Nat) (w : World σ) (x : Execution σ) (fault : Option Nat) :
    World σ × List (Logged (String × Mode)) × Option (Execution σ) :=
  match x with
  | .status =>
      match fault, r.status w with
      | none, .ok statuses =>
          match firstChanged statuses, direction with
          | some _, _ => (w, [], none)
          | none, .up =>
              let selected := MigrationRunner.selectUp (some count) statuses
              (w, [], if selected.isEmpty then none else some (.batch selected))
          | none, .down => (w, [], some (.next 0 (r.selectDown (some count) statuses)))
      | _, _ => (w, [], none)
  | .batch selected =>
      (w, [], if fault.isSome then none else some (.next (nextBatch w.history) selected))
  | .next _ [] => (w, [], none)
  | .next batch (s :: rest) =>
      match direction with
      | .down => (w, [], some (.migrate batch .revert s rest))
      | .up =>
          -- only a squash reads the history again
          if fault.isSome ∧ s.migration.replaces.getD [] ≠ [] then (w, [], none)
          else (w, [], (upMode w.history.names s.migration).map fun mode =>
            .migrate batch mode s rest)
  | .migrate batch mode s rest =>
      let entry := (s.migration.name, mode)
      let bookkeeping := modeBookkeeping now batch mode s
      if r.driver.atomic then
        match runMigration r.driver s.migration.name
            (executeMode r.driver fault mode s.migration bookkeeping) w with
        | (w', .error _) => (w', [.started entry], none)
        | (w', .ok ()) => (w', [.started entry, .committed entry], some (.next batch rest))
      else
        match modeQueue mode s.migration w with
        | (w', .error _) => (w', [.started entry], none)
        | (w', .ok queue) =>
            (w', [.started entry], (renderQueue queue).map fun statements =>
              .statements batch entry (statements ++ [bookkeeping]) rest)
  | .statements batch entry remaining rest =>
      match fault, remaining with
      | none, s :: remaining =>
          match w.exec s, remaining with
          | none, _ => (w, [], none)
          | some w', [] => (w', [.committed entry], some (.next batch rest))
          | some w', _ :: _ => (w', [], some (.statements batch entry remaining rest))
      | _, _ => (w, [], none)

/-- `applyPlan`: the history and the checksums of the `live` definitions are
    compared with the evidence before the plan is taken. -/
def MigrationPlan.task (plan : MigrationPlan σ) (r : MigrationRunner σ)
    (live : List (Migration σ)) (now : String → String) :
    Task (World σ) (Execution σ) (Logged (String × Mode)) (Option Nat) where
  admits := plan.entries.all PlanEntry.complete
  checks :=
    [fun w fault => fault.isNone && w.history.rows.isPerm plan.history,
      fun _ _ =>
        match ({ r with migrations := live } : MigrationRunner σ).sorted with
        | .error _ => false
        | .ok definitions => decide (definitions.map r.hashing.checksum = plan.checksums)]
  first := if plan.entries.isEmpty then none else some .status
  step := ({ r with migrations := plan.definitions } : MigrationRunner σ).executionStep now
    plan.direction plan.entries.length

/-! ## Section 4: Seeder plans -/

inductive SeederTransaction where
  | auto
  | required
  | none
  deriving DecidableEq

/-- A declared operation of a seeder: whether the provider's dialect can express
    it, and its effect, partial because the database may reject it. -/
structure SeederOperation (σ : Type) where
  compiles : Bool
  effect : σ → Option σ

/-- A seeder is a function or a definition.  A callback leaves a state behind
    whether it returns or throws. -/
inductive SeederInput (σ : Type) where
  | callback (name : String) (run : σ → σ × Bool)
  | definition (name : String) (transaction : Option SeederTransaction)
      (operations : Option (List (SeederOperation σ))) (run : Option (σ → σ × Bool))

def SeederInput.operations : SeederInput σ → Option (List (SeederOperation σ))
  | .callback .. => Option.none
  | .definition _ _ operations _ => operations

structure NormalizedSeeder (σ : Type) where
  definition : SeederInput σ
  name : String
  transaction : SeederTransaction

/-- `String.prototype.trim`. -/
def trim (s : String) : String :=
  String.ofList (((s.toList.dropWhile JsString.isSpace).reverse.dropWhile JsString.isSpace).reverse)

def normalizeSeeder : SeederInput σ → Except String (NormalizedSeeder σ)
  | .callback name run =>
      if trim name = "" then
        .error ("Anonymous function seeders are not supported. " ++
          "Use defineSeeder(\x7b name, run \x7d) or a named function.")
      else .ok ⟨.callback name run, trim name, .auto⟩
  | .definition name transaction operations run =>
      if trim name = "" then .error "Seeder names must not be empty."
      else .ok ⟨.definition name transaction operations run, trim name, transaction.getD .auto⟩

/-- The first name that occurs again. -/
def duplicateName : List String → Option String
  | [] => Option.none
  | name :: rest => if name ∈ rest then some name else duplicateName rest

def normalizeSeeders (seeders : List (SeederInput σ)) : Except String (List (NormalizedSeeder σ)) :=
  match seeders.mapM normalizeSeeder with
  | .error e => .error e
  | .ok normalized =>
      match duplicateName (normalized.map NormalizedSeeder.name) with
      | some name => .error ("Duplicate seeder name \"" ++ name ++ "\".")
      | Option.none => .ok normalized

/-- `select`: the seeders asked for, in the order of the runner. -/
def select (normalized : List (NormalizedSeeder σ)) (only : Option (List String)) :
    Except String (List (NormalizedSeeder σ)) :=
  match only with
  | Option.none => .ok normalized
  | some only =>
      let requested := (only.map trim).filter (· ≠ "")
      let known := normalized.map NormalizedSeeder.name
      let missing := requested.filter (· ∉ known)
      if missing.isEmpty then .ok (normalized.filter (·.name ∈ requested))
      else .error ("Unknown seeder" ++ (if missing.length = 1 then "" else "s") ++ ": " ++
        ", ".intercalate missing ++ ". Available seeders: " ++
        (if known.isEmpty then "(none)" else ", ".intercalate known) ++ ".")

structure SeederPlanEntry where
  name : String
  transaction : SeederTransaction
  complete : Bool

/-- A plan and the evidence kept for it. -/
structure SeederPlan (σ : Type) where
  entries : List SeederPlanEntry
  definitions : String
  names : List String
  seeders : List (SeederInput σ)

def SeederPlan.keys (plan : SeederPlan σ) : List String := plan.entries.map SeederPlanEntry.name

/-- `definitionChecksum` of the normalized seeders is a parameter. -/
structure SeederRunner (σ : Type) where
  seeders : List (SeederInput σ)
  driver : Driver
  definitionChecksum : List (NormalizedSeeder σ) → String

def seederPlanEntry (d : Driver) (seeder : NormalizedSeeder σ) : SeederPlanEntry where
  name := seeder.name
  transaction := seeder.transaction
  complete := !(seeder.transaction == .required && !d.transactions) &&
    seeder.definition.operations.any fun operations => operations.all SeederOperation.compiles

/-- `new SeederRunner(…).plan({ only })`. -/
def SeederRunner.plan (r : SeederRunner σ) (only : Option (List String)) :
    Except String (SeederPlan σ) :=
  match normalizeSeeders r.seeders with
  | .error e => .error e
  | .ok normalized =>
      match select normalized only with
      | .error e => .error e
      | .ok selected =>
          .ok { entries := selected.map (seederPlanEntry r.driver)
                definitions := r.definitionChecksum normalized
                names := selected.map NormalizedSeeder.name
                seeders := selected.map NormalizedSeeder.definition }

/-! ## Section 5: `applyPlan` of seeders -/

/-- Where `run` awaits: the next seeder, or the next operation of one that runs
    outside a transaction. -/
inductive SeederExecution (σ : Type) where
  | run (rest : List (NormalizedSeeder σ))
  | operations (seeder : NormalizedSeeder σ) (remaining : List (SeederOperation σ))
      (rest : List (NormalizedSeeder σ))

def SeederOperation.exec (op : SeederOperation σ) (state : σ) : Option σ :=
  if op.compiles then op.effect state else Option.none

/-- The body of a seeder inside a transaction; `none` when it throws. -/
def runBody (definition : SeederInput σ) (fault : Option Nat) (state : σ) : Option σ :=
  match definition, fault with
  | .callback _ run, Option.none => if (run state).2 then some (run state).1 else Option.none
  | .definition _ _ (some operations) _, fault =>
      if fault.any (· ≤ operations.length) then Option.none
      else operations.foldlM (fun state op => op.exec state) state
  | .definition _ _ Option.none (some run), Option.none =>
      if (run state).2 then some (run state).1 else Option.none
  | _, _ => Option.none

/-- One step of `run` on the planned seeders. -/
def seederStep (d : Driver) (state : σ) (x : SeederExecution σ) (fault : Option Nat) :
    σ × List (Logged String) × Option (SeederExecution σ) :=
  match x with
  | .run [] => (state, [], Option.none)
  | .run (seeder :: rest) =>
      let useTransaction := seeder.transaction != .none && d.transactions
      if seeder.transaction == .required && !useTransaction then (state, [], Option.none)
      else if useTransaction then
        match runBody seeder.definition fault state with
        | Option.none => (state, [.started seeder.name], Option.none)
        | some state' =>
            (state', [.started seeder.name, .committed seeder.name], some (.run rest))
      else
        match seeder.definition with
        | .definition _ _ (some operations) _ =>
            (state, [.started seeder.name], some (.operations seeder operations rest))
        | .callback _ run | .definition _ _ Option.none (some run) =>
            if (run state).2 then
              ((run state).1, [.started seeder.name, .committed seeder.name], some (.run rest))
            else ((run state).1, [.started seeder.name], Option.none)
        | .definition _ _ Option.none Option.none => (state, [.started seeder.name], Option.none)
  | .operations seeder [] rest => (state, [.committed seeder.name], some (.run rest))
  | .operations seeder (op :: remaining) rest =>
      match fault, op.exec state with
      | Option.none, some state' => (state', [], some (.operations seeder remaining rest))
      | _, _ => (state, [], Option.none)

/-- `applyPlan`: the checksum of the `live` seeders is compared with the
    evidence before the plan is taken; then a new runner runs the planned ones. -/
def SeederPlan.task (plan : SeederPlan σ) (r : SeederRunner σ) (live : List (SeederInput σ)) :
    Task σ (SeederExecution σ) (Logged String) (Option Nat) where
  admits := plan.entries.all SeederPlanEntry.complete
  checks :=
    [fun _ fault => fault.isNone &&
      match normalizeSeeders live with
      | .error _ => false
      | .ok normalized => decide (r.definitionChecksum normalized = plan.definitions)]
  first :=
    match normalizeSeeders plan.seeders with
    | .error _ => Option.none
    | .ok normalized =>
        match select normalized (some plan.names) with
        | .error _ => Option.none
        | .ok selected => some (.run selected)
  step := seederStep r.driver

end Cossack.Database
