import Mathlib.Data.List.Sort
import Mathlib.Data.List.Nodup
import Cossack.Lib.JsString

/-! # The migration runner

    `MigrationRunner` of the database package: migration definitions, the
    history table, `status`, `up` and `check`.

    The application schema is an arbitrary type `σ`.  A statement of a
    migration is a partial function on it (`none`: the database rejects the
    statement).  The history table is part of the state, and its rows are
    touched only by the runner's own bookkeeping statements. -/

namespace Cossack.Database

open JsString (Collation)

/-! ## Section 1: Definitions, history and state -/

/-- A declared schema operation: the statements `renderOperation` gives for the
    driver's dialect, or `none` when it throws for that dialect. -/
structure Operation (σ : Type) where
  render : Option (List (σ → Option σ))

/-- The `operations` record of a declarative migration. -/
structure Operations (σ : Type) where
  up : List (Operation σ)
  down : Option (List (Operation σ))

/-- A legacy callback: it may run statements itself before it returns the
    operations it queued on the schema builder, or throws (`none`). -/
abbrev Callback (σ : Type) := σ → σ × Option (List (Operation σ))

structure Migration (σ : Type) where
  name : String
  replaces : Option (List String)
  operations : Option (Operations σ)
  up : Option (Callback σ)
  down : Option (Callback σ)

/-- A row of the history table. -/
structure AppliedMigration where
  name : String
  checksum : String
  batch : Nat
  appliedAt : String
  deriving DecidableEq

/-- The history table; `name` is its primary key. -/
structure History where
  rows : List AppliedMigration
  nodup : (rows.map AppliedMigration.name).Nodup

def History.names (h : History) : List String := h.rows.map AppliedMigration.name

def History.empty : History := ⟨[], List.nodup_nil⟩

/-- `DELETE FROM history WHERE name = …`. -/
def History.delete (h : History) (name : String) : History where
  rows := h.rows.filter (fun row => row.name != name)
  nodup := h.nodup.sublist (List.filter_sublist.map _)

/-- `INSERT INTO history …`, rejected when the primary key exists. -/
def History.insert (h : History) (row : AppliedMigration) : Option History :=
  if hmem : row.name ∈ h.names then none
  else some ⟨row :: h.rows, List.nodup_cons.mpr ⟨hmem, h.nodup⟩⟩

/-- The row recorded under a name. -/
def History.find? (h : History) (name : String) : Option AppliedMigration :=
  h.rows.find? (fun row => row.name == name)

structure World (σ : Type) where
  schema : σ
  history : History

inductive Statement (σ : Type) where
  /-- DDL or raw SQL of a migration. -/
  | schema (effect : σ → Option σ)
  | insertRow (row : AppliedMigration)
  | deleteRow (name : String)

def World.exec {σ : Type} (w : World σ) : Statement σ → Option (World σ)
  | .schema effect => (effect w.schema).map fun s => { w with schema := s }
  | .insertRow row => (w.history.insert row).map fun h => { w with history := h }
  | .deleteRow name => some { w with history := w.history.delete name }

/-- Statements one after the other; the state left behind and whether all of
    them succeeded. -/
def World.execAll {σ : Type} (w : World σ) : List (Statement σ) → World σ × Bool
  | [] => (w, true)
  | s :: rest =>
      match w.exec s with
      | none => (w, false)
      | some w' => w'.execAll rest

/-- What the runner reads of `driver.capabilities`.  `batch` also says that
    `driver.batch` exists. -/
structure Driver where
  transactions : Bool
  batch : Bool

/-- An item queued on the `SchemaBuilder`. -/
inductive QueueItem (σ : Type) where
  | raw (s : Statement σ)
  | operation (op : Operation σ)

/-- `MigrationError`: its message and the message of its cause. -/
structure MigrationError where
  message : String
  cause : Option String := none

/-- The digests of `checksum.ts`.  `checksum` is the hash recorded for a
    migration, `rawChecksum` the hash of its unnormalised source that older
    releases recorded. -/
structure Hashing (σ : Type) where
  checksum : Migration σ → String
  rawChecksum : Migration σ → String

structure MigrationRunner (σ : Type) where
  migrations : List (Migration σ)
  driver : Driver
  hashing : Hashing σ
  localeCompare : Collation

inductive MigrationState where
  | pending
  | applied
  | changed
  deriving DecidableEq

structure MigrationStatus (σ : Type) where
  migration : Migration σ
  checksum : String
  applied : Option AppliedMigration
  state : MigrationState

variable {σ : Type}

/-! ## Section 2: Checksums, order and status -/

def callbackOnly (m : Migration σ) : Bool :=
  m.operations.isNone && (m.up.isSome && m.down.isSome)

/-- The stored checksum is the current one, or the legacy one of a callback
    migration. -/
def Hashing.checksumMatches (hash : Hashing σ) (m : Migration σ) (stored current : String) : Bool :=
  stored == current || (callbackOnly m && stored == hash.rawChecksum m)

/-- The first name that equals its predecessor. -/
def firstDuplicate : List (Migration σ) → Option String
  | a :: b :: rest => if b.name == a.name then some b.name else firstDuplicate (b :: rest)
  | _ => none

def MigrationRunner.order (r : MigrationRunner σ) : List (Migration σ) :=
  r.migrations.mergeSort (fun a b => r.localeCompare.le a.name b.name)

def MigrationRunner.sorted (r : MigrationRunner σ) : Except MigrationError (List (Migration σ)) :=
  match firstDuplicate r.order with
  | some name => .error { message := s!"Duplicate migration name {name}." }
  | none => .ok r.order

def MigrationRunner.statusOf (r : MigrationRunner σ) (h : History) (m : Migration σ) :
    MigrationStatus σ :=
  let hash := r.hashing.checksum m
  let applied := h.find? m.name
  { migration := m
    checksum := hash
    applied := applied
    state := match applied with
      | none => .pending
      | some value =>
          if r.hashing.checksumMatches m value.checksum hash then .applied else .changed }

def MigrationRunner.status (r : MigrationRunner σ) (w : World σ) :
    Except MigrationError (List (MigrationStatus σ)) :=
  r.sorted.map (·.map (r.statusOf w.history))

/-! ## Section 3: Executing one migration -/

/-- The statements of a queue, rendered before any of them runs; `none` when
    an operation cannot be rendered. -/
def renderQueue : List (QueueItem σ) → Option (List (Statement σ))
  | [] => some []
  | .raw s :: rest => (renderQueue rest).map (s :: ·)
  | .operation op :: rest => do
      let texts ← op.render
      let tail ← renderQueue rest
      return texts.map .schema ++ tail

inductive Direction where
  | up
  | down
  deriving DecidableEq

def Direction.text : Direction → String
  | .up => "up"
  | .down => "down"

/-- `operations[direction]`. -/
def Operations.get (ops : Operations σ) : Direction → Option (List (Operation σ))
  | .up => some ops.up
  | .down => ops.down

/-- `migration[direction]`. -/
def Migration.callback (m : Migration σ) : Direction → Option (Callback σ)
  | .up => m.up
  | .down => m.down

/-- `queueMigration`: the queue of a migration in a direction.  A callback may
    already have changed the schema when it returns or throws. -/
def queueMigration (m : Migration σ) (direction : Direction) (w : World σ) :
    World σ × Except MigrationError (List (QueueItem σ)) :=
  match m.operations with
  | some ops =>
      match ops.get direction with
      | none =>
          (w, .error { message :=
            s!"Migration {m.name} has no declarative {direction.text} operations." })
      | some list =>
          match renderQueue (list.map .operation) with
          | none => (w, .error { message := "unsupported operation" })
          | some statements => (w, .ok (statements.map .raw))
  | none =>
      match m.callback direction with
      | none =>
          (w, .error { message :=
            s!"Migration {m.name} has no {direction.text} callback or operations." })
      | some callback =>
          match callback w.schema with
          | (schema, none) => ({ w with schema := schema }, .error { message := "callback threw" })
          | (schema, some ops) => ({ w with schema := schema }, .ok (ops.map .operation))

/-- `executeAtomic`: a provider without transactions but with batches gets one
    atomic batch; otherwise the statements run one by one. -/
def executeAtomic (d : Driver) (queue : List (QueueItem σ)) (bookkeeping : Statement σ)
    (w : World σ) : World σ × Except MigrationError Unit :=
  match renderQueue queue with
  | none => (w, .error { message := "unsupported operation" })
  | some statements =>
      match w.execAll (statements ++ [bookkeeping]) with
      | (w', true) => (w', .ok ())
      | (w', false) =>
          (if !d.transactions && d.batch then w else w', .error { message := "statement failed" })

/-- `runMigration`: a transaction where the driver has them, and the error that
    names the migration. -/
def runMigration (d : Driver) (name : String)
    (action : World σ → World σ × Except MigrationError Unit) (w : World σ) :
    World σ × Except MigrationError Unit :=
  match action w with
  | (w', .ok ()) => (w', .ok ())
  | (w', .error e) =>
      (if d.transactions then w else w',
        .error { message := s!"Migration {name} failed", cause := some e.message })

/-! ## Section 4: `up` and `check` -/

def recordRow (now : String → String) (batch : Nat) (s : MigrationStatus σ) : AppliedMigration :=
  { name := s.migration.name, checksum := s.checksum, batch := batch, appliedAt := now s.migration.name }

/-- Consolidation of a squash: the history rows of the replaced migrations go,
    the row of the squash comes. -/
def consolidate (d : Driver) (now : String → String) (batch : Nat) (s : MigrationStatus σ)
    (replacements : List String) (w : World σ) : World σ × Except MigrationError Unit :=
  executeAtomic d (replacements.map fun name => .raw (.deleteRow name))
    (.insertRow (recordRow now batch s)) w

def apply (d : Driver) (now : String → String) (batch : Nat) (s : MigrationStatus σ)
    (w : World σ) : World σ × Except MigrationError Unit :=
  match queueMigration s.migration .up w with
  | (w', .error e) => (w', .error e)
  | (w', .ok queue) => executeAtomic d queue (.insertRow (recordRow now batch s)) w'

/-- The body of the loop of `up` for one pending migration. -/
def upOne (d : Driver) (now : String → String) (batch : Nat) (s : MigrationStatus σ)
    (w : World σ) : World σ × Except MigrationError Unit :=
  let replacements := s.migration.replaces.getD []
  let appliedReplacements := replacements.filter (· ∈ w.history.names)
  if replacements ≠ [] ∧ appliedReplacements ≠ [] ∧
      appliedReplacements.length ≠ replacements.length then
    (w, .error { message := s!"Cannot apply squashed migration {s.migration.name}: only " ++
      s!"{appliedReplacements.length} of {replacements.length} replaced migrations are applied." })
  else if replacements ≠ [] ∧ appliedReplacements.length = replacements.length then
    runMigration d s.migration.name (consolidate d now batch s replacements) w
  else
    runMigration d s.migration.name (apply d now batch s) w

def upLoop (d : Driver) (now : String → String) (batch : Nat) :
    List (MigrationStatus σ) → World σ → World σ × Except MigrationError (List String)
  | [], w => (w, .ok [])
  | s :: rest, w =>
      match upOne d now batch s w with
      | (w', .error e) => (w', .error e)
      | (w', .ok ()) =>
          match upLoop d now batch rest w' with
          | (w'', .error e) => (w'', .error e)
          | (w'', .ok names) => (w'', .ok (s.migration.name :: names))

/-- `Math.max(0, ...batches) + 1`. -/
def nextBatch (h : History) : Nat := (h.rows.map AppliedMigration.batch).foldl max 0 + 1

def firstChanged (statuses : List (MigrationStatus σ)) : Option (MigrationStatus σ) :=
  statuses.find? (fun s => s.state = .changed)

/-- `up(options)`: `count` is `options.count`, `now name` the time at which the
    row of `name` is recorded. -/
def MigrationRunner.up (r : MigrationRunner σ) (now : String → String) (count : Option Nat)
    (w : World σ) : World σ × Except MigrationError (List String) :=
  match r.status w with
  | .error e => (w, .error e)
  | .ok statuses =>
      match firstChanged statuses with
      | some s =>
          (w, .error { message := s!"Applied migration {s.migration.name} has a changed checksum." })
      | none =>
          let pending := statuses.filter (fun s => s.state = .pending)
          let selected := match count with
            | none => pending
            | some n => pending.take n
          if selected.isEmpty then (w, .ok [])
          else upLoop r.driver now (nextBatch w.history) selected w

def MigrationState.text : MigrationState → String
  | .pending => "pending"
  | .applied => "applied"
  | .changed => "changed"

def MigrationRunner.check (r : MigrationRunner σ) (w : World σ) : Except MigrationError Unit :=
  match r.status w with
  | .error e => .error e
  | .ok statuses =>
      let invalid := statuses.filter (fun s => s.state ≠ .applied)
      if invalid.isEmpty then .ok ()
      else .error { message := "Migration check failed: " ++
        ", ".intercalate (invalid.map fun s => s!"{s.migration.name} ({s.state.text})") ++ "." }

end Cossack.Database
