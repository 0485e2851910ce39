import Cossack.Lib.Entries
import Cossack.Lib.Runs

/-! # The session handle of a request

    `createSessionMiddleware`: the operations of one `SessionHandle` as
    programs over a store, interleaved at every await.

    A single operation of the store takes effect at one instant between the
    call and the resumption of its caller, as the SQL statements of the
    database store do: `set` and `unset` update a row that exists and do
    nothing otherwise.  A resumption that does nothing but call the store again
    is not a step of its own.  Expiry is left out. -/

namespace Cossack.Framework.Session

variable {V : Type}

/-! ## Section 1: The store -/

/-- A row of the session table; the bag is an object, so its keys differ. -/
structure Row (V : Type) where
  data : List (String × V)
  nodup : (data.map Prod.fst).Nodup
  userId : Option String

/-- Session ids are fresh tokens: no row has an id that was not issued yet. -/
structure Store (V : Type) where
  rows : Nat → Option (Row V)
  next : Nat
  fresh : ∀ id, next ≤ id → rows id = none

def Row.empty : Row V := ⟨[], List.nodup_nil, none⟩

def Row.set (row : Row V) (key : String) (value : V) : Row V :=
  { row with data := Entries.set row.data key value, nodup := Entries.nodup_set row.nodup key value }

def Row.unset (row : Row V) (key : String) : Row V :=
  { row with data := Entries.erase row.data key, nodup := Entries.nodup_erase row.nodup key }

/-- `UPDATE … WHERE id = …`. -/
def Store.update (store : Store V) (id : Nat) (f : Row V → Row V) : Store V where
  rows i := if i = id then (store.rows i).map f else store.rows i
  next := store.next
  fresh i hi := by
    by_cases h : i = id
    · simp [h, store.fresh id (h ▸ hi)]
    · simp [h, store.fresh i hi]

def Store.create (store : Store V) : Nat × Store V :=
  (store.next,
    { rows := fun i => if i = store.next then some .empty else store.rows i
      next := store.next + 1
      fresh := fun i hi => by
        have hne : i ≠ store.next := by omega
        simp [hne, store.fresh i (by omega)] })

def Store.set (store : Store V) (id : Nat) (key : String) (value : V) : Store V :=
  store.update id fun row => row.set key value

def Store.unset (store : Store V) (id : Nat) (key : String) : Store V :=
  store.update id fun row => row.unset key

def Store.bindUser (store : Store V) (id : Nat) (userId : String) : Store V :=
  store.update id fun row => { row with userId := some userId }

/-- The bag of a row, empty without one. -/
def Store.getAll (store : Store V) (id : Nat) : List (String × V) :=
  ((store.rows id).map Row.data).getD []

def Store.destroy (store : Store V) (id : Nat) : Store V where
  rows i := if i = id then none else store.rows i
  next := store.next
  fresh i hi := by
    by_cases h : i = id
    · simp [h]
    · simp [h, store.fresh i hi]

/-! ## Section 2: The operations of the handle -/

inductive Call (V : Type) where
  | set (key : String) (value : V)
  | unset (key : String)
  | bindUser (userId : String)
  | destroy

/-- Where a running operation waits. -/
inductive Task (V : Type) where
  | set (id : Nat) (key : String) (value : V)
  | unset (id : Nat) (key : String)
  /-- The store operation of a `set` or `unset` is done. -/
  | done
  | destroy (id : Nat)
  /-- The row is deleted, and `destroyed = true` comes next. -/
  | destroyed
  /-- `await store.getAll(previous)`. -/
  | read (previous : Nat) (userId : String)
  | create (previous : Nat) (userId : String) (data : List (String × V))
  /-- The loop over the entries that are left to copy. -/
  | copy (previous : Nat) (userId : String) (replacement : Nat) (rest : List (String × V))
  | remove (previous replacement : Nat)
  /-- The old row is deleted, and `sessionId = replacement` comes next. -/
  | rotate (replacement : Nat)
  /-- The `catch` block: `await store.destroy(replacement)`. -/
  | undo (replacement : Nat)

/-- A `set` or `unset` of the handle that took effect at the store. -/
inductive Write (V : Type) where
  | set (key : String) (value : V)
  | unset (key : String)

structure State (V : Type) where
  store : Store V
  sessionId : Nat
  destroyed : Bool
  authProvidedId : Bool
  /-- The response middleware has finished. -/
  headersCommitted : Bool
  tasks : Nat → Option (Task V)
  calls : Nat
  /-- The history: writes, latest first, and the ids of this handle. -/
  writes : List (Write V)
  created : List Nat

def currentId (s : State V) : Except String Nat :=
  if s.destroyed then .error "[Cossack] Session has been destroyed." else .ok s.sessionId

def State.put (s : State V) (i : Nat) (task : Option (Task V)) : State V :=
  { s with tasks := fun j => if j = i then task else s.tasks j }

/-- A call enters its first await, or rejects at once (`none`). -/
def enter (s : State V) : Call V → Option (Task V)
  | .set key value => (currentId s).toOption.map fun id => .set id key value
  | .unset key => (currentId s).toOption.map fun id => .unset id key
  | .bindUser userId =>
      if s.headersCommitted || s.authProvidedId then none
      else (currentId s).toOption.map fun id => .read id userId
  | .destroy =>
      if s.headersCommitted then none else (currentId s).toOption.map fun id => .destroy id

/-- The awaited store operation takes effect, or the operation resumes. -/
def advance (s : State V) (i : Nat) : Task V → State V
  | .set id key value =>
      { s.put i (some .done) with
        store := s.store.set id key value, writes := .set key value :: s.writes }
  | .unset id key =>
      { s.put i (some .done) with store := s.store.unset id key, writes := .unset key :: s.writes }
  | .done => s.put i none
  | .destroy id => { s.put i (some .destroyed) with store := s.store.destroy id }
  | .destroyed => { s.put i none with destroyed := true }
  | .read previous userId => s.put i (some (.create previous userId (s.store.getAll previous)))
  | .create previous userId data =>
      let replacement := s.store.create
      { s.put i (some (.copy previous userId replacement.1 data)) with
        store := replacement.2, created := replacement.1 :: s.created }
  | .copy previous userId replacement ((key, value) :: rest) =>
      { s.put i (some (.copy previous userId replacement rest)) with
        store := s.store.set replacement key value }
  | .copy previous userId replacement [] =>
      { s.put i (some (.remove previous replacement)) with
        store := s.store.bindUser replacement userId }
  | .remove previous replacement =>
      { s.put i (some (.rotate replacement)) with store := s.store.destroy previous }
  | .rotate replacement => { s.put i none with sessionId := replacement }
  | .undo replacement => { s.put i none with store := s.store.destroy replacement }

/-- The awaited store operation rejects without an effect.  The deletion in the
    `catch` block does not fail. -/
def reject (s : State V) (i : Nat) : Task V → Option (State V)
  | .set _ _ _ | .unset _ _ | .destroy _ | .read _ _ | .create _ _ _ => some (s.put i none)
  | .copy _ _ replacement _ | .remove _ replacement => some (s.put i (some (.undo replacement)))
  | .done | .destroyed | .rotate _ | .undo _ => none

inductive Event (V : Type) where
  | call (operation : Call V)
  | advance (task : Nat)
  | reject (task : Nat)
  | commitHeaders

def step (s : State V) : Event V → Option (State V)
  | .call operation =>
      some { s.put s.calls (enter s operation) with calls := s.calls + 1 }
  | .advance i => (s.tasks i).map (advance s i)
  | .reject i => (s.tasks i).bind (reject s i)
  | .commitHeaders => some { s with headersCommitted := true }

/-- The handle when the middleware calls `next()`: the session `id` of the
    store, found by its cookie or just created. -/
def initial (store : Store V) (id : Nat) (authProvidedId : Bool) : State V where
  store := store
  sessionId := id
  destroyed := false
  authProvidedId := authProvidedId
  headersCommitted := false
  tasks _ := none
  calls := 0
  writes := []
  created := [id]

end Cossack.Framework.Session
