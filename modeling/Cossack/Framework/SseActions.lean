import Cossack.Lib.Entries
import Cossack.Lib.JsString
import Mathlib.Logic.Function.Basic

/-! # The action queue of a Durable Object

    `execute`, `cancel` and `#finish` of `SseDurableObject`.  A call of `execute`
    goes on at each `await`; how the action answers, what its stream gives and
    when the consumer reads or gives up are events. -/

namespace Cossack.Framework.Sse

/-! ## Section 1: Pending actions -/

def maxPending : Nat := 32

/-- How the invoked action ends: it throws, its response is passed on as it is or
    as a stream, or a stream cannot be made of it. -/
inductive Answer where
  | threw
  | plain
  | native
  | rpc
  | unreadable

inductive StreamKind where
  | native
  | rpc
  deriving DecidableEq

/-- What a read of the action's stream gives: a chunk, or a frame that is
    published; the last frame; the end; an error, or a frame that is refused. -/
inductive Read where
  | chunk
  | last
  | done
  | failed
  deriving DecidableEq

/-- Where the pull of a returned stream stands. After the last frame the iterator
    is closed. -/
inductive Pull where
  | idle
  | reading
  | read (result : Read)
  | closing

/-- Where a call of `execute` stands.  `ready`: it awaits its turn, which came once
    it was `entered`.  `ended`: it returned or threw, and the stream it returned is
    no longer open. -/
inductive Phase where
  | ready (entered : Bool)
  | running
  | answered (answer : Answer)
  | streaming (kind : StreamKind) (pull : Pull)
  | ended

structure PendingAction where
  id : String
  cancelled : Bool
  closed : Bool
  phase : Phase

inductive Action where
  | activated (entry : Nat)
  | resumed (entry : Nat)
  | invoked (entry : Nat)
  | cancelled (entry : Nat)

/-- The calls that were accepted are numbered in the order they arrived.
    `initialized`: the scope has a snapshot.  The log has its newest action first. -/
structure State where
  calls : Nat
  entries : Nat → PendingAction
  actions : List (String × Nat)
  queue : List Nat
  active : Option Nat
  initialized : Bool
  log : List Action

def State.initial : State := ⟨0, fun _ => ⟨"", false, true, .ended⟩, [], [], none, false, []⟩

def State.phase (s : State) (i : Nat) : Phase := (s.entries i).phase

def State.goto (s : State) (i : Nat) (phase : Phase) : State :=
  { s with entries := Function.update s.entries i { s.entries i with phase := phase } }

/-- `entry.enter()`. -/
def State.enter (s : State) (i : Nat) : State :=
  match s.phase i with
  | .ready _ => s.goto i (.ready true)
  | _ => s

/-- The entry becomes the active one and is entered. -/
def State.activate (s : State) (i : Nat) : State :=
  { s.enter i with active := some i, log := .activated i :: s.log }

/-! ## Section 2: `#finish` and `cancel` -/

def State.close (s : State) (i : Nat) : State :=
  { s with
    entries := Function.update s.entries i { s.entries i with closed := true }
    actions := Entries.erase s.actions (s.entries i).id }

def State.finish (s : State) (i : Nat) : State :=
  if (s.entries i).closed then s
  else
    let s := s.close i
    if s.active = some i then
      match s.queue with
      | [] => { s with active := none }
      | next :: rest => { s with queue := rest }.activate next
    else { s with queue := s.queue.erase i }

/-- `entry.close?.()`: only the stream of a running action has it. -/
def State.closeStream (s : State) (i : Nat) : State :=
  match s.phase i with
  | .streaming .. => (s.finish i).goto i .ended
  | _ => s

def State.markCancelled (s : State) (i : Nat) : State :=
  { s with
    entries := Function.update s.entries i { s.entries i with cancelled := true }
    log := .cancelled i :: s.log }

def State.cancel (s : State) (operationId : String) : State :=
  match Entries.get s.actions operationId with
  | none => s
  | some i =>
      if (s.entries i).closed ∨ (s.entries i).cancelled then s
      else
        let s := s.markCancelled i
        if s.active ≠ some i then (s.finish i).enter i else s.closeStream i

/-! ## Section 3: `execute` -/

def validOperationId (operationId : String) : Bool :=
  !JsString.isBlank operationId && decide ((JsString.utf16 operationId).length ≤ 128)

/-- A call up to `await ready`; one that is refused returns at once. -/
def State.execute (s : State) (operationId : String) : State :=
  if validOperationId operationId = false then s
  else if (Entries.get s.actions operationId).isSome then s
  else if maxPending ≤ s.actions.length then s
  else
    let i := s.calls
    let s : State :=
      { s with
        calls := i + 1
        entries := Function.update s.entries i ⟨operationId, false, false, .ready false⟩
        actions := Entries.set s.actions operationId i }
    if s.active.isSome then { s with queue := s.queue ++ [i] } else s.activate i

/-- The slot is released, and the call or its stream ends. -/
def State.release (s : State) (i : Nat) : State := (s.finish i).goto i .ended

/-- After `await ready`. -/
def State.start (s : State) (i : Nat) : State :=
  let s := { s with log := .resumed i :: s.log }
  if (s.entries i).cancelled then s.goto i .ended
  else if s.initialized then { s.goto i .running with log := .invoked i :: s.log }
  else s.release i

/-- After the action answered. -/
def State.respond (s : State) (i : Nat) : Answer → State
  | .threw => s.release i
  | .plain => s.release i
  | .native => if (s.entries i).cancelled then s.release i else s.goto i (.streaming .native .idle)
  | .rpc => if (s.entries i).cancelled then s.release i else s.goto i (.streaming .rpc .idle)
  | .unreadable => s.release i

/-- After a read of the stream. Both ends of a stream release the slot. -/
def State.deliver (s : State) (i : Nat) (kind : StreamKind) : Read → State
  | .chunk => s.goto i (.streaming kind .idle)
  | .last => s.goto i (.streaming kind .closing)
  | .done => s.release i
  | .failed => s.release i

inductive Event where
  | initializeScope
  | execute (operationId : String)
  | cancel (operationId : String)
  | resume (entry : Nat)
  | answer (entry : Nat) (answer : Answer)
  | pull (entry : Nat)
  | read (entry : Nat) (result : Read)
  | cancelStream (entry : Nat)

/-- Any order of calls, of what they await and of what consumers do. -/
def step (s : State) : Event → Option State
  | .initializeScope => some { s with initialized := true }
  | .execute operationId => some (s.execute operationId)
  | .cancel operationId => some (s.cancel operationId)
  | .resume i =>
      match s.phase i with
      | .ready true => some (s.start i)
      | .answered answer => some (s.respond i answer)
      | .streaming kind (.read result) => some (s.deliver i kind result)
      | .streaming _ .closing => some (s.release i)
      | _ => none
  | .answer i answer =>
      match s.phase i with
      | .running => some (s.goto i (.answered answer))
      | _ => none
  | .pull i =>
      match s.phase i with
      | .streaming kind .idle => some (s.goto i (.streaming kind .reading))
      | _ => none
  | .read i result =>
      match s.phase i with
      | .streaming kind .reading =>
          if kind = .native ∧ result = .last then none
          else some (s.goto i (.streaming kind (.read result)))
      | _ => none
  | .cancelStream i =>
      match s.phase i with
      | .streaming .. => some (s.closeStream i)
      | _ => none

end Cossack.Framework.Sse
