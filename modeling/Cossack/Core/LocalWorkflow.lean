import Mathlib.Logic.Function.Basic

/-! # The local workflow provider

    `createLocalWorkflowProvider`, one instance of it.  The step operations of the
    workflow and the workflow itself are async functions that go on at each
    `await`; what an awaited body, timer or workflow function does is an event,
    and so are the calls of `control` and `sendEvent`. -/

namespace Cossack.Core.Workflows

/-! ## Section 1: Instances -/

inductive WorkflowStatus where
  | queued
  | running
  | paused
  | waiting
  | complete
  | failed
  | terminated
  deriving DecidableEq

inductive ControlAction where
  | pause
  | resume
  | terminate

/-- The workflow itself, or a step operation it called.  Of the options of a step
    only what decides its course is kept: how often a body is retried, and
    whether an event is waited for with a deadline. -/
inductive Kind where
  | run
  | do (limit : Nat)
  | sleep
  | waitForEvent (type : String) (deadline : Bool)
  deriving DecidableEq

/-- What an operation goes on with after a readiness check. -/
inductive After where
  | start
  | complete
  | attempt (attempt : Nat)
  | value
  | wait
  | slept
  | listen
  | received

/-- What an operation awaits. An event that was sent is there before the
    operation goes on. -/
inductive Awaited (P : Type) where
  | workflow
  | body (attempt : Nat)
  | delay (attempt : Nat)
  | timer
  | event (sent : Option P)

/-- Where an operation stands.  A readiness check parks it, is passed or throws;
    `woken` has its resolver called.  `scheduled`: the body is queued by
    `perform`. -/
inductive Phase (P : Type) where
  | created
  | parked (after : After)
  | woken (after : After)
  | passed (after : After)
  | refused (after : After)
  | scheduled (attempt : Nat)
  | awaiting (awaited : Awaited P)
  | settled (awaited : Awaited P) (ok : Bool)
  | ended

structure Operation (P : Type) where
  kind : Kind
  phase : Phase P

inductive Action where
  | applied (action : ControlAction)
  | started (operation attempt : Nat)

/-- The operations called so far are those below `calls`, the first of them the
    workflow itself.  `executing`: the workflow function was called.  The log has
    its newest action first. -/
structure Instance (P : Type) where
  status : WorkflowStatus
  events : String → List P
  waiters : String → Option Nat
  aborted : Bool
  wake : Option Nat
  previous : Option WorkflowStatus
  executing : Bool
  calls : Nat
  operations : Nat → Operation P
  log : List Action

section operations

variable {P : Type}

/-- What `create` leaves: a queued instance, and its run on the microtask queue. -/
def create : Instance P where
  status := .queued
  events _ := []
  waiters _ := none
  aborted := false
  wake := none
  previous := none
  executing := false
  calls := 1
  operations i := if i = 0 then ⟨.run, .created⟩ else ⟨.run, .ended⟩
  log := []

def Instance.phase (s : Instance P) (i : Nat) : Phase P := (s.operations i).phase

def Instance.goto (s : Instance P) (i : Nat) (phase : Phase P) : Instance P :=
  { s with operations := Function.update s.operations i ⟨(s.operations i).kind, phase⟩ }

/-- `instance.wake?.()`: a resolver that was called already does nothing. -/
def Instance.wakeUp (s : Instance P) : Instance P :=
  match s.wake with
  | none => s
  | some i =>
      match s.phase i with
      | .parked after => s.goto i (.woken after)
      | _ => s

/-- `stop`. The waiters are resolved too, but their operations are rejected by the
    abort before. -/
def Instance.stop (s : Instance P) : Instance P :=
  { ({ s with aborted := true } : Instance P).wakeUp with waiters := fun _ => none }

/-- The check of `ready`, up to its `await` or its end. -/
def Instance.ready (s : Instance P) (i : Nat) (after : After) : Instance P :=
  if s.status = .paused then { s.goto i (.parked after) with wake := some i }
  else if s.aborted then s.goto i (.refused after)
  else s.goto i (.passed after)

/-- The `catch` of the run. -/
def Instance.fail (s : Instance P) (i : Nat) : Instance P :=
  let s := if s.status ≠ .terminated then { s with status := .failed } else s
  s.stop.goto i .ended

def Instance.removeWaiter (s : Instance P) (type : String) : Instance P :=
  { s with waiters := Function.update s.waiters type none }

/-- The end of `waitForEvent` once it has a waiter: its `finally`. -/
def Instance.stopListening (s : Instance P) (i : Nat) : Instance P :=
  match (s.operations i).kind with
  | .waitForEvent type _ => (s.removeWaiter type).goto i .ended
  | _ => s.goto i .ended

/-! ## Section 2: The operations -/

/-- The readiness check that an operation begins with. -/
def Kind.first : Kind → After
  | .run => .start
  | .do _ => .attempt 0
  | .sleep => .wait
  | .waitForEvent .. => .listen

/-- After a check that was passed. -/
def Instance.proceed (s : Instance P) (i : Nat) : After → Instance P
  | .start => { s.goto i (.awaiting .workflow) with status := .running, executing := true }
  | .complete => ({ s with status := .complete } : Instance P).stop.goto i .ended
  | .attempt attempt => s.goto i (.scheduled attempt)
  | .value => s.goto i .ended
  | .wait => { s.goto i (.awaiting .timer) with status := .waiting }
  | .slept => { s.goto i .ended with status := .running }
  | .listen =>
      match (s.operations i).kind with
      | .waitForEvent type _ =>
          match s.events type with
          | _ :: rest => { s.goto i .ended with events := Function.update s.events type rest }
          | [] =>
              if (s.waiters type).isSome then s.goto i .ended
              else
                { s.goto i (.awaiting (.event none)) with
                  status := .waiting
                  waiters := Function.update s.waiters type (some i) }
      | _ => s.goto i .ended
  | .received => { s.stopListening i with status := .running }

/-- After a check that threw: only the run and an operation with a waiter have
    something to do. -/
def Instance.refuse (s : Instance P) (i : Nat) : After → Instance P
  | .start | .complete => s.fail i
  | .received => s.stopListening i
  | _ => s.goto i .ended

/-- After an awaited promise settled. A body that failed is tried again after a
    delay while the limit allows. -/
def Instance.settle (s : Instance P) (i : Nat) : Awaited P → Bool → Instance P
  | .workflow, true => s.ready i .complete
  | .workflow, false => s.fail i
  | .body _, true => s.ready i .value
  | .body attempt, false =>
      match (s.operations i).kind with
      | .do limit =>
          if s.aborted ∨ limit ≤ attempt then s.goto i .ended
          else s.goto i (.awaiting (.delay attempt))
      | _ => s.goto i .ended
  | .delay attempt, true => s.ready i (.attempt (attempt + 1))
  | .delay _, false => s.goto i .ended
  | .timer, true => s.ready i .slept
  | .timer, false => s.goto i .ended
  | .event _, true => s.ready i .received
  | .event _, false => s.stopListening i

/-- An operation goes on to its next `await`. -/
def Instance.resume (s : Instance P) (i : Nat) : Option (Instance P) :=
  match s.phase i with
  | .created => some (s.ready i .start)
  | .woken after => some (s.ready i after)
  | .passed after => some (s.proceed i after)
  | .refused after => some (s.refuse i after)
  | .scheduled attempt =>
      some { s.goto i (.awaiting (.body attempt)) with log := .started i attempt :: s.log }
  | .settled awaited ok => some (s.settle i awaited ok)
  | .parked _ | .awaiting _ | .ended => none

/-- How an awaited promise may settle. After an abort all but the workflow
    function are rejected; an event is there once it was sent, and waiting for it
    may end with the deadline. -/
def settles (aborted : Bool) (kind : Kind) : Awaited P → Bool → Bool
  | .workflow, _ => true
  | .event sent, true => !aborted && sent.isSome
  | .event _, false => aborted || (match kind with | .waitForEvent _ deadline => deadline | _ => false)
  | _, true => !aborted
  | _, false => true

/-! ## Section 3: The provider -/

def closed (status : WorkflowStatus) : Bool :=
  status = .failed ∨ status = .complete ∨ status = .terminated

/-- `none`: it throws. -/
def Instance.sendEvent (s : Instance P) (type : String) (payload : P) : Option (Instance P) :=
  if closed s.status then none
  else
    match s.waiters type with
    | some i =>
        let s := s.removeWaiter type
        match s.phase i with
        | .awaiting (.event none) => some (s.goto i (.awaiting (.event (some payload))))
        | _ => some s
    | none =>
        if 100 ≤ (s.events type).length then none
        else some { s with events := Function.update s.events type (s.events type ++ [payload]) }

/-- `none`: it throws. -/
def Instance.control (s : Instance P) (action : ControlAction) : Option (Instance P) :=
  if closed s.status then none
  else
    match action with
    | .pause =>
        if s.status = .paused then none
        else some { s with previous := some s.status, status := .paused }
    | .resume =>
        if s.status ≠ .paused then none
        else some ({ s with status := s.previous.getD .running } : Instance P).wakeUp
    | .terminate => some ({ s with status := .terminated } : Instance P).stop

inductive Event (P : Type) where
  | call (kind : Kind)
  | resume (operation : Nat)
  | settle (operation : Nat) (ok : Bool)
  | control (action : ControlAction)
  | sendEvent (type : String) (payload : P)

/-- Any order of the steps of the operations, what they await, and the calls of
    the provider.  A call that throws changes nothing. -/
def step (s : Instance P) : Event P → Option (Instance P)
  | .call kind =>
      if s.executing ∧ kind ≠ .run then
        let called := Function.update s.operations s.calls ⟨kind, .ended⟩
        some (({ s with operations := called, calls := s.calls + 1 } : Instance P).ready s.calls
          kind.first)
      else none
  | .resume i => s.resume i
  | .settle i ok =>
      match s.phase i with
      | .awaiting awaited =>
          if settles s.aborted (s.operations i).kind awaited ok then
            some (s.goto i (.settled awaited ok))
          else none
      | _ => none
  | .control action =>
      match s.control action with
      | none => some s
      | some s' => some { s' with log := .applied action :: s'.log }
  | .sendEvent type payload => some ((s.sendEvent type payload).getD s)

end operations

end Cossack.Core.Workflows
