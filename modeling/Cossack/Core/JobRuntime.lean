import Cossack.Core.JobStores
import Cossack.Lib.Runs

/-! # The job consumer

    `consume` of the job runtime, with any number of deliveries under way over
    one store.  A delivery goes on at each `await`; it may crash there, and time
    passes in between.  The log of actions says who claimed, invoked a handler
    and recorded an outcome. -/

namespace Cossack.Core.Jobs

open Runs
open Leases (Action Claim Claimable Entry Follows Held Legal Stale claims ledger works)

/-! ## Section 1: Jobs and deliveries -/

/-- What the consumer reads of a job, within the bounds `createJobRuntime`
    checks. -/
structure JobDefinition where
  maxAttempts : Option Nat
  retryDelaySeconds : Option Nat
  attempts : 1 ≤ maxAttempts.getD 3 ∧ maxAttempts.getD 3 ≤ 100
  delay : 1 ≤ retryDelaySeconds.getD 5 ∧ retryDelaySeconds.getD 5 ≤ 86400

structure JobRuntime where
  jobs : String → Option JobDefinition
  leaseMs : Nat
  lease : 1000 ≤ leaseMs ∧ leaseMs ≤ 86400000

/-- `job.maxAttempts ?? 3`. -/
def JobRuntime.limit (rt : JobRuntime) (job : String) : Nat :=
  (rt.jobs job).elim 0 fun definition => definition.maxAttempts.getD 3

inductive JobResult where
  | completed
  | duplicate
  | failed (code : JobFailureCode)
  | retry (delaySeconds : Nat) (code : Option JobFailureCode)

/-- Where a delivery awaits: the claim and, for a store that needs it, a second
    read; the answer to the claim; the schema; the handler; the cleanups; and the
    store's record of the outcome.  `done none`: it crashed or threw. -/
inductive Phase where
  | claiming (options : JobClaimOptions)
  | reading (options : JobClaimOptions)
  | acquired (claim : Claim)
  | parsing (claim : Claim)
  | handling (claim : Claim)
  | cleaning (claim : Claim) (failure : Option JobFailureCode) (permanent handlerCompleted : Bool)
  | completing (claim : Claim) (now : Nat)
  | failing (claim : Claim) (failure : JobFailure)
  | done (result : Option JobResult)

structure Delivery where
  job : String
  key : String
  phase : Phase

/-- How an awaited schema, handler or cleanup ends. -/
inductive Outcome where
  | ok
  | permanent
  | transient
  deriving DecidableEq

structure JobState (R : Type) where
  clock : Nat
  uuids : Nat
  records : String → Option R
  deliveries : List Delivery
  log : List (Action String String)

def JobState.initial {R : Type} : JobState R := ⟨0, 0, fun _ => none, [], []⟩

/-- An envelope names a job and a key; `none` stands for one that is not valid. -/
inductive JobEvent where
  | tick (ms : Nat)
  | deliver (envelope : Option (String × String))
  | resume (delivery : Nat) (outcome : Outcome)
  | crash (delivery : Nat)

/-! ## Section 2: `consume` -/

/-- What `consume` does after the handler and the cleanups. -/
def settle (definition : JobDefinition) (now : Nat) (claim : Claim) (failure : Option JobFailureCode)
    (permanent handlerCompleted : Bool) : Phase :=
  match failure with
  | none => .completing claim now
  | some failure =>
      let cleanupAfterEffect := handlerCompleted && failure == .cleanupFailed
      let terminal := permanent || cleanupAfterEffect ||
        decide (definition.maxAttempts.getD 3 ≤ claim.attempt)
      let code :=
        if terminal && !permanent && !cleanupAfterEffect && failure != .payloadInvalid then
          .retryExhausted
        else failure
      let action :=
        if code = .payloadInvalid then .fixPayload
        else if terminal then .fixHandlerAndDispatchNewKey
        else .inspectHandlerAndProvider
      .failing claim
        { terminal := terminal
          now := now
          retryAt := if terminal then now else now + definition.retryDelaySeconds.getD 5 * 1000
          code := code
          action := action }

/-- The result of a claim that acquired nothing. -/
def refused : JobClaim → JobResult
  | .busy retryAfterSeconds => .retry (max 1 (min 86400 retryAfterSeconds)) none
  | _ => .duplicate

/-- Between two awaits without the store: the next phase and, when the handler is
    invoked, that. -/
def advance (definition : JobDefinition) (clock : Nat) (job key : String) (phase : Phase)
    (outcome : Outcome) : Option (Phase × List (Action String String)) :=
  match phase with
  | .acquired claim =>
      if 1000000 < claim.attempt then some (.done none, [])
      else if definition.maxAttempts.getD 3 < claim.attempt then
        some (settle definition clock claim (some .retryExhausted) true false, [])
      else some (.parsing claim, [])
  | .parsing claim =>
      match outcome with
      | .ok => some (.handling claim, [.worked key job claim clock])
      | _ => some (settle definition clock claim (some .payloadInvalid) true false, [])
  | .handling claim =>
      match outcome with
      | .ok => some (.cleaning claim none false true, [])
      | .permanent => some (.cleaning claim (some .permanentFailure) true false, [])
      | .transient => some (.cleaning claim (some .transientFailure) false false, [])
  | .cleaning claim failure permanent handlerCompleted =>
      let failure := if outcome = .ok then failure else some (failure.getD .cleanupFailed)
      some (settle definition clock claim failure permanent handlerCompleted, [])
  | _ => none

variable {R : Type}

def JobState.put (s : JobState R) (i : Nat) (delivery : Delivery) (phase : Phase) : JobState R :=
  { s with deliveries := s.deliveries.set i { delivery with phase := phase } }

def JobState.store (s : JobState R) (key : String) (record : Option R) : JobState R :=
  { s with records := Function.update s.records key record }

/-- A delivery goes on to its next `await`. -/
def JobStore.resume (store : JobStore R) (s : JobState R) (i : Nat)
    (delivery : Delivery) (definition : JobDefinition) (outcome : Outcome) : Option (JobState R) :=
  let key := delivery.key
  match delivery.phase with
  | .claiming options =>
      let result := store.claim key options s.uuids (s.records key)
      let s := { s.store key result.1 with uuids := s.uuids + 1 }
      match result.2 with
      | some (.acquired token attempt) =>
          let claim : Claim := ⟨token, attempt, options.now + options.leaseMs⟩
          some { s.put i delivery (.acquired claim) with
            log := .claimed key options.now claim :: s.log }
      | some answer => some (s.put i delivery (.done (some (refused answer))))
      | none => some (s.put i delivery (.reading options))
  | .reading options =>
      some (s.put i delivery (.done (some (refused (store.read options (s.records key))))))
  | .completing claim now =>
      match (s.records key).bind (store.complete claim.token now) with
      | none =>
          some (s.put i delivery (.done (some (.retry (definition.retryDelaySeconds.getD 5) none))))
      | some record =>
          some { (s.store key (some record)).put i delivery (.done (some .completed)) with
            log := .released key claim.token (store.entry record) :: s.log }
  | .failing claim failure =>
      match (s.records key).elim (.ok none) (store.fail claim.token failure) with
      | .error _ => some (s.put i delivery (.done none))
      | .ok none =>
          some (s.put i delivery (.done (some (.retry (definition.retryDelaySeconds.getD 5) none))))
      | .ok (some record) =>
          let result : JobResult :=
            if failure.terminal then .failed failure.code
            else .retry (definition.retryDelaySeconds.getD 5) (some failure.code)
          some { (s.store key (some record)).put i delivery (.done (some result)) with
            log := .released key claim.token (store.entry record) :: s.log }
  | phase =>
      (advance definition s.clock delivery.job key phase outcome).map fun (phase, actions) =>
        { s.put i delivery phase with log := actions ++ s.log }

def JobRuntime.step (rt : JobRuntime) (store : JobStore R) (s : JobState R) :
    JobEvent → Option (JobState R)
  | .tick ms => some { s with clock := s.clock + ms }
  | .deliver envelope =>
      let delivery : Delivery :=
        match envelope with
        | none => ⟨"", "", .done (some (.failed .payloadInvalid))⟩
        | some (job, key) =>
            match rt.jobs job with
            | none => ⟨job, key, .done (some (.failed .payloadInvalid))⟩
            | some _ => ⟨job, key, .claiming { now := s.clock, leaseMs := rt.leaseMs, job := job }⟩
      some { s with deliveries := s.deliveries ++ [delivery] }
  | .crash i => s.deliveries[i]?.map fun delivery => s.put i delivery (.done none)
  | .resume i outcome =>
      match s.deliveries[i]? with
      | none => none
      | some delivery =>
          match rt.jobs delivery.job with
          | none => none
          | some definition => store.resume s i delivery definition outcome

end Cossack.Core.Jobs
