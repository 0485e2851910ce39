import Cossack.Core.NotificationStores
import Cossack.Lib.Runs

/-! # Delivering notifications

    `deliver` of the notification runtime, with any number of deliveries under
    way over one store, from runtimes that may differ in their provider.  A
    delivery goes on at each `await`, where it may also crash; what it returns is
    left out. -/

namespace Cossack.Core.Notifications

/-! ## Section 1: Runtimes and deliveries -/

/-- `options.email`: the sender and what its provider declares. -/
structure EmailOptions where
  idempotency : Idempotency
  sender : String

structure NotificationRuntime where
  email : Option EmailOptions
  leaseMs : Nat
  maxAttempts : Nat
  lease : 1000 ≤ leaseMs ∧ leaseMs ≤ 86400000
  attempts : 1 ≤ maxAttempts ∧ maxAttempts ≤ 100

/-- An acquired claim: the record as it was then, and the marker of an earlier
    send. -/
structure Acquired where
  token : Nat
  record : NotificationRecord
  sending : Option Idempotency

/-- Where a delivery awaits: a statement of the claim, the preferences, the
    marker, the provider it is about to invoke, its answer, the record of the
    outcome.  `done`: it returned, threw or crashed. -/
inductive Phase where
  | claiming (stage : Nat) (options : NotificationClaimOptions)
  | preferring (claim : Acquired)
  | beginning (claim : Acquired) (email : EmailOptions) (recipient : String) (now : Nat)
  | begun (claim : Acquired) (email : EmailOptions) (recipient : String)
  | sending (claim : Acquired) (email : EmailOptions)
  | finishing (claim : Acquired) (result : NotificationFinish)
  | done

structure Delivery where
  id : String
  runtime : NotificationRuntime
  phase : Phase

structure SentMessage where
  recipient : String
  sender : String
  content : NotificationContent
  idempotencyKey : String

/-- How `provider.send` ends: with a receipt, with an explicit rejection, or in
    any other way, a receipt that cannot be trusted included. -/
inductive SendOutcome where
  | accepted (messageId : Option String)
  | rejected (retryable : Bool)
  | unknown
  deriving DecidableEq

inductive Action where
  | invoked (id : String) (token : Nat) (idempotency : Idempotency) (message : SentMessage)
  | ended (id : String) (token : Nat) (outcome : SendOutcome)
  | recorded (id : String) (token : Nat) (result : NotificationFinish)

/-- The log has its newest action first. -/
structure State where
  clock : Nat
  uuids : Nat
  records : String → Option StoredNotification
  deliveries : List Delivery
  log : List Action

def State.initial : State := ⟨0, 0, fun _ => Option.none, [], []⟩

/-- What an awaited call answers: the preference (`none`: it threw), or how the
    send ended. -/
structure Answer where
  preference : Option Bool
  outcome : SendOutcome

inductive Event where
  | tick (ms : Nat)
  | insert (id : String) (record : NotificationRecord)
  | recordDelivered (id messageId : String)
  | deliver (id : String) (runtime : NotificationRuntime)
  | resume (delivery : Nat) (answer : Answer)
  | crash (delivery : Nat)

/-! ## Section 2: `deliver` -/

/-- What follows the preferences. -/
def afterPreferences (runtime : NotificationRuntime) (now : Nat) (claim : Acquired) :
    Option Bool → Phase
  | Option.none =>
      let retried := decide (claim.record.attempt < runtime.maxAttempts)
      if claim.sending.isSome then
        .finishing claim
          { status := if retried then .queued else .unknown, now := now, code := some .deliveryUnknown }
      else
        .finishing claim
          { status := if retried then .queued else .failed, now := now
            code := some .preferencesUnavailable }
  | some false =>
      if claim.sending.isSome then
        .finishing claim { status := .unknown, now := now, code := some .deliveryUnknown }
      else .finishing claim { status := .failed, now := now, code := some .preferenceDisabled }
  | some true =>
      match claim.record.channel, runtime.email, claim.record.email with
      | .inApp, _, _ => .finishing claim { status := .delivered, now := now }
      | .email, some email, some recipient =>
          if claim.sending = some .provider ∧ email.idempotency ≠ .provider then
            .finishing claim { status := .unknown, now := now, code := some .deliveryUnknown }
          else .beginning claim email recipient now
      | .email, _, _ =>
          if claim.sending.isSome then
            .finishing claim { status := .unknown, now := now, code := some .deliveryUnknown }
          else .finishing claim { status := .failed, now := now, code := some .channelUnavailable }

/-- The outcome a send is recorded with. A rejection cannot disprove an earlier
    send that may have been accepted. -/
def afterSend (runtime : NotificationRuntime) (now : Nat) (claim : Acquired) (email : EmailOptions) :
    SendOutcome → NotificationFinish
  | .accepted messageId => { status := .providerAccepted, now := now, messageId := messageId }
  | outcome =>
      let rejected := outcome != .unknown
      let uncertain := decide (claim.sending = some .provider) || !rejected
      let safeRetry := if rejected then outcome == .rejected true else email.idempotency == .provider
      { status :=
          if safeRetry && decide (claim.record.attempt < runtime.maxAttempts) then .queued
          else if uncertain then .unknown
          else .failed
        now := now
        code := some (if uncertain then .deliveryUnknown else .providerRejected) }

def State.put (s : State) (i : Nat) (delivery : Delivery) (phase : Phase) : State :=
  { s with deliveries := s.deliveries.set i { delivery with phase := phase } }

def State.store (s : State) (id : String) (item : Option StoredNotification) : State :=
  { s with records := Function.update s.records id item }

/-- A delivery goes on to its next `await`. -/
def NotificationStore.resume (store : NotificationStore) (s : State) (i : Nat) (delivery : Delivery)
    (answer : Answer) : Option State :=
  let id := delivery.id
  match delivery.phase with
  | .claiming stage options =>
      let result := store.claim stage options s.uuids (s.records id)
      let s := { s.store id result.1 with uuids := s.uuids + 1 }
      match result.2 with
      | some (.acquired token record sending) =>
          some (s.put i delivery (.preferring ⟨token, record, sending⟩))
      | some _ => some (s.put i delivery .done)
      | Option.none => some (s.put i delivery (.claiming (stage + 1) options))
  | .preferring claim =>
      some (s.put i delivery (afterPreferences delivery.runtime s.clock claim answer.preference))
  | .beginning claim email recipient now =>
      match (s.records id).bind (store.beginSend claim.token now email.idempotency) with
      | Option.none => some (s.put i delivery .done)
      | some item => some ((s.store id (some item)).put i delivery (.begun claim email recipient))
  | .begun claim email recipient =>
      let message : SentMessage := ⟨recipient, email.sender, claim.record.content, claim.record.key⟩
      some { s.put i delivery (.sending claim email) with
        log := .invoked id claim.token email.idempotency message :: s.log }
  | .sending claim email =>
      let result := afterSend delivery.runtime s.clock claim email answer.outcome
      some { s.put i delivery (.finishing claim result) with
        log := .ended id claim.token answer.outcome :: s.log }
  | .finishing claim result =>
      match (s.records id).bind (store.finish claim.token result) with
      | Option.none => some (s.put i delivery .done)
      | some item =>
          some { (s.store id (some item)).put i delivery .done with
            log := .recorded id claim.token result :: s.log }
  | .done => Option.none

/-- A record as `insert` accepts it. -/
def inserted (record : NotificationRecord) : StoredNotification :=
  ⟨{ record with status := .queued, attempt := 0 }, Option.none, 0, Option.none⟩

/-- `recordDelivered`, with evidence for a message the provider accepted. -/
def delivered (messageId : String) (now : Nat) (item : StoredNotification) : StoredNotification :=
  if item.record.channel = .email ∧ item.record.status = .providerAccepted ∧
      item.record.messageId = some messageId then
    { item with record := { item.record with status := .delivered, updatedAt := now } }
  else item

def step (store : NotificationStore) (s : State) : Event → Option State
  | .tick ms => some { s with clock := s.clock + ms }
  | .insert id record =>
      match s.records id with
      | some _ => some s
      | Option.none => some (s.store id (some (inserted record)))
  | .recordDelivered id messageId =>
      some (s.store id ((s.records id).map (delivered messageId s.clock)))
  | .deliver id runtime =>
      let options : NotificationClaimOptions := ⟨s.clock, runtime.leaseMs⟩
      some { s with deliveries := s.deliveries ++ [⟨id, runtime, .claiming 0 options⟩] }
  | .resume i answer =>
      match s.deliveries[i]? with
      | Option.none => Option.none
      | some delivery => store.resume s i delivery answer
  | .crash i => s.deliveries[i]?.map fun delivery => s.put i delivery .done

end Cossack.Core.Notifications
