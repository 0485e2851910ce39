import Mathlib.Data.List.Basic

/-! # Notification stores

    `MemoryNotificationStore` and `createD1NotificationStore`: the operations of
    a delivery on the record of one notification.  Both keep a claim token with a
    lease, and a marker that an external send may be under way. -/

namespace Cossack.Core.Notifications

/-! ## Section 1: Records -/

inductive NotificationChannel where
  | email
  | inApp
  deriving DecidableEq

inductive NotificationStatus where
  | queued
  | providerAccepted
  | failed
  | unknown
  | delivered
  deriving DecidableEq

inductive NotificationFailureCode where
  | preferenceDisabled
  | preferencesUnavailable
  | providerRejected
  | deliveryUnknown
  | channelUnavailable
  deriving DecidableEq

/-- What a provider declares, and what the marker of a send says. -/
inductive Idempotency where
  | provider
  | none
  deriving DecidableEq

structure NotificationContent where
  subject : String
  text : String
  html : String
  deriving DecidableEq

structure NotificationRecord where
  key : String
  template : String
  channel : NotificationChannel
  email : Option String
  content : NotificationContent
  status : NotificationStatus
  attempt : Nat
  updatedAt : Nat
  code : Option NotificationFailureCode
  messageId : Option String

/-- A stored notification; `expiresAt` counts only where there is a token, and is
    0 where the store has none. -/
structure StoredNotification where
  record : NotificationRecord
  token : Option Nat
  expiresAt : Nat
  sending : Option Idempotency

structure NotificationClaimOptions where
  now : Nat
  leaseMs : Nat

inductive NotificationClaim where
  | acquired (token : Nat) (record : NotificationRecord) (sending : Option Idempotency)
  | busy
  | missing
  | terminal (record : NotificationRecord)

structure NotificationFinish where
  status : NotificationStatus
  now : Nat
  code : Option NotificationFailureCode := Option.none
  messageId : Option String := Option.none

/-- The operations of a store.  A claim answers, or (`none`) goes on to its next
    statement; `beginSend` and `finish` give the notification they leave, or
    `none` for `false`. -/
structure NotificationStore where
  claim : Nat → NotificationClaimOptions → Nat → Option StoredNotification →
    Option StoredNotification × Option NotificationClaim
  beginSend : Nat → Nat → Idempotency → StoredNotification → Option StoredNotification
  finish : Nat → NotificationFinish → StoredNotification → Option StoredNotification

/-- A send that nobody knows the end of. -/
def StoredNotification.uncertain (item : StoredNotification) (now : Nat) : StoredNotification where
  record :=
    { item.record with status := .unknown, code := some .deliveryUnknown, updatedAt := now }
  token := Option.none
  expiresAt := 0
  sending := Option.none

def StoredNotification.acquire (item : StoredNotification) (options : NotificationClaimOptions)
    (token : Nat) : StoredNotification where
  record := { item.record with attempt := item.record.attempt + 1, updatedAt := options.now }
  token := some token
  expiresAt := options.now + options.leaseMs
  sending := item.sending

/-- The end of a claim. The marker stays only for an uncertain send through a
    provider that is idempotent. -/
def StoredNotification.finished (item : StoredNotification) (result : NotificationFinish) :
    StoredNotification where
  record :=
    { item.record with
      status := result.status, updatedAt := result.now, code := result.code
      messageId := result.messageId }
  token := Option.none
  expiresAt := 0
  sending :=
    if result.status = .queued ∧ result.code = some .deliveryUnknown ∧
        item.sending = some .provider then
      item.sending
    else Option.none

/-! ## Section 2: `MemoryNotificationStore` -/

namespace MemoryNotificationStore

def claim (options : NotificationClaimOptions) (token : Nat) :
    Option StoredNotification → Option StoredNotification × Option NotificationClaim
  | Option.none => (Option.none, some .missing)
  | some item =>
      if item.record.status ≠ .queued then (some item, some (.terminal item.record))
      else if item.token.isSome ∧ options.now < item.expiresAt then (some item, some .busy)
      else if item.sending = some .none then
        let item := item.uncertain options.now
        (some item, some (.terminal item.record))
      else
        let item := item.acquire options token
        (some item, some (.acquired token item.record item.sending))

def beginSend (token now : Nat) (idempotency : Idempotency) (item : StoredNotification) :
    Option StoredNotification :=
  if item.token ≠ some token ∨ item.expiresAt ≤ now ∨ item.record.status ≠ .queued then Option.none
  else if item.sending = some .provider ∧ idempotency ≠ .provider then Option.none
  else
    some { item with
      sending := some idempotency
      record := { item.record with updatedAt := now } }

def finish (token : Nat) (result : NotificationFinish) (item : StoredNotification) :
    Option StoredNotification :=
  if item.token ≠ some token ∨ item.expiresAt ≤ result.now ∨ item.record.status ≠ .queued then
    Option.none
  else if result.status = .providerAccepted ∧
      (item.record.channel ≠ .email ∨ item.sending = Option.none) then
    Option.none
  else if result.status = .delivered ∧ (item.record.channel ≠ .inApp ∨ item.sending.isSome) then
    Option.none
  else if result.status = .queued ∧ item.sending.isSome ∧ result.code ≠ some .providerRejected ∧
      ¬ (item.sending = some .provider ∧ result.code = some .deliveryUnknown) then
    Option.none
  else some (item.finished result)

end MemoryNotificationStore

def memoryNotificationStore : NotificationStore where
  claim _ := MemoryNotificationStore.claim
  beginSend := MemoryNotificationStore.beginSend
  finish := MemoryNotificationStore.finish

/-! ## Section 3: `createD1NotificationStore` -/

namespace D1NotificationStore

/-- The statements of `claim`: an uncertain send is closed, a free notification
    acquired, and otherwise the row is read. -/
def claim (stage : Nat) (options : NotificationClaimOptions) (token : Nat)
    (row : Option StoredNotification) : Option StoredNotification × Option NotificationClaim :=
  match stage, row with
  | 0, some item =>
      if item.record.status = .queued ∧ item.sending = some .none ∧ item.expiresAt ≤ options.now then
        let item := item.uncertain options.now
        (some item, some (.terminal item.record))
      else (row, Option.none)
  | 0, Option.none => (row, Option.none)
  | 1, some item =>
      if item.record.status = .queued ∧ (item.token = Option.none ∨ item.expiresAt ≤ options.now) ∧
          (item.sending = Option.none ∨ item.sending = some .provider) then
        let item := item.acquire options token
        (some item, some (.acquired token item.record item.sending))
      else (row, Option.none)
  | 1, Option.none => (row, Option.none)
  | _, Option.none => (row, some .missing)
  | _, some item =>
      if item.record.status = .queued then (row, some .busy)
      else (row, some (.terminal item.record))

def beginSend (token now : Nat) (idempotency : Idempotency) (item : StoredNotification) :
    Option StoredNotification :=
  if item.token = some token ∧ item.record.status = .queued ∧ item.record.channel = .email ∧
      now < item.expiresAt ∧ (item.sending = Option.none ∨ item.sending = some idempotency) then
    some { item with
      sending := some idempotency
      record := { item.record with updatedAt := now } }
  else Option.none

def finish (token : Nat) (result : NotificationFinish) (item : StoredNotification) :
    Option StoredNotification :=
  if item.token = some token ∧ item.record.status = .queued ∧ result.now < item.expiresAt ∧
      (result.status ≠ .queued ∨ item.sending = Option.none ∨
        result.code = some .providerRejected ∨
        (item.sending = some .provider ∧ result.code = some .deliveryUnknown)) ∧
      (result.status ≠ .providerAccepted ∨ (item.record.channel = .email ∧ item.sending.isSome)) ∧
      (result.status ≠ .delivered ∨ (item.record.channel = .inApp ∧ item.sending = Option.none)) then
    some (item.finished result)
  else Option.none

end D1NotificationStore

def d1NotificationStore : NotificationStore where
  claim := D1NotificationStore.claim
  beginSend := D1NotificationStore.beginSend
  finish := D1NotificationStore.finish

/-! ## Section 4: What both stores do -/

/-- The operations as a delivery may rely on them. -/
structure NotificationStore.Lawful (store : NotificationStore) : Prop where
  /-- A claim leaves the notification alone, closes an uncertain send or acquires
      a notification without one. -/
  claim : ∀ stage options token stored, (∃ answer,
      store.claim stage options token stored = (stored, answer) ∧
        ∀ token' record sending, answer ≠ some (.acquired token' record sending)) ∨
    ∃ item, stored = some item ∧ item.record.status = .queued ∧
      ((item.sending = some .none ∧ store.claim stage options token stored =
          (some (item.uncertain options.now),
            some (.terminal (item.uncertain options.now).record))) ∨
        (item.sending ≠ some .none ∧ store.claim stage options token stored =
          (some (item.acquire options token),
            some (.acquired token (item.acquire options token).record item.sending))))
  /-- A claim after the lease closes an uncertain send. -/
  uncertain : ∀ options token item, item.record.status = .queued → item.sending = some .none →
    item.expiresAt ≤ options.now → store.claim 0 options token (some item) =
      (some (item.uncertain options.now), some (.terminal (item.uncertain options.now).record))
  beginSend : ∀ token now idempotency item item',
    store.beginSend token now idempotency item = some item' →
    item.token = some token ∧ item.record.status = .queued ∧
      (item.sending = some .provider → idempotency = .provider) ∧
      item' = { item with
        sending := some idempotency, record := { item.record with updatedAt := now } }
  finish : ∀ token result item item', store.finish token result item = some item' →
    item.token = some token ∧ item.record.status = .queued ∧ item' = item.finished result ∧
      (result.status = .queued → item.sending = Option.none ∨
        result.code = some .providerRejected ∨
        (item.sending = some .provider ∧ result.code = some .deliveryUnknown))

theorem memoryNotificationStore_lawful : memoryNotificationStore.Lawful where
  claim stage options token stored := by
    show (∃ answer, MemoryNotificationStore.claim options token stored = (stored, answer) ∧ _) ∨
      ∃ item, _ ∧ _ ∧ ((_ ∧ MemoryNotificationStore.claim options token stored = _) ∨
        (_ ∧ MemoryNotificationStore.claim options token stored = _))
    unfold MemoryNotificationStore.claim
    cases stored with
    | none => exact .inl ⟨_, rfl, fun _ _ _ h => (nomatch h)⟩
    | some item =>
      simp only
      by_cases hstatus : item.record.status = .queued
      · rw [if_neg (not_not.mpr hstatus)]
        by_cases hbusy : item.token.isSome ∧ options.now < item.expiresAt
        · rw [if_pos hbusy]
          exact .inl ⟨_, rfl, fun _ _ _ h => (nomatch h)⟩
        · rw [if_neg hbusy]
          by_cases hsending : item.sending = some .none
          · rw [if_pos hsending]
            exact .inr ⟨item, rfl, hstatus, .inl ⟨hsending, rfl⟩⟩
          · rw [if_neg hsending]
            exact .inr ⟨item, rfl, hstatus, .inr ⟨hsending, rfl⟩⟩
      · rw [if_pos hstatus]
        exact .inl ⟨_, rfl, fun _ _ _ h => (nomatch h)⟩
  uncertain options token item hstatus hsending hexpired := by
    show MemoryNotificationStore.claim options token (some item) = _
    unfold MemoryNotificationStore.claim
    have hfree : ¬ (item.token.isSome ∧ options.now < item.expiresAt) :=
      fun hbusy => Nat.not_lt.mpr hexpired hbusy.2
    simp only
    rw [if_neg (not_not.mpr hstatus), if_neg hfree, if_pos hsending]
  beginSend token now idempotency item item' h := by
    change MemoryNotificationStore.beginSend token now idempotency item = some item' at h
    unfold MemoryNotificationStore.beginSend at h
    split at h
    · cases h
    · next howner =>
      split at h
      · cases h
      · next hmarker =>
        cases h
        simp only [not_or, not_not, ne_eq] at howner
        refine ⟨howner.1, howner.2.2, fun hprovider => ?_, rfl⟩
        by_contra hnot
        exact hmarker ⟨hprovider, hnot⟩
  finish token result item item' h := by
    change MemoryNotificationStore.finish token result item = some item' at h
    unfold MemoryNotificationStore.finish at h
    split at h
    · cases h
    · next howner =>
      split at h
      · cases h
      · split at h
        · cases h
        · split at h
          · cases h
          · next hqueued =>
            cases h
            simp only [not_or, not_not, ne_eq] at howner
            refine ⟨howner.1, howner.2.2, rfl, fun hstatus => ?_⟩
            by_cases hnone : item.sending = Option.none
            · exact .inl hnone
            · right
              by_contra hnot
              rw [not_or] at hnot
              exact hqueued ⟨hstatus, Option.isSome_iff_ne_none.mpr hnone, hnot.1, hnot.2⟩

theorem d1NotificationStore_lawful : d1NotificationStore.Lawful where
  claim stage options token stored := by
    show (∃ answer, D1NotificationStore.claim stage options token stored = (stored, answer) ∧ _) ∨
      ∃ item, _ ∧ _ ∧ ((_ ∧ D1NotificationStore.claim stage options token stored = _) ∨
        (_ ∧ D1NotificationStore.claim stage options token stored = _))
    unfold D1NotificationStore.claim
    cases stored with
    | none =>
      left
      split <;> first | exact ⟨_, rfl, fun _ _ _ h => (nomatch h)⟩ | contradiction
    | some item =>
      match stage with
      | 0 =>
        simp only
        by_cases hfree : item.record.status = .queued ∧ item.sending = some .none ∧
            item.expiresAt ≤ options.now
        · rw [if_pos hfree]
          exact .inr ⟨item, rfl, hfree.1, .inl ⟨hfree.2.1, rfl⟩⟩
        · rw [if_neg hfree]
          exact .inl ⟨_, rfl, fun _ _ _ h => (nomatch h)⟩
      | 1 =>
        simp only
        by_cases hfree : item.record.status = .queued ∧
            (item.token = Option.none ∨ item.expiresAt ≤ options.now) ∧
            (item.sending = Option.none ∨ item.sending = some .provider)
        · rw [if_pos hfree]
          have hmarker : item.sending ≠ some .none := by
            rcases hfree.2.2 with h | h <;> rw [h] <;> exact nofun
          exact .inr ⟨item, rfl, hfree.1, .inr ⟨hmarker, rfl⟩⟩
        · rw [if_neg hfree]
          exact .inl ⟨_, rfl, fun _ _ _ h => (nomatch h)⟩
      | n + 2 =>
        left
        simp only
        split <;> exact ⟨_, rfl, fun _ _ _ h => (nomatch h)⟩
  uncertain options token item hstatus hsending hexpired := by
    show D1NotificationStore.claim 0 options token (some item) = _
    unfold D1NotificationStore.claim
    simp only
    rw [if_pos ⟨hstatus, hsending, hexpired⟩]
  beginSend token now idempotency item item' h := by
    change D1NotificationStore.beginSend token now idempotency item = some item' at h
    unfold D1NotificationStore.beginSend at h
    split at h
    · next howner =>
      cases h
      refine ⟨howner.1, howner.2.1, fun hprovider => ?_, rfl⟩
      rcases howner.2.2.2.2 with hnone | hsame
      · rw [hprovider] at hnone
        cases hnone
      · rw [hprovider] at hsame
        exact (Option.some.inj hsame).symm
    · cases h
  finish token result item item' h := by
    change D1NotificationStore.finish token result item = some item' at h
    unfold D1NotificationStore.finish at h
    split at h
    · next howner =>
      cases h
      exact ⟨howner.1, howner.2.1, rfl, fun hqueued =>
        howner.2.2.2.1.resolve_left (not_not.mpr hqueued)⟩
    · cases h

end Cossack.Core.Notifications
