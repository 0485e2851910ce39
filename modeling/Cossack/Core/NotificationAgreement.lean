import Cossack.Core.NotificationLedgers
import Mathlib

/-! # The notification stores agree

    A stored notification and a row say the same as long as `beginSend` is called
    for email only and never turns a send that nobody repeats into one that the
    provider does: the memory store lets both pass, the table neither. -/

namespace Cossack.Core.NotificationLedgers

open Notifications (NotificationChannel NotificationStatus NotificationFailureCode Idempotency)
open SqlExpressions (Truth and3 or3 all3 any3 eq3 ne3)

variable {T T' : Type}

/-! ## Section 1: Calls of one run and of the other -/

/-- The same call with the tokens of the other store. -/
def Call.map (token : T → T') : Call T → Call T'
  | .insert record => .insert record
  | .claim id now leaseMs randomUUID => .claim id now leaseMs (token randomUUID)
  | .beginSend id t now idempotency => .beginSend id (token t) now idempotency
  | .finish id t result => .finish id (token t) result
  | .recordDelivered id messageId now => .recordDelivered id messageId now
  | .setRead id tenantId userId read => .setRead id tenantId userId read

def NotificationClaim.map (token : T → T') : NotificationClaim T → NotificationClaim T'
  | .acquired t record sending => .acquired (token t) record sending
  | .busy => .busy
  | .missing => .missing
  | .terminal record => .terminal record

/-- The same verdicts and records up to the tokens, or an error in both stores. -/
def Answer.Agree (token : T → T') : Answer T → Answer T' → Prop
  | .inserted created record, answer => answer = .inserted created record
  | .claim result, answer => answer = .claim (result.map token)
  | .settled ok, answer => answer = .settled ok
  | .thrown _, answer => ∃ message, answer = .thrown message

/-- The arguments pass the checks of the table, and a new record has no outcome yet. -/
def Call.WellFormed (encoded : NotificationRecord → Option Nat) (identityOf : T → String) :
    Call T → Prop
  | .insert record =>
    D1NotificationStore.identity record.id ∧ unitLength record.id ≤ 128 ∧
      D1NotificationStore.identity record.recipient.tenantId ∧
      D1NotificationStore.identity record.recipient.userId ∧
      D1NotificationStore.timestamp record.createdAt ∧
      D1NotificationStore.timestamp record.updatedAt ∧
      (∃ bytes, encoded record = some bytes ∧ bytes ≤ 256 * 1024) ∧
      record.code = none ∧ record.messageId = none
  | .claim id now leaseMs _ =>
    D1NotificationStore.identity id ∧ 1 ≤ leaseMs ∧ leaseMs ≤ 86400000 ∧
      now + leaseMs ≤ D1NotificationStore.maxSafeInteger
  | .beginSend id token now _ =>
    D1NotificationStore.identity id ∧ D1NotificationStore.identity (identityOf token) ∧
      D1NotificationStore.timestamp now
  | .finish id token result =>
    D1NotificationStore.identity id ∧ D1NotificationStore.identity (identityOf token) ∧
      D1NotificationStore.timestamp result.now ∧
      ∀ messageId, result.messageId = some messageId → D1NotificationStore.identity messageId
  | .recordDelivered id messageId now =>
    D1NotificationStore.identity id ∧ D1NotificationStore.identity messageId ∧
      D1NotificationStore.timestamp now
  | .setRead id tenantId userId _ =>
    D1NotificationStore.identity id ∧ D1NotificationStore.identity tenantId ∧
      D1NotificationStore.identity userId

/-- A `beginSend` by the holder of a lease is for an email, and does not declare a send
    to be repeatable that was begun as one that is not. -/
def Call.ForEmail [DecidableEq T] (store : MemoryNotificationStore T) : Call T → Prop
  | .beginSend id token now idempotency =>
    ∀ item, store.records.get id = some item →
      MemoryNotificationStore.StoredNotification.holds item token now = true →
      item.record.channel = .email ∧ ¬ (item.sending = some .none ∧ idempotency = .provider)
  | _ => True

/-! ## Section 2: Notifications and rows -/

/-- A notification and a row that say the same. -/
structure Corresponds (token : T → T') (_id : String) (item : StoredNotification T) (row : Row T') :
    Prop where
  record : item.record = D1NotificationStore.record row
  fresh : row.recordJson.code = none ∧ row.recordJson.messageId = none
  messageId : row.messageId ≠ some ""
  key : row.recordJson.key = row.key
  channel : row.recordJson.channel = row.channel
  recipient : row.recordJson.recipient.tenantId = row.tenantId ∧
    row.recordJson.recipient.userId = row.userId
  token : row.token = item.token.map token
  lease : item.token.isSome → item.expiresAt = some row.leaseUntil
  idle : item.token = none → row.leaseUntil = 0
  sending : row.sending = item.sending

structure Same (token : T → T') (store : MemoryNotificationStore T) (table : NotificationTable T') :
    Prop where
  rows : Record.Related (Corresponds token) store.records table
  keys : ∀ key, store.keys.get key = (D1NotificationStore.byKey table key).map Prod.fst

variable {token : T → T'} {store : MemoryNotificationStore T} {table : NotificationTable T'}
  {id : String} {item : StoredNotification T} {row : Row T'}

theorem same_empty : Same token MemoryNotificationStore.empty Record.empty :=
  ⟨Record.related_empty, fun _ => rfl⟩

theorem Corresponds.status (h : Corresponds token id item row) :
    item.record.status = row.status := by
  rw [h.record]
  rfl

theorem Corresponds.recordChannel (h : Corresponds token id item row) :
    item.record.channel = row.channel := by
  rw [h.record, ← h.channel]
  rfl

/-- A notification is replaced in both stores. -/
theorem Same.put (h : Same token store table) {item' : StoredNotification T} {row' : Row T'}
    (hrow : table.get id = some row) (hkey : row'.key = row.key)
    (hrel : Corresponds token id item' row') :
    Same token (store.put id item') (table.set id row') where
  rows := h.rows.set hrel
  keys := by
    intro key
    have hfind := Entries.find_set hrow (fun e => e.2.key == key)
      (show (row'.key == key) = (row.key == key) by rw [hkey])
    rw [show (store.put id item').keys = store.keys from rfl, h.keys key]
    exact hfind.symm

theorem update_none {guard : Row T' → Truth} {set : Row T' → Row T'} (hrow : table.get id = none) :
    D1NotificationStore.update table id guard set = (table, none) := by
  simp only [D1NotificationStore.update, hrow]

theorem update_pos {guard : Row T' → Truth} {set : Row T' → Row T'}
    (hrow : table.get id = some row) (hguard : guard row = some true) :
    D1NotificationStore.update table id guard set = (table.set id (set row), some (set row)) := by
  simp only [D1NotificationStore.update, hrow]
  exact if_pos hguard

theorem update_neg {guard : Row T' → Truth} {set : Row T' → Row T'}
    (hrow : table.get id = some row) (hguard : guard row ≠ some true) :
    D1NotificationStore.update table id guard set = (table, none) := by
  simp only [D1NotificationStore.update, hrow]
  exact if_neg hguard

/-! ## Section 3: The conditions of the statements -/

section
variable {now : Nat}

theorem uncertain_iff : D1NotificationStore.uncertain now row = some true ↔
    row.status = .queued ∧ row.sending = some .none ∧ row.leaseUntil ≤ now := by
  simp [D1NotificationStore.uncertain, all3]

theorem free_iff : D1NotificationStore.free now row = some true ↔
    row.status = .queued ∧ (row.token = none ∨ row.leaseUntil ≤ now) ∧
      (row.sending = none ∨ row.sending = some .provider) := by
  simp [D1NotificationStore.free, all3]

theorem mayBegin_iff [DecidableEq T'] {t : T'} {idempotency : Idempotency} :
    D1NotificationStore.mayBegin t now idempotency row = some true ↔
      row.token = some t ∧ row.status = .queued ∧ row.channel = .email ∧ now < row.leaseUntil ∧
        (row.sending = none ∨ row.sending = some idempotency) := by
  simp [D1NotificationStore.mayBegin, all3]

/-- The TypeScript condition and the SQL one on a result are the same. -/
theorem allowsFinish_iff (channel : NotificationChannel) (sending : Option Idempotency)
    (status : NotificationStatus) (code : Option NotificationFailureCode) :
    D1NotificationStore.allowsFinish channel sending status code = some true ↔
      MemoryNotificationStore.refusesFinish channel sending status code = false := by
  rcases sending with _ | _ | _ <;> rcases code with _ | code <;> cases channel <;> cases status <;>
    first | decide | (cases code <;> decide)

theorem mayFinish_iff [DecidableEq T'] {t : T'} {result : NotificationFinish} :
    D1NotificationStore.mayFinish t result row = some true ↔
      row.token = some t ∧ row.status = .queued ∧ result.now < row.leaseUntil ∧
        MemoryNotificationStore.refusesFinish row.channel row.sending result.status result.code =
          false := by
  rw [← allowsFinish_iff]
  simp [D1NotificationStore.mayFinish, all3]

theorem sendingAfter_eq (sending : Option Idempotency) (status : NotificationStatus)
    (code : Option NotificationFailureCode) :
    D1NotificationStore.sendingAfter sending status code =
      MemoryNotificationStore.sendingAfter sending status code := by
  rcases sending with _ | _ | _ <;> rcases code with _ | code <;> cases status <;>
    first | decide | (cases code <;> decide)

end

/-! ## Section 4: Claims -/

/-- Both stores read the same lease off a notification. -/
theorem Corresponds.busy_iff (h : Corresponds token id item row) (now : Nat) :
    (item.token.isSome && item.expiresAt.any (now < ·)) = true ↔
      row.token.isSome ∧ now < row.leaseUntil := by
  rw [h.token]
  cases htoken : item.token with
  | none => simp
  | some t => simp [h.lease (by rw [htoken]; rfl)]

theorem Corresponds.closed [DecidableEq T] (h : Corresponds token id item row) (now : Nat) :
    Corresponds token id
      ⟨{ item.record with status := .unknown, code := some .deliveryUnknown, updatedAt := now },
        none, none, none⟩
      { row with
        status := .unknown, code := some .deliveryUnknown, updatedAt := now, token := none
        leaseUntil := 0, sending := none } where
  record := by
    simp [h.record, D1NotificationStore.record]
  fresh := h.fresh
  messageId := h.messageId
  key := h.key
  channel := h.channel
  recipient := h.recipient
  token := rfl
  lease := fun htoken => (nomatch htoken)
  idle := fun _ => rfl
  sending := rfl

theorem Corresponds.acquired (h : Corresponds token id item row) (t : T) (now leaseMs : Nat) :
    Corresponds token id
      ⟨{ item.record with attempt := item.record.attempt + 1, updatedAt := now }, some t,
        some (now + leaseMs), item.sending⟩
      { row with
        token := some (token t), leaseUntil := now + leaseMs, updatedAt := now
        attempt := row.attempt + 1 } where
  record := by
    simp [h.record, D1NotificationStore.record]
  fresh := h.fresh
  messageId := h.messageId
  key := h.key
  channel := h.channel
  recipient := h.recipient
  token := rfl
  lease := fun _ => rfl
  idle := fun htoken => (nomatch htoken)
  sending := h.sending

variable [DecidableEq T] [DecidableEq T']

/-- A claim that passed its checks. -/
theorem claimRow_agrees (h : Same token store table) (id : String) (now leaseMs : Nat) (t : T) :
    Same token (store.claim id now leaseMs t).1
        (D1NotificationStore.claimRow table id now leaseMs (token t)).1 ∧
      (store.claim id now leaseMs t).2.Agree token
        (D1NotificationStore.claimRow table id now leaseMs (token t)).2 := by
  unfold MemoryNotificationStore.claim D1NotificationStore.claimRow
  obtain ⟨hitem, hrow⟩ | ⟨item, row, hitem, hrow, hrel⟩ := h.rows.get id
  · simp only [hitem, update_none hrow, hrow]
    exact ⟨h, rfl⟩
  simp only [hitem]
  by_cases hstatus : row.status = .queued
  · rw [if_neg (by rw [hrel.status, hstatus]; simp)]
    by_cases hbusy : (item.token.isSome && item.expiresAt.any (now < ·)) = true
    · -- a lease that runs keeps both statements out
      obtain ⟨hheld, hlease⟩ := (hrel.busy_iff now).mp hbusy
      have hnotUncertain : D1NotificationStore.uncertain now row ≠ some true := by
        rw [Ne, uncertain_iff]
        omega
      have hnotFree : D1NotificationStore.free now row ≠ some true := by
        rw [Ne, free_iff]
        rintro ⟨-, hnone | hdue, -⟩
        · exact Option.isSome_iff_ne_none.mp hheld hnone
        · omega
      rw [if_pos hbusy, update_neg hrow hnotUncertain, update_neg hrow hnotFree]
      simp only [hrow, hstatus, if_true]
      exact ⟨h, rfl⟩
    · have hover : row.token = none ∨ row.leaseUntil ≤ now := by
        rw [hrel.busy_iff now, not_and, Nat.not_lt] at hbusy
        by_cases hheld : row.token.isSome = true
        · exact Or.inr (hbusy hheld)
        · exact Or.inl (by simpa using hheld)
      have hdue : row.leaseUntil ≤ now := by
        rcases hover with hnone | hdue
        · rw [hrel.token, Option.map_eq_none_iff] at hnone
          rw [hrel.idle hnone]
          exact Nat.zero_le _
        · exact hdue
      rw [if_neg hbusy]
      by_cases hsending : item.sending = some .none
      · have huncertain : D1NotificationStore.uncertain now row = some true :=
          uncertain_iff.mpr ⟨hstatus, hrel.sending.trans hsending, hdue⟩
        rw [if_pos hsending, update_pos hrow huncertain]
        exact ⟨h.put hrow rfl (hrel.closed now), congrArg
          (fun r => Answer.claim (.terminal r)) (hrel.closed now).record.symm⟩
      · have hnotUncertain : D1NotificationStore.uncertain now row ≠ some true := by
          rw [Ne, uncertain_iff, hrel.sending]
          exact fun h => hsending h.2.1
        have hfree : D1NotificationStore.free now row = some true := by
          have hmarker : row.sending = none ∨ row.sending = some .provider := by
            rw [hrel.sending]
            cases hmark : item.sending with
            | none => exact Or.inl rfl
            | some mode =>
              cases mode with
              | provider => exact Or.inr rfl
              | none => exact absurd hmark hsending
          exact free_iff.mpr ⟨hstatus, Or.inr hdue, hmarker⟩
        rw [if_neg hsending, update_neg hrow hnotUncertain, update_pos hrow hfree]
        refine ⟨h.put hrow rfl (hrel.acquired t now leaseMs), ?_⟩
        show Answer.claim (.acquired (token t) _ row.sending) = _
        rw [hrel.sending]
        exact congrArg (fun r => Answer.claim (.acquired (token t) r item.sending))
          (hrel.acquired t now leaseMs).record.symm
  · have hnotUncertain : D1NotificationStore.uncertain now row ≠ some true :=
      fun h => hstatus (uncertain_iff.mp h).1
    have hnotFree : D1NotificationStore.free now row ≠ some true :=
      fun h => hstatus (free_iff.mp h).1
    rw [if_pos (by rw [hrel.status]; exact hstatus), update_neg hrow hnotUncertain,
      update_neg hrow hnotFree]
    simp only [hrow, if_neg hstatus]
    exact ⟨h, by rw [hrel.record]; rfl⟩

theorem claim_agrees (h : Same token store table) {encoded : NotificationRecord → Option Nat}
    {identityOf : T → String} {now leaseMs : Nat} {t : T}
    (hvalid : (Call.claim id now leaseMs t).WellFormed encoded identityOf) :
    Same token (store.claim id now leaseMs t).1
        (D1NotificationStore.claim table id now leaseMs (token t)).1 ∧
      (store.claim id now leaseMs t).2.Agree token
        (D1NotificationStore.claim table id now leaseMs (token t)).2 := by
  obtain ⟨hid, hpositive, hday, hsafe⟩ := hvalid
  have htimestamp : D1NotificationStore.timestamp now = true := by
    unfold D1NotificationStore.timestamp
    exact decide_eq_true (by omega)
  have hmax : D1NotificationStore.maxSafeInteger = 9007199254740991 := rfl
  have hlease : ¬ (D1NotificationStore.maxSafeInteger < leaseMs || leaseMs < 1 ||
      86400000 < leaseMs || D1NotificationStore.maxSafeInteger < now + leaseMs) = true := by
    simp only [Bool.or_eq_true, decide_eq_true_eq]
    omega
  unfold D1NotificationStore.claim
  rw [if_neg (by simp [hid]), if_neg (by simp [htimestamp]), if_neg hlease]
  exact claimRow_agrees h id now leaseMs t

/-! ## Section 5: Sends and their ends -/

/-- The holder of a lease by both accounts. -/
theorem Corresponds.holds_iff (h : Corresponds token id item row)
    (htoken : Function.Injective token) (t : T) (now : Nat) :
    MemoryNotificationStore.StoredNotification.holds item t now = true ↔
      row.token = some (token t) ∧ row.status = .queued ∧ now < row.leaseUntil := by
  unfold MemoryNotificationStore.StoredNotification.holds
  rw [h.status, h.token]
  cases hheld : item.token with
  | none => simp
  | some t' =>
    have hlease := h.lease (by rw [hheld]; rfl)
    simp only [hlease, Option.all_some, Option.map_some, Option.some.injEq, Bool.and_eq_true,
      decide_eq_true_eq, htoken.eq_iff]
    tauto

theorem refused_none {identities : List String} {now : Nat}
    (hidentities : ∀ value ∈ identities, D1NotificationStore.identity value = true)
    (hnow : D1NotificationStore.timestamp now = true) :
    D1NotificationStore.refused identities now = none := by
  have hany : identities.any (fun value => !D1NotificationStore.identity value) = false := by
    rw [List.any_eq_false]
    intro value hvalue
    simp [hidentities value hvalue]
  unfold D1NotificationStore.refused
  simp [hany, hnow]

theorem beginSend_agrees (htoken : Function.Injective token) (h : Same token store table)
    {encoded : NotificationRecord → Option Nat} {identityOf : T' → String} {now : Nat} {t : T}
    {idempotency : Idempotency}
    (hvalid : (Call.beginSend id t now idempotency).WellFormed encoded (identityOf ∘ token))
    (hemail : (Call.beginSend id t now idempotency).ForEmail store) :
    Same token (store.beginSend id t now idempotency).1
        (D1NotificationStore.beginSend identityOf table id (token t) now idempotency).1 ∧
      (store.beginSend id t now idempotency).2.Agree token
        (D1NotificationStore.beginSend identityOf table id (token t) now idempotency).2 := by
  obtain ⟨hid, htext, hnow⟩ := hvalid
  unfold D1NotificationStore.beginSend
  rw [refused_none (by simpa using ⟨hid, htext⟩) hnow]
  unfold MemoryNotificationStore.beginSend
  obtain ⟨hitem, hrow⟩ | ⟨item, row, hitem, hrow, hrel⟩ := h.rows.get id
  · simp only [hitem, update_none hrow]
    exact ⟨h, rfl⟩
  simp only [hitem]
  by_cases hholds : MemoryNotificationStore.StoredNotification.holds item t now = true
  · obtain ⟨hchannel, hmode⟩ := hemail item hitem hholds
    obtain ⟨howner, hstatus, hlease⟩ := (hrel.holds_iff htoken t now).mp hholds
    rw [hrel.recordChannel] at hchannel
    rw [if_neg (by simp [hholds])]
    by_cases hrefused : item.sending = some .provider ∧ idempotency ≠ .provider
    · have hguard : D1NotificationStore.mayBegin (token t) now idempotency row ≠ some true := by
        rw [Ne, mayBegin_iff, hrel.sending, hrefused.1]
        rintro ⟨-, -, -, -, hnone | hsame⟩
        · exact (nomatch hnone)
        · exact hrefused.2 (Option.some.inj hsame).symm
      rw [if_pos hrefused, update_neg hrow hguard]
      exact ⟨h, rfl⟩
    · have hguard : D1NotificationStore.mayBegin (token t) now idempotency row = some true := by
        have hmarker : row.sending = none ∨ row.sending = some idempotency := by
          rw [hrel.sending]
          cases hmark : item.sending with
          | none => exact Or.inl rfl
          | some mode => cases mode <;> cases idempotency <;> simp_all
        exact mayBegin_iff.mpr ⟨howner, hstatus, hchannel, hlease, hmarker⟩
      rw [if_neg hrefused, update_pos hrow hguard]
      refine ⟨h.put hrow rfl ?_, rfl⟩
      exact
        { record := by simp [hrel.record, D1NotificationStore.record]
          fresh := hrel.fresh
          messageId := hrel.messageId
          key := hrel.key
          channel := hrel.channel
          recipient := hrel.recipient
          token := hrel.token
          lease := hrel.lease
          idle := hrel.idle
          sending := rfl }
  · have hguard : D1NotificationStore.mayBegin (token t) now idempotency row ≠ some true := by
      rw [Ne, mayBegin_iff]
      rintro ⟨howner, hstatus, -, hlease, -⟩
      exact hholds ((hrel.holds_iff htoken t now).mpr ⟨howner, hstatus, hlease⟩)
    rw [if_pos (by simpa using hholds), update_neg hrow hguard]
    exact ⟨h, rfl⟩

theorem finish_agrees (htoken : Function.Injective token) (h : Same token store table)
    {encoded : NotificationRecord → Option Nat} {identityOf : T' → String} {t : T}
    {result : NotificationFinish}
    (hvalid : (Call.finish id t result).WellFormed encoded (identityOf ∘ token)) :
    Same token (store.finish id t result).1
        (D1NotificationStore.finish identityOf table id (token t) result).1 ∧
      (store.finish id t result).2.Agree token
        (D1NotificationStore.finish identityOf table id (token t) result).2 := by
  obtain ⟨hid, htext, hnow, hmessage⟩ := hvalid
  have hchecked : (result.messageId.any fun value => !D1NotificationStore.identity value) = false := by
    cases hresult : result.messageId with
    | none => rfl
    | some messageId => simp [hmessage messageId hresult]
  unfold D1NotificationStore.finish
  rw [refused_none (by simpa using ⟨hid, htext⟩) hnow]
  dsimp only
  rw [if_neg (by simp [hchecked])]
  unfold MemoryNotificationStore.finish
  obtain ⟨hitem, hrow⟩ | ⟨item, row, hitem, hrow, hrel⟩ := h.rows.get id
  · simp only [hitem, update_none hrow]
    exact ⟨h, rfl⟩
  simp only [hitem]
  by_cases hholds : MemoryNotificationStore.StoredNotification.holds item t result.now = true
  · obtain ⟨howner, hstatus, hlease⟩ := (hrel.holds_iff htoken t result.now).mp hholds
    rw [if_neg (by simp [hholds]), hrel.recordChannel, ← hrel.sending]
    by_cases hrefused : MemoryNotificationStore.refusesFinish row.channel row.sending
        result.status result.code = true
    · have hguard : D1NotificationStore.mayFinish (token t) result row ≠ some true := by
        rw [Ne, mayFinish_iff, hrefused]
        simp
      rw [if_pos hrefused, update_neg hrow hguard]
      exact ⟨h, rfl⟩
    · have hguard : D1NotificationStore.mayFinish (token t) result row = some true :=
        mayFinish_iff.mpr ⟨howner, hstatus, hlease, by simpa using hrefused⟩
      rw [if_neg hrefused, update_pos hrow hguard]
      refine ⟨h.put hrow rfl ?_, rfl⟩
      exact
        { record := by
            simp [hrel.record, D1NotificationStore.record, hrel.fresh.1, hrel.fresh.2, hrel.channel]
          fresh := hrel.fresh
          messageId := by
            intro hempty
            have hidentity := hmessage "" hempty
            exact absurd hidentity (by decide)
          key := hrel.key
          channel := hrel.channel
          recipient := hrel.recipient
          token := rfl
          lease := fun hheld => (nomatch hheld)
          idle := fun _ => rfl
          sending := sendingAfter_eq _ _ _ }
  · have hguard : D1NotificationStore.mayFinish (token t) result row ≠ some true := by
      rw [Ne, mayFinish_iff]
      rintro ⟨howner, hstatus, hlease, -⟩
      exact hholds ((hrel.holds_iff htoken t result.now).mpr ⟨howner, hstatus, hlease⟩)
    rw [if_pos (by simpa using hholds), update_neg hrow hguard]
    exact ⟨h, rfl⟩

/-! ## Section 6: Delivered notifications -/

theorem recordDelivered_agrees (h : Same token store table)
    {encoded : NotificationRecord → Option Nat} {identityOf : T → String} {messageId : String}
    {now : Nat}
    (hvalid : (Call.recordDelivered id messageId now : Call T).WellFormed encoded identityOf) :
    Same token (store.recordDelivered id messageId now).1
        (D1NotificationStore.recordDelivered table id messageId now).1 ∧
      (store.recordDelivered id messageId now).2.Agree token
        (D1NotificationStore.recordDelivered table id messageId now).2 := by
  obtain ⟨hid, hmessage, hnow⟩ := hvalid
  unfold D1NotificationStore.recordDelivered
  rw [refused_none (by simpa using ⟨hid, hmessage⟩) hnow]
  unfold MemoryNotificationStore.recordDelivered
  obtain ⟨hitem, hrow⟩ | ⟨item, row, hitem, hrow, hrel⟩ := h.rows.get id
  · simp only [hitem, update_none hrow]
    exact ⟨h, rfl⟩
  have hstored : item.record.messageId = row.messageId := by
    rw [hrel.record]
    simp only [D1NotificationStore.record, hrel.fresh.2, Option.or_none]
    cases hvalue : row.messageId with
    | none => rfl
    | some value =>
      have hne : value ≠ "" := fun hempty => hrel.messageId (by rw [hvalue, hempty])
      simp [hne]
  have hcondition : (item.record.channel ≠ .email ∨ item.record.status ≠ .providerAccepted ∨
      item.record.messageId ≠ some messageId) ↔ (row.channel ≠ .email ∨
        row.status ≠ .providerAccepted ∨ row.messageId ≠ some messageId) := by
    rw [hrel.recordChannel, hrel.status, hstored]
  simp only [hitem]
  by_cases hmatch : row.channel ≠ .email ∨ row.status ≠ .providerAccepted ∨
      row.messageId ≠ some messageId
  · rw [if_pos (hcondition.mpr hmatch), update_neg hrow (by simp [all3]; tauto)]
    exact ⟨h, rfl⟩
  · rw [if_neg fun hitem => hmatch (hcondition.mp hitem)]
    simp only [not_or, not_not] at hmatch
    obtain ⟨hchannel, hstatus, hsame⟩ := hmatch
    rw [update_pos hrow (by simp [all3, hchannel, hstatus, hsame])]
    refine ⟨h.put hrow rfl ?_, rfl⟩
    exact
      { record := by simp [hrel.record, D1NotificationStore.record]
        fresh := hrel.fresh
        messageId := hrel.messageId
        key := hrel.key
        channel := hrel.channel
        recipient := hrel.recipient
        token := hrel.token
        lease := hrel.lease
        idle := hrel.idle
        sending := hrel.sending }

theorem setRead_agrees (h : Same token store table) {encoded : NotificationRecord → Option Nat}
    {identityOf : T → String} {tenantId userId : String} {read : Bool}
    (hvalid : (Call.setRead id tenantId userId read : Call T).WellFormed encoded identityOf) :
    Same token (store.setRead id tenantId userId read).1
        (D1NotificationStore.setRead table id tenantId userId read).1 ∧
      (store.setRead id tenantId userId read).2.Agree token
        (D1NotificationStore.setRead table id tenantId userId read).2 := by
  obtain ⟨hid, htenant, huser⟩ := hvalid
  unfold D1NotificationStore.setRead
  rw [refused_none (by simpa using ⟨hid, htenant, huser⟩) (by decide)]
  unfold MemoryNotificationStore.setRead
  obtain ⟨hitem, hrow⟩ | ⟨item, row, hitem, hrow, hrel⟩ := h.rows.get id
  · simp only [hitem, update_none hrow]
    exact ⟨h, rfl⟩
  have hrecipient : item.record.recipient = row.recordJson.recipient := by
    rw [hrel.record]
    rfl
  have hcondition : (item.record.channel ≠ .inApp ∨ item.record.status ≠ .delivered ∨
      item.record.recipient.tenantId ≠ tenantId ∨ item.record.recipient.userId ≠ userId) ↔
      (row.channel ≠ .inApp ∨ row.status ≠ .delivered ∨ row.tenantId ≠ tenantId ∨
        row.userId ≠ userId) := by
    rw [hrel.recordChannel, hrel.status, hrecipient, hrel.recipient.1, hrel.recipient.2]
  simp only [hitem]
  by_cases hmatch : row.channel ≠ .inApp ∨ row.status ≠ .delivered ∨ row.tenantId ≠ tenantId ∨
      row.userId ≠ userId
  · rw [if_pos (hcondition.mpr hmatch), update_neg hrow ?_]
    · exact ⟨h, rfl⟩
    intro hguard
    obtain ⟨htenantId, huserId, hchannel, hstatus⟩ : row.tenantId = tenantId ∧
        row.userId = userId ∧ row.channel = .inApp ∧ row.status = .delivered := by
      simpa [all3] using hguard
    obtain hother | hother | hother | hother := hmatch
    · exact hother hchannel
    · exact hother hstatus
    · exact hother htenantId
    · exact hother huserId
  · rw [if_neg fun hitem => hmatch (hcondition.mp hitem)]
    simp only [not_or, not_not] at hmatch
    obtain ⟨hchannel, hstatus, htenantId, huserId⟩ := hmatch
    rw [update_pos hrow (by simp [all3, hchannel, hstatus, htenantId, huserId])]
    refine ⟨h.put hrow rfl ?_, rfl⟩
    exact
      { record := by simp [hrel.record, D1NotificationStore.record]
        fresh := hrel.fresh
        messageId := hrel.messageId
        key := hrel.key
        channel := hrel.channel
        recipient := hrel.recipient
        token := hrel.token
        lease := hrel.lease
        idle := hrel.idle
        sending := hrel.sending }

/-! ## Section 7: Insertions -/

omit [DecidableEq T] [DecidableEq T'] in
/-- The row that a new notification becomes. -/
theorem corresponds_new (token : T → T') {value : NotificationRecord} (hstatus : value.status = .queued)
    (hattempt : value.attempt = 0) (hread : value.read = false) (hcode : value.code = none)
    (hmessage : value.messageId = none) :
    Corresponds token value.id ⟨value, none, none, none⟩
      { key := value.key, tenantId := value.recipient.tenantId, userId := value.recipient.userId
        channel := value.channel, recordJson := value, status := .queued
        createdAt := value.createdAt, updatedAt := value.updatedAt, attempt := 0, isRead := false
        code := none, messageId := none, token := none, leaseUntil := 0, sending := none } where
  record := by
    obtain ⟨⟩ := value
    simp_all [D1NotificationStore.record]
  fresh := ⟨hcode, hmessage⟩
  messageId := fun h => (nomatch h)
  key := rfl
  channel := rfl
  recipient := ⟨rfl, rfl⟩
  token := rfl
  lease := fun h => (nomatch h)
  idle := fun _ => rfl
  sending := rfl

omit [DecidableEq T] [DecidableEq T'] in
/-- The notification of a key is the same in both stores. -/
theorem Same.byKey (h : Same token store table) (key : String) :
    ((store.keys.get key).bind store.records.get = none ∧
        D1NotificationStore.byKey table key = none) ∨
      ∃ id item row, (store.keys.get key).bind store.records.get = some item ∧
        D1NotificationStore.byKey table key = some (id, row) ∧ Corresponds token id item row := by
  have hkeys := h.keys key
  cases hfound : D1NotificationStore.byKey table key with
  | none =>
    rw [hfound] at hkeys
    exact Or.inl ⟨by rw [hkeys]; rfl, rfl⟩
  | some entry =>
    have hmem : (entry.1, entry.2) ∈ table.entries := List.mem_of_find?_eq_some hfound
    have hrow : table.get entry.1 = some entry.2 := (Entries.get_eq_some table.nodup).mpr hmem
    obtain ⟨-, hnone⟩ | ⟨item, row, hitem, hrow', hrel⟩ := h.rows.get entry.1
    · exact (nomatch hrow.symm.trans hnone)
    · cases hrow.symm.trans hrow'
      refine Or.inr ⟨entry.1, item, entry.2, ?_, rfl, hrel⟩
      rw [hkeys, hfound]
      exact hitem

theorem insertRow_agrees (h : Same token store table) {value : NotificationRecord}
    (hstatus : value.status = .queued) (hattempt : value.attempt = 0) (hread : value.read = false)
    (hkey : digestKey value.key = true) (hid : value.id ≠ "") (hlength : unitLength value.id ≤ 128)
    (hcode : value.code = none) (hmessage : value.messageId = none) :
    Same token (store.insert value).1 (D1NotificationStore.insertRow table value).1 ∧
      (store.insert value).2.Agree token (D1NotificationStore.insertRow table value).2 := by
  unfold MemoryNotificationStore.insert D1NotificationStore.insertRow
  rw [if_neg (by simp [hstatus, hattempt, hread, hkey, hid, hlength])]
  obtain ⟨hnone, hfound⟩ | ⟨id, item, row, hexisting, hfound, hrel⟩ := h.byKey value.key
  · simp only [hnone, hfound]
    obtain ⟨hitem, hrow⟩ | ⟨item, row, hitem, hrow, -⟩ := h.rows.get value.id
    · rw [if_neg (by simp [hitem]), if_neg (by simp [hrow])]
      have hrel := corresponds_new token hstatus hattempt hread hcode hmessage
      refine ⟨⟨h.rows.set hrel, fun key => ?_⟩, ?_⟩
      · -- the new row is the last one, and the only one of its key
        have hlast := Entries.set_of_get_none hrow
        show (store.keys.set value.key value.id).get key = _
        unfold D1NotificationStore.byKey
        rw [show (table.set value.id _).entries = _ from hlast _, List.find?_append]
        by_cases hsame : value.key = key
        · rw [← hsame, Record.get_set_self]
          have hbefore : (table.entries.find? fun e => e.2.key == value.key) = none := hfound
          simp [hbefore]
        · rw [Record.get_set_of_ne _ _ hsame, h.keys key]
          unfold D1NotificationStore.byKey
          simp [hsame]
      · exact congrArg (Answer.inserted true) hrel.record.symm
    · rw [if_pos (by simp [hitem]), if_pos (by simp [hrow])]
      exact ⟨h, _, rfl⟩
  · simp only [hexisting, hfound]
    exact ⟨h, congrArg (Answer.inserted false) hrel.record.symm⟩

theorem identity_nonempty {value : String} (h : D1NotificationStore.identity value = true) :
    value ≠ "" := by
  rintro rfl
  exact absurd h (by decide)

theorem insert_agrees (h : Same token store table) {encoded : NotificationRecord → Option Nat}
    {identityOf : T → String} {value : NotificationRecord}
    (hvalid : (Call.insert value : Call T).WellFormed encoded identityOf) :
    Same token (store.insert value).1 (D1NotificationStore.insert encoded table value).1 ∧
      (store.insert value).2.Agree token (D1NotificationStore.insert encoded table value).2 := by
  obtain ⟨hid, hlength, htenant, huser, hcreated, hupdated, ⟨bytes, hbytes, hsize⟩, hcode, hmessage⟩ :=
    hvalid
  unfold D1NotificationStore.insert
  rw [if_neg (by simp [hid, htenant, huser])]
  by_cases hinitial : value.status = .queued ∧ value.attempt = 0 ∧ value.read = false ∧
      digestKey value.key = true
  · obtain ⟨hstatus, hattempt, hread, hkey⟩ := hinitial
    rw [if_neg (by simp [hstatus, hattempt, hread, hkey]), if_neg (by simp [hcreated, hupdated]),
      hbytes]
    dsimp only
    rw [if_neg (by omega)]
    exact insertRow_agrees h hstatus hattempt hread hkey (identity_nonempty hid) hlength hcode hmessage
  · have hmemory : value.status ≠ .queued ∨ value.attempt ≠ 0 ∨ value.read ≠ false ∨
        digestKey value.key = false ∨ value.id = "" ∨ 128 < unitLength value.id := by
      by_contra hnot
      simp only [not_or, not_not, Bool.not_eq_false] at hnot
      exact hinitial ⟨hnot.1, hnot.2.1, by simpa using hnot.2.2.1, hnot.2.2.2.1⟩
    have htable : (!digestKey value.key || value.status ≠ .queued || value.attempt ≠ 0 ||
        value.read) = true := by
      by_contra hnot
      simp only [Bool.or_eq_true, decide_eq_true_eq, not_or, Bool.not_eq_true', not_not,
        Bool.not_eq_false, Bool.not_eq_true] at hnot
      exact hinitial ⟨hnot.1.1.2, hnot.1.2, hnot.2, hnot.1.1.1⟩
    unfold MemoryNotificationStore.insert
    rw [if_pos hmemory, if_pos htable]
    exact ⟨h, _, rfl⟩

/-! ## Section 8: Runs -/

theorem step_agrees (htoken : Function.Injective token) (encoded : NotificationRecord → Option Nat)
    (identityOf : T' → String) :
    Machines.Simulates MemoryNotificationStore.step (D1NotificationStore.step encoded identityOf)
      (Same token)
      (fun store call => call.WellFormed encoded (identityOf ∘ token) ∧ call.ForEmail store)
      (Call.map token) (Answer.Agree token) := by
  intro store table call h hallowed
  obtain ⟨hvalid, hemail⟩ := hallowed
  cases call with
  | insert record => exact insert_agrees h hvalid
  | claim id now leaseMs t => exact claim_agrees h hvalid
  | beginSend id t now idempotency => exact beginSend_agrees htoken h hvalid hemail
  | finish id t result => exact finish_agrees htoken h hvalid
  | recordDelivered id messageId now => exact recordDelivered_agrees h hvalid
  | setRead id tenantId userId read => exact setRead_agrees h hvalid

private def notice (channel : NotificationChannel) : NotificationRecord where
  id := "n1"
  key := String.ofList (List.replicate 64 'a')
  template := "receipt"
  channel := channel
  recipient := ⟨"tenant", "user", some "user@example.test"⟩
  content := ⟨"Receipt", "text", "html"⟩
  data := "1"
  status := .queued
  createdAt := 1000
  updatedAt := 1000
  attempt := 0
  read := false
  code := none
  messageId := none

private def tokenText (n : Nat) : String := "token-" ++ toString n

private def size (_ : NotificationRecord) : Option Nat := some 300

/-- An email is sent, accepted by the provider and confirmed. -/
private def emailCalls : List (Call Nat) :=
  [.insert (notice .email), .claim "n1" 1000 1000 1, .beginSend "n1" 1 1500 .provider,
    .finish "n1" 1 ⟨.providerAccepted, 1999, none, some "m1"⟩, .recordDelivered "n1" "m1" 3000]

/-- The check of an identity that is given by its characters. -/
private theorem identity_ofList (cs : List Char) {text : String} (htext : text = String.ofList cs)
    (h : (let length := (cs.map fun c => if c.toNat < 0x10000 then 1 else 2).sum
      decide (1 ≤ length) && decide (length ≤ 512) && !cs.any D1NotificationStore.controlCharacter) = true) :
    D1NotificationStore.identity text = true := by
  unfold D1NotificationStore.identity unitLength
  rw [htext, String.toList_ofList]
  exact h

private theorem id_identity : D1NotificationStore.identity "n1" = true :=
  identity_ofList ['n', '1'] rfl (by decide)

private theorem tenant_identity : D1NotificationStore.identity "tenant" = true :=
  identity_ofList ['t', 'e', 'n', 'a', 'n', 't'] rfl (by decide)

private theorem user_identity : D1NotificationStore.identity "user" = true :=
  identity_ofList ['u', 's', 'e', 'r'] rfl (by decide)

private theorem message_identity : D1NotificationStore.identity "m1" = true :=
  identity_ofList ['m', '1'] rfl (by decide)

private theorem token_identity : D1NotificationStore.identity (tokenText 1) = true :=
  identity_ofList ['t', 'o', 'k', 'e', 'n', '-', '1'] rfl (by decide)

private theorem shifted_identity : D1NotificationStore.identity (tokenText (1 + 100)) = true :=
  identity_ofList ['t', 'o', 'k', 'e', 'n', '-', '1', '0', '1'] rfl (by decide)

private theorem notice_digest (channel : NotificationChannel) : digestKey (notice channel).key = true := by
  unfold digestKey notice
  rw [String.toList_ofList, List.length_replicate, List.all_replicate]
  decide

private theorem id_units : unitLength "n1" ≤ 128 := by
  have htext : "n1".toList = ['n', '1'] := String.toList_ofList
  unfold unitLength
  rw [htext]
  decide

/-- What a run answers from its third call on. -/
private def later {S O : Type} (step : S → Call Nat → S × O) (s : S) (calls : List (Call Nat)) :
    List O := (Machines.answers step s calls).drop 2

private theorem insert_notice (channel : NotificationChannel) (table : NotificationTable Nat) :
    D1NotificationStore.insert size table (notice channel) =
      D1NotificationStore.insertRow table (notice channel) := by
  simp [D1NotificationStore.insert, notice_digest channel]
  simp [notice, id_identity, tenant_identity, user_identity, D1NotificationStore.timestamp,
    D1NotificationStore.maxSafeInteger, size]

end Cossack.Core.NotificationLedgers
