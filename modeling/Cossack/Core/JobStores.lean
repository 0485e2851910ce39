import Cossack.Lib.Leases

/-! # Job stores

    `MemoryJobStore`, the ledger of local tests, and `createD1JobStore`, the
    durable one.  Both keep one record for each key; their operations on the
    record of a key are written down here, and read as operations of a ledger of
    leases. -/

namespace Cossack.Core.Jobs

open Leases (Claim Entry Claimable Follows)

/-! ## Section 1: Claims and failures -/

inductive JobStatus where
  | running
  | retrying
  | completed
  | failed
  deriving DecidableEq

inductive JobFailureCode where
  | payloadInvalid
  | permanentFailure
  | retryExhausted
  | transientFailure
  | cleanupFailed
  | storeFailed
  deriving DecidableEq

inductive JobAction where
  | fixPayload
  | fixHandlerAndDispatchNewKey
  | inspectHandlerAndProvider
  deriving DecidableEq

structure JobInspection where
  key : String
  job : String
  status : JobStatus
  attempt : Nat
  updatedAt : Nat
  code : Option JobFailureCode := none
  action : Option JobAction := none

structure JobClaimOptions where
  now : Nat
  leaseMs : Nat
  job : String

inductive JobClaim where
  | acquired (token attempt : Nat)
  | busy (retryAfterSeconds : Nat)
  | completed
  | failed

structure JobFailure where
  terminal : Bool
  now : Nat
  retryAt : Nat
  code : JobFailureCode
  action : JobAction

/-- `Math.ceil(ms / 1000)`. -/
def ceilSeconds (ms : Nat) : Nat := (ms + 999) / 1000

/-- The operations of a store on the record of one key.  `claim` answers at once
    or (`none`) has to `read` the record again; `complete` and `fail` give the
    record they leave, or `none` for `false`.  `entry` is what the record says. -/
structure JobStore (R : Type) where
  claim : String → JobClaimOptions → Nat → Option R → Option R × Option JobClaim
  read : JobClaimOptions → Option R → JobClaim
  complete : Nat → Nat → R → Option R
  fail : Nat → JobFailure → R → Except String (Option R)
  entry : R → Entry

/-! ## Section 2: `MemoryJobStore` -/

/-- A record of the memory store: it has a token while it is running, and a
    deadline while it is running or retrying. -/
structure RecordState where
  inspection : JobInspection
  token : Option Nat
  expiresAt : Option Nat
  owned : token.isSome = (inspection.status == .running)
  timed : expiresAt.isSome = (inspection.status == .running || inspection.status == .retrying)

namespace MemoryJobStore

def acquire (key : String) (options : JobClaimOptions) (token attempt : Nat) :
    Option RecordState × Option JobClaim :=
  (some
    { inspection :=
        { key := key, job := options.job, status := .running, attempt := attempt,
          updatedAt := options.now }
      token := some token
      expiresAt := some (options.now + options.leaseMs)
      owned := rfl
      timed := rfl },
    some (.acquired token attempt))

def claim (key : String) (options : JobClaimOptions) (token : Nat) (previous : Option RecordState) :
    Option RecordState × Option JobClaim :=
  match previous with
  | none => acquire key options token 1
  | some state =>
      match state.inspection.status with
      | .completed => (previous, some .completed)
      | .failed => (previous, some .failed)
      | status =>
          if (state.token.isSome || status == .retrying) &&
              state.expiresAt.any (fun expiresAt => options.now < expiresAt) then
            (previous, some (.busy (ceilSeconds (state.expiresAt.getD 0 - options.now))))
          else acquire key options token (state.inspection.attempt + 1)

def complete (token now : Nat) (state : RecordState) : Option RecordState :=
  if state.token ≠ some token then none
  else some
    { inspection := { state.inspection with status := .completed, updatedAt := now }
      token := none
      expiresAt := none
      owned := rfl
      timed := rfl }

def fail (token : Nat) (failure : JobFailure) (state : RecordState) :
    Except String (Option RecordState) :=
  if failure.retryAt < failure.now ∨ 86400 * 1000 < failure.retryAt - failure.now then
    .error "[Cossack] Invalid job retry deadline."
  else if state.token ≠ some token then .ok none
  else if failure.terminal then
    .ok (some
      { inspection :=
          { state.inspection with status := .failed, updatedAt := failure.now,
                                  code := some failure.code, action := some failure.action }
        token := none
        expiresAt := none
        owned := rfl
        timed := rfl })
  else
    .ok (some
      { inspection :=
          { state.inspection with status := .retrying, updatedAt := failure.now,
                                  code := some failure.code, action := some failure.action }
        token := none
        expiresAt := some failure.retryAt
        owned := rfl
        timed := rfl })

def entry (state : RecordState) : Entry :=
  match state.inspection.status with
  | .running => .running ⟨state.token.getD 0, state.inspection.attempt, state.expiresAt.getD 0⟩
  | .retrying => .waiting (state.expiresAt.getD 0) state.inspection.attempt
  | .completed | .failed => .closed state.inspection.attempt

end MemoryJobStore

/-- `MemoryJobStore.claim` always answers at once. -/
def memoryJobStore : JobStore RecordState where
  claim := MemoryJobStore.claim
  read _ _ := .busy 1
  complete := MemoryJobStore.complete
  fail := MemoryJobStore.fail
  entry := MemoryJobStore.entry

/-! ## Section 3: `createD1JobStore` -/

/-- A row of `cossack_jobs`. -/
structure StateRow where
  key : String
  job : String
  status : JobStatus
  attempt : Nat
  updatedAt : Nat
  leaseUntil : Nat
  token : Nat
  code : Option JobFailureCode := none
  action : Option JobAction := none

namespace D1JobStore

/-- `INSERT … ON CONFLICT(key) DO UPDATE … WHERE … RETURNING attempt`. -/
def claim (key : String) (options : JobClaimOptions) (token : Nat) (row : Option StateRow) :
    Option StateRow × Option JobClaim :=
  match row with
  | none =>
      (some
        { key := key, job := options.job, status := .running, attempt := 1,
          updatedAt := options.now, leaseUntil := options.now + options.leaseMs, token := token },
        some (.acquired token 1))
  | some old =>
      if (old.status = .retrying ∨ old.status = .running) ∧ old.leaseUntil ≤ options.now then
        (some
          { old with
            status := .running, attempt := old.attempt + 1, updatedAt := options.now
            leaseUntil := options.now + options.leaseMs, token := token, code := none
            action := none },
          some (.acquired token (old.attempt + 1)))
      else (row, none)

/-- `SELECT status,lease_until …`, for a claim that acquired nothing. -/
def read (options : JobClaimOptions) (row : Option StateRow) : JobClaim :=
  match row.map StateRow.status with
  | some .completed => .completed
  | some .failed => .failed
  | _ =>
      let leaseUntil := (row.map StateRow.leaseUntil).getD (options.now + 1000)
      .busy (max 1 (min 86400 (ceilSeconds (leaseUntil - options.now))))

def complete (token now : Nat) (row : StateRow) : Option StateRow :=
  if row.token = token ∧ row.status = .running then
    some { row with
      status := .completed, updatedAt := now, leaseUntil := 0, code := none, action := none }
  else none

def fail (token : Nat) (failure : JobFailure) (row : StateRow) : Except String (Option StateRow) :=
  if row.token = token ∧ row.status = .running then
    .ok (some { row with
      status := if failure.terminal then .failed else .retrying
      updatedAt := failure.now
      leaseUntil := if failure.terminal then 0 else failure.retryAt
      code := some failure.code
      action := some failure.action })
  else .ok none

def entry (row : StateRow) : Entry :=
  match row.status with
  | .running => .running ⟨row.token, row.attempt, row.leaseUntil⟩
  | .retrying => .waiting row.leaseUntil row.attempt
  | .completed | .failed => .closed row.attempt

end D1JobStore

def d1JobStore : JobStore StateRow where
  claim := D1JobStore.claim
  read := D1JobStore.read
  complete := D1JobStore.complete
  fail := D1JobStore.fail
  entry := D1JobStore.entry

/-! ## Section 4: Both stores are ledgers of leases -/

/-- The retry deadline of a failure is one `fail` accepts. -/
def JobFailure.Timely (failure : JobFailure) : Prop :=
  failure.now ≤ failure.retryAt ∧ failure.retryAt ≤ failure.now + 86400 * 1000

/-- What a store must do for its records to be read as a ledger. -/
structure JobStore.Lawful {R : Type} (store : JobStore R) : Prop where
  claim : ∀ key options token record,
    (∃ attempt, Claimable (record.map store.entry) options.now attempt ∧
      (store.claim key options token record).2 = some (.acquired token attempt) ∧
      (store.claim key options token record).1.map store.entry =
        some (.running ⟨token, attempt, options.now + options.leaseMs⟩)) ∨
    ((store.claim key options token record).1 = record ∧
      ∀ token' attempt, (store.claim key options token record).2 ≠ some (.acquired token' attempt))
  complete : ∀ token now record record', store.complete token now record = some record' →
    ∃ claim, claim.token = token ∧ store.entry record = .running claim ∧
      store.entry record' = .closed claim.attempt
  fail : ∀ token failure record record', store.fail token failure record = .ok (some record') →
    ∃ claim, claim.token = token ∧ store.entry record = .running claim ∧
      Follows claim (store.entry record')
  timely : ∀ token failure record, failure.Timely →
    ∃ result, store.fail token failure record = .ok result

theorem MemoryJobStore.running {state : RecordState} (h : state.inspection.status = .running) :
    ∃ token expiresAt, state.token = some token ∧ state.expiresAt = some expiresAt := by
  have howned := state.owned
  have htimed := state.timed
  rw [h] at howned htimed
  obtain ⟨token, htoken⟩ := Option.isSome_iff_exists.mp howned
  obtain ⟨expiresAt, hexpires⟩ := Option.isSome_iff_exists.mp htimed
  exact ⟨token, expiresAt, htoken, hexpires⟩

/-- A record with a token is running. -/
theorem MemoryJobStore.entry_of_token {state : RecordState} {token : Nat}
    (h : state.token = some token) : ∃ claim : Claim, claim.token = token ∧
      MemoryJobStore.entry state = .running claim ∧ claim.attempt = state.inspection.attempt := by
  have howned := state.owned
  rw [h] at howned
  have hstatus : state.inspection.status = .running := by simpa using howned.symm
  refine ⟨⟨token, state.inspection.attempt, state.expiresAt.getD 0⟩, rfl, ?_, rfl⟩
  simp [MemoryJobStore.entry, hstatus, h]

/-- `claim` takes a record that may be claimed, and leaves any other alone. -/
theorem MemoryJobStore.claim_cases (key : String) (options : JobClaimOptions) (token : Nat)
    (record : Option RecordState) :
    (∃ attempt, Claimable (record.map MemoryJobStore.entry) options.now attempt ∧
      MemoryJobStore.claim key options token record =
        MemoryJobStore.acquire key options token attempt) ∨
    ∃ answer, MemoryJobStore.claim key options token record = (record, some answer) ∧
      ∀ token' attempt, answer ≠ .acquired token' attempt := by
  unfold MemoryJobStore.claim
  cases record with
  | none => exact .inl ⟨1, rfl, rfl⟩
  | some state =>
    cases hstatus : state.inspection.status with
    | completed =>
      simp only [hstatus]
      exact .inr ⟨.completed, rfl, fun _ _ h => (nomatch h)⟩
    | failed =>
      simp only [hstatus]
      exact .inr ⟨.failed, rfl, fun _ _ h => (nomatch h)⟩
    | running =>
      obtain ⟨owner, expiresAt, htoken, hexpires⟩ := MemoryJobStore.running hstatus
      simp only [hstatus, htoken, hexpires, Option.isSome_some, Bool.true_or, Bool.true_and,
        Option.any_some, decide_eq_true_eq]
      by_cases hbusy : options.now < expiresAt
      · rw [if_pos hbusy]
        exact .inr ⟨_, rfl, fun _ _ h => (nomatch h)⟩
      · rw [if_neg hbusy]
        refine .inl ⟨state.inspection.attempt + 1, ?_, rfl⟩
        show Claimable (some (MemoryJobStore.entry state)) _ _
        simp only [MemoryJobStore.entry, hstatus, htoken, hexpires]
        exact ⟨Nat.not_lt.mp hbusy, rfl⟩
    | retrying =>
      have htimed := state.timed
      rw [hstatus] at htimed
      obtain ⟨expiresAt, hexpires⟩ := Option.isSome_iff_exists.mp htimed
      simp only [hstatus, hexpires, beq_self_eq_true, Bool.or_true, Bool.true_and,
        Option.any_some, decide_eq_true_eq]
      by_cases hbusy : options.now < expiresAt
      · rw [if_pos hbusy]
        exact .inr ⟨_, rfl, fun _ _ h => (nomatch h)⟩
      · rw [if_neg hbusy]
        refine .inl ⟨state.inspection.attempt + 1, ?_, rfl⟩
        show Claimable (some (MemoryJobStore.entry state)) _ _
        simp only [MemoryJobStore.entry, hstatus, hexpires]
        exact ⟨Nat.not_lt.mp hbusy, rfl⟩

theorem memoryJobStore_lawful : memoryJobStore.Lawful where
  claim key options token record := by
    have hcases := MemoryJobStore.claim_cases key options token record
    rcases hcases with ⟨attempt, hclaimable, hclaim⟩ | ⟨answer, hclaim, hanswer⟩
    · have hstore : memoryJobStore.claim key options token record = _ := hclaim
      rw [hstore]
      exact .inl ⟨attempt, hclaimable, rfl, rfl⟩
    · have hstore : memoryJobStore.claim key options token record = _ := hclaim
      rw [hstore]
      exact .inr ⟨rfl, fun token' attempt h => hanswer token' attempt (Option.some.inj h)⟩
  complete token now record record' h := by
    change MemoryJobStore.complete token now record = some record' at h
    unfold MemoryJobStore.complete at h
    by_cases htoken : record.token = some token
    · rw [if_neg (not_not.mpr htoken)] at h
      cases h
      obtain ⟨claim, hclaim, hentry, hattempt⟩ := MemoryJobStore.entry_of_token htoken
      exact ⟨claim, hclaim, hentry, hattempt ▸ rfl⟩
    · rw [if_pos htoken] at h
      cases h
  fail token failure record record' h := by
    change MemoryJobStore.fail token failure record = .ok (some record') at h
    unfold MemoryJobStore.fail at h
    split at h
    · cases h
    · by_cases htoken : record.token = some token
      · rw [if_neg (not_not.mpr htoken)] at h
        obtain ⟨claim, hclaim, hentry, hattempt⟩ := MemoryJobStore.entry_of_token htoken
        refine ⟨claim, hclaim, hentry, ?_⟩
        unfold Follows
        rw [hattempt]
        by_cases hterminal : failure.terminal = true
        · rw [if_pos hterminal] at h
          cases h
          exact .inl rfl
        · rw [if_neg hterminal] at h
          cases h
          exact .inr ⟨failure.retryAt, rfl⟩
      · rw [if_pos htoken] at h
        cases h
  timely token failure record htimely := by
    show ∃ result, MemoryJobStore.fail token failure record = .ok result
    have hvalid : ¬ (failure.retryAt < failure.now ∨
        86400 * 1000 < failure.retryAt - failure.now) := by
      obtain ⟨hstart, hend⟩ := htimely
      omega
    unfold MemoryJobStore.fail
    rw [if_neg hvalid]
    split
    · exact ⟨_, rfl⟩
    · split <;> exact ⟨_, rfl⟩

/-- The upsert takes a row that may be claimed, and leaves any other alone. -/
theorem D1JobStore.claim_cases (key : String) (options : JobClaimOptions) (token : Nat)
    (record : Option StateRow) :
    (∃ attempt row, Claimable (record.map D1JobStore.entry) options.now attempt ∧
      D1JobStore.claim key options token record = (some row, some (.acquired token attempt)) ∧
      D1JobStore.entry row = .running ⟨token, attempt, options.now + options.leaseMs⟩) ∨
    D1JobStore.claim key options token record = (record, none) := by
  unfold D1JobStore.claim
  cases record with
  | none => exact .inl ⟨1, _, rfl, rfl, rfl⟩
  | some row =>
    by_cases hfree : (row.status = .retrying ∨ row.status = .running) ∧ row.leaseUntil ≤ options.now
    · left
      simp only [if_pos hfree]
      refine ⟨row.attempt + 1, _, ?_, rfl, rfl⟩
      show Claimable (some (D1JobStore.entry row)) _ _
      rcases hfree.1 with hstatus | hstatus
      · simp only [D1JobStore.entry, hstatus]
        exact ⟨hfree.2, rfl⟩
      · simp only [D1JobStore.entry, hstatus]
        exact ⟨hfree.2, rfl⟩
    · right
      simp only [if_neg hfree]

theorem d1JobStore_lawful : d1JobStore.Lawful where
  claim key options token record := by
    have hcases := D1JobStore.claim_cases key options token record
    rcases hcases with ⟨attempt, row, hclaimable, hclaim, hentry⟩ | hclaim
    · have hstore : d1JobStore.claim key options token record = _ := hclaim
      rw [hstore]
      exact .inl ⟨attempt, hclaimable, rfl, congrArg some hentry⟩
    · have hstore : d1JobStore.claim key options token record = _ := hclaim
      rw [hstore]
      exact .inr ⟨rfl, fun _ _ h => (nomatch h)⟩
  complete token now record record' h := by
    change D1JobStore.complete token now record = some record' at h
    unfold D1JobStore.complete at h
    split at h
    · next howner =>
      cases h
      refine ⟨⟨record.token, record.attempt, record.leaseUntil⟩, howner.1, ?_, rfl⟩
      show D1JobStore.entry record = _
      simp only [D1JobStore.entry, howner.2]
    · cases h
  fail token failure record record' h := by
    change D1JobStore.fail token failure record = .ok (some record') at h
    unfold D1JobStore.fail at h
    split at h
    · next howner =>
      cases h
      refine ⟨⟨record.token, record.attempt, record.leaseUntil⟩, howner.1, ?_, ?_⟩
      · show D1JobStore.entry record = _
        simp only [D1JobStore.entry, howner.2]
      · cases hterminal : failure.terminal with
        | true => exact .inl (by simp [d1JobStore, D1JobStore.entry])
        | false => exact .inr ⟨failure.retryAt, by simp [d1JobStore, D1JobStore.entry]⟩
    · cases h
  timely token failure record _ := by
    show ∃ result, D1JobStore.fail token failure record = .ok result
    unfold D1JobStore.fail
    split <;> exact ⟨_, rfl⟩

end Cossack.Core.Jobs
