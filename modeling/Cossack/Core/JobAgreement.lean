import Cossack.Core.JobLedgers

/-! # The job stores agree

    A record of the memory store and a row of the table say the same, except that
    the row keeps the token of a claim that has ended. -/

namespace Cossack.Core.JobLedgers

variable {T T' : Type}

/-! ## Section 1: Calls of one run and of the other -/

/-- The same call with the tokens of the other store. -/
def Call.map (token : T → T') : Call T → Call T'
  | .claim key options randomUUID => .claim key options (token randomUUID)
  | .complete key t now => .complete key (token t) now
  | .fail key t failure => .fail key (token t) failure
  | .inspect options => .inspect options

/-- What the table answers where the memory store gives an answer: the tokens are those
    of the table, the delay of a busy claim is clamped, and `inspect` has its own words. -/
def Answer.ofMemory (token : T → T') : Answer T → Answer T'
  | .claim (.acquired t attempt) => .claim (.acquired (token t) attempt)
  | .claim (.busy retryAfterSeconds) => .claim (.busy (max 1 (min 86400 retryAfterSeconds)))
  | .claim .completed => .claim .completed
  | .claim .failed => .claim .failed
  | .settled ok => .settled ok
  | .rows inspections => .rows inspections
  | .thrown _ => .thrown "Invalid job inspection options."

/-- The calls of a job runtime: its keys are digests, each of one job, its clock and its
    lease are safe integers, and a retry is within the range of `fail`. -/
def Call.Valid (jobOf : String → String) : Call T → Prop
  | .claim key options _ =>
    runtimeKey key ∧ isSafeInteger options.now ∧ isSafeInteger options.leaseMs ∧
      0 < options.leaseMs ∧ jobName options.job ∧ options.job = jobOf key
  | .complete key _ _ => runtimeKey key
  | .fail key _ failure =>
    runtimeKey key ∧ failure.now ≤ failure.retryAt ∧ failure.retryAt - failure.now ≤ 86400 * 1000
  | .inspect _ => True

/-! ## Section 2: Records and rows -/

/-- A record and a row of one key that say the same. -/
structure Corresponds (token : T → T') (jobOf : String → String) (key : String)
    (state : RecordState T) (row : StateRow T') : Prop where
  runtime : runtimeKey key
  inspection : state.inspection = D1JobStore.inspection (key, row)
  job : row.job = jobOf key
  running : row.status = .running →
    (∃ t, state.token = some t ∧ row.token = token t) ∧
      state.expiresAt = some row.leaseUntil ∧ row.code = none ∧ row.action = none
  retrying : row.status = .retrying → state.token = none ∧ state.expiresAt = some row.leaseUntil
  ended : row.status = .completed ∨ row.status = .failed → state.token = none

abbrev Same (token : T → T') (jobOf : String → String) : MemoryJobStore T → JobTable T' → Prop :=
  Record.Related (Corresponds token jobOf)

variable {token : T → T'} {jobOf : String → String} {records : MemoryJobStore T}
  {table : JobTable T'} {key : String}

theorem Corresponds.status {state : RecordState T} {row : StateRow T'}
    (h : Corresponds token jobOf key state row) : state.inspection.status = row.status := by
  rw [h.inspection]
  rfl

/-- The owner of a record is the owner of a running row. -/
theorem Corresponds.owner_iff {state : RecordState T} {row : StateRow T'}
    (h : Corresponds token jobOf key state row) (htoken : Function.Injective token) (t : T) :
    state.token = some t ↔ row.token = token t ∧ row.status = .running := by
  cases hstatus : row.status with
  | running =>
    obtain ⟨⟨t', hstate, hrow⟩, -⟩ := h.running hstatus
    rw [hstate, hrow]
    simp [htoken.eq_iff]
  | retrying => simp [(h.retrying hstatus).1]
  | completed => simp [h.ended (Or.inl hstatus)]
  | failed => simp [h.ended (Or.inr hstatus)]

/-- An open record can be claimed from the same time on as its row. -/
theorem Corresponds.waits {state : RecordState T} {row : StateRow T'}
    (h : Corresponds token jobOf key state row)
    (hopen : row.status = .retrying ∨ row.status = .running) :
    (state.token.isSome || state.inspection.status == .retrying) = true ∧
      state.expiresAt = some row.leaseUntil := by
  rw [h.status]
  rcases hopen with hstatus | hstatus
  · obtain ⟨-, hexpires⟩ := h.retrying hstatus
    exact ⟨by simp [hstatus], hexpires⟩
  · obtain ⟨⟨t, htoken, -⟩, hexpires, -⟩ := h.running hstatus
    exact ⟨by simp [htoken], hexpires⟩

/-! ## Section 3: Claims -/

theorem MemoryJobStore.claim_open {state : RecordState T} {options : JobClaimOptions} {t : T}
    {deadline : Int} (hrecord : records.get key = some state)
    (hopen : state.inspection.status = .retrying ∨ state.inspection.status = .running)
    (hwaits : (state.token.isSome || state.inspection.status == .retrying) = true)
    (hdeadline : state.expiresAt = some deadline) :
    MemoryJobStore.claim records key options t =
      if options.now < deadline then
        (records, .claim (.busy (ceilSeconds (deadline - options.now))))
      else MemoryJobStore.acquire records key options t (state.inspection.attempt + 1) := by
  have hcompleted : state.inspection.status ≠ .completed := by
    rcases hopen with h | h <;> simp [h]
  have hfailed : state.inspection.status ≠ .failed := by
    rcases hopen with h | h <;> simp [h]
  unfold MemoryJobStore.claim
  rw [hrecord]
  simp only [if_neg hcompleted, if_neg hfailed, hwaits, hdeadline, Bool.true_and, Option.any_some,
    Option.getD_some, decide_eq_true_eq]

/-- What a claim does to the row it acquires. -/
def StateRow.claimed (row : StateRow T') (options : JobClaimOptions) (t : T') : StateRow T' :=
  { row with
    status := .running, attempt := row.attempt + 1, updatedAt := options.now
    leaseUntil := options.now + options.leaseMs, token := t, code := none, action := none }

/-- The checks of a claim pass. -/
theorem D1JobStore.claim_valid {options : JobClaimOptions} {t : T'}
    (hvalid : (Call.claim key options t).Valid jobOf) :
    D1JobStore.claim table key options t =
      ((D1JobStore.upsert table key options t).1,
        .claim (D1JobStore.claimed (D1JobStore.upsert table key options t).1 key options t
          (D1JobStore.upsert table key options t).2)) := by
  obtain ⟨hkey, hnow, hlease, hpositive, hname, -⟩ := hvalid
  have hchecks : ¬ (!isSafeInteger options.now || !isSafeInteger options.leaseMs ||
      options.leaseMs ≤ 0 || !jobName options.job) = true := by
    simp [hnow, hlease, hname, hpositive]
  unfold D1JobStore.claim
  rw [if_neg (by simp [hkey]), if_neg hchecks]

theorem D1JobStore.claim_open {row : StateRow T'} {options : JobClaimOptions} {t : T'}
    (hvalid : (Call.claim key options t).Valid jobOf) (hrow : table.get key = some row)
    (hopen : row.status = .retrying ∨ row.status = .running) :
    D1JobStore.claim table key options t =
      if options.now < row.leaseUntil then
        (table, .claim (.busy (max 1 (min 86400 (ceilSeconds (row.leaseUntil - options.now))))))
      else (table.set key (row.claimed options t), .claim (.acquired t (row.attempt + 1))) := by
  rw [D1JobStore.claim_valid hvalid]
  by_cases hbusy : options.now < row.leaseUntil
  · have hupsert : D1JobStore.upsert table key options t = (table, none) := by
      simp only [D1JobStore.upsert, hrow]
      exact if_neg fun h => absurd h.2 (by omega)
    rw [hupsert, if_pos hbusy]
    unfold D1JobStore.claimed D1JobStore.unavailable
    rcases hopen with hstatus | hstatus <;> simp [hrow, hstatus]
  · have hupsert : D1JobStore.upsert table key options t =
        (table.set key (row.claimed options t), some (row.attempt + 1)) := by
      simp only [D1JobStore.upsert, hrow]
      exact if_pos ⟨hopen, by omega⟩
    rw [hupsert, if_neg hbusy]
    rfl

theorem D1JobStore.claim_ended {row : StateRow T'} {options : JobClaimOptions} {t : T'}
    (hvalid : (Call.claim key options t).Valid jobOf) (hrow : table.get key = some row)
    (hended : row.status = .completed ∨ row.status = .failed) :
    D1JobStore.claim table key options t =
      (table, .claim (if row.status = .completed then .completed else .failed)) := by
  have hupsert : D1JobStore.upsert table key options t = (table, none) := by
    simp only [D1JobStore.upsert, hrow]
    rcases hended with hstatus | hstatus <;> simp [hstatus]
  rw [D1JobStore.claim_valid hvalid, hupsert]
  unfold D1JobStore.claimed D1JobStore.unavailable
  rcases hended with hstatus | hstatus <;> simp [hrow, hstatus]

/-- A fresh claim puts corresponding records under the key. -/
theorem same_acquired (h : Same token jobOf records table) (hkey : runtimeKey key)
    {options : JobClaimOptions} (hjob : options.job = jobOf key) {t : T} {attempt : Nat}
    (row : StateRow T') (hrow : row.job = jobOf key) (hattempt : row.attempt + 1 = attempt) :
    Same token jobOf (MemoryJobStore.acquire records key options t attempt).1
      (table.set key (row.claimed options (token t))) :=
  h.set
    { runtime := hkey
      inspection := by
        simp [D1JobStore.inspection, StateRow.claimed, hjob, hrow, hattempt]
      job := hrow
      running := fun _ => ⟨⟨t, rfl, rfl⟩, rfl, rfl, rfl⟩
      retrying := fun hstatus => (nomatch hstatus)
      ended := fun hstatus => hstatus.elim (fun h => (nomatch h)) (fun h => (nomatch h)) }

theorem claim_agrees (h : Same token jobOf records table) {options : JobClaimOptions} {t : T}
    (hvalid : (Call.claim key options t).Valid jobOf) :
    Same token jobOf (MemoryJobStore.claim records key options t).1
        (D1JobStore.claim table key options (token t)).1 ∧
      (D1JobStore.claim table key options (token t)).2 =
        (MemoryJobStore.claim records key options t).2.ofMemory token := by
  have hvalid' : (Call.claim key options (token t)).Valid jobOf := hvalid
  obtain ⟨hkey, -, -, -, -, hjob⟩ := hvalid
  obtain ⟨hrecord, hrow⟩ | ⟨state, row, hrecord, hrow, hrel⟩ := h.get key
  · -- a first claim is a claim of a row at attempt 0
    let row : StateRow T' := ⟨options.job, .running, 0, 0, 0, token t, none, none⟩
    have hupsert : D1JobStore.upsert table key options (token t) =
        (table.set key (row.claimed options (token t)), some 1) := by
      simp only [D1JobStore.upsert, hrow]
      rfl
    have hclaim : MemoryJobStore.claim records key options t =
        MemoryJobStore.acquire records key options t 1 := by
      simp only [MemoryJobStore.claim, hrecord]
    rw [D1JobStore.claim_valid hvalid', hupsert, hclaim]
    exact ⟨same_acquired h hkey hjob row hjob rfl, rfl⟩
  by_cases hopen : row.status = .retrying ∨ row.status = .running
  · obtain ⟨hwaits, hdeadline⟩ := hrel.waits hopen
    have hattempt : state.inspection.attempt = row.attempt := by
      rw [hrel.inspection]
      rfl
    rw [MemoryJobStore.claim_open hrecord (hrel.status.symm ▸ hopen) hwaits hdeadline,
      D1JobStore.claim_open hvalid' hrow hopen, hattempt]
    by_cases hbusy : options.now < row.leaseUntil
    · rw [if_pos hbusy, if_pos hbusy]
      exact ⟨h, rfl⟩
    · rw [if_neg hbusy, if_neg hbusy]
      exact ⟨same_acquired h hkey hjob row hrel.job rfl, rfl⟩
  · have hended : row.status = .completed ∨ row.status = .failed := by
      cases hstatus : row.status <;> simp_all
    rw [D1JobStore.claim_ended hvalid' hrow hended]
    unfold MemoryJobStore.claim
    rw [hrecord]
    dsimp only
    rw [hrel.status]
    rcases hended with hstatus | hstatus <;> simpa [hstatus, Answer.ofMemory] using h

/-! ## Section 4: Ends of claims -/

variable [DecidableEq T] [DecidableEq T']

theorem complete_agrees (htoken : Function.Injective token) (h : Same token jobOf records table)
    {t : T} {now : Int} (hkey : runtimeKey key) :
    Same token jobOf (MemoryJobStore.complete records key t now).1
        (D1JobStore.complete table key (token t) now).1 ∧
      (D1JobStore.complete table key (token t) now).2 =
        (MemoryJobStore.complete records key t now).2.ofMemory token := by
  unfold D1JobStore.complete
  rw [if_neg (by simp [hkey])]
  unfold MemoryJobStore.complete D1JobStore.updateRunning
  obtain ⟨hrecord, hrow⟩ | ⟨state, row, hrecord, hrow, hrel⟩ := h.get key
  · simp only [hrecord, hrow]
    exact ⟨h, rfl⟩
  simp only [hrecord, hrow]
  by_cases howner : state.token = some t
  · have hrunning := (hrel.owner_iff htoken t).mp howner
    rw [if_neg (not_not.mpr howner), if_pos hrunning]
    -- a running record has no code that completing it could keep
    obtain ⟨-, -, hcode, haction⟩ := hrel.running hrunning.2
    refine ⟨h.set
      { runtime := hkey
        inspection := ?_
        job := hrel.job
        running := fun hstatus => (nomatch hstatus)
        retrying := fun hstatus => (nomatch hstatus)
        ended := fun _ => rfl }, rfl⟩
    simp [hrel.inspection, D1JobStore.inspection, hcode, haction]
  · rw [if_pos howner, if_neg fun hrunning => howner ((hrel.owner_iff htoken t).mpr hrunning)]
    exact ⟨h, rfl⟩

theorem fail_agrees (htoken : Function.Injective token) (h : Same token jobOf records table)
    {t : T} {failure : JobFailure} (hvalid : (Call.fail key t failure).Valid jobOf) :
    Same token jobOf (MemoryJobStore.fail records key t failure).1
        (D1JobStore.fail table key (token t) failure).1 ∧
      (D1JobStore.fail table key (token t) failure).2 =
        (MemoryJobStore.fail records key t failure).2.ofMemory token := by
  obtain ⟨hkey, hstart, hend⟩ := hvalid
  have hrange : ¬ (failure.retryAt < failure.now ||
      86400 * 1000 < failure.retryAt - failure.now) = true := by
    simp only [Bool.or_eq_true, decide_eq_true_eq]
    omega
  unfold D1JobStore.fail
  rw [if_neg (by simp [hkey])]
  unfold MemoryJobStore.fail D1JobStore.updateRunning
  rw [if_neg hrange]
  obtain ⟨hrecord, hrow⟩ | ⟨state, row, hrecord, hrow, hrel⟩ := h.get key
  · simp only [hrecord, hrow]
    exact ⟨h, rfl⟩
  simp only [hrecord, hrow]
  by_cases howner : state.token = some t
  · have hrunning := (hrel.owner_iff htoken t).mp howner
    rw [if_neg (not_not.mpr howner), if_pos hrunning]
    refine ⟨h.set
      { runtime := hkey
        inspection := ?_
        job := hrel.job
        running := ?_
        retrying := ?_
        ended := fun _ => rfl }, rfl⟩
    · simp [hrel.inspection, D1JobStore.inspection]
    · cases failure.terminal <;> simp
    · cases failure.terminal <;> simp
  · rw [if_pos howner, if_neg fun hrunning => howner ((hrel.owner_iff htoken t).mpr hrunning)]
    exact ⟨h, rfl⟩

/-! ## Section 5: Inspections -/

omit [DecidableEq T] [DecidableEq T'] in
theorem inspections_eq (h : Same token jobOf records table) :
    table.entries.map D1JobStore.inspection = records.entries.map (·.2.inspection) := by
  unfold Same Record.Related at h
  generalize records.entries = states, table.entries = rows at h ⊢
  induction h with
  | nil => rfl
  | cons hab _ ih =>
    rw [List.map_cons, List.map_cons, ih, hab.2.inspection, hab.1]

omit [DecidableEq T] [DecidableEq T'] in
/-- Every inspection is of a runtime key. -/
theorem inspections_runtime (h : Same token jobOf records table) :
    ∀ r ∈ records.entries.map (·.2.inspection), runtimeKey r.key = true := by
  unfold Same Record.Related at h
  generalize records.entries = states, table.entries = rows at h ⊢
  induction h with
  | nil => exact fun _ hr => (nomatch hr)
  | cons hab _ ih =>
    intro r hr
    rw [List.map_cons, List.mem_cons] at hr
    rcases hr with rfl | hr
    · rw [hab.2.inspection]
      exact hab.2.runtime
    · exact ih r hr

/-- The comparison of keys by `localeCompare` is that of their characters. -/
def CollatesKeys (localeCompare : String → String → Int) : Prop :=
  ∀ a b, runtimeKey a → runtimeKey b → (localeCompare a b ≤ 0 ↔ a ≤ b)

theorem before_eq {localeCompare : String → String → Int} (hlocale : CollatesKeys localeCompare)
    {a b : JobInspection} (ha : runtimeKey a.key) (hb : runtimeKey b.key) :
    MemoryJobStore.before localeCompare a b = D1JobStore.before a b := by
  unfold MemoryJobStore.before D1JobStore.before
  by_cases hsame : a.updatedAt = b.updatedAt
  · rw [if_pos (by omega), if_pos hsame]
    exact decide_eq_decide.mpr (hlocale _ _ ha hb)
  · rw [if_neg (by omega), if_neg hsame]
    exact decide_eq_decide.mpr (by omega)

omit [DecidableEq T] [DecidableEq T'] in
theorem inspect_agrees {localeCompare : String → String → Int}
    (hlocale : CollatesKeys localeCompare) (h : Same token jobOf records table)
    (options : InspectOptions) :
    Same token jobOf (MemoryJobStore.inspect localeCompare records options).1
        (D1JobStore.inspect table options).1 ∧
      (D1JobStore.inspect table options).2 =
        (MemoryJobStore.inspect localeCompare records options).2.ofMemory token := by
  unfold MemoryJobStore.inspect D1JobStore.inspect
  by_cases hlimit : (!validLimit options) = true
  · rw [if_pos hlimit, if_pos hlimit]
    exact ⟨h, rfl⟩
  rw [if_neg hlimit, if_neg hlimit, inspections_eq h]
  refine ⟨h, ?_⟩
  have hruntime := inspections_runtime h
  have hsort := List.map_mergeSort (f := id) (r := MemoryJobStore.before localeCompare)
    (s := D1JobStore.before)
    (l := (records.entries.map (·.2.inspection)).filter fun r => options.status.all (r.status == ·))
    fun a ha b hb => before_eq hlocale (hruntime a (List.mem_filter.mp ha).1)
      (hruntime b (List.mem_filter.mp hb).1)
  rw [List.map_id, List.map_id] at hsort
  show Answer.rows _ = Answer.rows _
  rw [hsort]

/-! ## Section 6: Runs -/

theorem step_agrees {localeCompare : String → String → Int} (hlocale : CollatesKeys localeCompare)
    (htoken : Function.Injective token) :
    Machines.Simulates (MemoryJobStore.step (T := T) localeCompare) D1JobStore.step
      (Same token jobOf) (fun _ call => call.Valid jobOf) (Call.map token)
      fun answer answer' => answer' = answer.ofMemory token := by
  intro records table call h hvalid
  cases call with
  | claim key options t => exact claim_agrees h hvalid
  | complete key t now => exact complete_agrees htoken h hvalid
  | fail key t failure => exact fail_agrees htoken h hvalid
  | inspect options => exact inspect_agrees hlocale h options

/-- On the calls of a job runtime the table answers what the memory store answers. -/
theorem job_stores_agree {localeCompare : String → String → Int}
    (hlocale : CollatesKeys localeCompare) (token : T → T') (htoken : Function.Injective token)
    (jobOf : String → String) (calls : List (Call T)) (hcalls : ∀ call ∈ calls, call.Valid jobOf) :
    Machines.answers D1JobStore.step Record.empty (calls.map (Call.map token)) =
      (Machines.answers (MemoryJobStore.step localeCompare) Record.empty calls).map
        (Answer.ofMemory token) :=
  (step_agrees hlocale htoken).answers_map Record.related_empty
    (Machines.admits_of_forall hcalls _)

private def codePoints (a b : String) : Int := if a ≤ b then 0 else 1

private def digestKey : String := String.ofList (List.replicate 64 'a')

/-- Claimed, failed, claimed again at the very deadline and completed; the first token
    comes back in between. -/
private def exampleCalls : List (Call Nat) :=
  [.claim digestKey ⟨0, 1000, "mail"⟩ 1,
    .fail digestKey 1 ⟨false, 10, 5010, .transientFailure, .inspectHandlerAndProvider⟩,
    .claim digestKey ⟨5009, 1000, "mail"⟩ 2, .claim digestKey ⟨5010, 1000, "mail"⟩ 3,
    .complete digestKey 1 5020, .complete digestKey 3 5030, .inspect ⟨none, none⟩]

theorem job_stores_agree_example :
    Machines.answers D1JobStore.step Record.empty (exampleCalls.map (Call.map (· + 100))) =
      (Machines.answers (MemoryJobStore.step codePoints) Record.empty exampleCalls).map
        (Answer.ofMemory (· + 100)) := by
  refine job_stores_agree ?_ (· + 100) (fun _ _ h => Nat.add_right_cancel h) (fun _ => "mail")
    exampleCalls ?_
  · intro a b _ _
    unfold codePoints
    by_cases h : a ≤ b <;> simp [h]
  · intro call hcall
    simp only [exampleCalls, List.mem_cons, List.not_mem_nil, or_false] at hcall
    rcases hcall with rfl | rfl | rfl | rfl | rfl | rfl | rfl
    · exact ⟨by decide, by decide, by decide, by decide, by decide, rfl⟩
    · exact ⟨by decide, by decide, by decide⟩
    · exact ⟨by decide, by decide, by decide, by decide, by decide, rfl⟩
    · exact ⟨by decide, by decide, by decide, by decide, by decide, rfl⟩
    · exact (by decide : runtimeKey digestKey = true)
    · exact (by decide : runtimeKey digestKey = true)
    · trivial

/-- The memory store takes keys, leases and job names that the table refuses. -/
theorem unchecked_claims_differ :
    Machines.answers (MemoryJobStore.step codePoints) Record.empty
        [.claim "a" ⟨0, 1000, "mail"⟩ 1, .claim digestKey ⟨0, 0, "mail"⟩ 2,
          .claim digestKey ⟨0, 1000, "send mail"⟩ 3] =
      [.claim (.acquired 1 1), .claim (.acquired 2 1), .claim (.acquired 3 2)] ∧
    Machines.answers D1JobStore.step Record.empty
        [.claim "a" ⟨0, 1000, "mail"⟩ 1, .claim digestKey ⟨0, 0, "mail"⟩ 2,
          .claim digestKey ⟨0, 1000, "send mail"⟩ 3] =
      [.thrown "Job state requires a runtime-generated key.", .thrown "Invalid job state claim.",
        .thrown "Invalid job state claim."] := by
  constructor <;> decide

end Cossack.Core.JobLedgers
