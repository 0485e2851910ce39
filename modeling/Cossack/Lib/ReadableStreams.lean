import Mathlib.Data.List.Basic

/-! # Readable streams

    A stream with a default controller: chunks are pulled while a read waits or the
    queue is short of its high water mark, and what has been enqueued is given to the
    reads in order.  The answers are kept, so that what a consumer has seen can be
    spoken of.  Operations that may have to call the pull algorithm say so. -/

namespace ReadableStreams

/-! ## Section 1: Streams -/

inductive Status (ε : Type)
  | readable
  | closed
  | errored (e : ε)

/-- What a read resolves or rejects with. -/
inductive Answer (α ε : Type)
  | chunk (a : α)
  | done
  | error (e : ε)

structure ReadableStream (α ε : Type) where
  status : Status ε
  queue : List α
  closeRequested : Bool
  started : Bool
  pulling : Bool
  pullAgain : Bool
  /-- The reads that wait for an answer. -/
  waiting : Nat
  /-- The answers, in the order of the reads. -/
  answers : List (Answer α ε)
  /-- Cancelled by the consumer while it was readable. -/
  cancelled : Bool

variable {α ε : Type} {highWater : Nat}

def ReadableStream.new : ReadableStream α ε := ⟨.readable, [], false, false, false, false, 0, [], false⟩

def Status.isReadable : Status ε → Bool
  | .readable => true
  | _ => false

def ReadableStream.canEnqueue (s : ReadableStream α ε) : Bool := s.status.isReadable && !s.closeRequested

def ReadableStream.shouldPull (highWater : Nat) (s : ReadableStream α ε) : Bool :=
  s.canEnqueue && s.started && (decide (0 < s.waiting) || decide (s.queue.length < highWater))

/-- The stream, and whether its pull algorithm is called. -/
def ReadableStream.callPull (highWater : Nat) (s : ReadableStream α ε) : ReadableStream α ε × Bool :=
  if s.shouldPull highWater then
    if s.pulling then ({ s with pullAgain := true }, false) else ({ s with pulling := true }, true)
  else (s, false)

/-- The start algorithm has run. -/
def ReadableStream.start (highWater : Nat) (s : ReadableStream α ε) : ReadableStream α ε × Bool :=
  { s with started := true }.callPull highWater

/-- The promise of the pull algorithm is fulfilled. -/
def ReadableStream.pulled (highWater : Nat) (s : ReadableStream α ε) : ReadableStream α ε × Bool :=
  if s.pullAgain then { s with pulling := false, pullAgain := false }.callPull highWater
  else ({ s with pulling := false }, false)

/-- All reads that wait get the answer. -/
def ReadableStream.settle (s : ReadableStream α ε) (answer : Answer α ε) : ReadableStream α ε :=
  { s with waiting := 0, answers := s.answers ++ List.replicate s.waiting answer }

/-- None when it throws. -/
def ReadableStream.enqueue (highWater : Nat) (s : ReadableStream α ε) (a : α) : Option (ReadableStream α ε × Bool) :=
  if s.canEnqueue then
    if 0 < s.waiting then
      some ({ s with waiting := s.waiting - 1, answers := s.answers ++ [Answer.chunk a] }.callPull highWater)
    else some ({ s with queue := s.queue ++ [a] }.callPull highWater)
  else none

/-- None when it throws. -/
def ReadableStream.close (s : ReadableStream α ε) : Option (ReadableStream α ε) :=
  if s.canEnqueue then
    if s.queue = [] then some ({ s with closeRequested := true, status := .closed }.settle .done)
    else some { s with closeRequested := true }
  else none

def ReadableStream.error (s : ReadableStream α ε) (e : ε) : ReadableStream α ε :=
  if s.status.isReadable then { s with status := .errored e, queue := [] }.settle (.error e) else s

/-- A read by the consumer.  A chunk from the queue is given after the pull algorithm
    is called; here it is before, which is the same to all, since no read waits. -/
def ReadableStream.read (highWater : Nat) (s : ReadableStream α ε) : ReadableStream α ε × Bool :=
  match s.status with
  | .closed => ({ s with answers := s.answers ++ [.done] }, false)
  | .errored e => ({ s with answers := s.answers ++ [.error e] }, false)
  | .readable =>
      match s.queue with
      | [] => { s with waiting := s.waiting + 1 }.callPull highWater
      | a :: rest =>
          let s := { s with queue := rest, answers := s.answers ++ [Answer.chunk a] }
          if s.closeRequested && rest.isEmpty then ({ s with status := .closed }, false)
          else s.callPull highWater

/-- The consumer loses interest.  The stream, and whether the cancel algorithm is called. -/
def ReadableStream.cancel (s : ReadableStream α ε) : ReadableStream α ε × Bool :=
  if s.status.isReadable then
    ({ s with status := .closed, queue := [], cancelled := true }.settle .done, true)
  else (s, false)

/-! ## Section 2: What a consumer gets -/

def Answer.chunk? : Answer α ε → Option α
  | .chunk a => some a
  | _ => none

/-- The chunks that the consumer has. -/
def ReadableStream.delivered (s : ReadableStream α ε) : List α := s.answers.filterMap Answer.chunk?

/-- The chunks that the consumer has or can still have. -/
def ReadableStream.passed (s : ReadableStream α ε) : List α := s.delivered ++ s.queue

theorem delivered_le (s : ReadableStream α ε) : s.delivered <+: s.passed := List.prefix_append ..

section consumer

variable {s t : ReadableStream α ε} {a : α} {e : ε} {call : Bool}

/-- Calling the pull algorithm is seen in the two flags only. -/
theorem callPull_cases (h : s.callPull highWater = (t, call)) :
    (s.shouldPull highWater = false ∧ t = s ∧ call = false) ∨
      (s.shouldPull highWater = true ∧ s.pulling = true ∧ t = { s with pullAgain := true } ∧ call = false) ∨
      (s.shouldPull highWater = true ∧ s.pulling = false ∧ t = { s with pulling := true } ∧ call = true) := by
  unfold ReadableStream.callPull at h
  split at h
  · rename_i hshould
    split at h
    · rename_i hpulling
      cases h
      exact .inr (.inl ⟨hshould, hpulling, rfl, rfl⟩)
    · rename_i hpulling
      cases h
      exact .inr (.inr ⟨hshould, by simpa using hpulling, rfl, rfl⟩)
  · rename_i hshould
    cases h
    exact .inl ⟨by simpa using hshould, rfl, rfl⟩

/-- The streams differ at most in their pull flags. -/
structure Same (s t : ReadableStream α ε) : Prop where
  status : t.status = s.status
  queue : t.queue = s.queue
  closeRequested : t.closeRequested = s.closeRequested
  started : t.started = s.started
  waiting : t.waiting = s.waiting
  answers : t.answers = s.answers
  cancelled : t.cancelled = s.cancelled

theorem callPull_same (h : s.callPull highWater = (t, call)) : Same s t := by
  obtain ⟨-, rfl, -⟩ | ⟨-, -, rfl, -⟩ | ⟨-, -, rfl, -⟩ := callPull_cases h <;> constructor <;> rfl

theorem Same.passed (h : Same s t) : t.passed = s.passed := by
  unfold ReadableStream.passed ReadableStream.delivered
  rw [h.answers, h.queue]

theorem Same.shouldPull (h : Same s t) : t.shouldPull highWater = s.shouldPull highWater := by
  unfold ReadableStream.shouldPull ReadableStream.canEnqueue
  rw [h.status, h.closeRequested, h.started, h.waiting, h.queue]

theorem Same.canEnqueue (h : Same s t) : t.canEnqueue = s.canEnqueue := by
  unfold ReadableStream.canEnqueue
  rw [h.status, h.closeRequested]

end consumer

/-! ## Section 3: Streams that keep their promises -/

/-- What holds between the operations, the pull flags apart. -/
structure Steady (s : ReadableStream α ε) : Prop where
  waiting : 0 < s.waiting → s.canEnqueue = true ∧ s.queue = []
  emptied : s.status.isReadable = false → s.queue = []
  done : .done ∈ s.answers → s.status = .closed
  error : ∀ e, .error e ∈ s.answers → s.status = .errored e
  asked : s.status = .closed → s.cancelled = false → s.closeRequested = true
  requested : s.closeRequested = true → s.status.isReadable = true → s.queue ≠ []
  left : s.cancelled = true → s.status = .closed

/-- A stream that is short of chunks has its pull algorithm running. -/
structure Sound (highWater : Nat) (s : ReadableStream α ε) : Prop extends Steady s where
  pulls : s.shouldPull highWater = true → s.pulling = true

theorem sound_new : Sound highWater (ReadableStream.new : ReadableStream α ε) where
  waiting := nofun
  emptied _ := rfl
  done := nofun
  error _ := nofun
  asked := nofun
  requested := nofun
  left := nofun
  pulls := nofun

section promises

variable {s t : ReadableStream α ε} {a : α} {e : ε} {call : Bool}

theorem Same.steady (h : Same s t) (hs : Steady s) : Steady t where
  waiting := by
    rw [h.waiting, h.canEnqueue, h.queue]
    exact hs.waiting
  emptied := by
    rw [h.status, h.queue]
    exact hs.emptied
  done := by
    rw [h.status, h.answers]
    exact hs.done
  error := by
    rw [h.status, h.answers]
    exact hs.error
  asked := by
    rw [h.status, h.cancelled, h.closeRequested]
    exact hs.asked
  requested := by
    rw [h.status, h.closeRequested, h.queue]
    exact hs.requested
  left := by
    rw [h.status, h.cancelled]
    exact hs.left

theorem callPull_sound (hs : Steady s) (h : s.callPull highWater = (t, call)) : Sound highWater t := by
  have hsame := callPull_same h
  refine ⟨hsame.steady hs, fun hshould => ?_⟩
  rw [hsame.shouldPull] at hshould
  obtain ⟨hno, -, -⟩ | ⟨-, hpulling, rfl, -⟩ | ⟨-, -, rfl, -⟩ := callPull_cases h
  · rw [hshould] at hno
    cases hno
  · exact hpulling
  · rfl

/-- The pull algorithm is called on a stream that takes chunks and is not pulling. -/
theorem callPull_call (h : s.callPull highWater = (t, true)) :
    t.canEnqueue = true ∧ s.pulling = false ∧ t.pulling = true := by
  obtain ⟨-, -, hcall⟩ | ⟨-, -, -, hcall⟩ | ⟨hshould, hpulling, rfl, -⟩ := callPull_cases h
  · cases hcall
  · cases hcall
  · unfold ReadableStream.shouldPull at hshould
    simp only [Bool.and_eq_true] at hshould
    exact ⟨hshould.1.1, hpulling, rfl⟩

theorem callPull_idle (h : s.callPull highWater = (t, false)) : t.pulling = s.pulling := by
  obtain ⟨-, rfl, -⟩ | ⟨-, -, rfl, -⟩ | ⟨-, -, -, hcall⟩ := callPull_cases h
  · rfl
  · rfl
  · cases hcall

/-- A pull that has returned is repeated where the stream is still short. -/
theorem callPull_again (h : s.callPull highWater = (t, call)) (hpulling : s.pulling = true)
    (hshould : t.shouldPull highWater = true) : t.pullAgain = true := by
  rw [(callPull_same h).shouldPull] at hshould
  obtain ⟨hno, -, -⟩ | ⟨-, -, rfl, -⟩ | ⟨-, hno, -, -⟩ := callPull_cases h
  · rw [hshould] at hno
    cases hno
  · rfl
  · rw [hpulling] at hno
    cases hno

end promises

/-! ## Section 4: The operations -/

/-- What can still reach the consumer has not changed. -/
structure Kept (s t : ReadableStream α ε) : Prop where
  passed : t.passed = s.passed
  canEnqueue : t.canEnqueue = s.canEnqueue
  closeRequested : t.closeRequested = s.closeRequested
  cancelled : t.cancelled = s.cancelled
  status : t.status = s.status ∨ (s.status = .readable ∧ s.closeRequested = true ∧ t.status = .closed)

/-- Where the pull algorithm is called, and where the call is put off until the pull in
    flight has returned. -/
structure Called (highWater : Nat) (s t : ReadableStream α ε) (call : Bool) : Prop where
  yes : call = true → s.canEnqueue = true ∧ s.pulling = false ∧ t.pulling = true
  no : call = false → t.pulling = s.pulling
  again : s.pulling = true → (s.shouldPull highWater = true → s.pullAgain = true) →
    t.shouldPull highWater = true → t.pullAgain = true

section operations

variable {s t u : ReadableStream α ε} {a : α} {e : ε} {call : Bool}

theorem Kept.same (h : Kept s t) (hsame : Same t u) : Kept s u where
  passed := hsame.passed.trans h.passed
  canEnqueue := hsame.canEnqueue.trans h.canEnqueue
  closeRequested := hsame.closeRequested.trans h.closeRequested
  cancelled := hsame.cancelled.trans h.cancelled
  status := by
    rw [hsame.status]
    exact h.status

/-- The same flags and the same room before the call as in `s`. -/
theorem called_of_callPull (h : u.callPull highWater = (t, call)) (hpulling : u.pulling = s.pulling)
    (hcan : u.canEnqueue = s.canEnqueue) : Called highWater s t call where
  yes := by
    rintro rfl
    obtain ⟨hopen, hidle, hpulls⟩ := callPull_call h
    rw [(callPull_same h).canEnqueue] at hopen
    exact ⟨hcan.symm.trans hopen, hpulling.symm.trans hidle, hpulls⟩
  no := by
    rintro rfl
    exact (callPull_idle h).trans hpulling
  again := fun hruns _ => callPull_again h (hpulling.trans hruns)

theorem start_spec (hs : Sound highWater s) (h : s.start highWater = (t, call)) :
    Sound highWater t ∧ Kept s t ∧ t.started = true ∧ Called highWater s t call := by
  have hsteady : Steady { s with started := true } := { hs with }
  refine ⟨callPull_sound hsteady h, ?_, (callPull_same h).started, called_of_callPull h rfl rfl⟩
  exact Kept.same (t := { s with started := true }) ⟨rfl, rfl, rfl, rfl, .inl rfl⟩ (callPull_same h)

theorem pulled_spec (hs : Sound highWater s) (hdue : s.shouldPull highWater = true → s.pullAgain = true)
    (h : s.pulled highWater = (t, call)) :
    Sound highWater t ∧ Kept s t ∧ t.started = s.started ∧ t.pulling = call ∧
      (call = true → s.canEnqueue = true) := by
  unfold ReadableStream.pulled at h
  split at h
  · have hsteady : Steady { s with pulling := false, pullAgain := false } := { hs with }
    have hsame := callPull_same h
    refine ⟨callPull_sound hsteady h, ?_, hsame.started, ?_, ?_⟩
    · exact Kept.same (t := { s with pulling := false, pullAgain := false })
        ⟨rfl, rfl, rfl, rfl, .inl rfl⟩ hsame
    · cases call with
      | true => exact (callPull_call h).2.2
      | false => exact callPull_idle h
    · rintro rfl
      have := (callPull_call h).1
      rw [hsame.canEnqueue] at this
      exact this
  · rename_i hagain
    cases h
    refine ⟨⟨{ hs with }, fun hshould => ?_⟩, ⟨rfl, rfl, rfl, rfl, .inl rfl⟩, rfl, rfl, nofun⟩
    exact absurd (hdue hshould) hagain

theorem canEnqueue_iff : s.canEnqueue = true ↔ s.status = .readable ∧ s.closeRequested = false := by
  unfold ReadableStream.canEnqueue Status.isReadable
  cases s.status <;> simp

/-- A chunk is put in the queue or given to the first read that waits, which has an
    empty queue before it. -/
theorem enqueue_spec (hs : Sound highWater s) (hcan : s.canEnqueue = true)
    (hpulling : s.pulling = true) :
    ∃ t, s.enqueue highWater a = some (t, false) ∧ Sound highWater t ∧ t.passed = s.passed ++ [a] ∧
      t.canEnqueue = true ∧ t.closeRequested = s.closeRequested ∧ t.cancelled = s.cancelled ∧
      t.status = s.status ∧ t.started = s.started ∧ t.pulling = true ∧
      (t.shouldPull highWater = true → t.pullAgain = true) := by
  obtain ⟨hreadable, hopen⟩ := canEnqueue_iff.mp hcan
  -- Both ways end with a call of the pull algorithm that is put off.
  have hput : ∀ u : ReadableStream α ε, Steady u → u.canEnqueue = true → u.pulling = true →
      ∃ t, u.callPull highWater = (t, false) ∧ Sound highWater t ∧ Same u t ∧ t.pulling = true ∧
        (t.shouldPull highWater = true → t.pullAgain = true) := by
    intro u hu hcanU hpullingU
    rcases hcall : u.callPull highWater with ⟨t, call⟩
    cases call with
    | true =>
      have := (callPull_call hcall).2.1
      rw [hpullingU] at this
      cases this
    | false =>
      exact ⟨t, rfl, callPull_sound hu hcall, callPull_same hcall, (callPull_idle hcall).trans hpullingU,
        callPull_again hcall hpullingU⟩
  unfold ReadableStream.enqueue
  rw [if_pos hcan]
  split
  · rename_i hwaiting
    obtain ⟨-, hqueue⟩ := hs.waiting hwaiting
    have hsteady : Steady { s with waiting := s.waiting - 1, answers := s.answers ++ [Answer.chunk a] } :=
      { hs with
        waiting := fun _ => ⟨hcan, hqueue⟩
        done := fun h => hs.done (by simpa using h)
        error := fun e h => hs.error e (by simpa using h) }
    obtain ⟨t, hcall, hsound, hsame, hpullingT, hagain⟩ := hput _ hsteady hcan hpulling
    refine ⟨t, by rw [hcall], hsound, ?_, hsame.canEnqueue.trans hcan, hsame.closeRequested,
      hsame.cancelled, hsame.status, hsame.started, hpullingT, hagain⟩
    rw [hsame.passed]
    unfold ReadableStream.passed ReadableStream.delivered
    simp [hqueue, Answer.chunk?]
  · rename_i hwaiting
    have hsteady : Steady { s with queue := s.queue ++ [a] } :=
      { hs with
        waiting := fun h => absurd h hwaiting
        emptied := fun h => by
          rw [hreadable] at h
          cases h
        requested := fun h => by
          rw [hopen] at h
          cases h }
    obtain ⟨t, hcall, hsound, hsame, hpullingT, hagain⟩ := hput _ hsteady hcan hpulling
    refine ⟨t, by rw [hcall], hsound, ?_, hsame.canEnqueue.trans hcan, hsame.closeRequested,
      hsame.cancelled, hsame.status, hsame.started, hpullingT, hagain⟩
    rw [hsame.passed]
    unfold ReadableStream.passed
    exact (List.append_assoc ..).symm

theorem settle_passed (answer : Answer α ε) (hanswer : answer.chunk? = none) :
    (s.settle answer).passed = s.passed := by
  unfold ReadableStream.passed ReadableStream.delivered ReadableStream.settle
  rw [List.filterMap_append, List.filterMap_replicate_of_none hanswer, List.append_nil]

/-- The reads that wait are told, and no other read was told anything else before. -/
theorem mem_settle {answer b : Answer α ε} :
    b ∈ (s.settle answer).answers ↔ b ∈ s.answers ∨ (0 < s.waiting ∧ b = answer) := by
  unfold ReadableStream.settle
  rw [List.mem_append, List.mem_replicate, Nat.pos_iff_ne_zero]

theorem close_spec (hs : Sound highWater s) (hcan : s.canEnqueue = true) :
    ∃ t, s.close = some t ∧ Sound highWater t ∧ t.passed = s.passed ∧ t.closeRequested = true ∧
      t.cancelled = s.cancelled ∧ (∀ e, t.status ≠ .errored e) ∧ t.started = s.started ∧
      t.pulling = s.pulling ∧ t.shouldPull highWater = false := by
  obtain ⟨hreadable, hopen⟩ := canEnqueue_iff.mp hcan
  have hdone : .done ∉ s.answers := fun h => by
    have := hs.done h
    rw [hreadable] at this
    cases this
  have herror : ∀ e, .error e ∉ s.answers := fun e h => by
    have := hs.error e h
    rw [hreadable] at this
    cases this
  unfold ReadableStream.close
  rw [if_pos hcan]
  split
  · rename_i hqueue
    refine ⟨_, rfl, ⟨⟨nofun, fun _ => hqueue, fun _ => rfl, fun e h => ?_, fun _ _ => rfl, fun _ => nofun,
      fun _ => rfl⟩, nofun⟩, settle_passed _ rfl, rfl, rfl, nofun, rfl, rfl, rfl⟩
    obtain h | ⟨-, h⟩ := mem_settle.mp h
    · exact absurd h (herror e)
    · cases h
  · rename_i hqueue
    have hstop : ({ s with closeRequested := true } : ReadableStream α ε).shouldPull highWater = false := by
      simp [ReadableStream.shouldPull, ReadableStream.canEnqueue]
    refine ⟨_, rfl, ⟨{ hs.toSteady with
      waiting := fun h => absurd (hs.waiting h).2 hqueue
      asked := fun h => ?_
      requested := fun _ _ => hqueue }, fun h => ?_⟩, rfl, rfl, rfl, fun e h => ?_, rfl, rfl, hstop⟩
    · rw [hreadable] at h
      cases h
    · rw [hstop] at h
      cases h
    · rw [hreadable] at h
      cases h

/-- Over, by an error or by the consumer: the queue is dropped and the reads that wait
    are told. -/
theorem error_spec (hs : Sound highWater s) (e : ε) :
    Sound highWater (s.error e) ∧ (s.error e).passed <+: s.passed ∧
      (s.error e).canEnqueue = false ∧ (s.error e).closeRequested = s.closeRequested ∧
      (s.error e).cancelled = s.cancelled ∧ (s.error e).started = s.started ∧
      (s.error e).pulling = s.pulling ∧
      ((s.error e).status = .errored e ∨ (s.status ≠ .readable ∧ (s.error e).status = s.status)) := by
  unfold ReadableStream.error
  split
  · rename_i hreadable
    have hstatus : s.status = .readable := by
      unfold Status.isReadable at hreadable
      split at hreadable
      · assumption
      · cases hreadable
    refine ⟨⟨⟨nofun, fun _ => rfl, fun h => ?_, fun d h => ?_, nofun, fun _ => nofun, fun h => ?_⟩, nofun⟩, ?_,
      rfl, rfl, rfl, rfl, rfl, .inl rfl⟩
    · obtain h | ⟨-, h⟩ := mem_settle.mp h
      · have := hs.done h
        rw [hstatus] at this
        cases this
      · cases h
    · obtain h | ⟨-, h⟩ := mem_settle.mp h
      · have := hs.error d h
        rw [hstatus] at this
        cases this
      · cases h
        rfl
    · have := hs.left h
      rw [hstatus] at this
      cases this
    · rw [settle_passed _ rfl]
      exact (List.prefix_append_right_inj _).mpr List.nil_prefix
  · rename_i hreadable
    refine ⟨hs, List.prefix_rfl, ?_, rfl, rfl, rfl, rfl, .inr ⟨fun h => ?_, rfl⟩⟩
    · unfold ReadableStream.canEnqueue
      simp [hreadable]
    · rw [h] at hreadable
      exact hreadable rfl

theorem isReadable_iff {status : Status ε} : status.isReadable = true ↔ status = .readable := by
  cases status <;> simp [Status.isReadable]

theorem cancel_spec (hs : Sound highWater s) :
    Sound highWater s.cancel.1 ∧ s.cancel.1.passed <+: s.passed ∧ s.cancel.1.canEnqueue = false ∧
      s.cancel.1.closeRequested = s.closeRequested ∧ s.cancel.1.started = s.started ∧
      s.cancel.1.pulling = s.pulling ∧
      ((s.cancel.2 = true ∧ s.cancel.1.cancelled = true) ∨
        (s.cancel.2 = false ∧ s.cancel.1 = s ∧ s.status ≠ .readable)) := by
  unfold ReadableStream.cancel
  split
  · rename_i hreadable
    have hstatus := isReadable_iff.mp hreadable
    refine ⟨⟨⟨nofun, fun _ => rfl, fun _ => rfl, fun e h => ?_, nofun, fun _ => nofun, fun _ => rfl⟩, nofun⟩, ?_,
      rfl, rfl, rfl, rfl, .inl ⟨rfl, rfl⟩⟩
    · obtain h | ⟨-, h⟩ := mem_settle.mp h
      · have := hs.error e h
        rw [hstatus] at this
        cases this
      · cases h
    · rw [settle_passed _ rfl]
      exact (List.prefix_append_right_inj _).mpr List.nil_prefix
  · rename_i hreadable
    have hstatus : s.status ≠ .readable := fun h => hreadable (isReadable_iff.mpr h)
    refine ⟨hs, List.prefix_rfl, ?_, rfl, rfl, rfl, .inr ⟨rfl, rfl, hstatus⟩⟩
    unfold ReadableStream.canEnqueue
    simp [hreadable]

theorem read_spec (hs : Sound highWater s) (h : s.read highWater = (t, call)) :
    Sound highWater t ∧ Kept s t ∧ t.started = s.started ∧ Called highWater s t call := by
  unfold ReadableStream.read at h
  split at h
  · rename_i hstatus
    cases h
    have hstop : ∀ answers, ({ s with answers := answers } : ReadableStream α ε).shouldPull highWater = false :=
      fun _ => by simp [ReadableStream.shouldPull, ReadableStream.canEnqueue, hstatus, Status.isReadable]
    refine ⟨⟨{ hs.toSteady with
      done := fun _ => hstatus
      error := fun e h => hs.error e (by simpa using h) }, hs.pulls⟩,
      ⟨?_, rfl, rfl, rfl, .inl rfl⟩, rfl, nofun, fun _ => rfl, fun _ hagain => hagain⟩
    simp [ReadableStream.passed, ReadableStream.delivered, Answer.chunk?]
  · rename_i e hstatus
    cases h
    refine ⟨⟨{ hs.toSteady with
      done := fun h => hs.done (by simpa using h)
      error := fun d h => ?_ }, hs.pulls⟩,
      ⟨?_, rfl, rfl, rfl, .inl rfl⟩, rfl, nofun, fun _ => rfl, fun _ hagain => hagain⟩
    · rw [List.mem_append, List.mem_singleton] at h
      obtain h | h := h
      · exact hs.error d h
      · cases h
        exact hstatus
    · simp [ReadableStream.passed, ReadableStream.delivered, Answer.chunk?]
  · rename_i hstatus
    split at h
    · rename_i hqueue
      have hsteady : Steady { s with waiting := s.waiting + 1 } :=
        { hs with
          waiting := fun _ => ⟨canEnqueue_iff.mpr ⟨hstatus, by
            by_contra hrequested
            exact hs.requested (by simpa using hrequested) (isReadable_iff.mpr hstatus) hqueue⟩, hqueue⟩ }
      refine ⟨callPull_sound hsteady h, ?_, (callPull_same h).started, called_of_callPull h rfl rfl⟩
      exact Kept.same (t := { s with waiting := s.waiting + 1 }) ⟨rfl, rfl, rfl, rfl, .inl rfl⟩
        (callPull_same h)
    · rename_i a rest hqueue
      have hidle : ¬ 0 < s.waiting := fun hwaiting => by
        have := (hs.waiting hwaiting).2
        rw [hqueue] at this
        cases this
      -- The chunk passes from the queue to the answers.
      have hpassed : ∀ u : ReadableStream α ε, u.queue = rest → u.answers = s.answers ++ [Answer.chunk a] →
          u.passed = s.passed := by
        intro u hrest hanswers
        unfold ReadableStream.passed ReadableStream.delivered
        rw [hrest, hanswers, hqueue]
        simp [Answer.chunk?]
      simp only at h
      split at h
      · rename_i hlast
        cases h
        rw [Bool.and_eq_true, List.isEmpty_iff] at hlast
        obtain ⟨hrequested, rfl⟩ := hlast
        refine ⟨⟨{ hs.toSteady with
          waiting := fun h => absurd h hidle
          emptied := fun _ => rfl
          done := fun _ => rfl
          error := fun e h => ?_
          asked := fun _ _ => hrequested
          requested := fun _ => nofun
          left := fun _ => rfl }, nofun⟩, ⟨hpassed _ rfl rfl, ?_, rfl, rfl, .inr ⟨hstatus, hrequested, rfl⟩⟩, rfl,
          nofun, fun _ => rfl, fun _ _ => nofun⟩
        · have := hs.error e (by simpa using h)
          rw [hstatus] at this
          cases this
        · simp [ReadableStream.canEnqueue, hrequested]
      · rename_i hlast
        have hsteady : Steady { s with queue := rest, answers := s.answers ++ [Answer.chunk a] } :=
          { hs.toSteady with
            waiting := fun h => absurd h hidle
            emptied := fun h => by
              rw [hstatus] at h
              cases h
            done := fun h => hs.done (by simpa using h)
            error := fun e h => hs.error e (by simpa using h)
            requested := fun hrequested _ hempty => by
              rw [Bool.and_eq_true, List.isEmpty_iff] at hlast
              exact hlast ⟨hrequested, hempty⟩ }
        refine ⟨callPull_sound hsteady h, ?_, (callPull_same h).started, called_of_callPull h rfl rfl⟩
        exact Kept.same (t := { s with queue := rest, answers := s.answers ++ [Answer.chunk a] })
          ⟨hpassed _ rfl rfl, rfl, rfl, rfl, .inl rfl⟩ (callPull_same h)

theorem read_errored (h : s.status = .errored e) :
    (s.read highWater).1.answers = s.answers ++ [.error e] := by
  unfold ReadableStream.read
  rw [h]

end operations

end ReadableStreams
