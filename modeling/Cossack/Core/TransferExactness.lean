import Cossack.Core.StorageTransfer

/-! # Sized transfers are exact

    The invariant accounts for every chunk of the source: it is passed on, held by the
    pull algorithm, or the stream is over. -/

namespace Cossack.Core.StorageTransfer

open Cossack.Core.SignedStorage (StorageError)
open ReadableStreams
open Runs

/-! ## Section 1: The invariant -/

/-- The answer of the source that the pull algorithm has not dealt with. -/
def Held (t : Transfer) (rest : List Item) : Prop :=
  match t.pull with
  | .resumed item => rest = [item] ∨ (item = .done ∧ rest = [] ∧ t.finished = true)
  | .reporting chunk => rest = [.bytes chunk]
  | _ => rest = []

/-- The bytes that are counted and not passed on yet. -/
def Pull.counted : Pull → Nat
  | .reporting chunk => chunk.length
  | _ => 0

/-- A transfer whose stream takes chunks. -/
structure Live (n : Nat) (t : Transfer) : Prop where
  given : ∃ rest, Held t rest ∧ t.given = t.stream.passed.map .bytes ++ rest
  transferred : t.transferred = t.stream.passed.flatten.length + t.pull.counted
  within : t.transferred ≤ n
  ended : t.ended = false
  aborted : t.aborted = true → t.finished = true
  disposed : t.disposed = true → t.finished = true
  closed : t.source = .closed → t.finished = true ∨ t.pull = .resumed .done
  failed : t.source = .failed → t.pull = .resumed .failed

/-- The stream of a transfer that has got all it should, when it is closed. -/
def Complete (n : Nat) (t : Transfer) : Prop :=
  t.stream.passed.flatten.length = n ∧
    (t.given = t.stream.passed.map .bytes ++ [.done] ∨
      t.finished = true ∧ t.given = t.stream.passed.map .bytes)

/-- What holds of the stream and of the source however the transfer ends. -/
structure Bounded (n : Nat) (t : Transfer) : Prop where
  expected : t.expected = some n
  sound : Sound 1 t.stream
  released : t.released ≤ 1 ∧ (t.source = .readable → t.released = 0)
  order : t.stream.passed.map .bytes <+: t.given
  within : t.stream.passed.flatten.length ≤ n

structure Accounted (n : Nat) (t : Transfer) : Prop extends Bounded n t where
  reading : t.pull = .reading → t.source = .readable
  stopped : t.cancelled = true → t.source ≠ .readable
  halted : t.stream.canEnqueue = false → t.stream.closeRequested = false → t.cancelled = true
  left : t.stream.cancelled = true → t.cancelled = true
  ended : t.stream.closeRequested = true → t.ended = true ∧ t.disposed = true ∧
    (t.pull = .idle ∨ t.pull = .settled) ∧ (∀ e, t.stream.status ≠ .errored e) ∧
    (t.stream.cancelled = false → Complete n t)
  live : t.stream.canEnqueue = true → Live n t

structure Sized (n : Nat) (t : Transfer) : Prop extends Accounted n t where
  pulling : t.stream.pulling = true ↔ t.pull ≠ .idle
  due : t.pull = .settled → t.stream.shouldPull 1 = true → t.stream.pullAgain = true

/-! ## Section 2: The source is cancelled -/

section cancelReader

variable (t : Transfer)

@[simp] theorem cancelReader_stream : t.cancelReader.stream = t.stream := by
  unfold Transfer.cancelReader; split <;> rfl
@[simp] theorem cancelReader_expected : t.cancelReader.expected = t.expected := by
  unfold Transfer.cancelReader; split <;> rfl
@[simp] theorem cancelReader_aborted : t.cancelReader.aborted = t.aborted := by
  unfold Transfer.cancelReader; split <;> rfl
@[simp] theorem cancelReader_transferred : t.cancelReader.transferred = t.transferred := by
  unfold Transfer.cancelReader; split <;> rfl
@[simp] theorem cancelReader_ended : t.cancelReader.ended = t.ended := by
  unfold Transfer.cancelReader; split <;> rfl
@[simp] theorem cancelReader_disposed : t.cancelReader.disposed = t.disposed := by
  unfold Transfer.cancelReader; split <;> rfl
@[simp] theorem cancelReader_finished : t.cancelReader.finished = t.finished := by
  unfold Transfer.cancelReader; split <;> rfl
@[simp] theorem cancelReader_given : t.cancelReader.given = t.given := by
  unfold Transfer.cancelReader; split <;> rfl
@[simp] theorem cancelReader_cancelled : t.cancelReader.cancelled = true := by
  unfold Transfer.cancelReader; split <;> rfl

@[simp] theorem cancelReader_source : t.cancelReader.source ≠ .readable := by
  unfold Transfer.cancelReader
  split
  · nofun
  · assumption

theorem cancelReader_released (h : t.released ≤ 1 ∧ (t.source = .readable → t.released = 0)) :
    t.cancelReader.released ≤ 1 := by
  unfold Transfer.cancelReader
  split
  · rename_i hsource
    show t.released + 1 ≤ 1
    rw [h.2 hsource]
  · exact h.1

/-- A read of the source that is pending resolves. -/
theorem cancelReader_pull (h : t.pull = .reading → t.source = .readable) :
    (t.pull = .reading ∧ t.cancelReader.pull = .resumed .done) ∨
      (t.pull ≠ .reading ∧ t.cancelReader.pull = t.pull) := by
  unfold Transfer.cancelReader
  split
  · by_cases hreading : t.pull = .reading
    · exact .inl ⟨hreading, if_pos hreading⟩
    · exact .inr ⟨hreading, if_neg hreading⟩
  · rename_i hsource
    exact .inr ⟨fun hreading => hsource (h hreading), rfl⟩

theorem cancelReader_failed (h : t.cancelReader.source = .failed) : t.source = .failed := by
  unfold Transfer.cancelReader at h
  split at h
  · cases h
  · exact h

end cancelReader

theorem dispose_cancelReader (t : Transfer) : t.dispose.cancelReader = t.cancelReader.dispose := by
  unfold Transfer.cancelReader Transfer.dispose
  cases t.source <;> rfl

/-! ## Section 3: The stream is over -/

section halting

variable {n : Nat} {t : Transfer}

/-- With the source cancelled, a stream that is over needs no more accounts. -/
theorem Bounded.closing (h : Bounded n t) {u : ReadableStream Bytes StorageError} (pull : Pull) (disposed : Bool)
    (hsound : Sound 1 u) (hpassed : u.passed <+: t.stream.passed) (hover : u.canEnqueue = false)
    (hended : u.closeRequested = true → t.ended = true ∧ disposed = true ∧
      (pull = .idle ∨ pull = .settled) ∧ (∀ e, u.status ≠ .errored e) ∧ u.cancelled = true)
    (hpull : pull ≠ .reading) (hpulling : u.pulling = true ↔ pull ≠ .idle) :
    Sized n { t.cancelReader with stream := u, pull := pull, disposed := disposed } where
  expected := (cancelReader_expected t).trans h.expected
  sound := hsound
  released := ⟨cancelReader_released t h.released, fun hsource => absurd hsource (cancelReader_source t)⟩
  order := by
    show _ <+: t.cancelReader.given
    rw [cancelReader_given]
    exact (hpassed.map _).trans h.order
  within := by
    refine le_trans ?_ h.within
    obtain ⟨rest, hrest⟩ := hpassed
    show u.passed.flatten.length ≤ _
    rw [← hrest, List.flatten_append, List.length_append]
    omega
  reading := fun hreading => absurd hreading hpull
  stopped := fun _ => cancelReader_source t
  halted := fun _ _ => cancelReader_cancelled t
  left := fun _ => cancelReader_cancelled t
  ended := fun hrequested => by
    obtain ⟨hend, hdisposed, hidle, herror, hleft⟩ := hended hrequested
    refine ⟨(cancelReader_ended t).trans hend, hdisposed, hidle, herror, fun hkept => ?_⟩
    rw [hleft] at hkept
    cases hkept
  live := fun hcan => by
    rw [hover] at hcan
    cases hcan
  pulling := hpulling
  due := fun _ hshould => by
    unfold ReadableStream.shouldPull at hshould
    rw [hover] at hshould
    cases hshould

/-- The catch block of a pull. -/
theorem fail_sized (h : Bounded n t) (e : StorageError) (hpulling : t.stream.pulling = true)
    (hopen : t.stream.closeRequested = false) : Sized n (t.fail e) := by
  obtain ⟨hsound, hpassed, hover, hrequested, -, -, hpull, -⟩ := error_spec h.sound e
  unfold Transfer.fail
  rw [dispose_cancelReader]
  show Sized n { t.cancelReader with
    stream := t.cancelReader.stream.error e, pull := .settled, disposed := true }
  rw [cancelReader_stream]
  refine h.closing .settled true hsound hpassed hover (fun hclosing => ?_) nofun ?_
  · rw [hrequested, hopen] at hclosing
    cases hclosing
  · rw [hpull, hpulling]
    simp

theorem cancelReader_idle (h : t.pull = .reading → t.source = .readable) :
    t.cancelReader.pull ≠ .reading ∧ (t.cancelReader.pull = .idle ↔ t.pull = .idle) := by
  obtain ⟨hreading, hpull⟩ | ⟨hreading, hpull⟩ := cancelReader_pull t h
  · rw [hpull, hreading]
    exact ⟨nofun, nofun, nofun⟩
  · rw [hpull]
    exact ⟨hreading, Iff.rfl⟩

/-- The listener of the signal. -/
theorem abort_sized (h : Bounded n t) (hreading : t.pull = .reading → t.source = .readable)
    (hopen : t.stream.closeRequested = false) (hpulling : t.stream.pulling = true ↔ t.pull ≠ .idle) :
    Sized n t.abort := by
  obtain ⟨hsound, hpassed, hover, hrequested, -, -, hpull, -⟩ := error_spec h.sound abortedError
  obtain ⟨hnotReading, hidle⟩ := cancelReader_idle hreading
  unfold Transfer.abort
  rw [dispose_cancelReader]
  show Sized n { t.cancelReader with
    stream := t.cancelReader.stream.error abortedError, pull := t.cancelReader.pull, disposed := true }
  rw [cancelReader_stream]
  refine h.closing t.cancelReader.pull true hsound hpassed hover (fun hclosing => ?_) hnotReading ?_
  · rw [hrequested, hopen] at hclosing
    cases hclosing
  · rw [hpull, hpulling, Ne, Ne, hidle]

theorem start_sized (n : Nat) (aborted : Bool) : Sized n (.start (some n) aborted) := by
  have hfresh : ∀ aborted, Bounded n
      ⟨some n, aborted, .readable, false, 0, .idle, 0, false, false, false, .new, []⟩ :=
    fun _ => ⟨rfl, sound_new, ⟨Nat.zero_le _, fun _ => rfl⟩, List.prefix_rfl, Nat.zero_le _⟩
  unfold Transfer.start
  cases aborted with
  | false =>
    refine ⟨⟨hfresh false, nofun, nofun, nofun, nofun, nofun, fun _ => ?_⟩, ⟨nofun, fun h => absurd rfl h⟩, nofun⟩
    exact ⟨⟨[], rfl, rfl⟩, rfl, Nat.zero_le _, rfl, nofun, nofun, nofun, nofun⟩
  | true =>
    exact abort_sized (hfresh true) nofun rfl ⟨nofun, fun h => absurd rfl h⟩

end halting

/-! ## Section 4: What the consumer and the callers do -/

section acts

variable {n : Nat} {t : Transfer} {u : ReadableStream Bytes StorageError} {call : Bool}

/-- An operation of the stream that keeps what passes through it. -/
theorem Accounted.kept (h : Accounted n t) (hkept : Kept t.stream u) (hsound : Sound 1 u) :
    Accounted n { t with stream := u } where
  expected := h.expected
  sound := hsound
  released := h.released
  order := by
    rw [hkept.passed]
    exact h.order
  within := by
    rw [hkept.passed]
    exact h.within
  reading := h.reading
  stopped := h.stopped
  halted := fun hover hopen => h.halted (hkept.canEnqueue ▸ hover) (hkept.closeRequested ▸ hopen)
  left := fun hleft => h.left (hkept.cancelled ▸ hleft)
  ended := fun hrequested => by
    obtain ⟨hend, hdisposed, hidle, herror, hcomplete⟩ := h.ended (hkept.closeRequested ▸ hrequested)
    refine ⟨hend, hdisposed, hidle, fun e he => ?_, fun hleft => ?_⟩
    · obtain hsame | ⟨-, -, hclosed⟩ := hkept.status
      · exact herror e (hsame ▸ he)
      · rw [hclosed] at he
        cases he
    · unfold Complete
      rw [hkept.passed]
      exact hcomplete (hkept.cancelled ▸ hleft)
  live := fun hcan => by
    have hlive := h.live (hkept.canEnqueue ▸ hcan)
    exact { hlive with
      given := by
        rw [hkept.passed]
        exact hlive.given
      transferred := by
        rw [hkept.passed]
        exact hlive.transferred }

/-- The pull algorithm is called. -/
theorem read_sized (h : Accounted n t) (hidle : t.pull = .idle) (hpulling : t.stream.pulling = true)
    (hcan : t.stream.canEnqueue = true) : Sized n t.read := by
  have hlive := h.live hcan
  have hgiven : t.given = t.stream.passed.map .bytes := by
    obtain ⟨rest, hheld, hgiven⟩ := hlive.given
    unfold Held at hheld
    rw [hidle] at hheld
    rw [hgiven, hheld, List.append_nil]
  have hcount : t.transferred = t.stream.passed.flatten.length := by
    have := hlive.transferred
    rw [hidle] at this
    exact this
  have hopen : t.stream.closeRequested = false := (canEnqueue_iff.mp hcan).2
  have hrequested : t.stream.closeRequested = true → ∀ P : Prop, P := fun hno _ => by
    rw [hopen] at hno
    cases hno
  -- A pull that waits for an answer of the source.
  have hwaits : ∀ pull : Pull, pull ≠ .idle → pull ≠ .settled → pull.counted = 0 →
      (pull = .reading → t.source = .readable) → Held { t with pull := pull } [] →
      (t.source = .closed → t.finished = true ∨ pull = .resumed .done) → t.source ≠ .failed →
      Sized n { t with pull := pull } := by
    intro pull hpull hsettled hcounted hreading hheld hclosed hfailed
    refine ⟨{ h with
      reading := hreading
      ended := fun hno => hrequested hno _
      live := fun _ => { hlive with
        given := ⟨[], hheld, by rw [hgiven, List.append_nil]⟩
        transferred := by
          show t.transferred = _ + pull.counted
          rw [hcounted, hcount, Nat.add_zero]
        closed := hclosed
        failed := fun hno => absurd hno hfailed } }, ?_, fun hno => absurd hno hsettled⟩
    show t.stream.pulling = true ↔ pull ≠ .idle
    simp [hpulling, hpull]
  unfold Transfer.read
  split
  · exact fail_sized h.toBounded _ hpulling hopen
  · split
    · rename_i hsource
      exact hwaits .reading nofun nofun rfl (fun _ => hsource) rfl (by simp [hsource]) (by simp [hsource])
    · rename_i hsource
      -- The source is closed under a pull that has not asked it: `finish` has cancelled it.
      have hfinished : t.finished = true := (hlive.closed hsource).resolve_right (by simp [hidle])
      exact hwaits (.resumed .done) nofun nofun rfl nofun (.inr ⟨rfl, rfl, hfinished⟩) (fun _ => .inr rfl)
        (by simp [hsource])
    · rename_i hsource
      have := hlive.failed hsource
      rw [hidle] at this
      cases this

/-- An operation of the stream, with the pull algorithm where it calls it. -/
theorem calls_sized (h : Accounted n t) (hkept : Kept t.stream u) (hsound : Sound 1 u)
    (hcall : call = true → t.pull = .idle ∧ u.pulling = true ∧ t.stream.canEnqueue = true)
    (hidle : call = false → (u.pulling = true ↔ t.pull ≠ .idle))
    (hdue : t.pull = .settled → u.shouldPull 1 = true → u.pullAgain = true) :
    Sized n (t.calls (u, call)) := by
  have hkeeps := h.kept hkept hsound
  unfold Transfer.calls
  cases call with
  | true =>
    obtain ⟨hpull, hpulling, hcan⟩ := hcall rfl
    exact read_sized hkeeps hpull hpulling (hkept.canEnqueue.trans hcan)
  | false => exact ⟨hkeeps, hidle rfl, hdue⟩

/-- A pull is called when none is in flight. -/
theorem Sized.idle (h : Sized n t) (hcalled : Called 1 t.stream u call) (htrue : call = true) :
    t.pull = .idle := by
  by_contra hbusy
  have := (hcalled.yes htrue).2.1
  rw [h.pulling.mpr hbusy] at this
  cases this

theorem Sized.called (h : Sized n t) (hkept : Kept t.stream u) (hsound : Sound 1 u)
    (hcalled : Called 1 t.stream u call) : Sized n (t.calls (u, call)) := by
  refine calls_sized h.toAccounted hkept hsound (fun htrue => ?_) (fun hfalse => ?_) (fun hsettled => ?_)
  · obtain ⟨hcan, -, hpulls⟩ := hcalled.yes htrue
    exact ⟨h.idle hcalled htrue, hpulls, hcan⟩
  · rw [hcalled.no hfalse]
    exact h.pulling
  · exact hcalled.again (h.pulling.mpr (by simp [hsettled])) (h.due hsettled)

theorem readAct_sized (h : Sized n t) : Sized n (t.act .read) := by
  rcases hread : t.stream.read 1 with ⟨u, call⟩
  obtain ⟨hsound, hkept, -, hcalled⟩ := read_spec h.sound hread
  show Sized n (t.calls (t.stream.read 1))
  rw [hread]
  exact h.called hkept hsound hcalled

theorem cancelAct_sized (h : Sized n t) : Sized n (t.act .cancel) := by
  obtain ⟨hsound, hpassed, hover, hrequested, -, hpull, hcases⟩ := cancel_spec h.sound
  unfold Transfer.act
  obtain ⟨hcalled, hleft⟩ | ⟨hcalled, hsame, -⟩ := hcases
  · simp only [hcalled, if_true]
    rw [dispose_cancelReader]
    obtain ⟨hreading, hidle⟩ := cancelReader_idle h.reading
    have hsized := h.toBounded.closing t.cancelReader.pull true hsound hpassed hover
      (fun hclosing => ?_) hreading ?_
    · have heq : ({ t with stream := t.stream.cancel.1 } : Transfer).cancelReader.dispose =
          { t.cancelReader with
            stream := t.stream.cancel.1, pull := t.cancelReader.pull, disposed := true } := by
        unfold Transfer.cancelReader Transfer.dispose
        cases t.source <;> rfl
      rw [heq]
      exact hsized
    · rw [hrequested] at hclosing
      obtain ⟨hend, -, hpulls, herror, -⟩ := h.ended hclosing
      refine ⟨hend, rfl, ?_, fun e he => ?_, hleft⟩
      · obtain ⟨hreads, -⟩ | ⟨-, hkeeps⟩ := cancelReader_pull t h.reading
        · rw [hreads] at hpulls
          exact (hpulls.elim nofun nofun)
        · rw [hkeeps]
          exact hpulls
      · have := hsound.left hleft
        rw [he] at this
        cases this
    · rw [hpull, h.pulling, Ne, Ne, hidle]
  · simp only [hcalled, Bool.false_eq_true, if_false, hsame]
    exact h

theorem abortAct_sized (h : Sized n t) : Sized n (t.act .abort) := by
  show Sized n (if t.aborted then t else
    if t.disposed then { t with aborted := true } else { t with aborted := true }.abort)
  split
  · exact h
  · split
    · rename_i hdisposed
      exact { h with
        ended := h.ended
        live := fun hcan => { h.live hcan with aborted := fun _ => (h.live hcan).disposed hdisposed } }
    · rename_i hlistens
      -- The listener is there until the end of the source is seen.
      have hopen : t.stream.closeRequested = false := by
        by_contra hrequested
        exact hlistens (h.ended (by simpa using hrequested)).2.1
      exact abort_sized { h with } h.reading hopen h.pulling

/-- The source of a live transfer is cancelled by `finish`. -/
theorem live_finished (h : Live n t) (hreading : t.pull = .reading → t.source = .readable) :
    Live n { t.cancelReader with disposed := true, finished := true } := by
  have hpull := cancelReader_pull t hreading
  obtain ⟨rest, hheld, hgiven⟩ := h.given
  refine ⟨⟨rest, ?_, ?_⟩, ?_, ?_, ?_, fun _ => rfl, fun _ => rfl, fun _ => .inl rfl, fun hfailed => ?_⟩
  · unfold Held at hheld ⊢
    obtain ⟨hreads, hdone⟩ | ⟨-, hkeeps⟩ := hpull
    · rw [hreads] at hheld
      simp only [hdone]
      exact .inr ⟨trivial, hheld, trivial⟩
    · simp only [hkeeps]
      split at hheld
      · exact hheld.imp id fun hdone => ⟨hdone.1, hdone.2.1, trivial⟩
      · exact hheld
      · exact hheld
  · show t.cancelReader.given = t.cancelReader.stream.passed.map _ ++ rest
    rw [cancelReader_given, cancelReader_stream, hgiven]
  · show t.cancelReader.transferred = t.cancelReader.stream.passed.flatten.length + t.cancelReader.pull.counted
    rw [cancelReader_transferred, cancelReader_stream, h.transferred]
    obtain ⟨hreads, hdone⟩ | ⟨-, hkeeps⟩ := hpull
    · rw [hreads, hdone]
      rfl
    · rw [hkeeps]
  · exact (cancelReader_transferred t).trans_le h.within
  · exact (cancelReader_ended t).trans h.ended
  · have hsource := cancelReader_failed t hfailed
    obtain ⟨hreads, -⟩ | ⟨-, hkeeps⟩ := hpull
    · rw [hreading hreads] at hsource
      cases hsource
    · exact hkeeps.trans (h.failed hsource)

theorem finishAct_sized (h : Sized n t) : Sized n (t.act .finish) := by
  show Sized n (if t.ended then { t.dispose with finished := true }
    else { t.dispose with finished := true }.cancelReader)
  split
  · rename_i hend
    refine { h with
      ended := fun hrequested => ?_
      live := fun hcan => ?_ }
    · obtain ⟨-, -, hidle, herror, hcomplete⟩ := h.ended hrequested
      exact ⟨hend, rfl, hidle, herror, fun hleft => ⟨(hcomplete hleft).1, (hcomplete hleft).2.imp id
        fun hgiven => ⟨rfl, hgiven.2⟩⟩⟩
    · have := (h.live hcan).ended
      rw [hend] at this
      cases this
  · rename_i hend
    have heq : { t.dispose with finished := true }.cancelReader =
        { t.cancelReader with disposed := true, finished := true } := by
      unfold Transfer.cancelReader Transfer.dispose
      cases t.source <;> rfl
    rw [heq]
    obtain ⟨hreading, hidle⟩ := cancelReader_idle h.reading
    have hpull := cancelReader_pull t h.reading
    exact {
      expected := (cancelReader_expected t).trans h.expected
      sound := (cancelReader_stream t).symm ▸ h.sound
      released := ⟨cancelReader_released t h.released, fun hsource => absurd hsource (cancelReader_source t)⟩
      order := by
        show t.cancelReader.stream.passed.map _ <+: t.cancelReader.given
        rw [cancelReader_stream, cancelReader_given]
        exact h.order
      within := (cancelReader_stream t).symm ▸ h.within
      reading := fun hno => absurd hno hreading
      stopped := fun _ => cancelReader_source t
      halted := fun _ _ => cancelReader_cancelled t
      left := fun _ => cancelReader_cancelled t
      ended := fun hrequested => absurd (h.ended ((cancelReader_stream t) ▸ hrequested)).1 hend
      live := fun hcan => by
        have hlive := h.live ((cancelReader_stream t) ▸ hcan)
        exact live_finished hlive h.reading
      pulling := by
        show t.cancelReader.stream.pulling = true ↔ t.cancelReader.pull ≠ .idle
        rw [cancelReader_stream, h.pulling, Ne, Ne, hidle]
      due := fun hsettled => by
        obtain ⟨-, hno⟩ | ⟨-, hkeeps⟩ := hpull
        · exact nomatch hno.symm.trans hsettled
        · show t.cancelReader.stream.shouldPull 1 = true → t.cancelReader.stream.pullAgain = true
          rw [cancelReader_stream]
          exact h.due (hkeeps.symm.trans hsettled) }

theorem act_sized (h : Sized n t) (a : Act) : Sized n (t.act a) := by
  cases a with
  | read => exact readAct_sized h
  | cancel => exact cancelAct_sized h
  | abort => exact abortAct_sized h
  | finish => exact finishAct_sized h

theorem calls_pull (hcall : call = true → t.pull = .idle) :
    t.pull ≠ .idle → (t.calls (u, call)).pull = t.pull := by
  intro hbusy
  unfold Transfer.calls
  cases call with
  | true => exact absurd (hcall rfl) hbusy
  | false => rfl

/-- A chunk that is reported is held until the callback has returned. -/
theorem act_reporting (h : Sized n t) {chunk : Bytes} (hpull : t.pull = .reporting chunk) (a : Act) :
    (t.act a).pull = .reporting chunk := by
  have hcancel : ∀ t : Transfer, t.pull = .reporting chunk → t.cancelReader.pull = .reporting chunk := by
    intro t hpull
    unfold Transfer.cancelReader
    split
    · simp [hpull]
    · exact hpull
  cases a with
  | read =>
    rcases hread : t.stream.read 1 with ⟨u, call⟩
    obtain ⟨-, -, -, hcalled⟩ := read_spec h.sound hread
    show (t.calls (t.stream.read 1)).pull = _
    rw [hread, calls_pull (h.idle hcalled) (by simp [hpull]), hpull]
  | cancel =>
    show (if t.stream.cancel.2 then _ else _ : Transfer).pull = _
    split
    · exact hcancel _ hpull
    · exact hpull
  | abort =>
    show (if t.aborted then t else if t.disposed then _ else _ : Transfer).pull = _
    split
    · exact hpull
    · split
      · exact hpull
      · exact hcancel _ hpull
  | finish =>
    show (if t.ended then _ else _ : Transfer).pull = _
    split
    · exact hpull
    · exact hcancel _ hpull

theorem acts_sized {chunk : Bytes} (h : Sized n t) (hpull : t.pull = .reporting chunk) (during : List Act) :
    Sized n (during.foldl Transfer.act t) ∧ (during.foldl Transfer.act t).pull = .reporting chunk := by
  induction during generalizing t with
  | nil => exact ⟨h, hpull⟩
  | cons a during ih => exact ih (act_sized h a) (act_reporting h hpull a)

end acts

/-! ## Section 5: The pull algorithm goes on -/

section resume

variable {n : Nat} {t : Transfer} {item : Item}

/-- A pull that has its answer runs, and the stream has not been closed. -/
theorem Sized.running (h : Sized n t) (hidle : t.pull ≠ .idle) (hsettled : t.pull ≠ .settled) :
    t.stream.pulling = true ∧ t.stream.closeRequested = false := by
  refine ⟨h.pulling.mpr hidle, ?_⟩
  by_contra hrequested
  obtain ⟨-, -, hpull, -⟩ := h.ended (by simpa using hrequested)
  exact hpull.elim hidle hsettled

/-- The source has no more: the stream is closed when all bytes have come. -/
theorem finishSource_sized (h : Sized n t) (hpull : t.pull = .resumed .done) :
    Sized n t.finishSource := by
  obtain ⟨hpulling, hopen⟩ := h.running (by simp [hpull]) (by simp [hpull])
  have hbounded : Bounded n ({ t with ended := true } : Transfer).dispose := { h with }
  unfold Transfer.finishSource
  simp only
  split
  · exact fail_sized hbounded _ hpulling hopen
  · rename_i hexact
    have hcount : t.transferred = n := by
      by_contra hne
      apply hexact
      show (t.expected.isSome && decide (t.expected ≠ some t.transferred)) = true
      rw [h.expected]
      simpa using fun heq => hne heq.symm
    by_cases hcan : t.stream.canEnqueue = true
    · obtain ⟨u, hclose, hsound, hpassed, hrequested, hcancelled, herror, -, hpulls, hstop⟩ :=
        close_spec h.sound hcan
      have hlive := h.live hcan
      rw [show ({ t with ended := true } : Transfer).dispose.stream = t.stream from rfl, hclose]
      have hover : u.canEnqueue = false := by
        unfold ReadableStream.canEnqueue
        simp [hrequested]
      exact {
        expected := h.expected
        sound := hsound
        released := h.released
        order := hpassed ▸ h.order
        within := hpassed ▸ h.within
        reading := nofun
        stopped := h.stopped
        halted := fun _ hno => nomatch hrequested.symm.trans hno
        left := fun hleft => h.left (hcancelled ▸ hleft)
        ended := fun _ => by
          refine ⟨rfl, rfl, .inr rfl, herror, fun _ => ?_⟩
          obtain ⟨rest, hheld, hgiven⟩ := hlive.given
          have hlength := hlive.transferred
          rw [hcount, hpull] at hlength
          unfold Held at hheld
          rw [hpull] at hheld
          refine ⟨by rw [hpassed]; exact hlength.symm, ?_⟩
          rw [hpassed]
          obtain rfl | ⟨-, rfl, hfinished⟩ := hheld
          · exact .inl hgiven
          · exact .inr ⟨hfinished, by rw [← List.append_nil (List.map _ _)]; exact hgiven⟩
        live := fun hno => nomatch hover.symm.trans hno
        pulling := by
          show u.pulling = true ↔ _
          rw [hpulls, hpulling]
          simp
        due := fun _ hshould => nomatch hstop.symm.trans hshould }
    · have hclose : t.stream.close = none := if_neg hcan
      rw [show ({ t with ended := true } : Transfer).dispose.stream = t.stream from rfl, hclose]
      exact fail_sized hbounded _ hpulling hopen

/-- The chunk of a transfer that is live is held no longer when it is in the stream. -/
theorem enqueue_sized (h : Sized n t) {chunk : Bytes} (hpull : t.pull = .reporting chunk)
    (hcan : t.stream.canEnqueue = true) :
    ∃ r, t.stream.enqueue 1 chunk = some r ∧ Sized n { t with stream := r.1, pull := .settled } := by
  obtain ⟨hpulling, hopen⟩ := h.running (by simp [hpull]) (by simp [hpull])
  obtain ⟨u, henqueue, hsound, hpassed, hcanU, hrequested, hcancelled, hstatus, -, hpulls, hagain⟩ :=
    enqueue_spec h.sound hcan hpulling (a := chunk)
  have hlive := h.live hcan
  have hgiven : t.given = u.passed.map .bytes := by
    obtain ⟨rest, hheld, hgiven⟩ := hlive.given
    unfold Held at hheld
    rw [hpull] at hheld
    rw [hgiven, hheld, hpassed, List.map_append]
    rfl
  have hcount : t.transferred = u.passed.flatten.length := by
    have := hlive.transferred
    rw [hpull] at this
    rw [this, hpassed, List.flatten_append, List.length_append, List.flatten_singleton]
    rfl
  refine ⟨(u, false), henqueue, ?_⟩
  exact {
    expected := h.expected
    sound := hsound
    released := h.released
    order := by
      show u.passed.map .bytes <+: t.given
      exact hgiven ▸ List.prefix_rfl
    within := hcount ▸ hlive.within
    reading := nofun
    stopped := h.stopped
    halted := fun hno => nomatch hcanU.symm.trans hno
    left := fun hleft => h.left (hcancelled ▸ hleft)
    ended := fun hno => nomatch (hrequested.trans hopen).symm.trans hno
    live := fun _ => { hlive with
      given := ⟨[], rfl, by rw [List.append_nil]; exact hgiven⟩
      transferred := hcount
      closed := fun hclosed => .inl ((hlive.closed hclosed).resolve_right (by simp [hpull]))
      failed := fun hfailed => nomatch hpull.symm.trans (hlive.failed hfailed) }
    pulling := by
      show u.pulling = true ↔ _
      rw [hpulls]
      simp
    due := fun _ => hagain }

theorem receive_sized (h : Sized n t) {chunk : Bytes} (hpull : t.pull = .resumed (.bytes chunk))
    (during : List Act) (outcome : Outcome) : Sized n (t.receive chunk during outcome) := by
  obtain ⟨hpulling, hopen⟩ := h.running (by simp [hpull]) (by simp [hpull])
  unfold Transfer.receive
  simp only
  split
  · exact fail_sized (t := { t with transferred := t.transferred + chunk.length }) { h with } _ hpulling hopen
  · rename_i hfits
    have hwithin : t.transferred + chunk.length ≤ n := by
      rw [h.expected] at hfits
      simpa using hfits
    have hreports : Sized n { t with transferred := t.transferred + chunk.length, pull := .reporting chunk } :=
      { h with
        reading := nofun
        ended := fun hno => nomatch hopen.symm.trans hno
        live := fun hcan => by
          have hlive := h.live hcan
          obtain ⟨rest, hheld, hgiven⟩ := hlive.given
          have hlength := hlive.transferred
          unfold Held at hheld
          rw [hpull] at hheld hlength
          exact { hlive with
            given := ⟨rest, hheld.resolve_right (fun hno => nomatch hno.1), hgiven⟩
            transferred := by
              show t.transferred + chunk.length = _ + chunk.length
              rw [hlength]
              rfl
            within := hwithin
            closed := fun hclosed => .inl ((hlive.closed hclosed).resolve_right (by simp [hpull]))
            failed := fun hfailed => nomatch hpull.symm.trans (hlive.failed hfailed) }
        pulling := by
          show t.stream.pulling = true ↔ _
          rw [hpulling]
          simp
        due := nofun }
    obtain ⟨hsized, hreporting⟩ := acts_sized hreports rfl during
    obtain ⟨hruns, hstays⟩ := hsized.running (by simp [hreporting]) (by simp [hreporting])
    cases outcome with
    | throws error => exact fail_sized hsized.toBounded _ hruns hstays
    | returns =>
      by_cases hcan : (during.foldl Transfer.act
          { t with transferred := t.transferred + chunk.length, pull := .reporting chunk }).stream.canEnqueue = true
      · obtain ⟨r, henqueue, hnext⟩ := enqueue_sized hsized hreporting hcan
        simp only [henqueue]
        exact hnext
      · have hthrows : (during.foldl Transfer.act
            { t with transferred := t.transferred + chunk.length, pull := .reporting chunk }).stream.enqueue 1 chunk =
              none := if_neg hcan
        simp only [hthrows]
        exact fail_sized hsized.toBounded _ hruns hstays

theorem resume_sized (h : Sized n t) (hpull : t.pull = .resumed item) (during : List Act) (outcome : Outcome) :
    Sized n (t.resume item during outcome) := by
  obtain ⟨hpulling, hopen⟩ := h.running (by simp [hpull]) (by simp [hpull])
  have hfails : ∀ e, Sized n (t.fail e) := fun e => fail_sized h.toBounded e hpulling hopen
  unfold Transfer.resume
  cases item with
  | failed => exact hfails _
  | done =>
    simp only
    split
    · exact hfails _
    · exact finishSource_sized h hpull
  | other =>
    simp only
    split
    · exact hfails _
    · exact hfails _
  | bytes chunk =>
    simp only
    split
    · exact hfails _
    · exact receive_sized h hpull during outcome

end resume

/-! ## Section 6: Runs -/

section runs

variable {n : Nat} {aborted : Bool} {t u : Transfer}

/-- The source answers the read that is pending. -/
theorem source_sized (h : Sized n t) (hpull : t.pull = .reading) (item : Item) :
    Sized n { t with source := item.leaves, given := t.given ++ [item], pull := .resumed item } := by
  obtain ⟨hpulling, hopen⟩ := h.running (by simp [hpull]) (by simp [hpull])
  have hsource := h.reading hpull
  have hkept : t.cancelled = false := by
    by_contra hcancelled
    exact h.stopped (by simpa using hcancelled) hsource
  exact { h with
    released := ⟨h.released.1, fun _ => h.released.2 hsource⟩
    order := h.order.trans (List.prefix_append ..)
    reading := nofun
    stopped := fun hno => nomatch hkept.symm.trans hno
    ended := fun hno => nomatch hopen.symm.trans hno
    live := fun hcan => by
      have hlive := h.live hcan
      obtain ⟨rest, hheld, hgiven⟩ := hlive.given
      have hlength := hlive.transferred
      unfold Held at hheld
      rw [hpull] at hheld hlength
      exact { hlive with
        given := ⟨[item], .inl rfl, by rw [hgiven, hheld, List.append_nil]⟩
        transferred := hlength
        closed := fun hclosed => by
          cases item with
          | done => exact .inr rfl
          | _ => cases hclosed
        failed := fun hfailed => by
          cases item with
          | failed => rfl
          | _ => cases hfailed }
    pulling := by
      show t.stream.pulling = true ↔ _
      rw [hpulling]
      simp
    due := nofun }

theorem started_sized (h : Sized n t) : Sized n (t.calls (t.stream.start 1)) := by
  rcases hstart : t.stream.start 1 with ⟨u, call⟩
  obtain ⟨hsound, hkept, -, hcalled⟩ := start_spec h.sound hstart
  exact h.called hkept hsound hcalled

/-- The promise of the pull algorithm is seen to settle. -/
theorem pulled_sized (h : Sized n t) (hpull : t.pull = .settled) :
    Sized n ({ t with pull := .idle }.calls (t.stream.pulled 1)) := by
  rcases hpulled : t.stream.pulled 1 with ⟨u, call⟩
  obtain ⟨hsound, hkept, -, hpulls, hcan⟩ := pulled_spec h.sound (h.due hpull) hpulled
  have hidle : Accounted n { t with pull := .idle } :=
    { h with
      reading := nofun
      ended := fun hrequested => by
        obtain ⟨hend, hdisposed, -, hrest⟩ := h.ended hrequested
        exact ⟨hend, hdisposed, .inl rfl, hrest⟩
      live := fun hcan => by
        have hlive := h.live hcan
        obtain ⟨rest, hheld, hgiven⟩ := hlive.given
        have hlength := hlive.transferred
        unfold Held at hheld
        rw [hpull] at hheld hlength
        exact { hlive with
          given := ⟨rest, hheld, hgiven⟩
          transferred := hlength
          closed := fun hclosed => .inl ((hlive.closed hclosed).resolve_right (by simp [hpull]))
          failed := fun hfailed => nomatch hpull.symm.trans (hlive.failed hfailed) } }
  refine calls_sized hidle hkept hsound (fun htrue => ⟨rfl, hpulls.trans htrue, hcan htrue⟩) (fun hfalse => ?_) nofun
  rw [hpulls, hfalse]
  simp

theorem step_sized {event : Event} (h : Sized n t) (hstep : step t event = some u) : Sized n u := by
  cases event with
  | act a =>
    cases hstep
    exact act_sized h a
  | started =>
    simp only [step] at hstep
    split at hstep
    · cases hstep
    · cases hstep
      exact started_sized h
  | source item =>
    simp only [step] at hstep
    split at hstep
    · rename_i hpull
      cases hstep
      exact source_sized h hpull item
    · cases hstep
  | resume during outcome =>
    simp only [step] at hstep
    split at hstep
    · rename_i item hpull
      cases hstep
      exact resume_sized h hpull during outcome
    · cases hstep
  | pulled =>
    simp only [step] at hstep
    split at hstep
    · rename_i hpull
      cases hstep
      exact pulled_sized h hpull
    · cases hstep

theorem run_sized (h : Run step Free (.start (some n) aborted) t) : Sized n t :=
  h.invariant (start_sized n aborted) fun _ _ _ hsized _ hstep => step_sized hsized hstep

/-- No callback runs between two steps. -/
def Quiet (t : Transfer) : Prop := ∀ chunk, t.pull ≠ .reporting chunk

theorem cancelReader_quiet (h : Quiet t) : Quiet t.cancelReader := by
  unfold Transfer.cancelReader
  split
  · intro chunk
    simp only
    split
    · nofun
    · exact h chunk
  · exact h

theorem calls_quiet (h : Quiet t) (r : ReadableStream Bytes StorageError × Bool) : Quiet (t.calls r) := by
  unfold Transfer.calls Transfer.read
  split
  · split
    · exact nofun
    · split <;> exact nofun
  · exact h

theorem act_quiet (h : Quiet t) (a : Act) : Quiet (t.act a) := by
  cases a with
  | read => exact calls_quiet h _
  | cancel =>
    show Quiet (if t.stream.cancel.2 then _ else _)
    split
    · exact cancelReader_quiet h
    · exact h
  | abort =>
    show Quiet (if t.aborted then t else if t.disposed then _ else _)
    split
    · exact h
    · split
      · exact h
      · exact cancelReader_quiet (t := ({ t with aborted := true } : Transfer).dispose) h
  | finish =>
    show Quiet (if t.ended then _ else _)
    split
    · exact h
    · exact cancelReader_quiet (t := { t.dispose with finished := true }) h

theorem resume_settled (item : Item) (during : List Act) (outcome : Outcome) :
    (t.resume item during outcome).pull = .settled := by
  unfold Transfer.resume
  cases item with
  | failed => rfl
  | done =>
    simp only
    split
    · rfl
    · unfold Transfer.finishSource
      simp only
      split
      · rfl
      · split <;> rfl
  | other =>
    simp only
    split <;> rfl
  | bytes chunk =>
    simp only
    split
    · rfl
    · unfold Transfer.receive
      simp only
      split
      · rfl
      · cases outcome with
        | throws error => rfl
        | returns =>
          simp only
          split <;> rfl

theorem step_quiet {event : Event} (h : Quiet t) (hstep : step t event = some u) : Quiet u := by
  cases event with
  | act a =>
    cases hstep
    exact act_quiet h a
  | started =>
    simp only [step] at hstep
    split at hstep
    · cases hstep
    · cases hstep
      exact calls_quiet h _
  | source item =>
    simp only [step] at hstep
    split at hstep
    · cases hstep
      exact nofun
    · cases hstep
  | resume during outcome =>
    simp only [step] at hstep
    split at hstep
    · cases hstep
      intro chunk
      rw [resume_settled]
      nofun
    · cases hstep
  | pulled =>
    simp only [step] at hstep
    split at hstep
    · cases hstep
      exact calls_quiet (t := { t with pull := .idle }) (fun _ hno => nomatch hno) _
    · cases hstep

theorem run_quiet (h : Run step Free (.start (some n) aborted) t) : Quiet t := by
  refine h.invariant ?_ fun _ _ _ hquiet _ hstep => step_quiet hquiet hstep
  cases aborted with
  | false =>
    intro chunk hno
    cases hno
  | true =>
    intro chunk hno
    cases hno

end runs

/-! ## Section 7: What the consumer sees -/

/-- The source has given the bytes of an object of the size, or the first of them. -/
def Fits (n : Nat) (given : List Item) : Prop :=
  ∃ chunks : List Bytes, (chunks.flatten.length ≤ n ∧ given = chunks.map .bytes) ∨
    (chunks.flatten.length = n ∧ given = chunks.map .bytes ++ [.done])

/-- The transfer of an object of `n` bytes, whatever the source gives, when the signal
    aborts and in whatever order the consumer reads. -/
structure Exact (n : Nat) (t : Transfer) : Prop where
  /-- What the consumer has is what the source gave first. -/
  order : t.stream.delivered.map .bytes <+: t.given
  within : t.stream.delivered.flatten.length ≤ n
  /-- A consumer that has not cancelled sees the end when it has all bytes and no others. -/
  ended : .done ∈ t.stream.answers → t.stream.cancelled = false → t.stream.delivered.flatten.length = n ∧
    (t.given = t.stream.delivered.map .bytes ++ [.done] ∨
      t.finished = true ∧ t.given = t.stream.delivered.map .bytes)
  /-- Anything else the source does and an abort before its end are seen as an error. -/
  otherwise : t.stream.cancelled = false → (∀ item, t.pull ≠ .resumed item) →
    (¬ Fits n t.given ∨ t.aborted = true ∧ t.finished = false ∧ t.ended = false) →
    ∃ e, t.stream.status = .errored e
  /-- With an error all reads are answered, and by it, and the source is cancelled, once. -/
  failed : ∀ e, t.stream.status = .errored e → t.cancelled = true ∧ t.source ≠ .readable ∧
    t.stream.waiting = 0 ∧ (t.act .read).stream.answers = t.stream.answers ++ [.error e]
  left : t.stream.cancelled = true → t.source ≠ .readable
  released : t.released ≤ 1
  /-- The errors that the consumer has seen are that of the stream. -/
  seen : ∀ e, .error e ∈ t.stream.answers → t.stream.status = .errored e
  /-- A read that waits waits for the source, or a promise is about to be seen to settle. -/
  waits : 0 < t.stream.waiting → t.pull = .reading ∨
    ∃ event u, step t event = some u ∧ (event = .started ∨ event = .pulled ∨ event = .resume [] .returns)

section exactness

variable {n : Nat} {aborted : Bool} {t : Transfer}

theorem Sized.otherwise (h : Sized n t) (hleft : t.stream.cancelled = false)
    (hpull : ∀ item, t.pull ≠ .resumed item) (hquiet : Quiet t)
    (hfault : ¬ Fits n t.given ∨ t.aborted = true ∧ t.finished = false ∧ t.ended = false) :
    ∃ e, t.stream.status = .errored e := by
  by_contra hnone
  -- The end has been seen, and is as it should be.
  have hexact : t.stream.closeRequested = true → False := fun hrequested => by
    obtain ⟨hend, -, -, -, hcomplete⟩ := h.ended hrequested
    obtain ⟨hlength, hgiven⟩ := hcomplete hleft
    obtain hunfit | ⟨-, -, hno⟩ := hfault
    · refine hunfit ⟨t.stream.passed, ?_⟩
      obtain hdone | ⟨-, hfinished⟩ := hgiven
      · exact .inr ⟨hlength, hdone⟩
      · exact .inl ⟨hlength.le, hfinished⟩
    · rw [hend] at hno
      cases hno
  cases hstatus : t.stream.status with
  | errored e => exact hnone ⟨e, hstatus⟩
  | closed => exact hexact (h.sound.asked hstatus hleft)
  | readable =>
    by_cases hrequested : t.stream.closeRequested = true
    · exact hexact hrequested
    have hlive := h.live (canEnqueue_iff.mpr ⟨hstatus, by simpa using hrequested⟩)
    obtain hunfit | ⟨haborted, hno, -⟩ := hfault
    · obtain ⟨rest, hheld, hgiven⟩ := hlive.given
      have hrest : rest = [] := by
        unfold Held at hheld
        split at hheld
        · rename_i hresumed
          exact absurd hresumed (hpull _)
        · rename_i hreporting
          exact absurd hreporting (hquiet _)
        · exact hheld
      refine hunfit ⟨t.stream.passed, .inl ⟨h.within, ?_⟩⟩
      rw [hgiven, hrest, List.append_nil]
    · rw [hlive.aborted haborted] at hno
      cases hno

theorem Sized.waits (h : Sized n t) (hquiet : Quiet t) (hwaiting : 0 < t.stream.waiting) :
    t.pull = .reading ∨ ∃ event u, step t event = some u ∧
      (event = .started ∨ event = .pulled ∨ event = .resume [] .returns) := by
  by_cases hstarted : t.stream.started = true
  · have hshould : t.stream.shouldPull 1 = true := by
      unfold ReadableStream.shouldPull
      simp [(h.sound.waiting hwaiting).1, hstarted, hwaiting]
    have hbusy := h.pulling.mp (h.sound.pulls hshould)
    cases hpull : t.pull with
    | idle => exact absurd hpull hbusy
    | reading => exact .inl rfl
    | resumed item => exact .inr ⟨.resume [] .returns, _, by rw [step, hpull], .inr (.inr rfl)⟩
    | reporting chunk => exact absurd hpull (hquiet chunk)
    | settled => exact .inr ⟨.pulled, _, by rw [step, if_pos hpull], .inr (.inl rfl)⟩
  · exact .inr ⟨.started, _, by rw [step, if_neg hstarted], .inl rfl⟩

theorem Sized.exact (h : Sized n t) (hquiet : Quiet t) : Exact n t where
  order := ((delivered_le t.stream).map _).trans h.order
  within := by
    refine le_trans ?_ h.within
    unfold ReadableStream.passed
    rw [List.flatten_append, List.length_append]
    omega
  ended hdone hleft := by
    have hclosed := h.sound.done hdone
    obtain ⟨-, -, -, -, hcomplete⟩ := h.ended (h.sound.asked hclosed hleft)
    have hall : t.stream.passed = t.stream.delivered := by
      unfold ReadableStream.passed
      rw [h.sound.emptied (by rw [hclosed]; rfl), List.append_nil]
    have := hcomplete hleft
    unfold Complete at this
    rwa [hall] at this
  otherwise hleft hpull hfault := h.otherwise hleft hpull hquiet hfault
  failed e he := by
    have hover : t.stream.canEnqueue = false := by
      unfold ReadableStream.canEnqueue
      rw [he]
      rfl
    have hcancelled : t.cancelled = true := by
      refine h.halted hover ?_
      by_contra hrequested
      exact (h.ended (by simpa using hrequested)).2.2.2.1 e he
    refine ⟨hcancelled, h.stopped hcancelled, ?_, ?_⟩
    · by_contra hwaiting
      have := (h.sound.waiting (by omega)).1
      rw [hover] at this
      cases this
    · show (t.calls (t.stream.read 1)).stream.answers = _
      have hcall : (t.stream.read 1).2 = false := by
        unfold ReadableStream.read
        rw [he]
      unfold Transfer.calls
      rw [hcall]
      exact read_errored he
  left hleft := h.stopped (h.left hleft)
  released := h.released.1
  seen := h.sound.error
  waits := h.waits hquiet

/-- Sized transfers are exact in every run. -/
theorem transfer_exact (h : Run step Free (.start (some n) aborted) t) : Exact n t :=
  (run_sized h).exact (run_quiet h)

/-- Two bytes in three chunks, the first of which is read while a read waits. -/
def sampleEvents : List Event :=
  [.started, .source (.bytes [0x68]), .act .read, .resume [.read] .returns, .pulled,
   .source (.bytes []), .resume [] .returns, .pulled, .source (.bytes [0x69]), .resume [] .returns,
   .pulled, .act .read, .source .done, .act .read, .resume [] .returns]

theorem transfer_exact_sample :
    ∃ t, exec step (.start (some 2) false) sampleEvents = some t ∧
      t.stream.answers = [.chunk [0x68], .chunk [], .chunk [0x69], .done] ∧ Exact 2 t :=
  ⟨_, rfl, rfl, @transfer_exact 2 false _ (run_of_exec rfl (admits_free _ sampleEvents))⟩

end exactness

end Cossack.Core.StorageTransfer
