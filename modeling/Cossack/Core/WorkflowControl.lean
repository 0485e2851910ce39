import Cossack.Core.LocalWorkflow
import Cossack.Lib.Runs

/-! # Control of a local workflow

    A readiness check is stale until the operation that passed it has acted on
    it, and the instance has one slot for the resolver of a parked operation.
    Where no pause or termination meets a stale check and no two operations are
    parked, control is kept. -/

namespace Cossack.Core.Workflows

open Runs

variable {P : Type}

/-! ## Section 1: What is to be shown -/

/-- The last control applied is a pause or a termination. -/
def halted : List Action → Bool
  | [] => false
  | .applied .resume :: _ => false
  | .applied _ :: _ => true
  | .started .. :: rest => halted rest

/-- What is promised of control, in one state of a run. -/
structure Controlled (s : Instance P) : Prop where
  terminated : ∀ later earlier, s.log = later ++ .applied .terminate :: earlier →
    s.status = .terminated ∧ ∀ i attempt, .started i attempt ∉ later
  paused : ∀ later earlier, s.log = later ++ .applied .pause :: earlier →
    .applied .resume ∉ later → ∀ i attempt, .started i attempt ∉ later
  /-- An operation is parked by a pause only, and a resume lets it go on. -/
  resumed : ∀ i after, s.phase i = .parked after → s.status = .paused ∧
    ∃ s', step s (.control .resume) = some s' ∧ s'.phase i = .woken after ∧
      ∃ s'', step s' (.resume i) = some s'' ∧
        s''.phase i = if s.aborted then .refused after else .passed after

/-- A check was passed, and the status or the body that follows is still to come. -/
def Phase.stale : Phase P → Bool
  | .passed .value => false
  | .passed _ | .scheduled _ => true
  | _ => false

/-- The operation goes on with a readiness check. -/
def Phase.checks : Phase P → Bool
  | .created | .woken _ | .settled _ true => true
  | _ => false

def Instance.NoneParked (s : Instance P) : Prop := ∀ i after, s.phase i ≠ .parked after

/-- No pause or termination meets a stale check, and no operation parks while
    another is parked. -/
def Orderly (s : Instance P) : Event P → Prop
  | .control .pause | .control .terminate => ∀ i, (s.phase i).stale = false
  | .call _ => s.status = .paused → s.NoneParked
  | .resume i => (s.phase i).checks → s.status = .paused → s.NoneParked
  | _ => True

/-! ## Section 2: Phases -/

@[simp] theorem phase_goto_self (s : Instance P) (i : Nat) (phase : Phase P) :
    (s.goto i phase).phase i = phase := by
  show (Function.update s.operations i _ i).phase = phase
  rw [Function.update_self]

theorem phase_goto_ne (s : Instance P) {i j : Nat} (h : j ≠ i) (phase : Phase P) :
    (s.goto i phase).phase j = s.phase j := by
  show (Function.update s.operations i _ j).phase = s.phase j
  rw [Function.update_of_ne h]
  rfl

theorem wakeUp_parked {s : Instance P} {i : Nat} {after : After} (hwake : s.wake = some i)
    (hphase : s.phase i = .parked after) : s.wakeUp = s.goto i (.woken after) := by
  unfold Instance.wakeUp
  rw [hwake]
  simp only
  rw [hphase]

/-- Only the operation in the slot is woken. -/
theorem phase_wakeUp (s : Instance P) (j : Nat) :
    (∃ after, s.wake = some j ∧ s.phase j = .parked after ∧ s.wakeUp.phase j = .woken after) ∨
      s.wakeUp.phase j = s.phase j ∧ ∀ after, s.phase j = .parked after → s.wake ≠ some j := by
  by_cases hslot : ∃ i after, s.wake = some i ∧ s.phase i = .parked after
  · obtain ⟨i, after, hwake, hphase⟩ := hslot
    rw [wakeUp_parked hwake hphase]
    by_cases hj : j = i
    · subst hj
      exact .inl ⟨after, hwake, hphase, phase_goto_self ..⟩
    · refine .inr ⟨phase_goto_ne s hj _, fun _ _ hsame => hj ?_⟩
      exact Option.some.inj (hsame.symm.trans hwake)
  · have hsame : s.wakeUp = s := by
      unfold Instance.wakeUp
      split
      · rfl
      · next i hwake =>
        split
        · next after hphase => exact absurd ⟨i, after, hwake, hphase⟩ hslot
        · rfl
    rw [hsame]
    exact .inr ⟨rfl, fun after hphase hwake => hslot ⟨j, after, hwake, hphase⟩⟩

theorem phase_wakeUp_congr {s t : Instance P} (hwake : s.wake = t.wake)
    (hoperations : s.operations = t.operations) (j : Nat) : s.wakeUp.phase j = t.wakeUp.phase j := by
  have hphase : ∀ i, s.phase i = t.phase i := fun i => by
    show (s.operations i).phase = (t.operations i).phase
    rw [hoperations]
  rcases phase_wakeUp s j with ⟨after, hslot, hparked, hwoken⟩ | ⟨hsame, hslot⟩
  · have hgoto := wakeUp_parked (hwake.symm.trans hslot) ((hphase j).symm.trans hparked)
    rw [hwoken, hgoto, phase_goto_self]
  · rcases phase_wakeUp t j with ⟨after, hslot', hparked, -⟩ | ⟨hsame', -⟩
    · exact absurd (hwake.trans hslot') (hslot after ((hphase j).trans hparked))
    · rw [hsame, hsame', hphase j]

/-- Nothing but the phase of an operation changes. -/
theorem wakeUp_eq (s : Instance P) : ∃ operations, s.wakeUp = { s with operations := operations } := by
  unfold Instance.wakeUp
  split
  · exact ⟨_, rfl⟩
  · split
    · exact ⟨_, rfl⟩
    · exact ⟨_, rfl⟩

/-! ## Section 3: The invariant -/

/-- A body starts while nothing is halted, and nothing is applied after a
    termination. -/
def Logged : List Action → Prop
  | [] => True
  | .started .. :: rest => halted rest = false ∧ Logged rest
  | .applied _ :: rest => .applied .terminate ∉ rest ∧ Logged rest

structure Inv (s : Instance P) : Prop where
  fresh : halted s.log = true → ∀ i, (s.phase i).stale = false
  held : halted s.log = true → s.status = .paused ∨ s.aborted = true
  paused : s.status = .paused → halted s.log = true
  previous : s.previous ≠ some .paused
  terminated : .applied .terminate ∈ s.log → s.status = .terminated ∧ halted s.log = true
  parked : ∀ i after, s.phase i = .parked after → s.status = .paused ∧ s.wake = some i
  logged : Logged s.log

section steps

variable {s : Instance P} {i : Nat}

/-- An operation that acts on its check does so while nothing is held. -/
theorem Inv.loose (h : Inv s) (hstale : (s.phase i).stale = true) : halted s.log = false := by
  by_contra hb
  rw [h.fresh (Bool.not_eq_false _ ▸ hb) i] at hstale
  cases hstale

theorem Inv.noneParked (h : Inv s) (hstatus : s.status ≠ .paused) : s.NoneParked :=
  fun i after hphase => hstatus (h.parked i after hphase).1

theorem Inv.goto (h : Inv s) {phase : Phase P} (hparked : ∀ after, phase ≠ .parked after)
    (hstale : phase.stale = true → halted s.log = false) : Inv (s.goto i phase) := by
  refine ⟨fun hhalted j => ?_, h.held, h.paused, h.previous, h.terminated, fun j after hj => ?_,
    h.logged⟩
  · by_cases hij : j = i
    · subst hij
      rw [phase_goto_self]
      by_contra hs
      have hloose := hstale (Bool.not_eq_false _ ▸ hs)
      rw [show halted s.log = true from hhalted] at hloose
      cases hloose
    · rw [phase_goto_ne s hij]
      exact h.fresh hhalted j
  · by_cases hij : j = i
    · subst hij
      rw [phase_goto_self] at hj
      exact absurd hj (hparked after)
    · rw [phase_goto_ne s hij] at hj
      exact h.parked j after hj

theorem Inv.ready (h : Inv s) (hnone : s.status = .paused → s.NoneParked) (after : After) :
    Inv (s.ready i after) := by
  unfold Instance.ready
  by_cases hpaused : s.status = .paused
  · rw [if_pos hpaused]
    refine ⟨fun hhalted j => ?_, h.held, h.paused, h.previous, h.terminated, fun j after' hj => ?_,
      h.logged⟩
    · by_cases hij : j = i
      · subst hij
        show ((s.goto j (.parked after)).phase j).stale = false
        rw [phase_goto_self]
        rfl
      · show ((s.goto i (.parked after)).phase j).stale = false
        rw [phase_goto_ne s hij]
        exact h.fresh hhalted j
    · by_cases hij : j = i
      · exact ⟨hpaused, by rw [hij]⟩
      · change (s.goto i (.parked after)).phase j = .parked after' at hj
        rw [phase_goto_ne s hij] at hj
        exact absurd hj (hnone hpaused j after')
  · rw [if_neg hpaused]
    by_cases haborted : s.aborted = true
    · rw [if_pos haborted]
      exact h.goto (fun _ => nofun) fun hs => absurd hs Bool.false_ne_true
    · rw [if_neg haborted]
      refine h.goto (fun _ => nofun) fun _ => ?_
      by_contra hb
      exact (h.held (Bool.not_eq_false _ ▸ hb)).elim hpaused haborted

/-- A status is written while nothing is held. -/
theorem Inv.write (h : Inv s) (hloose : halted s.log = false) (status : WorkflowStatus)
    (hstatus : status ≠ .paused) (executing : Bool) (events : String → List P)
    (waiters : String → Option Nat) :
    Inv { s with
      status := status, executing := executing, events := events, waiters := waiters } := by
  have hheld : halted s.log ≠ true := by
    rw [hloose]
    exact nofun
  refine ⟨fun hhalted => absurd hhalted hheld, fun hhalted => absurd hhalted hheld,
    fun hpaused => absurd hpaused hstatus, h.previous, fun hmem => ?_, fun j after hj => ?_, h.logged⟩
  · exact absurd (h.terminated hmem).2 hheld
  · exact absurd (h.paused (h.parked j after hj).1) hheld

/-- The events and the waiters are no part of it. -/
theorem Inv.store (h : Inv s) (events : String → List P) (waiters : String → Option Nat) :
    Inv { s with events := events, waiters := waiters } :=
  ⟨h.fresh, h.held, h.paused, h.previous, h.terminated, h.parked, h.logged⟩

/-- An operation ends, or goes on to something that is no check. -/
theorem Inv.leave (h : Inv s) (phase : Phase P) (hparked : ∀ after, phase ≠ .parked after)
    (hstale : phase.stale = false) : Inv (s.goto i phase) :=
  h.goto hparked fun hs => absurd (hstale.symm.trans hs) Bool.false_ne_true

theorem Inv.finish (h : Inv s) : Inv (s.goto i .ended) := h.leave .ended (fun _ => nofun) rfl

/-- The resolver in the slot is called: what was parked goes on. -/
theorem Inv.wakeUp (h : Inv s) (status : WorkflowStatus) (aborted : Bool) (log : List Action)
    (hstatus : status ≠ .paused) (haborted : halted log = true → aborted = true)
    (hfresh : halted log = true → ∀ j, (s.phase j).stale = false)
    (hterminated : .applied .terminate ∈ log → status = .terminated ∧ halted log = true)
    (hlogged : Logged log) {s' : Instance P}
    (hs' : ∃ operations waiters, s' = { s with
      status := status, aborted := aborted, log := log, operations := operations, waiters := waiters })
    (hphase : ∀ j, s'.phase j = s.wakeUp.phase j) : Inv s' := by
  have hparked : s'.NoneParked := by
    intro j after hj
    rw [hphase] at hj
    rcases phase_wakeUp s j with ⟨after', -, -, hwoken⟩ | ⟨hsame, hslot⟩
    · rw [hwoken] at hj
      cases hj
    · rw [hsame] at hj
      exact hslot after hj (h.parked j after hj).2
  have hstale : halted log = true → ∀ j, (s'.phase j).stale = false := by
    intro hhalted j
    rw [hphase]
    rcases phase_wakeUp s j with ⟨after, -, -, hwoken⟩ | ⟨hsame, -⟩
    · rw [hwoken]
      rfl
    · rw [hsame]
      exact hfresh hhalted j
  obtain ⟨operations, waiters, rfl⟩ := hs'
  exact ⟨hstale, fun hhalted => .inr (haborted hhalted), fun hpaused => absurd hpaused hstatus,
    h.previous, hterminated, fun j after hj => absurd hj (hparked j after), hlogged⟩

/-- `stop`, with the status that is written before it. -/
theorem Inv.stop (h : Inv s) (status : WorkflowStatus) (hstatus : status ≠ .paused)
    (hterminated : .applied .terminate ∈ s.log → status = .terminated) :
    Inv ({ s with status := status } : Instance P).stop := by
  obtain ⟨operations, heq⟩ := wakeUp_eq { s with status := status, aborted := true }
  refine h.wakeUp status true s.log hstatus (fun _ => rfl) h.fresh
    (fun hmem => ⟨hterminated hmem, (h.terminated hmem).2⟩) h.logged
    ⟨operations, fun _ => none, congrArg (fun t : Instance P => { t with waiters := fun _ => none }) heq⟩
    fun j => ?_
  exact phase_wakeUp_congr (s := { s with status := status, aborted := true }) (t := s) rfl rfl j

theorem Inv.fail (h : Inv s) : Inv (s.fail i) := by
  unfold Instance.fail
  by_cases hstatus : s.status = .terminated
  · rw [if_neg (not_not.mpr hstatus)]
    exact (h.stop s.status (by rw [hstatus]; exact nofun) fun _ => hstatus).finish
  · rw [if_pos hstatus]
    exact (h.stop .failed nofun fun hmem => absurd (h.terminated hmem).1 hstatus).finish

theorem Inv.stopListening (h : Inv s) : Inv (s.stopListening i) := by
  unfold Instance.stopListening
  split
  · exact (h.store _ _).finish
  · exact h.finish

theorem log_stopListening : (s.stopListening i).log = s.log := by
  unfold Instance.stopListening
  split <;> rfl

/-- An operation acts on a check that nothing was applied since. -/
theorem Inv.proceed (h : Inv s) {after : After} (hphase : s.phase i = .passed after) :
    Inv (s.proceed i after) := by
  have hloose : after ≠ .value → halted s.log = false := by
    intro hvalue
    apply h.loose (i := i)
    rw [hphase]
    cases after <;> first | rfl | exact absurd rfl hvalue
  cases after with
  | start =>
    have hnext : Inv (s.goto i (.awaiting .workflow)) := h.leave _ (fun _ => nofun) rfl
    exact hnext.write (hloose nofun) .running nofun true _ _
  | complete =>
    refine (h.stop .complete nofun fun hmem => ?_).finish
    have hheld := (h.terminated hmem).2
    rw [hloose nofun] at hheld
    cases hheld
  | attempt attempt => exact h.goto (fun _ => nofun) fun _ => hloose nofun
  | value => exact h.finish
  | wait =>
    have hnext : Inv (s.goto i (.awaiting .timer)) := h.leave _ (fun _ => nofun) rfl
    exact hnext.write (hloose nofun) .waiting nofun _ _ _
  | slept =>
    have hnext : Inv (s.goto i .ended) := h.finish
    exact hnext.write (hloose nofun) .running nofun _ _ _
  | listen =>
    unfold Instance.proceed
    simp only
    split
    · split
      · exact h.finish.store _ _
      · split
        · exact h.finish
        · have hnext : Inv (s.goto i (.awaiting (.event none))) := h.leave _ (fun _ => nofun) rfl
          exact hnext.write (hloose nofun) .waiting nofun _ _ _
    · exact h.finish
  | received =>
    refine h.stopListening.write ?_ .running nofun _ _ _
    rw [log_stopListening]
    exact hloose nofun

theorem Inv.refuse (h : Inv s) (after : After) : Inv (s.refuse i after) := by
  cases after with
  | start => exact h.fail
  | complete => exact h.fail
  | received => exact h.stopListening
  | attempt | value | wait | slept | listen => exact h.finish

theorem Inv.settle (h : Inv s) {awaited : Awaited P} {ok : Bool}
    (hnone : ok = true → s.status = .paused → s.NoneParked) : Inv (s.settle i awaited ok) := by
  cases ok with
  | true =>
    cases awaited with
    | workflow | body | delay | timer | event => exact h.ready (hnone rfl) _
  | false =>
    cases awaited with
    | workflow => exact h.fail
    | body attempt =>
      unfold Instance.settle
      simp only
      split
      · split
        · exact h.finish
        · exact h.leave _ (fun _ => nofun) rfl
      · exact h.finish
    | delay | timer => exact h.finish
    | event => exact h.stopListening

/-- A body starts after a check that nothing was applied since. -/
theorem Inv.begin (h : Inv s) {attempt : Nat} (hphase : s.phase i = .scheduled attempt) :
    Inv { s.goto i (.awaiting (.body attempt)) with log := .started i attempt :: s.log } := by
  have hnext : Inv (s.goto i (.awaiting (.body attempt))) := h.leave _ (fun _ => nofun) rfl
  have hloose : halted s.log = false := h.loose (i := i) (by rw [hphase]; rfl)
  refine ⟨hnext.fresh, hnext.held, hnext.paused, hnext.previous, fun hmem => ?_, hnext.parked,
    hloose, h.logged⟩
  exact h.terminated ((List.mem_cons.mp hmem).resolve_left nofun)

theorem Inv.resume (h : Inv s) {s' : Instance P} (hs' : s.resume i = some s')
    (hnone : (s.phase i).checks = true → s.status = .paused → s.NoneParked) : Inv s' := by
  unfold Instance.resume at hs'
  cases hphase : s.phase i with
  | created =>
    rw [hphase] at hs' hnone
    cases hs'
    exact h.ready (hnone rfl) _
  | woken after =>
    rw [hphase] at hs' hnone
    cases hs'
    exact h.ready (hnone rfl) _
  | passed after =>
    rw [hphase] at hs'
    cases hs'
    exact h.proceed hphase
  | refused after =>
    rw [hphase] at hs'
    cases hs'
    exact h.refuse after
  | scheduled attempt =>
    rw [hphase] at hs'
    cases hs'
    exact h.begin hphase
  | settled awaited ok =>
    rw [hphase] at hs' hnone
    cases hs'
    exact h.settle fun hok => hnone (by rw [hok]; rfl)
  | parked after =>
    rw [hphase] at hs'
    cases hs'
  | awaiting awaited =>
    rw [hphase] at hs'
    cases hs'
  | ended =>
    rw [hphase] at hs'
    cases hs'

theorem Inv.sendEvent (h : Inv s) (type : String) (payload : P) :
    Inv ((s.sendEvent type payload).getD s) := by
  unfold Instance.sendEvent
  split
  · exact h
  · split
    · have hnext : Inv (s.removeWaiter type) := h.store _ _
      simp only
      split
      · exact hnext.leave _ (fun _ => nofun) rfl
      · exact hnext
    · split
      · exact h
      · exact h.store _ _

/-- What a resume goes back to. -/
theorem Inv.previous_running (h : Inv s) : s.previous.getD .running ≠ .paused := by
  cases hprevious : s.previous with
  | none => exact nofun
  | some status =>
    rintro rfl
    exact h.previous hprevious

/-- A control that is applied.  A pause or a termination finds no stale check. -/
theorem Inv.control (h : Inv s) {action : ControlAction} {s' : Instance P}
    (hs' : s.control action = some s')
    (hfresh : action ≠ .resume → ∀ j, (s.phase j).stale = false) :
    Inv { s' with log := .applied action :: s'.log } := by
  have hopen : s.status ≠ .terminated := by
    intro hstatus
    unfold Instance.control at hs'
    rw [if_pos (show closed s.status = true by rw [hstatus]; rfl)] at hs'
    cases hs'
  have hnot : .applied .terminate ∉ s.log := fun hmem => hopen (h.terminated hmem).1
  unfold Instance.control at hs'
  split at hs'
  · cases hs'
  · cases action with
    | pause =>
      simp only at hs'
      split at hs'
      · cases hs'
      · next hstatus =>
        cases hs'
        refine ⟨fun _ => hfresh nofun, fun _ => .inl rfl, fun _ => rfl, fun hprevious => ?_,
          fun hmem => ?_, fun j after hj => ?_, hnot, h.logged⟩
        · exact hstatus (Option.some.inj hprevious)
        · exact absurd ((List.mem_cons.mp hmem).resolve_left nofun) hnot
        · exact absurd hj (h.noneParked hstatus j after)
    | resume =>
      simp only at hs'
      split at hs'
      · cases hs'
      · cases hs'
        obtain ⟨operations, heq⟩ := wakeUp_eq { s with status := s.previous.getD .running }
        have hloose : halted (.applied .resume :: s.log) ≠ true := Bool.false_ne_true
        refine h.wakeUp (s.previous.getD .running) s.aborted (.applied .resume :: s.log)
          h.previous_running
          (fun hhalted => absurd hhalted hloose) (fun hhalted => absurd hhalted hloose)
          (fun hmem => ?_) ⟨hnot, h.logged⟩ ⟨operations, s.waiters, by rw [heq]⟩ fun j => ?_
        · exact absurd ((List.mem_cons.mp hmem).resolve_left nofun) hnot
        · exact phase_wakeUp_congr (s := { s with status := s.previous.getD .running }) (t := s)
            rfl rfl j
    | terminate =>
      simp only at hs'
      cases hs'
      obtain ⟨operations, heq⟩ := wakeUp_eq { s with status := .terminated, aborted := true }
      refine h.wakeUp .terminated true (.applied .terminate :: s.log) nofun (fun _ => rfl)
        (fun _ => hfresh nofun) (fun _ => ⟨rfl, rfl⟩) ⟨hnot, h.logged⟩
        ⟨operations, fun _ => none, by unfold Instance.stop; rw [heq]⟩ fun j => ?_
      exact phase_wakeUp_congr (s := { s with status := .terminated, aborted := true }) (t := s)
        rfl rfl j

/-- A step operation is called: it has no phase before its first check. -/
theorem Inv.call (h : Inv s) (kind : Kind) : Inv { s with
    operations := Function.update s.operations s.calls ⟨kind, .ended⟩, calls := s.calls + 1 } := by
  have hphase : ∀ j, (Function.update s.operations s.calls ⟨kind, .ended⟩ j).phase = .ended ∨
      (Function.update s.operations s.calls ⟨kind, .ended⟩ j).phase = s.phase j := by
    intro j
    by_cases hj : j = s.calls
    · subst hj
      rw [Function.update_self]
      exact .inl rfl
    · rw [Function.update_of_ne hj]
      exact .inr rfl
  refine ⟨fun hhalted j => ?_, h.held, h.paused, h.previous, h.terminated, fun j after hj => ?_,
    h.logged⟩
  · show (Function.update s.operations s.calls ⟨kind, .ended⟩ j).phase.stale = false
    rcases hphase j with heq | heq
    · rw [heq]; rfl
    · rw [heq]; exact h.fresh hhalted j
  · change (Function.update s.operations s.calls ⟨kind, .ended⟩ j).phase = .parked after at hj
    rcases hphase j with heq | heq
    · rw [heq] at hj; cases hj
    · rw [heq] at hj; exact h.parked j after hj

end steps

/-! ## Section 4: Runs -/

theorem Inv.initial : Inv (create : Instance P) := by
  have hphase : ∀ i, (create : Instance P).phase i = .created ∨
      (create : Instance P).phase i = .ended := by
    intro i
    show (ite (i = 0) (⟨.run, .created⟩ : Operation P) ⟨.run, .ended⟩).phase = _ ∨
      (ite (i = 0) (⟨.run, .created⟩ : Operation P) ⟨.run, .ended⟩).phase = _
    split
    · exact .inl rfl
    · exact .inr rfl
  refine ⟨nofun, nofun, nofun, nofun, nofun, fun i after hi => ?_, trivial⟩
  rcases hphase i with h | h <;> rw [h] at hi <;> cases hi

theorem Inv.step {s s' : Instance P} (h : Inv s) {event : Event P} (horderly : Orderly s event)
    (hs' : step s event = some s') : Inv s' := by
  cases event with
  | call kind =>
    unfold Workflows.step at hs'
    simp only at hs'
    split at hs'
    · cases hs'
      refine (h.call kind).ready (fun hpaused j after hj => ?_) _
      change (Function.update s.operations s.calls ⟨kind, .ended⟩ j).phase = .parked after at hj
      by_cases hcalls : j = s.calls
      · subst hcalls
        rw [Function.update_self] at hj
        cases hj
      · rw [Function.update_of_ne hcalls] at hj
        exact horderly hpaused j after hj
    · cases hs'
  | resume i => exact h.resume hs' horderly
  | settle i ok =>
    unfold Workflows.step at hs'
    simp only at hs'
    split at hs'
    · split at hs'
      · cases hs'
        exact h.leave _ (fun _ => nofun) rfl
      · cases hs'
    · cases hs'
  | control action =>
    unfold Workflows.step at hs'
    simp only at hs'
    split at hs'
    · cases hs'
      exact h
    · next s₁ hcontrol =>
      cases hs'
      refine h.control hcontrol fun hresume => ?_
      cases action with
      | resume => exact absurd rfl hresume
      | pause => exact horderly
      | terminate => exact horderly
  | sendEvent type payload =>
    cases hs'
    exact h.sendEvent type payload

theorem halted_append {later earlier : List Action} (h : halted earlier = true)
    (hresume : .applied .resume ∉ later) : halted (later ++ earlier) = true := by
  induction later with
  | nil => exact h
  | cons action rest ih =>
    have hrest := ih fun hmem => hresume (List.mem_cons_of_mem _ hmem)
    cases action with
    | started i attempt => exact hrest
    | applied action =>
      cases action with
      | resume => exact absurd (List.mem_cons_self ..) hresume
      | pause => rfl
      | terminate => rfl

/-- After a pause or a termination no body starts before a resume. -/
theorem Logged.not_started {later earlier : List Action} (h : Logged (later ++ earlier))
    (hhalted : halted earlier = true) (hresume : .applied .resume ∉ later) (i attempt : Nat) :
    .started i attempt ∉ later := by
  induction later with
  | nil => exact List.not_mem_nil
  | cons action rest ih =>
    have hrest : .applied .resume ∉ rest := fun hmem => hresume (List.mem_cons_of_mem _ hmem)
    intro hmem
    rcases List.mem_cons.mp hmem with rfl | hlater
    · have hloose : halted (rest ++ earlier) = false := h.1
      rw [halted_append hhalted hrest] at hloose
      cases hloose
    · cases action with
      | started => exact ih h.2 hrest hlater
      | applied => exact ih h.2 hrest hlater

/-- Nothing is applied after a termination. -/
theorem Logged.last {later earlier : List Action}
    (h : Logged (later ++ .applied .terminate :: earlier)) (action : ControlAction) :
    .applied action ∉ later := by
  induction later with
  | nil => exact List.not_mem_nil
  | cons head rest ih =>
    intro hmem
    cases head with
    | started => exact ih h.2 ((List.mem_cons.mp hmem).resolve_left nofun)
    | applied => exact h.1 (List.mem_append_right _ (List.mem_cons_self ..))

theorem resume_woken {s : Instance P} {i : Nat} {after : After} (h : s.phase i = .woken after) :
    s.resume i = some (s.ready i after) := by
  unfold Instance.resume
  rw [h]

/-- An operation that is not parked by its check passes it, or ends with the
    instance. -/
theorem phase_ready (s : Instance P) (i : Nat) (after : After) (h : s.status ≠ .paused) :
    (s.ready i after).phase i = if s.aborted then .refused after else .passed after := by
  unfold Instance.ready
  rw [if_neg h]
  split
  · exact phase_goto_self ..
  · exact phase_goto_self ..

theorem Inv.controlled {s : Instance P} (h : Inv s) : Controlled s where
  terminated later earlier hlog := by
    have hlogged := h.logged
    rw [hlog] at hlogged
    have hmem : .applied .terminate ∈ s.log := by
      rw [hlog]
      exact List.mem_append_right _ (List.mem_cons_self ..)
    exact ⟨(h.terminated hmem).1, hlogged.not_started rfl (hlogged.last .resume)⟩
  paused later earlier hlog hresume := by
    have hlogged := h.logged
    rw [hlog] at hlogged
    exact hlogged.not_started rfl hresume
  resumed i after hphase := by
    obtain ⟨hstatus, hwake⟩ := h.parked i after hphase
    have hcontrol : s.control .resume =
        some (({ s with status := s.previous.getD .running } : Instance P).goto i (.woken after)) := by
      unfold Instance.control
      rw [if_neg (show ¬ closed s.status = true by rw [hstatus]; exact nofun)]
      simp only
      rw [if_neg (not_not.mpr hstatus)]
      exact congrArg some
        (wakeUp_parked (s := { s with status := s.previous.getD .running }) hwake hphase)
    refine ⟨hstatus, { (({ s with status := s.previous.getD .running } : Instance P).goto i
      (.woken after)) with log := .applied .resume :: s.log }, ?_, phase_goto_self .., ?_⟩
    · unfold Workflows.step
      simp only
      rw [hcontrol]
      rfl
    · refine ⟨_, resume_woken (phase_goto_self ..), ?_⟩
      exact phase_ready _ i after h.previous_running

/-- In every run whose pauses and terminations meet no stale check, and which has
    no two operations parked at once, control is kept. -/
theorem control_kept (s : Instance P) (hrun : Run step Orderly create s) : Controlled s := by
  have h : Inv s := hrun.invariant Inv.initial fun _ _ _ h horderly hs' => h.step horderly hs'
  exact h.controlled

/-- A pause parks the step, and the resume lets its body start. -/
def pausedAndResumed : List (Event String) :=
  [.resume 0, .resume 0, .control .pause, .call (.do 0), .control .resume, .resume 1, .resume 1,
    .resume 1]

theorem control_kept_resumed :
    ∃ s, exec step create pausedAndResumed = some s ∧ .started 1 0 ∈ s.log ∧ Controlled s := by
  have hexec : ∃ s, exec step create pausedAndResumed = some s ∧ .started 1 0 ∈ s.log :=
    ⟨_, rfl, List.mem_cons_self ..⟩
  obtain ⟨s, hs, hlog⟩ := hexec
  refine ⟨s, hs, hlog, control_kept s (run_of_exec hs ?_)⟩
  refine ⟨fun _ => nofun, fun _ h₁ => ?_⟩
  cases h₁
  refine ⟨fun _ => nofun, fun _ h₂ => ?_⟩
  cases h₂
  -- only the workflow itself is there when the pause comes, and when the step is called
  refine ⟨fun i => ?_, fun _ h₃ => ?_⟩
  · cases i <;> rfl
  cases h₃
  refine ⟨fun _ i after hi => ?_, fun _ h₄ => ?_⟩
  · cases i <;> cases hi
  cases h₄
  refine ⟨trivial, fun _ h₅ => ?_⟩
  cases h₅
  refine ⟨fun _ => nofun, fun _ h₆ => ?_⟩
  cases h₆
  refine ⟨fun _ => nofun, fun _ h₇ => ?_⟩
  cases h₇
  exact ⟨fun _ => nofun, fun _ _ => trivial⟩

/-- The workflow is terminated between its first check and the status it writes. -/
def terminatedAtCheck : List (Event String) := [.resume 0, .control .terminate, .resume 0]

/-- Two steps are parked by a pause, and one resolver is kept. -/
def parkedTwice : List (Event String) :=
  [.resume 0, .resume 0, .control .pause, .call (.do 0), .call .sleep, .control .resume]

theorem control_lost :
    (∃ s, exec step create terminatedAtCheck = some s ∧ s.status = .running ∧ ¬ Controlled s) ∧
    ∃ s, exec step create parkedTwice = some s ∧ s.phase 1 = .parked (.attempt 0) ∧
      ¬ Controlled s := by
  constructor
  · refine ⟨_, rfl, rfl, fun h => ?_⟩
    have hstatus := (h.terminated [] [] rfl).1
    cases hstatus
  · refine ⟨_, rfl, rfl, fun h => ?_⟩
    have hstatus := (h.resumed 1 _ rfl).1
    cases hstatus

end Cossack.Core.Workflows
