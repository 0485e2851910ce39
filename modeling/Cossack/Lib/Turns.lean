import Mathlib.Data.List.Perm.Basic

/-! # Operations that take turns

    A slot holds the promise of the operation under way.  A caller that finds a
    promise there awaits it and looks again; a caller that finds none puts the
    promise of its own operation there, and takes it away once it has settled.
    Continuations are jobs that run one after the other, in the order in which
    they were queued.

    The order is what makes the slot a lock for a caller's continuation as well:
    it runs before the next operation starts. -/

namespace Turns

/-! ## Section 1: The slot and the jobs -/

inductive Job where
  /-- The body of the operation in the slot. -/
  | start
  /-- The caller of the operation takes its settled promise out of the slot. -/
  | release (caller : Nat) (fulfilled : Bool)
  /-- A caller that awaited the promise of another. -/
  | wake (caller : Nat) (fulfilled : Bool)
  /-- What the caller does when its operation is over. -/
  | back (caller : Nat) (fulfilled : Bool)

inductive Stage where
  | queued
  | running
  | settled (fulfilled : Bool)
  deriving DecidableEq

structure Pending where
  caller : Nat
  stage : Stage
  waiters : List Nat

structure Turn where
  slot : Option Pending
  jobs : List Job

/-- What the job at the head of the queue means to a caller. -/
inductive Effect where
  | quiet
  | started (caller : Nat)
  /-- The awaited promise of another caller was rejected. -/
  | rejected (caller : Nat)
  | returned (caller : Nat) (fulfilled : Bool)

def Turn.free : Turn := ⟨none, []⟩

/-- A caller looks at the slot.  The reaction to a settled promise is queued at
    once. -/
def enter (t : Turn) (caller : Nat) : Turn :=
  match t.slot with
  | none => { slot := some ⟨caller, .queued, []⟩, jobs := t.jobs ++ [.start] }
  | some p =>
      match p.stage with
      | .settled fulfilled => { t with jobs := t.jobs ++ [.wake caller fulfilled] }
      | _ => { t with slot := some { p with waiters := p.waiters ++ [caller] } }

/-- The promise in the slot settles.  Its caller awaited it first. -/
def settle (t : Turn) (fulfilled : Bool) : Turn :=
  match t.slot with
  | none => t
  | some p =>
      { slot := some { p with stage := .settled fulfilled, waiters := [] }
        jobs := t.jobs ++ .release p.caller fulfilled :: p.waiters.map (.wake · fulfilled) }

/-- The job at the head of the queue runs. -/
def run (t : Turn) : Option (Turn × Effect) :=
  match t.jobs with
  | [] => none
  | .start :: rest =>
      match t.slot with
      | none => some (⟨none, rest⟩, .quiet)
      | some p => some (⟨some { p with stage := .running }, rest⟩, .started p.caller)
  | .release caller fulfilled :: rest => some (⟨none, rest ++ [.back caller fulfilled]⟩, .quiet)
  | .wake caller true :: rest => some (enter { t with jobs := rest } caller, .quiet)
  | .wake caller false :: rest => some ({ t with jobs := rest }, .rejected caller)
  | .back caller fulfilled :: rest => some ({ t with jobs := rest }, .returned caller fulfilled)

/-! ## Section 2: Who waits, who runs, who returns -/

def Job.callers : Job → List Nat
  | .start => []
  | .release _ _ => []
  | .wake caller _ => [caller]
  | .back caller _ => [caller]

/-- Every caller that has looked at the slot and has not returned. -/
def callers (t : Turn) : List Nat :=
  t.slot.elim [] (fun p => p.caller :: p.waiters) ++ t.jobs.flatMap Job.callers

def Running (t : Turn) (caller : Nat) : Prop :=
  ∃ p, t.slot = some p ∧ p.caller = caller ∧ p.stage = .running

/-- The caller's operation is over, and the caller has not gone on yet. -/
def Returning (t : Turn) (caller : Nat) (fulfilled : Bool) : Prop :=
  .back caller fulfilled ∈ t.jobs ∨
    ∃ p, t.slot = some p ∧ p.caller = caller ∧ p.stage = .settled fulfilled

/-- The jobs without those of the callers that wait for another. -/
def turning (jobs : List Job) : List Job :=
  jobs.filter fun
    | .wake _ _ => false
    | _ => true

/-- At most one caller is about to go on, and it does so before the next
    operation starts. -/
def Orderly (t : Turn) : Prop :=
  match t.slot with
  | none => ∃ last : Option (Nat × Bool), turning t.jobs = last.toList.map fun b => .back b.1 b.2
  | some p =>
      match p.stage with
      | .queued =>
          ∃ last : Option (Nat × Bool),
            turning t.jobs = (last.toList.map fun b => .back b.1 b.2) ++ [.start]
      | .running => turning t.jobs = []
      | .settled fulfilled => turning t.jobs = [.release p.caller fulfilled] ∧ p.waiters = []

@[simp] theorem turning_append (a b : List Job) : turning (a ++ b) = turning a ++ turning b :=
  List.filter_append ..

@[simp] theorem turning_wakes (waiters : List Nat) (fulfilled : Bool) :
    turning (waiters.map (.wake · fulfilled)) = [] := by
  simp [turning]

@[simp] theorem turning_nil : turning [] = [] := rfl

@[simp] theorem turning_wake (caller : Nat) (fulfilled : Bool) (rest : List Job) :
    turning (.wake caller fulfilled :: rest) = turning rest := rfl

@[simp] theorem turning_start (rest : List Job) : turning (.start :: rest) = .start :: turning rest :=
  rfl

@[simp] theorem turning_release (caller : Nat) (fulfilled : Bool) (rest : List Job) :
    turning (.release caller fulfilled :: rest) = .release caller fulfilled :: turning rest := rfl

@[simp] theorem turning_back (caller : Nat) (fulfilled : Bool) (rest : List Job) :
    turning (.back caller fulfilled :: rest) = .back caller fulfilled :: turning rest := rfl

theorem back_mem {jobs : List Job} {caller : Nat} {fulfilled : Bool} :
    .back caller fulfilled ∈ jobs ↔ .back caller fulfilled ∈ turning jobs := by
  simp [turning]

theorem orderly_free : Orderly Turn.free := ⟨none, rfl⟩

variable {t t' : Turn} {caller : Nat} {fulfilled : Bool}

theorem Running.mem (h : Running t caller) : caller ∈ callers t := by
  obtain ⟨p, hslot, rfl, -⟩ := h
  simp [callers, hslot]

theorem Running.iff_eq (h : Running t caller) {c : Nat} : Running t c ↔ c = caller := by
  obtain ⟨p, hslot, rfl, hstage⟩ := h
  simp [Running, hslot, hstage, eq_comm]

theorem Returning.mem (h : Returning t caller fulfilled) : caller ∈ callers t := by
  rcases h with hback | ⟨p, hslot, rfl, -⟩
  · exact List.mem_append_right _ (List.mem_flatMap.mpr ⟨_, hback, List.mem_singleton_self _⟩)
  · simp [callers, hslot]

/-- While an operation runs, nobody is about to go on. -/
theorem Orderly.not_returning (h : Orderly t) (hrun : Running t caller) (c : Nat) (f : Bool) :
    ¬ Returning t c f := by
  obtain ⟨p, hslot, -, hstage⟩ := hrun
  simp only [Orderly, hslot, hstage] at h
  rintro (hback | ⟨q, hq, -, hsettled⟩)
  · rw [back_mem, h] at hback
    cases hback
  · rw [hslot] at hq
    cases hq
    rw [hstage] at hsettled
    cases hsettled

/-! ## Section 3: The steps -/

theorem Orderly.enter (h : Orderly t) (caller : Nat) : Orderly (enter t caller) := by
  cases hslot : t.slot with
  | none =>
    simp only [Orderly, hslot] at h
    obtain ⟨last, hlast⟩ := h
    simp only [Turns.enter, hslot, Orderly]
    exact ⟨last, by simp [hlast]⟩
  | some p =>
    cases hstage : p.stage with
    | queued => simpa only [Turns.enter, hslot, hstage, Orderly] using h
    | running => simpa only [Turns.enter, hslot, hstage, Orderly] using h
    | settled f =>
      simp only [Orderly, hslot, hstage] at h
      simp only [Turns.enter, hslot, hstage, Orderly]
      exact ⟨by simp [h.1], h.2⟩

theorem running_enter (c : Nat) : Running (enter t caller) c ↔ Running t c := by
  cases hslot : t.slot with
  | none => simp [Running, enter, hslot]
  | some p => cases hstage : p.stage <;> simp [Running, enter, hslot, hstage]

theorem returning_enter (c : Nat) (f : Bool) : Returning (enter t caller) c f ↔ Returning t c f := by
  cases hslot : t.slot with
  | none => simp [Returning, enter, hslot]
  | some p => cases hstage : p.stage <;> simp [Returning, enter, hslot, hstage]

theorem callers_enter : (callers (enter t caller)).Perm (caller :: callers t) := by
  cases hslot : t.slot with
  | none => simp [callers, enter, hslot, Job.callers]
  | some p =>
    have hwake (f : Bool) :
        (p.caller :: p.waiters ++ (t.jobs ++ [Job.wake caller f]).flatMap Job.callers).Perm
          (caller :: (p.caller :: p.waiters ++ t.jobs.flatMap Job.callers)) := by
      rw [List.flatMap_append, ← List.append_assoc]
      exact List.perm_append_singleton _ _
    have hwait : (p.caller :: (p.waiters ++ [caller]) ++ t.jobs.flatMap Job.callers).Perm
        (caller :: (p.caller :: p.waiters ++ t.jobs.flatMap Job.callers)) := by
      rw [← List.cons_append, List.append_assoc]
      exact List.perm_middle
    cases hstage : p.stage with
    | queued => simpa [callers, enter, hslot, hstage] using hwait
    | running => simpa [callers, enter, hslot, hstage] using hwait
    | settled f => simpa [callers, enter, hslot, hstage] using hwake f

theorem Orderly.settle (h : Orderly t) (hrun : Running t caller) (fulfilled : Bool) :
    Orderly (settle t fulfilled) := by
  obtain ⟨p, hslot, -, hstage⟩ := hrun
  simp only [Orderly, hslot, hstage] at h
  simp [Turns.settle, hslot, Orderly, h]

theorem not_running_settle (c : Nat) : ¬ Running (settle t fulfilled) c := by
  cases hslot : t.slot with
  | none => simp [Running, settle, hslot]
  | some p => simp [Running, settle, hslot]

theorem returning_settle (h : Orderly t) (hrun : Running t caller) (c : Nat) (f : Bool) :
    Returning (settle t fulfilled) c f ↔ c = caller ∧ f = fulfilled := by
  have hnone := h.not_returning hrun c f
  obtain ⟨p, hslot, rfl, hstage⟩ := hrun
  have hback : .back c f ∉ t.jobs := fun hmem => hnone (.inl hmem)
  simp [Returning, settle, hslot, hback, eq_comm]

theorem callers_settle (hrun : Running t caller) :
    (callers (settle t fulfilled)).Perm (callers t) := by
  obtain ⟨p, hslot, -, -⟩ := hrun
  have hwakes : (p.waiters.map (Job.wake · fulfilled)).flatMap Job.callers = p.waiters := by
    induction p.waiters with
    | nil => rfl
    | cons w rest ih => simp [Job.callers, ih]
  simp only [callers, settle, hslot, Option.elim, List.flatMap_append, List.flatMap_cons,
    Job.callers, hwakes, List.nil_append, List.cons_append]
  exact List.perm_append_comm.cons p.caller

/-! ## Section 4: The job at the head -/

/-- What a job does to the three questions of Section 2. -/
def Follows (t t' : Turn) : Effect → Prop
  | .quiet =>
      (∀ c, Running t' c ↔ Running t c) ∧ (∀ c f, Returning t' c f ↔ Returning t c f) ∧
        (callers t').Perm (callers t)
  | .started caller =>
      (∀ c, Running t' c ↔ c = caller) ∧ (∀ c, ¬ Running t c) ∧ (∀ c f, ¬ Returning t c f) ∧
        (∀ c f, ¬ Returning t' c f) ∧ caller ∈ callers t ∧ callers t' = callers t
  | .rejected caller =>
      (∀ c, Running t' c ↔ Running t c) ∧ (∀ c f, Returning t' c f ↔ Returning t c f) ∧
        (callers t).Perm (caller :: callers t')
  | .returned caller fulfilled =>
      (∀ c, ¬ Running t' c) ∧ (∀ c, ¬ Running t c) ∧
        (∀ c f, Returning t c f ↔ c = caller ∧ f = fulfilled) ∧ (∀ c f, ¬ Returning t' c f) ∧
        (callers t).Perm (caller :: callers t')

theorem run_start {rest : List Job} {e : Effect} (ht : Orderly t) (hjobs : t.jobs = .start :: rest)
    (h : run t = some (t', e)) : Orderly t' ∧ Follows t t' e := by
  simp only [run, hjobs] at h
  cases hslot : t.slot with
  | none =>
    simp only [Orderly, hslot, hjobs, turning_start] at ht
    obtain ⟨last, hlast⟩ := ht
    cases last <;> simp at hlast
  | some p =>
    simp only [hslot, Option.some.injEq, Prod.mk.injEq] at h
    obtain ⟨rfl, rfl⟩ := h
    cases hstage : p.stage with
    | running => simp [Orderly, hslot, hstage, hjobs] at ht
    | settled f => simp [Orderly, hslot, hstage, hjobs] at ht
    | queued =>
      simp only [Orderly, hslot, hstage, hjobs, turning_start] at ht
      obtain ⟨last, hlast⟩ := ht
      -- the job of a caller about to go on would stand before this one
      have hrest : turning rest = [] := by
        cases last with
        | none => simpa using hlast
        | some b => simp at hlast
      have hback (c : Nat) (f : Bool) : .back c f ∉ rest := by
        rw [back_mem, hrest]
        exact List.not_mem_nil
      refine ⟨hrest, ?_, ?_, ?_, ?_, ?_, ?_⟩
      · intro c
        simp [Running, eq_comm]
      · simp [Running, hslot, hstage]
      · simp [Returning, hslot, hstage, hjobs, hback]
      · simp [Returning, hback]
      · simp [callers, hslot]
      · simp [callers, hslot, hjobs, Job.callers]

theorem run_release {rest : List Job} {e : Effect} (ht : Orderly t)
    (hjobs : t.jobs = .release caller fulfilled :: rest) (h : run t = some (t', e)) :
    Orderly t' ∧ Follows t t' e := by
  simp only [run, hjobs, Option.some.injEq, Prod.mk.injEq] at h
  obtain ⟨rfl, rfl⟩ := h
  cases hslot : t.slot with
  | none =>
    simp only [Orderly, hslot, hjobs, turning_release] at ht
    obtain ⟨last, hlast⟩ := ht
    cases last <;> simp at hlast
  | some p =>
    cases hstage : p.stage with
    | queued =>
      simp only [Orderly, hslot, hstage, hjobs, turning_release] at ht
      obtain ⟨last, hlast⟩ := ht
      cases last <;> simp at hlast
    | running => simp [Orderly, hslot, hstage, hjobs] at ht
    | settled f =>
      simp only [Orderly, hslot, hstage, hjobs, turning_release, List.cons.injEq,
        Job.release.injEq] at ht
      obtain ⟨⟨⟨rfl, rfl⟩, hrest⟩, hwaiters⟩ := ht
      have hback (c : Nat) (g : Bool) : .back c g ∉ rest := by
        rw [back_mem, hrest]
        exact List.not_mem_nil
      refine ⟨⟨some (p.caller, fulfilled), by simp [hrest]⟩, ?_, ?_, ?_⟩
      · simp [Running, hslot, hstage]
      · intro c g
        simp [Returning, hslot, hstage, hjobs, hback, eq_comm]
      · simp only [callers, hslot, hjobs, Option.elim, List.flatMap_append, List.flatMap_cons,
          List.flatMap_nil, Job.callers, List.nil_append, List.append_nil, hwaiters]
        exact List.perm_append_singleton _ _

theorem run_wake {rest : List Job} {e : Effect} (ht : Orderly t)
    (hjobs : t.jobs = .wake caller fulfilled :: rest) (h : run t = some (t', e)) :
    Orderly t' ∧ Follows t t' e := by
  have hrest : Orderly { t with jobs := rest } := by
    simpa only [Orderly, hjobs, turning_wake] using ht
  have hrun (c : Nat) : Running { t with jobs := rest } c ↔ Running t c := Iff.rfl
  have hreturning (c : Nat) (f : Bool) :
      Returning { t with jobs := rest } c f ↔ Returning t c f := by
    simp [Returning, hjobs]
  have hcallers : (callers t).Perm (caller :: callers { t with jobs := rest }) := by
    simp only [callers, hjobs, List.flatMap_cons, Job.callers]
    exact List.perm_middle
  cases fulfilled with
  | true =>
    simp only [run, hjobs, Option.some.injEq, Prod.mk.injEq] at h
    obtain ⟨rfl, rfl⟩ := h
    exact ⟨hrest.enter caller, fun c => (running_enter c).trans (hrun c),
      fun c f => (returning_enter c f).trans (hreturning c f), callers_enter.trans hcallers.symm⟩
  | false =>
    simp only [run, hjobs, Option.some.injEq, Prod.mk.injEq] at h
    obtain ⟨rfl, rfl⟩ := h
    exact ⟨hrest, hrun, hreturning, hcallers⟩

theorem run_back {rest : List Job} {e : Effect} (ht : Orderly t)
    (hjobs : t.jobs = .back caller fulfilled :: rest) (h : run t = some (t', e)) :
    Orderly t' ∧ Follows t t' e := by
  obtain ⟨slot, jobs⟩ := t
  obtain rfl : jobs = .back caller fulfilled :: rest := hjobs
  simp only [run, Option.some.injEq, Prod.mk.injEq] at h
  obtain ⟨rfl, rfl⟩ := h
  have hcallers : (callers ⟨slot, .back caller fulfilled :: rest⟩).Perm
      (caller :: callers ⟨slot, rest⟩) := by
    simp only [callers, List.flatMap_cons, Job.callers]
    exact List.perm_middle
  cases slot with
  | none =>
    obtain ⟨last, hlast⟩ := ht
    have hrest : turning rest = [] := by
      cases last with
      | none => simp at hlast
      | some b => exact (List.cons.inj hlast).2
    refine ⟨⟨none, hrest⟩, ?_, ?_, ?_, ?_, hcallers⟩
    · simp [Running]
    · simp [Running]
    · simp [Returning, back_mem, hrest]
    · simp [Returning, back_mem, hrest]
  | some p =>
    obtain ⟨owner, stage, waiters⟩ := p
    cases stage with
    | running => simp [Orderly] at ht
    | settled f => simp [Orderly] at ht
    | queued =>
      obtain ⟨last, hlast⟩ := ht
      have hrest : turning rest = [.start] := by
        cases last with
        | none => simp at hlast
        | some b => exact (List.cons.inj hlast).2
      refine ⟨⟨none, hrest⟩, ?_, ?_, ?_, ?_, hcallers⟩
      · simp [Running]
      · simp [Running]
      · simp [Returning, back_mem, hrest]
      · simp [Returning, back_mem, hrest]

theorem run_spec {e : Effect} (ht : Orderly t) (h : run t = some (t', e)) :
    Orderly t' ∧ Follows t t' e := by
  cases hjobs : t.jobs with
  | nil => simp [run, hjobs] at h
  | cons job rest =>
    cases job with
    | start => exact run_start ht hjobs h
    | release caller fulfilled => exact run_release ht hjobs h
    | wake caller fulfilled => exact run_wake ht hjobs h
    | back caller fulfilled => exact run_back ht hjobs h

end Turns
