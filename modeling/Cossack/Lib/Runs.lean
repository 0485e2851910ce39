import Mathlib.Logic.Basic

/-! # Runs of a transition system

    A system is a partial step function on states and events.  A run may be
    restricted by a condition on each event and the state it happens in. -/

namespace Runs

variable {S E : Type} {step : S → E → Option S}

/-- The runs in which every step is `allowed`. -/
inductive Run (step : S → E → Option S) (allowed : S → E → Prop) : S → S → Prop
  | refl (s : S) : Run step allowed s s
  | tail {s t u : S} {e : E} : Run step allowed s t → allowed t e → step t e = some u →
      Run step allowed s u

/-- Nothing is ruled out. -/
def Free (_ : S) (_ : E) : Prop := True

theorem Run.invariant {allowed : S → E → Prop} {inv : S → Prop} {s t : S}
    (h : Run step allowed s t) (h₀ : inv s)
    (hstep : ∀ s t e, inv s → allowed s e → step s e = some t → inv t) : inv t := by
  induction h with
  | refl => exact h₀
  | tail _ hallowed hnext ih => exact hstep _ _ _ ih hallowed hnext

theorem Run.mono {allowed allowed' : S → E → Prop} {s t : S} (h : Run step allowed s t)
    (himp : ∀ s e, allowed s e → allowed' s e) : Run step allowed' s t := by
  induction h with
  | refl => exact .refl _
  | tail _ hallowed hnext ih => exact .tail ih (himp _ _ hallowed) hnext

/-- The state after a list of events. -/
def exec (step : S → E → Option S) : S → List E → Option S
  | s, [] => some s
  | s, e :: rest => (step s e).bind fun t => exec step t rest

/-- A list of events is a run when each event is allowed where it happens. -/
def Admits (step : S → E → Option S) (allowed : S → E → Prop) : S → List E → Prop
  | _, [] => True
  | s, e :: rest => allowed s e ∧ ∀ t, step s e = some t → Admits step allowed t rest

theorem Run.head {allowed : S → E → Prop} {s t u : S} {e : E} (hallowed : allowed s e)
    (hnext : step s e = some t) (h : Run step allowed t u) : Run step allowed s u := by
  induction h with
  | refl => exact .tail (.refl s) hallowed hnext
  | tail _ hallowed' hnext' ih => exact .tail ih hallowed' hnext'

theorem run_of_exec {allowed : S → E → Prop} {s t : S} {events : List E}
    (h : exec step s events = some t) (hallowed : Admits step allowed s events) :
    Run step allowed s t := by
  induction events generalizing s with
  | nil =>
    cases h
    exact .refl _
  | cons e rest ih =>
    obtain ⟨u, hnext, hrest⟩ := Option.bind_eq_some_iff.mp h
    exact .head hallowed.1 hnext (ih hrest (hallowed.2 u hnext))

theorem admits_free (s : S) (events : List E) : Admits step Free s events := by
  induction events generalizing s with
  | nil => trivial
  | cons e rest ih => exact ⟨trivial, fun t _ => ih t⟩

/-- Events that are allowed in every state. -/
theorem admits_of_forall {allowed : S → E → Prop} {events : List E}
    (h : ∀ e ∈ events, ∀ s, allowed s e) (s : S) : Admits step allowed s events := by
  induction events generalizing s with
  | nil => trivial
  | cons e rest ih =>
    refine ⟨h e List.mem_cons_self s, ?_⟩
    intro t _
    exact ih (fun e' he' => h e' (List.mem_cons_of_mem _ he')) t

end Runs
