import Mathlib.Data.List.Forall2

/-! # Machines that answer calls

    A machine takes a call in a state to the next state and an answer.  Two
    machines are compared through a relation of their states: as long as every
    call is one they treat alike, all their answers agree. -/

namespace Machines

variable {S S' I I' O O' : Type*}

/-- The answers to a list of calls, in order. -/
def answers (step : S → I → S × O) : S → List I → List O
  | _, [] => []
  | s, i :: rest => (step s i).2 :: answers step (step s i).1 rest

/-- Each call is allowed in the state that it meets. -/
def Admits (step : S → I → S × O) (allowed : S → I → Prop) : S → List I → Prop
  | _, [] => True
  | s, i :: rest => allowed s i ∧ Admits step allowed (step s i).1 rest

/-- A step on an allowed call keeps the states related, and the answers agree. -/
def Simulates (step : S → I → S × O) (step' : S' → I' → S' × O') (related : S → S' → Prop)
    (allowed : S → I → Prop) (call : I → I') (agree : O → O' → Prop) : Prop :=
  ∀ s s' i, related s s' → allowed s i →
    related (step s i).1 (step' s' (call i)).1 ∧ agree (step s i).2 (step' s' (call i)).2

variable {step : S → I → S × O} {step' : S' → I' → S' × O'} {related : S → S' → Prop}
  {allowed : S → I → Prop} {call : I → I'} {agree : O → O' → Prop} {s : S} {s' : S'}
  {calls : List I}

theorem admits_of_forall {allowed : I → Prop} (h : ∀ i ∈ calls, allowed i) (s : S) :
    Admits step (fun _ i => allowed i) s calls := by
  induction calls generalizing s with
  | nil => trivial
  | cons i rest ih =>
    exact ⟨h i List.mem_cons_self, ih (fun i' hi' => h i' (List.mem_cons_of_mem _ hi')) _⟩

theorem Simulates.answers (h : Simulates step step' related allowed call agree)
    (hs : related s s') (hcalls : Admits step allowed s calls) :
    List.Forall₂ agree (answers step s calls) (answers step' s' (calls.map call)) := by
  induction calls generalizing s s' with
  | nil => exact List.Forall₂.nil
  | cons i rest ih =>
    obtain ⟨hnext, hagree⟩ := h s s' i hs hcalls.1
    exact List.Forall₂.cons hagree (ih hnext hcalls.2)

/-- Answers that are computed from those of the other machine. -/
theorem Simulates.answers_map {answer : O → O'}
    (h : Simulates step step' related allowed call fun a b => b = answer a) (hs : related s s')
    (hcalls : Admits step allowed s calls) :
    Machines.answers step' s' (calls.map call) = (Machines.answers step s calls).map answer := by
  have hall := h.answers hs hcalls
  generalize Machines.answers step s calls = outs, Machines.answers step' s' (calls.map call) = outs'
    at hall ⊢
  induction hall with
  | nil => rfl
  | cons hab _ ih => rw [List.map_cons, hab, ih]

end Machines
