import Mathlib.Logic.Basic

/-! # Deferred computations

    Computations over a state that resolve, reject or never settle.  A rejection
    keeps what had been done to the state before it: nothing is rolled back. -/

universe u v w

/-- How a deferred computation ends. -/
inductive Settled (σ : Type u) (ε : Type v) (α : Type w) where
  | resolved (value : α) (state : σ)
  | rejected (cause : ε) (state : σ)
  | pending

/-- The state a computation settled in. -/
def Settled.state? {σ : Type u} {ε : Type v} {α : Type w} : Settled σ ε α → Option σ
  | .resolved _ s => some s
  | .rejected _ s => some s
  | .pending => none

/-- A computation that is started in a state and settles in another, if it settles. -/
def Deferred (σ : Type u) (ε : Type v) (α : Type w) := σ → Settled σ ε α

namespace Deferred

variable {σ : Type u} {ε : Type v} {α β ι : Type w}

/-! ## Section 1: Computations -/

instance : Monad (Deferred σ ε) where
  pure a := fun s => .resolved a s
  bind t k := fun s =>
    match t s with
    | .resolved a s' => k a s'
    | .rejected c s' => .rejected c s'
    | .pending => .pending

def get : Deferred σ ε σ := fun s => .resolved s s

def modify (f : σ → σ) : Deferred σ ε PUnit := fun s => .resolved .unit (f s)

def throw (c : ε) : Deferred σ ε α := fun s => .rejected c s

/-- A computation that has no effect but may throw. -/
def ofExcept : Except ε α → Deferred σ ε α
  | .ok a => fun s => .resolved a s
  | .error c => fun s => .rejected c s

/-- `for (const item of items) await body(item)`. -/
def each (body : ι → Deferred σ ε PUnit) : List ι → Deferred σ ε PUnit
  | [] => pure .unit
  | i :: rest => do
    body i
    each body rest

theorem bind_apply (t : Deferred σ ε α) (k : α → Deferred σ ε β) (s : σ) :
    (t >>= k) s =
      match t s with
      | .resolved a s' => k a s'
      | .rejected c s' => .rejected c s'
      | .pending => .pending := rfl

instance : LawfulMonad (Deferred σ ε) := LawfulMonad.mk' _
  (by
    intro α t
    funext s
    show (t >>= pure) s = t s
    rw [bind_apply]
    cases t s <;> rfl)
  (by
    intro α β a k
    rfl)
  (by
    intro α β γ t k l
    funext s
    simp only [bind_apply]
    cases t s <;> rfl)

/-! ## Section 2: What a computation ends in -/

/-- The computation rejects, in a state with `Q`. -/
def Rejects (Q : σ → Prop) (t : Deferred σ ε α) (s : σ) : Prop :=
  ∃ c s', t s = .rejected c s' ∧ Q s'

/-- The computation resolves, to a value and a state with `Q`. -/
def Resolves (Q : α → σ → Prop) (t : Deferred σ ε α) (s : σ) : Prop :=
  ∃ a s', t s = .resolved a s' ∧ Q a s'

variable {Q : σ → Prop} {s : σ}

/-- A sequence rejects in its first part, or in its second where the first resolves. -/
theorem rejects_bind {t : Deferred σ ε α} {k : α → Deferred σ ε β} :
    Rejects Q (t >>= k) s ↔
      Rejects Q t s ∨ Resolves (fun a s' => Rejects Q (k a) s') t s := by
  simp only [Rejects, Resolves, bind_apply]
  cases t s with
  | resolved a s' =>
    constructor
    · exact fun h => Or.inr ⟨a, s', rfl, h⟩
    · rintro (⟨c, s'', h, -⟩ | ⟨a', s'', h, hk⟩)
      · exact (nomatch h)
      · cases h
        exact hk
  | rejected c s' => simp
  | pending => simp

@[simp] theorem rejects_pure {a : α} : ¬ Rejects Q (pure a : Deferred σ ε α) s := by
  rintro ⟨c, s', h, -⟩
  exact (nomatch h)

@[simp] theorem rejects_modify {f : σ → σ} : ¬ Rejects Q (modify f : Deferred σ ε PUnit) s := by
  rintro ⟨c, s', h, -⟩
  exact (nomatch h)

@[simp] theorem resolves_modify {P : PUnit → σ → Prop} {f : σ → σ} :
    Resolves P (modify f : Deferred σ ε PUnit) s ↔ P .unit (f s) := by
  constructor
  · rintro ⟨a', s', h, hP⟩
    cases h
    exact hP
  · exact fun hP => ⟨.unit, f s, rfl, hP⟩

@[simp] theorem rejects_throw {c : ε} : Rejects Q (throw c : Deferred σ ε α) s ↔ Q s := by
  constructor
  · rintro ⟨c', s', h, hQ⟩
    cases h
    exact hQ
  · exact fun hQ => ⟨c, s, rfl, hQ⟩

/-! ## Section 3: What a computation leaves alone -/

/-- However the computation settles, `f` of the state is what it was. -/
def Leaves {γ : Type*} (f : σ → γ) (t : Deferred σ ε α) : Prop :=
  ∀ s s', (t s).state? = some s' → f s' = f s

section
variable {γ : Type*} {f : σ → γ}

theorem Leaves.resolved {t : Deferred σ ε α} (h : Leaves f t) {s' : σ} {a : α}
    (hrun : t s = .resolved a s') : f s' = f s :=
  h s s' (by rw [hrun]; rfl)

theorem Leaves.rejected {t : Deferred σ ε α} (h : Leaves f t) {s' : σ} {c : ε}
    (hrun : t s = .rejected c s') : f s' = f s :=
  h s s' (by rw [hrun]; rfl)

theorem leaves_pure (a : α) : Leaves f (pure a : Deferred σ ε α) := by
  intro s s' h
  cases h
  rfl

theorem leaves_throw (c : ε) : Leaves f (throw c : Deferred σ ε α) := by
  intro s s' h
  cases h
  rfl

theorem leaves_get : Leaves f (get : Deferred σ ε σ) := by
  intro s s' h
  cases h
  rfl

theorem leaves_bind {t : Deferred σ ε α} {k : α → Deferred σ ε β} (ht : Leaves f t)
    (hk : ∀ a, Leaves f (k a)) : Leaves f (t >>= k) := by
  intro s s' h
  rw [bind_apply] at h
  cases ht' : t s with
  | resolved a s₁ =>
    rw [ht'] at h
    exact (hk a s₁ s' h).trans (ht.resolved ht')
  | rejected c s₁ =>
    rw [ht'] at h
    cases h
    exact ht.rejected ht'
  | pending =>
    rw [ht'] at h
    exact (nomatch h)

/-- A loop leaves alone what its body does. -/
theorem leaves_each {body : ι → Deferred σ ε PUnit} (h : ∀ i, Leaves f (body i)) (items : List ι) :
    Leaves f (each body items) := by
  induction items with
  | nil => exact leaves_pure _
  | cons i rest ih => exact leaves_bind (h i) fun _ => ih

end

end Deferred
