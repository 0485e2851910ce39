import Mathlib.Data.Option.Basic
import Mathlib.Logic.Function.Basic

/-! # Fixed windows

    A counter starts over once its window has ended, so a store may forget a
    counter from then on.  Stores that remember every counter whose window is
    open answer alike, whatever else they remember. -/

namespace Windows

structure Counter where
  count : Nat
  resetAt : Nat

/-- The counter, while its window is open. -/
def live (now : Nat) (counter : Option Counter) : Option Counter :=
  counter.filter fun c => now < c.resetAt

/-- The counter after a hit. -/
def next (counter : Option Counter) (window now : Nat) : Counter :=
  match live now counter with
  | some c => ⟨c.count + 1, c.resetAt⟩
  | none => ⟨1, now + window⟩

theorem live_eq_some {now : Nat} {counter : Option Counter} {c : Counter} :
    live now counter = some c ↔ counter = some c ∧ now < c.resetAt := by
  rw [live, Option.filter_eq_some_iff, decide_eq_true_eq]

theorem live_none (now : Nat) : live now none = none := rfl

theorem live_some_of_lt {now : Nat} {c : Counter} (h : now < c.resetAt) :
    live now (some c) = some c := live_eq_some.mpr ⟨rfl, h⟩

theorem live_some_of_le {now : Nat} {c : Counter} (h : c.resetAt ≤ now) :
    live now (some c) = none := by
  simp only [live, Option.filter_some, decide_eq_true_eq, if_neg (Nat.not_lt.mpr h)]

/-- A window that is over stays over. -/
theorem live_mono {now later : Nat} (hle : now ≤ later) {a b : Option Counter}
    (h : live now a = live now b) : live later a = live later b := by
  have hlater : ∀ c : Option Counter, live later c = live later (live now c) := by
    intro c
    cases c with
    | none => rfl
    | some c =>
      by_cases hlt : now < c.resetAt
      · rw [live_some_of_lt hlt]
      · rw [live_some_of_le (Nat.le_of_not_lt hlt), live_some_of_le (by omega), live_none]
  rw [hlater a, hlater b, h]

theorem next_congr {now : Nat} {a b : Option Counter} (h : live now a = live now b)
    (window : Nat) : next a window now = next b window now := by
  rw [next, h, next]

/-! ## Forgetting -/

variable {K : Type}

/-- Counters that are forgotten only when their windows are over. -/
def Forgets (now : Nat) (before after : K → Option Counter) : Prop :=
  ∀ k, after k = before k ∨ after k = none ∧ live now (before k) = none

theorem Forgets.refl (now : Nat) (a : K → Option Counter) : Forgets now a a := fun _ => .inl rfl

theorem Forgets.live {now : Nat} {a b : K → Option Counter} (h : Forgets now a b) (k : K) :
    live now (b k) = live now (a k) := by
  rcases h k with heq | ⟨hnone, hover⟩
  · rw [heq]
  · rw [hnone, hover, live_none]

theorem Forgets.trans {now : Nat} {a b c : K → Option Counter} (h : Forgets now a b)
    (h' : Forgets now b c) : Forgets now a c := by
  intro k
  rcases h' k with heq | ⟨hnone, hover⟩
  · rw [heq]
    exact h k
  · exact .inr ⟨hnone, (h.live k).symm.trans hover⟩

variable [DecidableEq K]

/-- The same counter is remembered on both sides. -/
theorem live_update {now : Nat} {a b : K → Option Counter} {k : K}
    (h : Windows.live now (a k) = Windows.live now (b k)) (key : K) (c : Option Counter) :
    Windows.live now (Function.update a key c k) = Windows.live now (Function.update b key c k) := by
  by_cases hk : k = key
  · subst hk
    rw [Function.update_self, Function.update_self]
  · rw [Function.update_of_ne hk, Function.update_of_ne hk, h]

theorem forgets_update {now : Nat} {a : K → Option Counter} {k : K}
    (h : Windows.live now (a k) = none) :
    Forgets now a (Function.update a k none) := by
  intro k'
  by_cases hk : k' = k
  · subst hk
    exact .inr ⟨Function.update_self .., h⟩
  · exact .inl (Function.update_of_ne hk ..)

/-! ## Quotas -/

/-- The answers of one counter from a time on, each with its time.  A counter is
    forgotten only when its window is over. -/
inductive Answers : Nat → Option Counter → List (Nat × Counter) → Prop
  | done (t : Nat) (v : Option Counter) : Answers t v []
  | same {t now : Nat} {v : Option Counter} {answers : List (Nat × Counter)} (hle : t ≤ now)
      (rest : Answers now v answers) : Answers t v answers
  | expired {t now : Nat} {v : Option Counter} {answers : List (Nat × Counter)} (hle : t ≤ now)
      (hover : Windows.live now v = none) (rest : Answers now none answers) : Answers t v answers
  | counted {t now window : Nat} {v : Option Counter} {answers : List (Nat × Counter)} (hle : t ≤ now)
      (hwindow : 0 < window) (rest : Answers now (some (next v window now)) answers) :
      Answers t v ((now, next v window now) :: answers)

theorem Answers.time_le {t : Nat} {v : Option Counter} {answers : List (Nat × Counter)}
    (h : Answers t v answers) : ∀ a ∈ answers, t ≤ a.1 := by
  induction h with
  | done => exact nofun
  | same hle _ ih => exact fun a ha => Nat.le_trans hle (ih a ha)
  | expired hle _ _ ih => exact fun a ha => Nat.le_trans hle (ih a ha)
  | counted hle _ _ ih =>
    rintro a (_ | ⟨_, ha⟩)
    · exact hle
    · exact Nat.le_trans hle (ih a ha)

/-- A counter with an open window counts on. -/
theorem next_of_lt {c : Counter} {now : Nat} (h : now < c.resetAt) (window : Nat) :
    next (some c) window now = ⟨c.count + 1, c.resetAt⟩ := by
  rw [next, live_some_of_lt h]

/-- A window that has not started cannot be open. -/
theorem next_of_over {v : Option Counter} {now : Nat} (h : live now v = none) (window : Nat) :
    next v window now = ⟨1, now + window⟩ := by
  rw [next, h]

theorem Answers.same_window {t : Nat} {v : Option Counter} {answers : List (Nat × Counter)}
    (h : Answers t v answers) {c : Counter} (hv : v = some c) :
    ∀ a ∈ answers, a.1 < c.resetAt → a.2.resetAt = c.resetAt := by
  induction h generalizing c with
  | done => exact nofun
  | same _ _ ih => exact ih hv
  | expired hle hover hrest =>
    intro a ha hlt
    subst hv
    have htime := hrest.time_le a ha
    rw [live_some_of_lt (by omega)] at hover
    cases hover
  | counted hle _ hrest ih =>
    intro a ha hlt
    subst hv
    have htime : _ ≤ a.1 := (Answers.counted (Nat.le_refl _) ‹_› hrest).time_le a ha
    rw [next_of_lt (by omega)] at ha ih
    rcases List.mem_cons.mp ha with rfl | ha
    · rfl
    · exact ih rfl a ha hlt

/-- While a window is open all answers are of that window. -/
theorem Answers.windows {t : Nat} {v : Option Counter} {answers : List (Nat × Counter)}
    (h : Answers t v answers) :
    answers.Pairwise fun a b => b.1 < a.2.resetAt → b.2.resetAt = a.2.resetAt := by
  induction h with
  | done => exact .nil
  | same _ _ ih => exact ih
  | expired _ _ _ ih => exact ih
  | counted _ _ hrest ih => exact .cons (hrest.same_window rfl) ih

/-- What is left of a quota in the window that ends at `resetAt`. -/
def left (quota resetAt t : Nat) (v : Option Counter) : Nat :=
  if resetAt ≤ t then 0
  else match v with
    | some c => if c.resetAt = resetAt then quota - c.count else quota
    | none => quota

theorem left_le_quota (quota resetAt t : Nat) (v : Option Counter) : left quota resetAt t v ≤ quota := by
  unfold left
  split
  · omega
  · split
    · split <;> omega
    · omega

theorem left_later {t now : Nat} (hle : t ≤ now) (quota resetAt : Nat) (v : Option Counter) :
    left quota resetAt now v ≤ left quota resetAt t v := by
  unfold left
  by_cases hnow : resetAt ≤ now
  · rw [if_pos hnow]
    omega
  · have hthen : ¬ resetAt ≤ t := by omega
    exact Nat.le_of_eq (by rw [if_neg hnow, if_neg hthen])

theorem left_some {resetAt t : Nat} (h : t < resetAt) (quota : Nat) (c : Counter) :
    left quota resetAt t (some c) = if c.resetAt = resetAt then quota - c.count else quota :=
  if_neg (Nat.not_le_of_lt h)

/-- A counter that is over takes nothing from a window that is open. -/
theorem left_of_over {t now : Nat} (hle : t ≤ now) {v : Option Counter} (hover : live now v = none)
    (quota : Nat) {resetAt : Nat} (hnow : now < resetAt) : left quota resetAt t v = quota := by
  cases v with
  | none => exact if_neg (by omega)
  | some c =>
    have hne : c.resetAt ≠ resetAt := by
      intro heq
      rw [live_some_of_lt (by omega)] at hover
      cases hover
    rw [left_some (by omega), if_neg hne]

theorem Answers.count_le_left {t : Nat} {v : Option Counter} {answers : List (Nat × Counter)}
    (h : Answers t v answers) (quota resetAt : Nat) :
    (answers.countP fun a => a.2.resetAt = resetAt ∧ a.2.count ≤ quota) ≤ left quota resetAt t v := by
  induction h with
  | done => exact Nat.zero_le _
  | same hle _ ih => exact Nat.le_trans ih (left_later hle ..)
  | @expired t now v answers hle hover _ ih =>
    by_cases hnow : now < resetAt
    · rw [left_of_over hle hover quota hnow]
      exact Nat.le_trans ih (left_le_quota ..)
    · rw [left, if_pos (Nat.le_of_not_lt hnow)] at ih
      omega
  | @counted t now window v answers hle hwindow _ ih =>
    rw [List.countP_cons]
    by_cases hnow : now < resetAt
    · rcases hlive : live now v with _ | c
      · rw [left_of_over hle hlive quota hnow]
        rw [next_of_over hlive] at ih ⊢
        rw [left_some hnow] at ih
        by_cases heq : now + window = resetAt
        · simp only [heq, if_true, true_and, decide_eq_true_eq] at ih ⊢
          split <;> omega
        · simp only [heq, if_false, false_and, decide_false, Bool.false_eq_true] at ih ⊢
          omega
      · obtain ⟨rfl, hopen⟩ := live_eq_some.mp hlive
        rw [next_of_lt hopen] at ih ⊢
        rw [left_some hnow] at ih
        rw [left_some (by omega)]
        by_cases heq : c.resetAt = resetAt
        · simp only [heq, if_true, true_and, decide_eq_true_eq] at ih ⊢
          split <;> omega
        · simp only [heq, if_false, false_and, decide_false, Bool.false_eq_true] at ih ⊢
          omega
    · have hne : (next v window now).resetAt ≠ resetAt := by
        rcases hlive : live now v with _ | c
        · rw [next_of_over hlive]
          show now + window ≠ resetAt
          omega
        · obtain ⟨rfl, hopen⟩ := live_eq_some.mp hlive
          rw [next_of_lt hopen]
          show c.resetAt ≠ resetAt
          omega
      rw [left, if_pos (Nat.le_of_not_lt hnow)] at ih
      simp only [hne, false_and, decide_false, Bool.false_eq_true, if_false]
      omega

/-- No window answers more than `quota` times with at most `quota`. -/
theorem Answers.quota {t : Nat} {v : Option Counter} {answers : List (Nat × Counter)}
    (h : Answers t v answers) (quota resetAt : Nat) :
    (answers.countP fun a => a.2.resetAt = resetAt ∧ a.2.count ≤ quota) ≤ quota :=
  Nat.le_trans (h.count_le_left quota resetAt) (left_le_quota ..)

end Windows
