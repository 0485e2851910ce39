import Mathlib.Data.List.Sort
import Mathlib.Order.Basic

/-! # Preferences

    Candidates with a quality: the first of the highest quality that will do.  A stable
    sort by descending quality brings it to the front. -/

namespace Preferences

variable {α K : Type} [LinearOrder K]

/-- The first of the candidates of the highest quality that will do. -/
def Best (quality : α → K) (p : α → Prop) (l : List α) (x : α) : Prop :=
  ∃ before after, l = before ++ x :: after ∧ p x ∧
    (∀ y ∈ before, p y → quality y < quality x) ∧ (∀ y ∈ after, p y → quality y ≤ quality x)

section best

variable {quality : α → K} {p q : α → Prop} {l : List α} {x y : α}

theorem Best.mem (h : Best quality p l x) : x ∈ l ∧ p x := by
  obtain ⟨before, after, rfl, hp, -, -⟩ := h
  exact ⟨List.mem_append_right _ List.mem_cons_self, hp⟩

theorem Best.max (h : Best quality p l x) (hy : y ∈ l) (hp : p y) : quality y ≤ quality x := by
  obtain ⟨before, after, rfl, -, hbefore, hafter⟩ := h
  rcases List.mem_append.mp hy with hy | hy
  · exact (hbefore y hy hp).le
  · rcases List.mem_cons.mp hy with rfl | hy
    · exact le_rfl
    · exact hafter y hy hp

/-- A candidate in front of the others that is better than none of them before. -/
theorem best_head (hp : p x) (hmax : ∀ y ∈ l, p y → quality y ≤ quality x) :
    Best quality p (x :: l) x :=
  ⟨[], l, rfl, hp, nofun, hmax⟩

theorem Best.cons (h : Best quality p l x) (hy : p y → quality y < quality x) :
    Best quality p (y :: l) x := by
  obtain ⟨before, after, rfl, hp, hbefore, hafter⟩ := h
  refine ⟨y :: before, after, rfl, hp, ?_, hafter⟩
  intro z hz
  rcases List.mem_cons.mp hz with rfl | hz
  · exact hy
  · exact hbefore z hz

theorem Best.congr (h : Best quality p l x) (hpq : ∀ y ∈ l, p y ↔ q y) : Best quality q l x := by
  obtain ⟨before, after, rfl, hp, hbefore, hafter⟩ := h
  refine ⟨before, after, rfl, (hpq x (by simp)).mp hp, ?_, ?_⟩
  · intro y hy hq
    exact hbefore y hy ((hpq y (by simp [hy])).mpr hq)
  · intro y hy hq
    exact hafter y hy ((hpq y (by simp [hy])).mpr hq)

/-- What has been filtered out would not have done. -/
theorem Best.of_filter {keep : α → Bool} (h : Best quality p (l.filter keep) x) :
    Best quality (fun y => keep y = true ∧ p y) l x := by
  induction l with
  | nil =>
    obtain ⟨before, after, hnil, -⟩ := h
    simp at hnil
  | cons y l ih =>
    rw [List.filter_cons] at h
    split at h
    · rename_i hkeep
      obtain ⟨before, after, hl, hp, hbefore, hafter⟩ := h
      cases before with
      | nil =>
        obtain ⟨rfl, rfl⟩ := List.cons.inj hl
        apply best_head ⟨hkeep, hp⟩
        intro z hz hdo
        exact hafter z (List.mem_filter.mpr ⟨hz, hdo.1⟩) hdo.2
      | cons z before =>
        obtain ⟨rfl, htail⟩ := List.cons.inj hl
        have hrest : Best quality p (l.filter keep) x :=
          ⟨before, after, htail, hp, fun w hw => hbefore w (List.mem_cons_of_mem _ hw), hafter⟩
        exact (ih hrest).cons fun hdo => hbefore y List.mem_cons_self hdo.2
    · rename_i hkeep
      exact (ih h).cons fun hdo => absurd hdo.1 hkeep

end best

/-! ## Sorting -/

section sorting

variable {quality : α → K} {p : α → Bool} {l : List α} {x y : α}

/-- By descending quality; candidates of one quality stay in their order. -/
def sort (quality : α → K) (l : List α) : List α := l.insertionSort fun a b => quality b ≤ quality a

theorem sort_cons :
    sort quality (y :: l) = (sort quality l).orderedInsert (fun a b => quality b ≤ quality a) y := rfl

theorem mem_sort : x ∈ sort quality l ↔ x ∈ l := List.mem_insertionSort _

theorem pairwise_sort : (sort quality l).Pairwise fun a b => quality b ≤ quality a := by
  have : Std.Total fun a b : α => quality b ≤ quality a := ⟨fun a b => le_total (quality b) (quality a)⟩
  have : IsTrans α fun a b => quality b ≤ quality a := ⟨fun a b c hab hbc => hbc.trans hab⟩
  exact List.pairwise_insertionSort _ l

/-- A candidate is inserted before those that are no better. -/
theorem find?_orderedInsert {s : List α} (hs : s.Pairwise fun a b => quality b ≤ quality a) :
    (s.orderedInsert (fun a b => quality b ≤ quality a) y).find? p =
      match s.find? p with
      | none => if p y then some y else none
      | some z => if p y ∧ quality z ≤ quality y then some y else some z := by
  induction s with
  | nil =>
    rw [List.orderedInsert_nil, List.find?_nil, List.find?_singleton]
  | cons a s ih =>
    obtain ⟨ha, hs⟩ := List.pairwise_cons.mp hs
    rw [List.orderedInsert_cons]
    split
    · rename_i hle
      -- All of the rest are no better than `y`, so it is found when it will do.
      rw [List.find?_cons]
      cases hp : p y with
      | false =>
        cases (a :: s).find? p <;> simp
      | true =>
        cases hfind : (a :: s).find? p with
        | none => simp
        | some z =>
          have hz : quality z ≤ quality y := by
            rcases List.mem_cons.mp (List.mem_of_find?_eq_some hfind) with rfl | hmem
            · exact hle
            · exact (ha z hmem).trans hle
          simp [hz]
    · rename_i hlt
      rw [List.find?_cons, List.find?_cons]
      cases hp : p a with
      | true => simp [hlt]
      | false => exact ih hs

/-- The first that will do in the sorted list. -/
theorem find?_sort_some (h : (sort quality l).find? p = some x) :
    Best quality (fun y => p y = true) l x := by
  induction l generalizing x with
  | nil => cases h
  | cons y l ih =>
    rw [sort_cons, find?_orderedInsert pairwise_sort] at h
    cases hrest : (sort quality l).find? p with
    | none =>
      rw [hrest] at h
      simp only [Option.ite_none_right_eq_some, Option.some.injEq] at h
      obtain ⟨hp, rfl⟩ := h
      refine best_head (p := fun y => p y = true) hp ?_
      intro z hz hdo
      exact absurd hdo (List.find?_eq_none.mp hrest z (mem_sort.mpr hz))
    | some z =>
      have hz := ih hrest
      rw [hrest] at h
      simp only at h
      split at h
      · rename_i hbetter
        cases h
        exact best_head (p := fun y => p y = true) hbetter.1 fun w hw hdo => (hz.max hw hdo).trans hbetter.2
      · rename_i hworse
        cases h
        exact hz.cons fun hp => lt_of_not_ge fun hle => hworse ⟨hp, hle⟩

end sorting

end Preferences
