import Mathlib.Data.List.Sort

/-! # Lists sorted by a number

    Insertion sort by a sequence number, and folds that may throw. -/

namespace Sequences

variable {A : Type} (number : A → Nat)

def sorted (items : List A) : List A :=
  items.insertionSort fun a b => number a ≤ number b

instance total : Std.Total fun a b : A => number a ≤ number b := ⟨fun _ _ => Nat.le_total _ _⟩

instance isTrans : IsTrans A fun a b => number a ≤ number b := ⟨fun _ _ _ => Nat.le_trans⟩

theorem sorted_perm (items : List A) : (sorted number items).Perm items :=
  List.perm_insertionSort _ items

theorem pairwise_sorted (items : List A) :
    (sorted number items).Pairwise fun a b => number a ≤ number b :=
  List.pairwise_insertionSort _ items

variable {number}

theorem mem_sorted {items : List A} {x : A} : x ∈ sorted number items ↔ x ∈ items :=
  (sorted_perm number items).mem_iff

/-- Distinct numbers are sorted strictly. -/
theorem sorted_strict {items : List A} (h : (items.map number).Nodup) :
    (sorted number items).Pairwise fun a b => number a < number b := by
  have hnodup : ((sorted number items).map number).Nodup :=
    ((sorted_perm number items).map number).nodup_iff.mpr h
  have hne := List.pairwise_map.mp hnodup
  exact (pairwise_sorted number items).imp₂ (fun a b hle hne => Nat.lt_of_le_of_ne hle hne) hne

/-- The sorted list is the only strictly sorted one with the same items. -/
theorem sorted_eq {items list : List A} (hperm : list.Perm items)
    (hlt : list.Pairwise fun a b => number a < number b) : sorted number items = list := by
  have hnodup : (items.map number).Nodup :=
    ((hperm.map number).nodup_iff).mp (List.pairwise_map.mpr (hlt.imp Nat.ne_of_lt))
  have hsame : (sorted number items).Perm list := (sorted_perm number items).trans hperm.symm
  apply hsame.eq_of_pairwise _ (sorted_strict hnodup) hlt
  intro a b _ _ hab hba
  exact absurd hab (Nat.lt_asymm hba)

theorem sorted_filter {items : List A} (h : (items.map number).Nodup) (p : A → Bool) :
    sorted number (items.filter p) = (sorted number items).filter p :=
  sorted_eq ((sorted_perm number items).filter p) ((sorted_strict h).filter p)

/-- An item with a greater number than all others comes last. -/
theorem sorted_insert_last {items rest : List A} {x : A}
    (h : ((items ++ rest).map number).Nodup) (hx : ∀ y ∈ items ++ rest, number y < number x) :
    sorted number (items ++ x :: rest) = sorted number (items ++ rest) ++ [x] := by
  apply sorted_eq
  · have hmid : (items ++ x :: rest).Perm (x :: (items ++ rest)) := List.perm_middle
    have hlast : (sorted number (items ++ rest) ++ [x]).Perm (x :: sorted number (items ++ rest)) :=
      List.perm_append_singleton _ _
    exact hlast.trans (((sorted_perm number _).cons x).trans hmid.symm)
  · rw [List.pairwise_append]
    refine ⟨sorted_strict h, List.pairwise_singleton _ _, ?_⟩
    intro a ha b hb
    rw [List.mem_singleton.mp hb]
    exact hx a (mem_sorted.mp ha)

/-- What follows an item of a strictly sorted list is what has a greater number. -/
theorem exists_split {items : List A} (hlt : items.Pairwise fun a b => number a < number b)
    {x : A} (hx : x ∈ items) :
    ∃ before, items = before ++ x :: items.filter fun y => decide (number x < number y) := by
  obtain ⟨before, after, rfl⟩ := List.append_of_mem hx
  have hsplit := List.pairwise_append.mp hlt
  have hbefore : before.filter (fun y => decide (number x < number y)) = [] := by
    rw [List.filter_eq_nil_iff]
    intro y hy
    have := hsplit.2.2 y hy x List.mem_cons_self
    simp only [decide_eq_true_eq]
    omega
  have hafter : after.filter (fun y => decide (number x < number y)) = after := by
    rw [List.filter_eq_self]
    intro y hy
    simpa using List.rel_of_pairwise_cons hsplit.2.1 hy
  refine ⟨before, ?_⟩
  rw [List.filter_append, hbefore, List.filter_cons_of_neg (by simp), hafter]
  rfl

end Sequences
