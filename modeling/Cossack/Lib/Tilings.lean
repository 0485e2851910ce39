import Mathlib.Data.List.Basic
import Mathlib.Data.List.TakeDrop

/-! # Tilings

    Ranges that follow one another without a gap and without an overlap, none of
    them empty.  The parts of a list they name are the list again. -/

namespace Tilings

/-- From `a` to `b`, one range after the other. -/
def Tiles : Nat → List (Nat × Nat) → Nat → Prop
  | a, [], b => a = b
  | a, (first, last) :: rest, b => first = a ∧ first < last ∧ Tiles last rest b

theorem Tiles.snoc {a b c : Nat} {ranges : List (Nat × Nat)} (h : Tiles a ranges b) (hlt : b < c) :
    Tiles a (ranges ++ [(b, c)]) c := by
  induction ranges generalizing a with
  | nil =>
    have hab : a = b := h
    exact ⟨hab.symm, hlt, rfl⟩
  | cons range rest ih => exact ⟨h.1, h.2.1, ih h.2.2⟩

theorem Tiles.le {a b : Nat} {ranges : List (Nat × Nat)} (h : Tiles a ranges b) : a ≤ b := by
  induction ranges generalizing a with
  | nil => exact Nat.le_of_eq h
  | cons range rest ih =>
    obtain ⟨rfl, hlt, hrest⟩ := h
    have hle := ih hrest
    omega

/-- The parts of a list, one after the other. -/
theorem Tiles.flatten {α : Type} {a b : Nat} {ranges : List (Nat × Nat)} (h : Tiles a ranges b)
    (l : List α) :
    ranges.flatMap (fun range => (l.drop range.1).take (range.2 - range.1)) =
      (l.drop a).take (b - a) := by
  induction ranges generalizing a with
  | nil =>
    have hab : a = b := h
    simp [hab]
  | cons range rest ih =>
    obtain ⟨rfl, hlt, hrest⟩ := h
    have hle := hrest.le
    rw [List.flatMap_cons, ih hrest]
    have hsplit : b - range.1 = (range.2 - range.1) + (b - range.2) := by omega
    rw [hsplit, List.take_add, List.drop_drop, Nat.add_sub_cancel' (Nat.le_of_lt hlt)]

end Tilings
