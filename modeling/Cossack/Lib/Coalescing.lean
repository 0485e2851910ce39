import Mathlib.Data.List.Basic

/-! # Coalesced updates

    A sequence of frames, some of which update a state and some of which mark a
    moment.  Two sequences are alike when they have the same marks, each in the
    same state, and end in the same state.  Replacing neighbouring updates by one
    that does what they do together gives a sequence that is alike. -/

namespace Coalescing

variable {F S : Type} (update : F → Option (S → S))

/-- The state after the frames. -/
def fold : S → List F → S
  | s, [] => s
  | s, f :: rest => fold (((update f).getD id) s) rest

/-- The frames that are no updates, each with the state it comes in. -/
def marks : S → List F → List (F × S)
  | _, [] => []
  | s, f :: rest =>
      match update f with
      | some u => marks (u s) rest
      | none => (f, s) :: marks s rest

def Alike (xs ys : List F) : Prop :=
  ∀ s, marks update s xs = marks update s ys ∧ fold update s xs = fold update s ys

variable {update} {xs ys zs ws : List F}

theorem fold_append (s : S) (xs ys : List F) :
    fold update s (xs ++ ys) = fold update (fold update s xs) ys := by
  induction xs generalizing s with
  | nil => rfl
  | cons f rest ih => exact ih _

theorem marks_append (s : S) (xs ys : List F) :
    marks update s (xs ++ ys) = marks update s xs ++ marks update (fold update s xs) ys := by
  induction xs generalizing s with
  | nil => rfl
  | cons f rest ih =>
    cases hf : update f with
    | none => simp [marks, fold, hf, ih]
    | some u => simp [marks, fold, hf, ih]

theorem Alike.refl (xs : List F) : Alike update xs xs := fun _ => ⟨rfl, rfl⟩

theorem Alike.trans (h : Alike update xs ys) (h' : Alike update ys zs) : Alike update xs zs :=
  fun s => ⟨(h s).1.trans (h' s).1, (h s).2.trans (h' s).2⟩

theorem Alike.append (h : Alike update xs ys) (h' : Alike update zs ws) :
    Alike update (xs ++ zs) (ys ++ ws) := by
  intro s
  obtain ⟨hmarks, hfold⟩ := h s
  obtain ⟨hmarks', hfold'⟩ := h' (fold update s ys)
  constructor
  · rw [marks_append, marks_append, hmarks, hfold, hmarks']
  · rw [fold_append, fold_append, hfold, hfold']

/-- Two updates and one that does what they do. -/
theorem alike_merge {f g m : F} {u v w : S → S} (hf : update f = some u) (hg : update g = some v)
    (hm : update m = some w) (hcomp : ∀ s, w s = v (u s)) : Alike update [f, g] [m] := by
  intro s
  simp [marks, fold, hf, hg, hm, hcomp]

/-- A sequence has been carried out as far as another, up to some of the marks
    that are still to come. -/
theorem Alike.marks_prefix (h : Alike update xs (ys ++ zs)) (s : S) :
    marks update s ys <+: marks update s xs := by
  rw [(h s).1, marks_append]
  exact List.prefix_append _ _

end Coalescing
