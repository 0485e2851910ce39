import Mathlib.Data.List.Basic

/-! # Walks along labels

    A path is a list of labels, and a step function says where a label leads from
    a node.  Two step functions lead a path to different nodes only by a step on
    which they differ. -/

namespace Walks

variable {V L : Type} {step step' : V → L → V} {v : V}

/-- Where a path leads from a node. -/
def follow (step : V → L → V) (v : V) (path : List L) : V := path.foldl step v

@[simp] theorem follow_nil : follow step v [] = v := rfl

@[simp] theorem follow_append (path path' : List L) :
    follow step v (path ++ path') = follow step (follow step v path) path' :=
  List.foldl_append

@[simp] theorem follow_cons (key : L) (path : List L) :
    follow step v (key :: path) = follow step (step v key) path := rfl

/-- Where the ends differ, the walks part at one step of the path, at a node both
    have reached. -/
theorem exists_parting {path : List L} (h : follow step v path ≠ follow step' v path) :
    ∃ before key after, path = before ++ key :: after ∧
      follow step' v before = follow step v before ∧
      step (follow step v before) key ≠ step' (follow step v before) key := by
  induction path generalizing v with
  | nil => exact absurd rfl h
  | cons key path ih =>
    by_cases hstep : step v key = step' v key
    · have hrest : follow step (step v key) path ≠ follow step' (step v key) path := by
        rw [follow_cons, follow_cons, ← hstep] at h
        exact h
      obtain ⟨before, next, after, rfl, hsame, hparts⟩ := ih hrest
      refine ⟨key :: before, next, after, rfl, ?_, hparts⟩
      rw [follow_cons, ← hstep]
      exact hsame
    · exact ⟨[], key, path, rfl, rfl, hstep⟩

/-- A node that only the whole path leads to is reached under every step function
    that differs from the first one at that node alone. -/
theorem follow_of_alone {path : List L}
    (hothers : ∀ w, w ≠ follow step v path → ∀ key, step' w key = step w key)
    (halone : ∀ before, follow step v before = follow step v path → before = path) :
    follow step' v path = follow step v path := by
  by_contra hne
  obtain ⟨before, key, after, hpath, -, hparts⟩ := exists_parting (Ne.symm hne)
  have hbefore : before = path := by
    refine halone before ?_
    by_contra hother
    exact hparts (hothers _ hother key).symm
  have hlength := congrArg List.length hpath
  rw [hbefore, List.length_append, List.length_cons] at hlength
  omega

end Walks
