import Mathlib.Data.List.Basic

/-! # Lines

    A sequence is split at every line feed into the lines that one ends and what
    follows the last of them. -/

namespace Lines

variable {α : Type} [DecidableEq α] {feed : α}

def split (feed : α) : List α → List (List α) × List α
  | [] => ([], [])
  | a :: rest =>
      if a = feed then ([] :: (split feed rest).1, (split feed rest).2)
      else
        match (split feed rest).1 with
        | [] => ([], a :: (split feed rest).2)
        | line :: lines => ((a :: line) :: lines, (split feed rest).2)

theorem split_feed (rest : List α) :
    split feed (feed :: rest) = ([] :: (split feed rest).1, (split feed rest).2) :=
  if_pos rfl

theorem split_cons {a : α} (h : a ≠ feed) (rest : List α) : split feed (a :: rest) =
    match (split feed rest).1 with
    | [] => ([], a :: (split feed rest).2)
    | line :: lines => ((a :: line) :: lines, (split feed rest).2) :=
  if_neg h

theorem split_append {line : List α} (h : feed ∉ line) (rest : List α) :
    split feed (line ++ feed :: rest) = (line :: (split feed rest).1, (split feed rest).2) := by
  induction line with
  | nil => exact split_feed rest
  | cons a line ih =>
    have hne : a ≠ feed := fun heq => h (heq ▸ List.mem_cons_self ..)
    have hline : feed ∉ line := fun hmem => h (List.mem_cons_of_mem _ hmem)
    rw [List.cons_append, split_cons hne, ih hline]

theorem split_last {last : List α} (h : feed ∉ last) : split feed last = ([], last) := by
  induction last with
  | nil => rfl
  | cons a last ih =>
    have hne : a ≠ feed := fun heq => h (heq ▸ List.mem_cons_self ..)
    have hlast : feed ∉ last := fun hmem => h (List.mem_cons_of_mem _ hmem)
    rw [split_cons hne, ih hlast]

omit [DecidableEq α] in
/-- Induction over the lines. -/
theorem induction (feed : α) {motive : List α → Prop} (last : ∀ last, feed ∉ last → motive last)
    (line : ∀ line rest, feed ∉ line → motive rest → motive (line ++ feed :: rest))
    (body : List α) : motive body := by
  induction hlength : body.length using Nat.strongRecOn generalizing body with
  | ind n ih =>
    by_cases hmem : feed ∈ body
    · obtain ⟨front, rest, rfl, hfront⟩ := List.eq_append_cons_of_mem hmem
      apply line front rest hfront
      refine ih rest.length ?_ rest rfl
      rw [← hlength, List.length_append, List.length_cons]
      omega
    · exact last body hmem

/-- The lines with their line feeds. -/
def join (feed : α) (lines : List (List α)) : List α := lines.flatMap (· ++ [feed])

omit [DecidableEq α] in
theorem join_append (lines : List (List α)) (line : List α) :
    join feed (lines ++ [line]) = join feed lines ++ line ++ [feed] := by
  simp [join]

theorem join_split (body : List α) : join feed (split feed body).1 ++ (split feed body).2 = body := by
  induction body using induction feed with
  | last last h => rw [split_last h]; rfl
  | line line rest h ih =>
    rw [split_append h]
    show (line ++ [feed] ++ join feed (split feed rest).1) ++ (split feed rest).2 = _
    rw [List.append_assoc, ih, List.append_assoc]
    rfl

theorem not_mem_line {body line : List α} (hline : line ∈ (split feed body).1) : feed ∉ line := by
  induction body using induction feed with
  | last last h =>
    rw [split_last h] at hline
    cases hline
  | line front rest h ih =>
    rw [split_append h] at hline
    rcases List.mem_cons.mp hline with rfl | hrest
    · exact h
    · exact ih hrest

end Lines
