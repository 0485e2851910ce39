import Mathlib.Data.List.Nodup

/-! # Sibling nodes

    The children of one parent node as a list without repetitions: the neighbours
    of a node, `insertBefore` with its removal from the old place, and the nodes
    between two markers. -/

namespace Siblings

variable {α : Type} [DecidableEq α]

/-! ## Section 1: Operations -/

/-- `nextSibling` -/
def next : List α → α → Option α
  | [], _ => none
  | x :: rest, n => if x = n then rest.head? else next rest n

/-- `previousSibling` -/
def previous (l : List α) (n : α) : Option α := next l.reverse n

/-- `removeChild` -/
def remove (l : List α) (n : α) : List α := l.filter fun x => x ≠ n

/-- Put a node before another one, or at the end. -/
def put (l : List α) (n : α) : Option α → List α
  | none => l ++ [n]
  | some ref => l.takeWhile (fun x => x ≠ ref) ++ n :: l.dropWhile fun x => x ≠ ref

/-- `insertBefore`: a node that is inserted before itself stays. -/
def insertBefore (l : List α) (n : α) (ref : Option α) : List α :=
  put (remove l n) n (if ref = some n then next l n else ref)

/-- The nodes from `start` to `stop`, collected one sibling after the other. -/
def segment (l : List α) (start stop : α) : List α :=
  (l.dropWhile fun x => x ≠ start).takeWhile (fun x => x ≠ stop) ++ [stop]

/-- The nodes strictly between `start` and `stop`. -/
def between (l : List α) (start stop : α) : List α :=
  ((l.dropWhile fun x => x ≠ start).drop 1).takeWhile fun x => x ≠ stop

/-- Move the nodes from `start` to `stop` behind `after`. -/
def moveAfter (l : List α) (start stop after : α) : List α :=
  let ref := next l after
  (segment l start stop).foldl (fun l n => insertBefore l n ref) l

/-! ## Section 2: A node and its neighbours -/

variable {a b : List α} {n ref : α}

theorem next_append (h : n ∉ a) : next (a ++ n :: b) n = b.head? := by
  induction a with
  | nil => simp [next]
  | cons x a ih =>
    obtain ⟨hne, hnot⟩ := not_or.mp (List.mem_cons.not.mp h)
    rw [List.cons_append, next, if_neg (Ne.symm hne), ih hnot]

theorem previous_append (h : n ∉ b) : previous (a ++ n :: b) n = a.getLast? := by
  have hreverse : (a ++ n :: b).reverse = b.reverse ++ n :: a.reverse := by simp
  rw [previous, hreverse, next_append (by simpa using h), List.head?_reverse]

theorem takeWhile_append (h : ref ∉ a) : (a ++ ref :: b).takeWhile (fun x => x ≠ ref) = a := by
  induction a with
  | nil => simp
  | cons x a ih =>
    obtain ⟨hne, hnot⟩ := not_or.mp (List.mem_cons.not.mp h)
    rw [List.cons_append, List.takeWhile_cons_of_pos (by simpa using Ne.symm hne), ih hnot]

theorem dropWhile_append (h : ref ∉ a) :
    (a ++ ref :: b).dropWhile (fun x => x ≠ ref) = ref :: b := by
  induction a with
  | nil => simp
  | cons x a ih =>
    obtain ⟨hne, hnot⟩ := not_or.mp (List.mem_cons.not.mp h)
    rw [List.cons_append, List.dropWhile_cons_of_pos (by simpa using Ne.symm hne), ih hnot]

theorem put_append (h : ref ∉ a) : put (a ++ ref :: b) n (some ref) = a ++ n :: ref :: b := by
  rw [put, takeWhile_append h, dropWhile_append h]

@[simp] theorem remove_append (a b : List α) (n : α) : remove (a ++ b) n = remove a n ++ remove b n :=
  List.filter_append ..

theorem remove_cons_self (n : α) (a : List α) : remove (n :: a) n = remove a n := by
  simp [remove]

theorem remove_cons_ne {x : α} (h : x ≠ n) (a : List α) : remove (x :: a) n = x :: remove a n := by
  simp [remove, h]

theorem remove_of_not_mem (h : n ∉ a) : remove a n = a := by
  refine List.filter_eq_self.mpr fun x hx => ?_
  have hne : x ≠ n := fun heq => h (heq ▸ hx)
  simpa using hne

theorem mem_remove {x : α} : x ∈ remove a n ↔ x ∈ a ∧ x ≠ n := by simp [remove]

/-- A node leaves its place, wherever it is, for the one before `ref`. -/
theorem insertBefore_append (hne : n ≠ ref) (h : ref ∉ a) :
    insertBefore (a ++ ref :: b) n (some ref) = remove a n ++ n :: ref :: remove b n := by
  have hput : ref ∉ remove a n := fun hmem => h (mem_remove.mp hmem).1
  rw [insertBefore, if_neg (by simpa using Ne.symm hne), remove_append,
    remove_cons_ne (Ne.symm hne), put_append hput]

theorem perm_insertBefore (hne : n ≠ ref) (h : ref ∉ a) :
    (insertBefore (a ++ ref :: b) n (some ref)).Perm (n :: remove (a ++ ref :: b) n) := by
  rw [insertBefore_append hne h, remove_append, remove_cons_ne (Ne.symm hne)]
  exact List.perm_middle

theorem nodup_insertBefore (hne : n ≠ ref) (hnodup : (a ++ ref :: b).Nodup) :
    (insertBefore (a ++ ref :: b) n (some ref)).Nodup := by
  have href : ref ∉ a := fun hmem =>
    (List.nodup_append.mp hnodup).2.2 ref hmem ref List.mem_cons_self rfl
  refine (perm_insertBefore hne href).nodup_iff.mpr (List.nodup_cons.mpr ⟨?_, hnodup.filter _⟩)
  simp [mem_remove]

/-! ## Section 3: The nodes between two markers -/

section segments
variable {start stop : α} {inner : List α}

theorem segment_append (hstart : start ∉ a) (hne : start ≠ stop) (hstop : stop ∉ inner) :
    segment (a ++ start :: (inner ++ stop :: b)) start stop = start :: (inner ++ [stop]) := by
  rw [segment, dropWhile_append hstart, List.takeWhile_cons_of_pos (by simpa using hne),
    takeWhile_append hstop]
  rfl

theorem between_append (hstart : start ∉ a) (hstop : stop ∉ inner) :
    between (a ++ start :: (inner ++ stop :: b)) start stop = inner := by
  rw [between, dropWhile_append hstart, List.drop_one, List.tail_cons, takeWhile_append hstop]

/-- Nodes that stand behind `ref` go before it, in their order. -/
theorem foldl_insertBefore (moved : List α) :
    ∀ (a b c : List α), (a ++ ref :: (b ++ moved ++ c)).Nodup →
      moved.foldl (fun l n => insertBefore l n (some ref)) (a ++ ref :: (b ++ moved ++ c)) =
        a ++ moved ++ ref :: (b ++ c) := by
  induction moved with
  | nil => intro a b c _; simp
  | cons n moved ih =>
    intro a b c hnodup
    have hsplit : a ++ ref :: (b ++ n :: moved ++ c) = (a ++ ref :: b) ++ n :: (moved ++ c) := by simp
    have hn : n ∉ a ++ ref :: b ∧ n ∉ moved ++ c := by
      rw [hsplit] at hnodup
      obtain ⟨-, hrest, hdisjoint⟩ := List.nodup_append.mp hnodup
      exact ⟨fun hmem => hdisjoint n hmem n List.mem_cons_self rfl, (List.nodup_cons.mp hrest).1⟩
    obtain ⟨⟨ha, href, hb⟩, hmoved, hc⟩ :
        (n ∉ a ∧ n ≠ ref ∧ n ∉ b) ∧ n ∉ moved ∧ n ∉ c := by simpa using hn
    have hrefa : ref ∉ a := fun hmem =>
      (List.nodup_append.mp hnodup).2.2 ref hmem ref List.mem_cons_self rfl
    have hstep : insertBefore (a ++ ref :: (b ++ n :: moved ++ c)) n (some ref) =
        (a ++ [n]) ++ ref :: (b ++ moved ++ c) := by
      rw [insertBefore_append href hrefa]
      simp [remove_of_not_mem ha, remove_of_not_mem hb, remove_of_not_mem hmoved,
        remove_of_not_mem hc, remove_cons_self]
    have hperm : ((ref :: b) ++ n :: (moved ++ c)).Perm (n :: ((ref :: b) ++ (moved ++ c))) :=
      List.perm_middle
    have hnext : ((a ++ [n]) ++ ref :: (b ++ moved ++ c)).Nodup := by
      refine hnodup.perm ?_
      simpa using hperm.append_left a
    rw [List.foldl_cons, hstep, ih (a ++ [n]) b c hnext]
    simp

/-- A segment behind another one changes places with it. -/
theorem moveAfter_append {after : α} {c : List α} (hb : b ≠ [])
    (hnodup : (a ++ after :: (b ++ start :: (inner ++ stop :: c))).Nodup) :
    moveAfter (a ++ after :: (b ++ start :: (inner ++ stop :: c))) start stop after =
      a ++ after :: (start :: (inner ++ stop :: (b ++ c))) := by
  obtain ⟨ref, rest, rfl⟩ := List.exists_cons_of_ne_nil hb
  have hafter : after ∉ a := fun hmem =>
    (List.nodup_append.mp hnodup).2.2 after hmem after List.mem_cons_self rfl
  have hsplit : a ++ after :: (ref :: rest ++ start :: (inner ++ stop :: c)) =
      (a ++ after :: ref :: rest) ++ start :: (inner ++ stop :: c) := by simp
  have hmarkers : start ∉ a ++ after :: ref :: rest ∧ start ≠ stop ∧ stop ∉ inner := by
    rw [hsplit] at hnodup
    obtain ⟨-, hrest, hdisjoint⟩ := List.nodup_append.mp hnodup
    obtain ⟨hstart, hinner⟩ := List.nodup_cons.mp hrest
    refine ⟨fun hmem => hdisjoint start hmem start List.mem_cons_self rfl, ?_, ?_⟩
    · rintro rfl
      simp at hstart
    · exact fun hmem => (List.nodup_append.mp hinner).2.2 stop hmem stop List.mem_cons_self rfl
  have hsegment := segment_append (b := c) hmarkers.1 hmarkers.2.1 hmarkers.2.2
  rw [← hsplit] at hsegment
  have hnext : next (a ++ after :: (ref :: rest ++ start :: (inner ++ stop :: c))) after = some ref :=
    next_append hafter
  have hshape : a ++ after :: (ref :: rest ++ start :: (inner ++ stop :: c)) =
      (a ++ [after]) ++ ref :: (rest ++ (start :: (inner ++ [stop])) ++ c) := by simp
  rw [moveAfter, hsegment, hnext]
  show (start :: (inner ++ [stop])).foldl (fun l n => insertBefore l n (some ref)) _ = _
  rw [hshape] at hnodup ⊢
  rw [foldl_insertBefore _ _ _ _ hnodup]
  simp

/-- The nodes between two markers are taken away one after the other. -/
theorem foldl_remove (removed : List α) : ∀ (a c : List α), (a ++ removed ++ c).Nodup →
    removed.foldl remove (a ++ removed ++ c) = a ++ c := by
  induction removed with
  | nil => intro a c _; simp
  | cons n removed ih =>
    intro a c hnodup
    have hsplit : a ++ n :: removed ++ c = a ++ n :: (removed ++ c) := by simp
    rw [hsplit] at hnodup
    obtain ⟨-, hrest, hdisjoint⟩ := List.nodup_append.mp hnodup
    have ha : n ∉ a := fun hmem => hdisjoint n hmem n List.mem_cons_self rfl
    have hstep : remove (a ++ n :: removed ++ c) n = a ++ removed ++ c := by
      rw [hsplit, remove_append, remove_cons_self, remove_of_not_mem ha,
        remove_of_not_mem (List.nodup_cons.mp hrest).1, List.append_assoc]
    rw [List.foldl_cons, hstep, ih a c]
    rw [List.append_assoc]
    exact hnodup.sublist ((List.sublist_cons_self n (removed ++ c)).append_left a)

end segments

end Siblings
