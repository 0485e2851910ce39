import Mathlib.Data.List.Nodup
import Mathlib.Logic.Function.Basic

/-! # Doubly linked lists

    Lists in a heap whose nodes point to their neighbours.  A field of the nodes
    is a map from nodes.  A chain is the list of nodes that the pointers make. -/

namespace LinkedLists

variable {α : Type} [DecidableEq α]

/-! ## Section 1: Pointers -/

structure Links (α : Type) where
  prev : α → Option α
  next : α → Option α

namespace Links

def empty : Links α := ⟨fun _ => none, fun _ => none⟩

def setPrev (links : Links α) (x : α) (y : Option α) : Links α :=
  { links with prev := Function.update links.prev x y }

def setNext (links : Links α) (x : α) (y : Option α) : Links α :=
  { links with next := Function.update links.next x y }

/-- The neighbours of a node are made neighbours of each other. -/
def bypass (links : Links α) (x : α) : Links α :=
  let links := match links.prev x with
    | some p => links.setNext p (links.next x)
    | none => links
  match links.next x with
  | some n => links.setPrev n (links.prev x)
  | none => links

/-- A node is taken out of its list. -/
def unlink (links : Links α) (x : α) : Links α :=
  ((links.bypass x).setPrev x none).setNext x none

/-- A new last node, behind `last`. -/
def append (links : Links α) (last : Option α) (x : α) : Links α :=
  let links := (links.setPrev x last).setNext x none
  match last with
  | some l => links.setNext l (some x)
  | none => links

/-- A new first node, in front of `head`. -/
def push (links : Links α) (head : Option α) (x : α) : Links α :=
  let links := (links.setPrev x none).setNext x head
  match head with
  | some h => links.setPrev h (some x)
  | none => links

end Links

/-- Every node of the list points to the one before it and to the one after it. -/
structure Chain (links : Links α) (xs : List α) : Prop where
  nodup : xs.Nodup
  neighbours : ∀ l x r, xs = l ++ x :: r → links.prev x = l.getLast? ∧ links.next x = r.head?

namespace Chain

variable {links links' : Links α} {xs l r : List α} {x y : α}

theorem nil (links : Links α) : Chain links [] := by
  refine ⟨List.nodup_nil, ?_⟩
  intro l x r h
  simp at h

/-- Pointers of other nodes do not matter. -/
theorem congr (h : Chain links xs)
    (hsame : ∀ x ∈ xs, links'.prev x = links.prev x ∧ links'.next x = links.next x) :
    Chain links' xs := by
  refine ⟨h.nodup, ?_⟩
  intro l x r hxs
  obtain ⟨hprev, hnext⟩ := hsame x (by simp [hxs])
  rw [hprev, hnext]
  exact h.neighbours l x r hxs

/-! ## Section 2: Taking a node out -/

theorem bypass_prev (h : Chain links (l ++ x :: r)) (y : α) :
    (links.bypass x).prev y = if r.head? = some y then l.getLast? else links.prev y := by
  obtain ⟨hprev, hnext⟩ := h.neighbours l x r rfl
  have hnot : l.getLast? ≠ some x := by
    intro hlast
    have hmem : x ∈ l := List.mem_of_getLast? hlast
    have hnodup := h.nodup
    rw [List.nodup_append] at hnodup
    exact hnodup.2.2 x hmem x List.mem_cons_self rfl
  unfold Links.bypass
  rw [hprev]
  rcases hl : l.getLast? with _ | p
  · simp only [hnext, hprev, hl]
    rcases hr : r.head? with _ | n
    · simp
    · by_cases hy : n = y
      · subst hy
        simp [Links.setPrev]
      · simp [Links.setPrev, hy, Function.update_of_ne (Ne.symm hy)]
  · have hp : p ≠ x := fun heq => hnot (heq ▸ hl)
    simp only [Links.setNext, Function.update_of_ne hp.symm, hnext]
    rcases hr : r.head? with _ | n
    · simp
    · by_cases hy : n = y
      · subst hy
        simp [Links.setPrev, hprev, hl]
      · simp [Links.setPrev, hy, Function.update_of_ne (Ne.symm hy)]

theorem bypass_next (h : Chain links (l ++ x :: r)) (y : α) :
    (links.bypass x).next y = if l.getLast? = some y then r.head? else links.next y := by
  obtain ⟨hprev, hnext⟩ := h.neighbours l x r rfl
  have hset : ∀ (m : Links α) (n : Option α),
      (match n with | some n => m.setPrev n (m.prev x) | none => m).next = m.next := by
    intro m n
    cases n <;> rfl
  unfold Links.bypass
  simp only [hset]
  rw [hprev]
  rcases hl : l.getLast? with _ | p
  · simp
  · by_cases hy : p = y
    · subst hy
      simp [Links.setNext, hnext]
    · simp [Links.setNext, hy, Function.update_of_ne (Ne.symm hy)]

theorem bypass (h : Chain links (l ++ x :: r)) : Chain (links.bypass x) (l ++ r) := by
  have hnodup := h.nodup
  refine ⟨hnodup.sublist (by simp), ?_⟩
  intro l' y r' hsplit
  rw [h.bypass_prev, h.bypass_next]
  rcases List.append_eq_append_iff.mp hsplit with ⟨m, hl', hr⟩ | ⟨m, hl, hr'⟩
  · -- behind the node that is taken out
    have hxs : l ++ x :: r = (l ++ x :: m) ++ y :: r' := by simp [hr]
    obtain ⟨hprev, hnext⟩ := h.neighbours _ y r' hxs
    have hnot : l.getLast? ≠ some y := by
      intro hlast
      have hy : y ∈ l := List.mem_of_getLast? hlast
      rw [List.nodup_append] at hnodup
      exact hnodup.2.2 y hy y (by simp [hr]) rfl
    rw [if_neg hnot, hprev, hnext, hl', hr]
    refine ⟨?_, rfl⟩
    cases m with
    | nil => simp
    | cons z m =>
      have hne : z ≠ y := by
        intro heq
        subst heq
        rw [hxs] at hnodup
        have hboth := (List.nodup_append.mp hnodup).2.2 z (by simp) z (by simp)
        exact hboth rfl
      simp [hne, List.getLast?_append, List.getLast?_cons]
  · cases m with
    | nil =>
      -- the first node behind the one that is taken out
      rw [List.nil_append] at hr'
      rw [List.append_nil] at hl
      subst hl
      have hxs : l ++ x :: r = (l ++ [x]) ++ y :: r' := by simp [← hr']
      obtain ⟨hprev, hnext⟩ := h.neighbours _ y r' hxs
      have hnot : l.getLast? ≠ some y := by
        intro hlast
        have hy : y ∈ l := List.mem_of_getLast? hlast
        rw [List.nodup_append] at hnodup
        exact hnodup.2.2 y hy y (by simp [← hr']) rfl
      rw [if_neg hnot, hnext, ← hr']
      simp
    | cons z m =>
      rw [List.cons_append, List.cons.injEq] at hr'
      obtain ⟨rfl, rfl⟩ := hr'
      have hxs : l ++ x :: r = l' ++ y :: (m ++ x :: r) := by simp [hl]
      obtain ⟨hprev, hnext⟩ := h.neighbours _ y _ hxs
      have hnot : r.head? ≠ some y := by
        intro hhead
        have hy : y ∈ r := List.mem_of_head? hhead
        rw [List.nodup_append] at hnodup
        exact hnodup.2.2 y (by simp [hl]) y (by simp [hy]) rfl
      rw [if_neg hnot, hprev, hnext, hl]
      refine ⟨rfl, ?_⟩
      cases m with
      | nil => simp
      | cons z m =>
        have hne : (l' ++ y :: z :: m).getLast? ≠ some y := by
          intro hlast
          have hy : y ∈ z :: m := by
            rw [List.getLast?_append, List.getLast?_cons_cons] at hlast
            have hsome : ((z :: m).getLast?.or l'.getLast?) = some y := hlast
            rcases hz : (z :: m).getLast? with _ | w
            · simp at hz
            · rw [hz, Option.some_or, Option.some.injEq] at hsome
              subst hsome
              exact List.mem_of_getLast? hz
          rw [hxs] at hnodup
          have hcons := (List.nodup_append.mp hnodup).2.1
          exact (List.nodup_cons.mp hcons).1 (List.mem_append_left _ hy)
        rw [if_neg hne]
        rfl

/-- Nodes of other lists are left alone. -/
theorem unlink_other (h : Chain links (l ++ x :: r)) (hy : y ∉ l ++ x :: r) :
    (links.unlink x).prev y = links.prev y ∧ (links.unlink x).next y = links.next y := by
  simp only [List.mem_append, List.mem_cons, not_or] at hy
  have hprev : r.head? ≠ some y := fun hhead => hy.2.2 (List.mem_of_head? hhead)
  have hnext : l.getLast? ≠ some y := fun hlast => hy.1 (List.mem_of_getLast? hlast)
  constructor
  · simp [Links.unlink, Links.setPrev, Links.setNext, Function.update_of_ne hy.2.1, h.bypass_prev, hprev]
  · simp [Links.unlink, Links.setPrev, Links.setNext, Function.update_of_ne hy.2.1, h.bypass_next, hnext]

theorem unlink (h : Chain links (l ++ x :: r)) : Chain (links.unlink x) (l ++ r) := by
  refine h.bypass.congr ?_
  intro y hy
  have hne : y ≠ x := by
    rintro rfl
    have hnodup := h.nodup
    rw [List.nodup_middle, List.nodup_cons] at hnodup
    exact hnodup.1 hy
  simp [Links.unlink, Links.setPrev, Links.setNext, Function.update_of_ne hne]

/-! ## Section 3: Putting a node in -/

theorem append_other (links : Links α) (last : Option α) (hx : y ≠ x) (hlast : last ≠ some y) :
    (links.append last x).prev y = links.prev y ∧ (links.append last x).next y = links.next y := by
  cases last with
  | none => simp [Links.append, Links.setPrev, Links.setNext, Function.update_of_ne hx]
  | some l =>
    have hl : y ≠ l := fun heq => hlast (heq ▸ rfl)
    simp [Links.append, Links.setPrev, Links.setNext, Function.update_of_ne hx,
      Function.update_of_ne hl]

theorem append (h : Chain links xs) (hx : x ∉ xs) :
    Chain (links.append xs.getLast? x) (xs ++ [x]) := by
  refine ⟨List.nodup_append.mpr ⟨h.nodup, List.nodup_singleton x, ?_⟩, ?_⟩
  · intro a ha b hb heq
    rw [List.mem_singleton] at hb
    exact hx (hb ▸ heq ▸ ha)
  · intro l y r hsplit
    rcases List.eq_nil_or_concat r with rfl | ⟨r', z, rfl⟩
    · obtain ⟨rfl, hy⟩ := List.append_inj' hsplit rfl
      cases hy
      rcases hlast : xs.getLast? with _ | last
      · simp [Links.append, Links.setPrev, Links.setNext]
      · have hne : x ≠ last := fun heq => hx (heq ▸ List.mem_of_getLast? hlast)
        simp [Links.append, Links.setPrev, Links.setNext, Function.update_of_ne hne]
    · have hxs : xs = l ++ y :: r' ∧ [x] = [z] :=
        List.append_inj' (by simpa using hsplit) rfl
      obtain ⟨hxs, hz⟩ := hxs
      cases hz
      obtain ⟨hprev, hnext⟩ := h.neighbours l y r' hxs
      have hyx : y ≠ x := by
        rintro rfl
        exact hx (by simp [hxs])
      rcases List.eq_nil_or_concat r' with rfl | ⟨r'', w, rfl⟩
      · have hlast : xs.getLast? = some y := by simp [hxs]
        rw [hlast]
        simp [Links.append, Links.setPrev, Links.setNext, Function.update_of_ne hyx, hprev]
      · have hlast : xs.getLast? = some w := by simp [hxs, List.getLast?_append, List.getLast?_cons]
        have hwy : some w ≠ some y := by
          intro heq
          cases heq
          have hnodup := h.nodup
          rw [hxs, List.nodup_append] at hnodup
          exact (List.nodup_cons.mp hnodup.2.1).1 (by simp)
        rw [hlast]
        obtain ⟨hp, hn⟩ := append_other links (some w) hyx hwy
        rw [hp, hn, hprev, hnext]
        simp

theorem push_other (links : Links α) (head : Option α) (hx : y ≠ x) (hhead : head ≠ some y) :
    (links.push head x).prev y = links.prev y ∧ (links.push head x).next y = links.next y := by
  cases head with
  | none => simp [Links.push, Links.setPrev, Links.setNext, Function.update_of_ne hx]
  | some h =>
    have hh : y ≠ h := fun heq => hhead (heq ▸ rfl)
    simp [Links.push, Links.setPrev, Links.setNext, Function.update_of_ne hx,
      Function.update_of_ne hh]

/-- Only the new node gets a new successor. -/
theorem push_next (links : Links α) (head : Option α) (hx : y ≠ x) :
    (links.push head x).next y = links.next y := by
  cases head <;> simp [Links.push, Links.setPrev, Links.setNext, Function.update_of_ne hx]

theorem push (h : Chain links xs) (hx : x ∉ xs) : Chain (links.push xs.head? x) (x :: xs) := by
  refine ⟨List.nodup_cons.mpr ⟨hx, h.nodup⟩, ?_⟩
  intro l y r hsplit
  cases l with
  | nil =>
    obtain ⟨rfl, rfl⟩ := List.cons.inj hsplit
    rcases hhead : xs.head? with _ | head
    · simp [Links.push, Links.setPrev, Links.setNext]
    · have hne : x ≠ head := fun heq => hx (heq ▸ List.mem_of_head? hhead)
      simp [Links.push, Links.setPrev, Links.setNext, Function.update_of_ne hne]
  | cons z l =>
    obtain ⟨rfl, hxs⟩ := List.cons.inj hsplit
    obtain ⟨hprev, hnext⟩ := h.neighbours l y r hxs
    have hyx : y ≠ x := by
      rintro rfl
      exact hx (by simp [hxs])
    cases l with
    | nil =>
      have hhead : xs.head? = some y := by simp [hxs]
      rw [hhead]
      simp [Links.push, Links.setPrev, Links.setNext, Function.update_of_ne hyx, hnext]
    | cons w l =>
      have hhead : xs.head? = some w := by simp [hxs]
      have hwy : some w ≠ some y := by
        intro heq
        cases heq
        have hnodup := h.nodup
        rw [hxs] at hnodup
        have hcons : (y :: (l ++ y :: r)).Nodup := hnodup
        exact (List.nodup_cons.mp hcons).1 (by simp)
      rw [hhead]
      obtain ⟨hp, hn⟩ := push_other links (some w) hyx hwy
      rw [hp, hn, hprev, hnext]
      simp

end Chain

end LinkedLists
