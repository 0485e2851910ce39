import Mathlib

/-! # Binary min-heaps in a list

    An entry that is pushed or moved down leaves a hole at its place, and the
    entries on the way move into the hole; the entry is put in the last hole. -/

namespace Cossack.MinHeaps

variable {α K : Type} [LinearOrder K] (key : α → K)

/-! ## Section 1: Operations -/

/-- The place above a place other than the first. -/
def parent (i : Nat) : Nat := (i - 1) / 2

/-- Move `e` up from the hole, at most `fuel` times. -/
def siftUp (e : α) : Nat → Nat → List α → List α
  | 0, hole, h => h.set hole e
  | fuel + 1, hole, h =>
      if hole = 0 then h.set hole e
      else
        match h[parent hole]? with
        | none => h.set hole e
        | some p => if key p ≤ key e then h.set hole e else siftUp e fuel (parent hole) (h.set hole p)

def push (h : List α) (e : α) : List α := siftUp key e h.length h.length (h ++ [e])

/-- The child with the lower key, and its place. -/
def lowerChild (h : List α) (hole : Nat) : Option (Nat × α) :=
  match h[2 * hole + 1]?, h[2 * hole + 2]? with
  | none, _ => none
  | some left, none => some (2 * hole + 1, left)
  | some left, some right =>
      if key right < key left then some (2 * hole + 2, right) else some (2 * hole + 1, left)

/-- Move `e` down from the hole, at most `fuel` times. -/
def siftDown (e : α) : Nat → Nat → List α → List α
  | 0, hole, h => h.set hole e
  | fuel + 1, hole, h =>
      match lowerChild key h hole with
      | none => h.set hole e
      | some (child, c) => if key e ≤ key c then h.set hole e else siftDown e fuel child (h.set hole c)

/-- The first entry, and the heap without it. -/
def pop (h : List α) : Option α × List α :=
  match h.getLast? with
  | none => (none, h)
  | some last =>
      let rest := h.dropLast
      (h.head?, if rest = [] then rest else siftDown key last rest.length 0 rest)

/-! ## Section 2: The same entries -/

theorem perm_move {h : List α} {hole j : Nat} {e p : α} (hhole : hole < h.length) (hne : j ≠ hole)
    (hp : h[j]? = some p) : ((h.set hole p).set j e).Perm (h.set hole e) := by
  obtain ⟨hj, rfl⟩ := List.getElem?_eq_some_iff.mp hp
  have hperm := @List.set_set_perm _ (h.set hole e) hole j (by simpa using hhole) (by simpa using hj)
  simpa [List.getElem_set_ne (Ne.symm hne)] using hperm

theorem perm_siftUp (e : α) {fuel hole : Nat} {h : List α} (hhole : hole < h.length) :
    (siftUp key e fuel hole h).Perm (h.set hole e) := by
  induction fuel generalizing hole h with
  | zero => exact .refl _
  | succ fuel ih =>
    rw [siftUp]
    split
    · exact .refl _
    · split
      · exact .refl _
      · rename_i hne p hp
        split
        · exact .refl _
        · have hlt : parent hole < hole := by unfold parent; omega
          exact (ih (by rw [List.length_set]; omega)).trans (perm_move hhole (Nat.ne_of_lt hlt) hp)

theorem lowerChild_spec {h : List α} {hole child : Nat} {c : α} (hc : lowerChild key h hole = some (child, c)) :
    h[child]? = some c ∧ (child = 2 * hole + 1 ∨ child = 2 * hole + 2) ∧
    ∀ i a, i = 2 * hole + 1 ∨ i = 2 * hole + 2 → h[i]? = some a → key c ≤ key a := by
  unfold lowerChild at hc
  split at hc
  · cases hc
  · rename_i left hleft hright
    cases hc
    refine ⟨hleft, .inl rfl, ?_⟩
    rintro i a (rfl | rfl) ha
    · exact le_of_eq (congrArg key (Option.some.inj (hleft.symm.trans ha)))
    · exact absurd (hright.symm.trans ha) nofun
  · rename_i left right hleft hright
    split at hc
    · rename_i hlt
      cases hc
      refine ⟨hright, .inr rfl, ?_⟩
      rintro i a (rfl | rfl) ha
      · cases hleft.symm.trans ha
        exact le_of_lt hlt
      · exact le_of_eq (congrArg key (Option.some.inj (hright.symm.trans ha)))
    · rename_i hle
      cases hc
      refine ⟨hleft, .inl rfl, ?_⟩
      rintro i a (rfl | rfl) ha
      · exact le_of_eq (congrArg key (Option.some.inj (hleft.symm.trans ha)))
      · cases hright.symm.trans ha
        exact not_lt.mp hle

theorem lowerChild_none {h : List α} {hole : Nat} (hc : lowerChild key h hole = none) :
    h.length ≤ 2 * hole + 1 := by
  unfold lowerChild at hc
  split at hc
  · rename_i hleft
    exact List.getElem?_eq_none_iff.mp hleft
  · cases hc
  · split at hc <;> cases hc

theorem perm_siftDown (e : α) {fuel hole : Nat} {h : List α} (hhole : hole < h.length) :
    (siftDown key e fuel hole h).Perm (h.set hole e) := by
  induction fuel generalizing hole h with
  | zero => exact .refl _
  | succ fuel ih =>
    rw [siftDown]
    split
    · exact .refl _
    · rename_i child c hc
      obtain ⟨hat, hchild, -⟩ := lowerChild_spec key hc
      split
      · exact .refl _
      · have hlt : child < h.length := (List.getElem?_eq_some_iff.mp hat).choose
        have hne : child ≠ hole := by omega
        exact (ih (by rwa [List.length_set])).trans (perm_move hhole hne hat)

theorem perm_push (h : List α) (e : α) : (push key h e).Perm (e :: h) := by
  have hset : (h ++ [e]).set h.length e = h ++ [e] := by simp
  have hhole : h.length < (h ++ [e]).length := by simp
  have hperm : (push key h e).Perm ((h ++ [e]).set h.length e) := perm_siftUp key e hhole
  rw [hset] at hperm
  exact hperm.trans List.perm_append_comm

theorem perm_pop {h : List α} {e : α} {rest : List α} (hpop : pop key h = (some e, rest)) : h.Perm (e :: rest) := by
  unfold pop at hpop
  split at hpop
  · cases hpop
  · rename_i last hlast
    obtain ⟨ys, rfl⟩ := List.getLast?_eq_some_iff.mp hlast
    rw [List.dropLast_concat] at hpop
    cases ys with
    | nil =>
      cases hpop
      exact .refl _
    | cons first ys =>
      cases hpop
      rw [if_neg (List.cons_ne_nil _ _)]
      have hhole : 0 < (e :: ys).length := Nat.succ_pos _
      exact (List.perm_append_comm.trans (perm_siftDown key last hhole).symm).cons e

/-! ## Section 3: The order -/

/-- Every entry is at or above the one over it. -/
def Ordered (h : List α) : Prop :=
  ∀ i a b, 0 < i → h[parent i]? = some a → h[i]? = some b → key a ≤ key b

/-- What `siftUp` needs: only the entry and the one over the hole may be out of
    order. -/
structure UpOrder (e : α) (hole : Nat) (h : List α) : Prop where
  except : ∀ i a b, 0 < i → i ≠ hole → parent i ≠ hole → h[parent i]? = some a → h[i]? = some b → key a ≤ key b
  grand : ∀ i a b, 0 < hole → 0 < i → parent i = hole → h[parent hole]? = some a → h[i]? = some b → key a ≤ key b
  below : ∀ i b, 0 < i → parent i = hole → h[i]? = some b → key e ≤ key b

/-- What `siftDown` needs: only the entry and the ones under the hole may be out
    of order. -/
structure DownOrder (e : α) (hole : Nat) (h : List α) : Prop where
  except : ∀ i a b, 0 < i → i ≠ hole → parent i ≠ hole → h[parent i]? = some a → h[i]? = some b → key a ≤ key b
  grand : ∀ i a b, 0 < hole → 0 < i → parent i = hole → h[parent hole]? = some a → h[i]? = some b → key a ≤ key b
  above : ∀ a, 0 < hole → h[parent hole]? = some a → key a ≤ key e

section
variable {key} {e : α} {hole : Nat} {h : List α}

/-- The entry fits in the hole. -/
theorem ordered_set (hhole : hole < h.length)
    (except : ∀ i a b, 0 < i → i ≠ hole → parent i ≠ hole → h[parent i]? = some a → h[i]? = some b → key a ≤ key b)
    (above : ∀ a, 0 < hole → h[parent hole]? = some a → key a ≤ key e)
    (below : ∀ i b, 0 < i → parent i = hole → h[i]? = some b → key e ≤ key b) : Ordered key (h.set hole e) := by
  intro i a b hi ha hb
  have hself : (h.set hole e)[hole]? = some e := by simp [hhole]
  by_cases hih : i = hole
  · subst hih
    have hne : i ≠ parent i := by unfold parent; omega
    rw [hself] at hb
    rw [List.getElem?_set_ne hne] at ha
    cases hb
    exact above a hi ha
  · rw [List.getElem?_set_ne (Ne.symm hih)] at hb
    by_cases hph : parent i = hole
    · rw [hph, hself] at ha
      cases ha
      exact below i b hi hph hb
    · rw [List.getElem?_set_ne (Ne.symm hph)] at ha
      exact except i a b hi hih hph ha hb

theorem UpOrder.move (o : UpOrder key e hole h) (hpos : 0 < hole) {p : α}
    (hp : h[parent hole]? = some p) (hlt : key e < key p) : UpOrder key e (parent hole) (h.set hole p) := by
  have hup : parent hole < hole := by unfold parent; omega
  have hin : ∀ j b, j ≠ hole → (h.set hole p)[j]? = some b → h[j]? = some b := fun j b hj hb => by
    rwa [List.getElem?_set_ne (Ne.symm hj)] at hb
  have hself : ∀ b, (h.set hole p)[hole]? = some b → b = p := fun b hb => by
    rw [List.getElem?_set, if_pos rfl] at hb
    split at hb
    · exact (Option.some.inj hb).symm
    · cases hb
  have hchild : ∀ i b, 0 < i → i ≠ hole → parent i = parent hole → h[i]? = some b → key p ≤ key b :=
    fun i b hi hih hpi hb => o.except i p b hi hih (by omega) (by rwa [hpi]) hb
  have hover : ∀ a, 0 < parent hole → h[parent (parent hole)]? = some a → key a ≤ key p := fun a hpos' ha =>
    o.except (parent hole) a p hpos' (by omega) (by unfold parent at *; omega) ha hp
  constructor
  · intro i a b hi hip hpi ha hb
    have hih : i ≠ hole := fun heq => hpi (by rw [heq])
    have hb' := hin i b hih hb
    by_cases hph : parent i = hole
    · rw [hph] at ha
      rw [hself a ha]
      exact o.grand i p b hpos hi hph hp hb'
    · exact o.except i a b hi hih hph (hin _ a hph ha) hb'
  · intro i a b hpos' hi hpi ha hb
    have hpp : parent (parent hole) ≠ hole := by unfold parent at *; omega
    have ha' := hin _ a hpp ha
    by_cases hih : i = hole
    · subst hih
      rw [hself b hb]
      exact hover a hpos' ha'
    · exact le_trans (hover a hpos' ha') (hchild i b hi hih hpi (hin i b hih hb))
  · intro i b hi hpi hb
    by_cases hih : i = hole
    · subst hih
      rw [hself b hb]
      exact le_of_lt hlt
    · exact le_trans (le_of_lt hlt) (hchild i b hi hih hpi (hin i b hih hb))

theorem ordered_siftUp {fuel : Nat} (hfuel : hole ≤ fuel) (hhole : hole < h.length) (o : UpOrder key e hole h) :
    Ordered key (siftUp key e fuel hole h) := by
  induction fuel generalizing hole h with
  | zero =>
    obtain rfl : hole = 0 := Nat.le_zero.mp hfuel
    exact ordered_set hhole o.except (fun _ hpos => absurd hpos (Nat.lt_irrefl 0)) o.below
  | succ fuel ih =>
    rw [siftUp]
    split
    · rename_i hzero
      exact ordered_set hhole o.except (fun _ hpos => absurd hzero (Nat.ne_of_gt hpos)) o.below
    · rename_i hne
      have hup : parent hole < hole := by unfold parent; omega
      split
      · rename_i hnone
        exact absurd (List.getElem?_eq_none_iff.mp hnone) (by omega)
      · rename_i p hp
        split
        · rename_i hle
          refine ordered_set hhole o.except (fun a _ ha => ?_) o.below
          cases hp.symm.trans ha
          exact hle
        · rename_i hgt
          exact ih (by omega) (by rw [List.length_set]; omega) (o.move (by omega) hp (not_le.mp hgt))

theorem DownOrder.move (o : DownOrder key e hole h) {child : Nat} {c : α}
    (hc : lowerChild key h hole = some (child, c)) (hlt : key c < key e) : DownOrder key e child (h.set hole c) := by
  obtain ⟨hat, hplace, hleast⟩ := lowerChild_spec key hc
  have hparent : parent child = hole := by unfold parent; omega
  have hin : ∀ j b, j ≠ hole → (h.set hole c)[j]? = some b → h[j]? = some b := fun j b hj hb => by
    rwa [List.getElem?_set_ne (Ne.symm hj)] at hb
  have hself : ∀ b, (h.set hole c)[hole]? = some b → b = c := fun b hb => by
    rw [List.getElem?_set, if_pos rfl] at hb
    split at hb
    · exact (Option.some.inj hb).symm
    · cases hb
  constructor
  · intro i a b hi hic hpi ha hb
    by_cases hih : i = hole
    · subst hih
      have hne : parent i ≠ i := by unfold parent; omega
      rw [hself b hb]
      exact o.grand child a c hi (by omega) hparent (hin _ a hne ha) hat
    · have hb' := hin i b hih hb
      by_cases hph : parent i = hole
      · rw [hph] at ha
        rw [hself a ha]
        exact hleast i b (by unfold parent at hph; omega) hb'
      · exact o.except i a b hi hih hph (hin _ a hph ha) hb'
  · intro i a b _ hi hpi ha hb
    rw [hparent] at ha
    rw [hself a ha]
    have hih : i ≠ hole := by unfold parent at hpi; omega
    exact o.except i c b hi hih (by omega) (by rwa [hpi]) (hin i b hih hb)
  · intro a _ ha
    rw [hparent] at ha
    rw [hself a ha]
    exact le_of_lt hlt

theorem ordered_siftDown {fuel : Nat} (hfuel : h.length ≤ hole + fuel) (hhole : hole < h.length)
    (o : DownOrder key e hole h) : Ordered key (siftDown key e fuel hole h) := by
  induction fuel generalizing hole h with
  | zero => exact absurd hhole (by omega)
  | succ fuel ih =>
    rw [siftDown]
    split
    · rename_i hnone
      have hlen := lowerChild_none key hnone
      refine ordered_set hhole o.except o.above (fun i b hi hph hb => ?_)
      have hlt : i < h.length := (List.getElem?_eq_some_iff.mp hb).choose
      unfold parent at hph
      omega
    · rename_i child c hc
      obtain ⟨hat, hplace, hleast⟩ := lowerChild_spec key hc
      split
      · rename_i hle
        refine ordered_set hhole o.except o.above (fun i b hi hph hb => ?_)
        exact le_trans hle (hleast i b (by unfold parent at hph; omega) hb)
      · rename_i hgt
        have hlt : child < h.length := (List.getElem?_eq_some_iff.mp hat).choose
        exact ih (by rw [List.length_set]; omega) (by rwa [List.length_set]) (o.move hc (not_le.mp hgt))

theorem ordered_push (ho : Ordered key h) (e : α) : Ordered key (push key h e) := by
  have hold : ∀ i b, i ≠ h.length → (h ++ [e])[i]? = some b → h[i]? = some b := by
    intro i b hne hb
    have hlt : i < (h ++ [e]).length := (List.getElem?_eq_some_iff.mp hb).choose
    rw [List.length_append, List.length_singleton] at hlt
    rwa [List.getElem?_append_left (by omega)] at hb
  have hout : ∀ i b, 0 < i → parent i = h.length → (h ++ [e])[i]? ≠ some b := by
    intro i b hi hpi hb
    have hlt : i < (h ++ [e]).length := (List.getElem?_eq_some_iff.mp hb).choose
    rw [List.length_append, List.length_singleton] at hlt
    unfold parent at hpi
    omega
  refine ordered_siftUp (Nat.le_refl _) (by simp) ⟨?_, ?_, ?_⟩
  · intro i a b hi hne hpi ha hb
    exact ho i a b hi (hold _ a hpi ha) (hold i b hne hb)
  · intro i a b _ hi hpi _ hb
    exact absurd hb (hout i b hi hpi)
  · intro i b hi hpi hb
    exact absurd hb (hout i b hi hpi)

theorem ordered_pop (ho : Ordered key h) : Ordered key (pop key h).2 := by
  unfold pop
  split
  · exact ho
  · rename_i last hlast
    obtain ⟨ys, rfl⟩ := List.getLast?_eq_some_iff.mp hlast
    rw [List.dropLast_concat]
    have hpart : ∀ i b, ys[i]? = some b → (ys ++ [last])[i]? = some b := fun i b hb => by
      rwa [List.getElem?_append_left (List.getElem?_eq_some_iff.mp hb).choose]
    dsimp only
    split
    · rename_i hnil
      rw [hnil]
      intro i a b _ ha _
      cases ha
    · rename_i hne
      refine ordered_siftDown (by omega) (List.length_pos_iff.mpr hne) ⟨?_, ?_, ?_⟩
      · intro i a b hi _ _ ha hb
        exact ho i a b hi (hpart _ a ha) (hpart i b hb)
      · intro i a b hpos
        exact absurd hpos (Nat.lt_irrefl 0)
      · intro a hpos
        exact absurd hpos (Nat.lt_irrefl 0)

/-- The first entry has the least key. -/
theorem head_le (ho : Ordered key h) {first a : α} (hfirst : h.head? = some first) (ha : a ∈ h) : key first ≤ key a := by
  obtain ⟨i, hi⟩ := List.mem_iff_getElem?.mp ha
  induction i using Nat.strongRecOn generalizing a with
  | ind i ih =>
    by_cases hzero : i = 0
    · subst hzero
      rw [List.head?_eq_getElem?] at hfirst
      exact le_of_eq (congrArg key (Option.some.inj (hfirst.symm.trans hi)))
    · have hup : parent i < i := by unfold parent; omega
      have hlt : i < h.length := (List.getElem?_eq_some_iff.mp hi).choose
      have hat : h[parent i]? = some h[parent i] := List.getElem?_eq_getElem (by omega)
      exact le_trans (ih (parent i) hup (List.getElem_mem _) hat) (ho i _ a (by omega) hat hi)

end

end Cossack.MinHeaps
