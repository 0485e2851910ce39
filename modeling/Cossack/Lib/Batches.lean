import Mathlib.Data.List.Count
import Mathlib.Data.List.Perm.Basic
import Mathlib.Data.List.Basic

/-! # Lookups in batches

    A table is read once for each chunk of a list of keys, and what has been read is
    handed out by a label.  This says when each key gets what a lookup of that key
    alone returns. -/

namespace Batches

variable {K T L : Type}

/-! ## Section 1: Chunks -/

def chunksFrom (limit : Nat) : Nat → List K → List (List K)
  | 0, _ => []
  | fuel + 1, keys =>
      if keys.isEmpty then [] else keys.take limit :: chunksFrom limit fuel (keys.drop limit)

/-- Consecutive parts of at most `limit` keys. -/
def chunks (limit : Nat) (keys : List K) : List (List K) :=
  chunksFrom (max 1 limit) keys.length keys

theorem flatten_chunksFrom {limit fuel : Nat} {keys : List K} (hlimit : 0 < limit)
    (hfuel : keys.length ≤ fuel) : (chunksFrom limit fuel keys).flatten = keys := by
  induction fuel generalizing keys with
  | zero =>
    obtain rfl := List.eq_nil_of_length_eq_zero (Nat.le_zero.mp hfuel)
    rfl
  | succ fuel ih =>
    unfold chunksFrom
    cases keys with
    | nil => rfl
    | cons key keys =>
      have hrest : ((key :: keys).drop limit).length ≤ fuel := by
        simp only [List.length_drop, List.length_cons] at hfuel ⊢
        omega
      rw [List.isEmpty_cons, if_neg (by simp), List.flatten_cons, ih hrest, List.take_append_drop]

@[simp] theorem flatten_chunks (limit : Nat) (keys : List K) : (chunks limit keys).flatten = keys :=
  flatten_chunksFrom (Nat.le_max_left 1 limit) (Nat.le_refl _)

/-! ## Section 2: What a batch reads -/

section Fetch

variable (hit : K → T → Bool) (table : List T)

/-- One pass over the table for each chunk. -/
def fetch (chunks : List (List K)) : List T :=
  chunks.flatMap fun chunk => table.filter fun t => chunk.any (hit · t)

/-- How many chunks have a key that an element answers to. -/
def hits (chunks : List (List K)) (t : T) : Nat := chunks.countP fun chunk => chunk.any (hit · t)

variable {hit table} {t : T} {chunks : List (List K)}

theorem mem_fetch : t ∈ fetch hit table chunks ↔ t ∈ table ∧ ∃ key ∈ chunks.flatten, hit key t = true := by
  unfold fetch
  simp only [List.mem_flatMap, List.mem_filter, List.any_eq_true, List.mem_flatten]
  constructor
  · rintro ⟨chunk, hchunk, htable, key, hkey, hhit⟩
    exact ⟨htable, key, ⟨chunk, hchunk, hkey⟩, hhit⟩
  · rintro ⟨htable, key, ⟨chunk, hchunk, hkey⟩, hhit⟩
    exact ⟨chunk, hchunk, htable, key, hkey, hhit⟩

theorem count_fetch [DecidableEq T] (t : T) :
    (fetch hit table chunks).count t = hits hit chunks t * table.count t := by
  unfold fetch hits
  induction chunks with
  | nil => simp
  | cons chunk chunks ih =>
    rw [List.flatMap_cons, List.count_append, ih, List.countP_cons]
    by_cases h : chunk.any (hit · t) = true
    · rw [List.count_filter (p := fun u => chunk.any (hit · u)) h, if_pos h, Nat.add_mul,
        Nat.one_mul, Nat.add_comm]
    · have hzero : (table.filter fun u => chunk.any (hit · u)).count t = 0 :=
        List.count_eq_zero.mpr fun hmem => h (List.mem_filter.mp hmem).2
      rw [hzero, if_neg h, Nat.zero_add, Nat.add_zero]

/-! ## Section 3: Handing out by label -/

variable [DecidableEq L] {label : T → L}

/-- What should get a label has it and is read by one chunk, and nothing else that has
    the label is read. -/
structure Grouped (hit : K → T → Bool) (table : List T) (chunks : List (List K)) (label : T → L)
    (key : K) (l : L) : Prop where
  labelled : ∀ t ∈ table, hit key t = true → label t = l
  once : ∀ t ∈ table, hit key t = true → hits hit chunks t = 1
  separate : ∀ t ∈ table, label t = l → hits hit chunks t ≠ 0 → hit key t = true

theorem grouped_iff {key : K} {l : L} : Grouped hit table chunks label key l ↔
    ∀ t ∈ table, (if label t = l then hits hit chunks t else 0) = if hit key t = true then 1 else 0 := by
  constructor
  · intro h t ht
    by_cases hh : hit key t = true
    · rw [if_pos (h.labelled t ht hh), if_pos hh, h.once t ht hh]
    · rw [if_neg hh]
      by_cases hl : label t = l
      · rw [if_pos hl]
        by_contra hne
        exact hh (h.separate t ht hl hne)
      · rw [if_neg hl]
  · intro h
    refine ⟨fun t ht hh => ?_, fun t ht hh => ?_, fun t ht hl hne => ?_⟩
    · have hcount := h t ht
      rw [if_pos hh] at hcount
      by_contra hl
      rw [if_neg hl] at hcount
      omega
    · have hcount := h t ht
      rw [if_pos hh] at hcount
      split at hcount <;> omega
    · have hcount := h t ht
      rw [if_pos hl] at hcount
      by_contra hh
      rw [if_neg hh] at hcount
      exact hne hcount

/-- What is handed out under a label is what a lookup of the key returns exactly when
    the key is grouped. -/
theorem group_perm_iff {key : K} {l : L} :
    ((fetch hit table chunks).filter (label · = l)).Perm (table.filter (hit key)) ↔
      Grouped hit table chunks label key l := by
  rw [grouped_iff]
  classical
  have hcount : ∀ (p : T → Bool) (list : List T) (t : T),
      (list.filter p).count t = if p t = true then list.count t else 0 := by
    intro p list t
    by_cases h : p t = true
    · rw [List.count_filter h, if_pos h]
    · rw [if_neg h]
      exact List.count_eq_zero.mpr fun hmem => h (List.mem_filter.mp hmem).2
  have hscale : ∀ t ∈ table, ((if label t = l then hits hit chunks t * table.count t else 0) =
      if hit key t = true then table.count t else 0) ↔
      (if label t = l then hits hit chunks t else 0) = if hit key t = true then 1 else 0 := by
    intro t ht
    have hpos : 0 < table.count t := List.count_pos_iff.mpr ht
    by_cases hl : label t = l
    · rw [if_pos hl, if_pos hl]
      by_cases hh : hit key t = true
      · rw [if_pos hh, if_pos hh]
        exact ⟨fun h => Nat.eq_of_mul_eq_mul_right hpos (by omega), fun h => by rw [h, Nat.one_mul]⟩
      · rw [if_neg hh, if_neg hh, Nat.mul_eq_zero]
        omega
    · rw [if_neg hl, if_neg hl]
      by_cases hh : hit key t = true
      · rw [if_pos hh, if_pos hh]
        omega
      · rw [if_neg hh, if_neg hh]
  simp only [List.perm_iff_count, hcount, count_fetch, decide_eq_true_eq]
  constructor
  · exact fun h t ht => (hscale t ht).mp (h t)
  · intro h t
    by_cases ht : t ∈ table
    · exact (hscale t ht).mpr (h t ht)
    · simp [List.count_eq_zero.mpr ht]

end Fetch

/-! ## Section 4: One element for each key

    Under a label there may be one element only.  `pick` chooses one of those read. -/

section Single

variable [DecidableEq L] {hit : K → T → Bool} {table : List T} {chunks : List (List K)}
  {label : T → L} {P : Type} {asking : List P} {key : P → K} {name : P → L}

/-- For each asker: what it should get has its label, what has its label and is read for
    another one is also what it should get, and there is at most one such. -/
structure Distinguished (hit : K → T → Bool) (table : List T) (label : T → L) (asking : List P)
    (key : P → K) (name : P → L) : Prop where
  labelled : ∀ p ∈ asking, ∀ t ∈ table, hit (key p) t = true → label t = name p
  separate : ∀ p ∈ asking, ∀ q ∈ asking, ∀ t ∈ table, hit (key q) t = true → label t = name p →
    hit (key p) t = true
  unique : ∀ p ∈ asking, (table.filter (hit (key p))).length ≤ 1

/-- Each asker gets what a lookup of its key alone returns exactly when all of them are
    told apart. -/
theorem single_iff (pick : List T → Option T) (hmem : ∀ list t, pick list = some t → t ∈ list)
    (hnone : ∀ list, pick list = none → list = [])
    (hkeys : ∀ t ∈ table, (∃ k ∈ chunks.flatten, hit k t = true) ↔ ∃ p ∈ asking, hit (key p) t = true) :
    (∀ p ∈ asking, (pick ((fetch hit table chunks).filter (label · = name p))).toList.Perm
        (table.filter (hit (key p)))) ↔
      Distinguished hit table label asking key name := by
  have hgroup : ∀ (l : L) (t : T), t ∈ (fetch hit table chunks).filter (label · = l) ↔
      t ∈ table ∧ (∃ q ∈ asking, hit (key q) t = true) ∧ label t = l := by
    intro l t
    rw [List.mem_filter, mem_fetch, decide_eq_true_eq, and_assoc]
    exact and_congr_right fun ht => and_congr_left' (hkeys t ht)
  constructor
  · intro h
    have hlabelled : ∀ p ∈ asking, ∀ t ∈ table, hit (key p) t = true → label t = name p := by
      intro p hp t ht hhit
      have hin := (h p hp).mem_iff.mpr (List.mem_filter.mpr ⟨ht, hhit⟩)
      exact ((hgroup _ t).mp (hmem _ t (Option.mem_toList.mp hin))).2.2
    refine ⟨hlabelled, fun p hp q hq t ht hhit hname => ?_, fun p hp => ?_⟩
    · have hsame : name p = name q := hname.symm.trans (hlabelled q hq t ht hhit)
      have hin := (h q hq).mem_iff.mpr (List.mem_filter.mpr ⟨ht, hhit⟩)
      rw [← hsame] at hin
      exact (List.mem_filter.mp ((h p hp).mem_iff.mp hin)).2
    · rw [← (h p hp).length_eq]
      exact Option.length_toList_le
  · intro h p hp
    have hsub : ∀ t ∈ (fetch hit table chunks).filter (label · = name p), t ∈ table.filter (hit (key p)) := by
      intro t ht
      obtain ⟨htable, ⟨q, hq, hhit⟩, hname⟩ := (hgroup _ t).mp ht
      exact List.mem_filter.mpr ⟨htable, h.separate p hp q hq t htable hhit hname⟩
    have hsup : ∀ t ∈ table.filter (hit (key p)), t ∈ (fetch hit table chunks).filter (label · = name p) := by
      intro t ht
      obtain ⟨htable, hhit⟩ := List.mem_filter.mp ht
      exact (hgroup _ t).mpr ⟨htable, ⟨p, hp, hhit⟩, h.labelled p hp t htable hhit⟩
    cases hpick : pick ((fetch hit table chunks).filter (label · = name p)) with
    | none =>
      have hempty := hnone _ hpick
      have hrelated : table.filter (hit (key p)) = [] := by
        refine List.eq_nil_iff_forall_not_mem.mpr fun t ht => ?_
        have := hsup t ht
        rw [hempty] at this
        exact absurd this List.not_mem_nil
      rw [hrelated]
      exact .refl []
    | some t =>
      have ht := hsub t (hmem _ t hpick)
      obtain ⟨t', hone⟩ : ∃ t', table.filter (hit (key p)) = [t'] := by
        have hunique := h.unique p hp
        rcases hlist : table.filter (hit (key p)) with _ | ⟨t', _ | ⟨t'', rest⟩⟩
        · rw [hlist] at ht
          exact absurd ht List.not_mem_nil
        · exact ⟨t', rfl⟩
        · rw [hlist] at hunique
          simp at hunique
      rw [hone] at ht ⊢
      obtain rfl := List.mem_singleton.mp ht
      exact .refl _

end Single

end Batches
