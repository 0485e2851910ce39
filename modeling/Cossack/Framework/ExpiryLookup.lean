import Cossack.Framework.ExpiryIndex
import Mathlib.Data.List.Perm.Subperm

/-! # The expiry index finds what has expired

    The entries of a bucket are a chain, and a bucket has the entries whose
    deadline it is for.  Then the lowest bucket that is not empty has the earliest
    deadlines. -/

namespace Cossack.Framework.MemoryCache

open LinkedLists RadixBuckets

/-! ## Section 1: What an index holds -/

/-- The index has these entries linked, those of each bucket in some order. -/
structure Indexed (x : ExpiryIndex) (E : List MemoryEntry) (contents : Nat → List MemoryEntry) :
    Prop where
  heads : ∀ i, x.buckets i = (contents i).head?
  chains : ∀ i, Chain x.links (contents i)
  mem : ∀ i e, e ∈ contents i ↔ e ∈ E ∧ bucket e.deadline x.floor = i
  bucketOf : ∀ e ∈ E, x.bucketOf e = bucket e.deadline x.floor
  floor : ∀ e ∈ E, x.floor ≤ e.deadline
  small : ∀ e ∈ E, e.deadline < 2 ^ 53

/-- The index holds these entries. -/
structure Holds (x : ExpiryIndex) (E : List MemoryEntry) : Prop where
  indexed : ∃ contents, Indexed x E contents
  size : x.size = E.length
  nodup : E.Nodup

variable {x : ExpiryIndex} {E E' : List MemoryEntry} {contents : Nat → List MemoryEntry}
  {e : MemoryEntry}

theorem Indexed.congr (h : Indexed x E contents) (hmem : ∀ e, e ∈ E' ↔ e ∈ E) :
    Indexed x E' contents := by
  refine ⟨h.heads, h.chains, ?_, ?_, ?_, ?_⟩
  · intro i e
    rw [h.mem i e, hmem e]
  · intro e he
    exact h.bucketOf e ((hmem e).mp he)
  · intro e he
    exact h.floor e ((hmem e).mp he)
  · intro e he
    exact h.small e ((hmem e).mp he)

/-- The size does not matter for what is linked. -/
theorem Indexed.resize (h : Indexed x E contents) (size : Nat) :
    Indexed { x with size := size } E contents :=
  ⟨h.heads, h.chains, h.mem, h.bucketOf, h.floor, h.small⟩

theorem indexed_nil {x : ExpiryIndex} (h : ∀ i, x.buckets i = none) :
    Indexed x [] fun _ => [] :=
  ⟨h, fun _ => .nil _, by simp, nofun, nofun, nofun⟩

theorem holds_empty : Holds .empty [] := ⟨⟨_, indexed_nil fun _ => rfl⟩, rfl, List.nodup_nil⟩

theorem holds_clear (x : ExpiryIndex) : Holds x.clear [] :=
  ⟨⟨_, indexed_nil fun _ => rfl⟩, rfl, List.nodup_nil⟩

theorem Indexed.floor_small (h : Indexed x E contents) (he : e ∈ E) : x.floor < 2 ^ 53 :=
  Nat.lt_of_le_of_lt (h.floor e he) (h.small e he)

theorem Indexed.bucket_lt (h : Indexed x E contents) (he : e ∈ E) :
    bucket e.deadline x.floor < expiryBuckets :=
  Nat.lt_succ_of_le (bucket_le_of_lt (h.small e he) (h.floor_small he))

/-! ## Section 2: Linking and unlinking -/

theorem Indexed.link (h : Indexed x E contents) (he : e ∉ E) (hfloor : x.floor ≤ e.deadline)
    (hsmall : e.deadline < 2 ^ 53) :
    Indexed (x.link e) (e :: E)
      (Function.update contents (bucket e.deadline x.floor)
        (e :: contents (bucket e.deadline x.floor))) := by
  have hbucket := expiryBucket_eq hsmall (Nat.lt_of_le_of_lt hfloor hsmall)
  have hnot : ∀ i, e ∉ contents i := fun i hi => he ((h.mem i e).mp hi).1
  unfold ExpiryIndex.link
  simp only [hbucket, h.heads]
  generalize hb : bucket e.deadline x.floor = b
  refine ⟨?_, ?_, ?_, ?_, ?_, ?_⟩
  · intro i
    by_cases hi : i = b
    · subst hi
      simp
    · simp [Function.update_of_ne hi, h.heads]
  · intro i
    by_cases hi : i = b
    · subst hi
      simpa using (h.chains i).push (hnot i)
    · rw [Function.update_of_ne hi]
      refine (h.chains i).congr ?_
      intro y hy
      refine Chain.push_other _ _ ?_ ?_
      · rintro rfl
        exact hnot i hy
      · intro hhead
        have hyb := ((h.mem b y).mp (List.mem_of_head? hhead)).2
        exact hi (((h.mem i y).mp hy).2.symm.trans hyb)
  · intro i y
    by_cases hi : i = b
    · subst hi
      rw [Function.update_self, List.mem_cons, List.mem_cons, h.mem]
      constructor
      · rintro (rfl | ⟨hy, hyb⟩)
        · exact ⟨.inl rfl, hb⟩
        · exact ⟨.inr hy, hyb⟩
      · rintro ⟨rfl | hy, hyb⟩
        · exact .inl rfl
        · exact .inr ⟨hy, hyb⟩
    · rw [Function.update_of_ne hi, List.mem_cons, h.mem]
      constructor
      · rintro ⟨hy, hyb⟩
        exact ⟨.inr hy, hyb⟩
      · rintro ⟨rfl | hy, hyb⟩
        · exact absurd (hyb.symm.trans hb) hi
        · exact ⟨hy, hyb⟩
  · intro y hy
    rcases List.mem_cons.mp hy with rfl | hy
    · simp [hb]
    · have hne : y ≠ e := fun heq => he (heq ▸ hy)
      simpa [Function.update_of_ne hne] using h.bucketOf y hy
  · intro y hy
    rcases List.mem_cons.mp hy with rfl | hy
    · exact hfloor
    · exact h.floor y hy
  · intro y hy
    rcases List.mem_cons.mp hy with rfl | hy
    · exact hsmall
    · exact h.small y hy

theorem link_next (x : ExpiryIndex) {y : MemoryEntry} (hne : y ≠ e) :
    (x.link e).links.next y = x.links.next y := Chain.push_next _ _ hne

theorem Indexed.remove (h : Indexed x E contents) (he : e ∈ E) :
    ∃ contents', Indexed (x.remove e) (E.filter (· != e)) contents' := by
  have hin := (h.mem _ e).mpr ⟨he, rfl⟩
  have hbucketOf := h.bucketOf e he
  generalize hb : bucket e.deadline x.floor = b at hin hbucketOf
  obtain ⟨l, r, hsplit⟩ := List.append_of_mem hin
  have hchain := h.chains b
  rw [hsplit] at hchain
  obtain ⟨hprev, hnext⟩ := hchain.neighbours l e r rfl
  have hnodup := hchain.nodup
  rw [List.nodup_middle, List.nodup_cons] at hnodup
  refine ⟨Function.update contents b (l ++ r), ?_, ?_, ?_, ?_, ?_, ?_⟩
  · intro i
    unfold ExpiryIndex.remove
    rw [hprev, hnext, hbucketOf]
    by_cases hi : i = b
    · subst hi
      cases l with
      | nil => simp
      | cons z l => simp [List.getLast?_cons, h.heads, hsplit]
    · rw [Function.update_of_ne hi, ← h.heads]
      cases l.getLast? <;> simp [Function.update_of_ne hi]
  · intro i
    by_cases hi : i = b
    · subst hi
      rw [Function.update_self]
      exact hchain.unlink
    · rw [Function.update_of_ne hi]
      refine (h.chains i).congr ?_
      intro y hy
      refine hchain.unlink_other ?_
      rw [← hsplit]
      intro hyb
      exact hi (((h.mem i y).mp hy).2.symm.trans ((h.mem b y).mp hyb).2)
  · intro i y
    by_cases hi : i = b
    · subst hi
      have hmem : y ∈ l ++ r ↔ y ∈ contents i ∧ y ≠ e := by
        rw [hsplit]
        simp only [List.mem_append, List.mem_cons]
        constructor
        · intro hy
          refine ⟨hy.elim .inl fun h => .inr (.inr h), ?_⟩
          rintro rfl
          exact hnodup.1 (List.mem_append.mpr hy)
        · rintro ⟨hy | rfl | hy, hne⟩
          · exact .inl hy
          · exact absurd rfl hne
          · exact .inr hy
      rw [Function.update_self, hmem, h.mem, List.mem_filter, bne_iff_ne]
      exact and_right_comm
    · rw [Function.update_of_ne hi, h.mem, List.mem_filter, bne_iff_ne]
      constructor
      · rintro ⟨hy, hyi⟩
        refine ⟨⟨hy, ?_⟩, hyi⟩
        rintro rfl
        exact hi (hyi.symm.trans hb)
      · rintro ⟨⟨hy, -⟩, hyi⟩
        exact ⟨hy, hyi⟩
  · intro y hy
    exact h.bucketOf y (List.mem_filter.mp hy).1
  · intro y hy
    exact h.floor y (List.mem_filter.mp hy).1
  · intro y hy
    exact h.small y (List.mem_filter.mp hy).1

theorem Holds.remove (h : Holds x E) (he : e ∈ E) : Holds (x.remove e) (E.filter (· != e)) := by
  obtain ⟨contents, hindexed⟩ := h.indexed
  refine ⟨hindexed.remove he, ?_, h.nodup.filter _⟩
  show x.size - 1 = _
  rw [h.size, ← h.nodup.erase_eq_filter, List.length_erase_of_mem he]

/-! ## Section 3: Walking a bucket -/

/-- The pointers lead from each entry of the list to the next. -/
def Leads (links : Links MemoryEntry) (ys : List MemoryEntry) : Prop :=
  ∀ l y r, ys = l ++ y :: r → links.next y = r.head?

theorem Leads.tail {links : Links MemoryEntry} {y : MemoryEntry} {ys : List MemoryEntry}
    (h : Leads links (y :: ys)) : Leads links ys := by
  intro l z r hsplit
  exact h (y :: l) z r (by simp [hsplit])

theorem walk_eq {ys : List MemoryEntry} (h : Leads x.links ys) {fuel : Nat}
    (hfuel : ys.length ≤ fuel) : x.walk fuel ys.head? = some ys := by
  induction ys generalizing fuel with
  | nil => cases fuel <;> rfl
  | cons y ys ih =>
    obtain ⟨fuel, rfl⟩ : ∃ n, fuel = n + 1 := ⟨fuel - 1, by simp at hfuel; omega⟩
    have hnext := h [] y ys rfl
    have hrest := ih h.tail (by simpa using hfuel)
    simp only [List.head?_cons, ExpiryIndex.walk, hnext, hrest]
    rfl

theorem relink_holds {ys : List MemoryEntry} (h : Indexed x E contents) (hys : ys.Nodup)
    (hnot : ∀ y ∈ ys, y ∉ E) (hleads : Leads x.links ys) (hfloor : ∀ y ∈ ys, x.floor ≤ y.deadline)
    (hsmall : ∀ y ∈ ys, y.deadline < 2 ^ 53) (fuel : Nat) (hfuel : ys.length ≤ fuel) :
    ∃ x' contents', ExpiryIndex.relink fuel x ys.head? = some x' ∧
      Indexed x' (ys ++ E) contents' ∧ x'.floor = x.floor ∧ x'.size = x.size := by
  induction ys generalizing x E contents fuel with
  | nil =>
    refine ⟨x, contents, ?_, h, rfl, rfl⟩
    cases fuel <;> rfl
  | cons y ys ih =>
    obtain ⟨fuel, rfl⟩ : ∃ n, fuel = n + 1 := ⟨fuel - 1, by simp at hfuel; omega⟩
    rw [List.nodup_cons] at hys
    have hlink := h.link (hnot y List.mem_cons_self) (hfloor y List.mem_cons_self)
      (hsmall y List.mem_cons_self)
    have hleads' : Leads (x.link y).links ys := by
      intro l z r hsplit
      have hne : z ≠ y := by
        rintro rfl
        exact hys.1 (by simp [hsplit])
      rw [link_next x hne]
      exact hleads.tail l z r hsplit
    have hnot' : ∀ z ∈ ys, z ∉ y :: E := by
      intro z hz hmem
      rcases List.mem_cons.mp hmem with rfl | hE
      · exact hys.1 hz
      · exact hnot z (List.mem_cons_of_mem _ hz) hE
    obtain ⟨x', contents', hx', hindexed, hfloor', hsize⟩ := ih hlink hys.2 hnot' hleads'
      (fun z hz => hfloor z (List.mem_cons_of_mem _ hz))
      (fun z hz => hsmall z (List.mem_cons_of_mem _ hz)) fuel (by simpa using hfuel)
    have hnext := hleads [] y ys rfl
    refine ⟨x', contents', ?_, hindexed.congr ?_, hfloor', hsize⟩
    · simp only [List.head?_cons, ExpiryIndex.relink, hnext]
      exact hx'
    · intro z
      simp only [List.mem_append, List.mem_cons, List.cons_append]
      tauto

theorem leads_of_chain {links : Links MemoryEntry} {ys : List MemoryEntry} (h : Chain links ys) :
    Leads links ys := fun l y r hsplit => (h.neighbours l y r hsplit).2

theorem Indexed.length_le (h : Indexed x E contents) (hnodup : E.Nodup) (i : Nat) :
    (contents i).length ≤ E.length :=
  (List.subperm_of_subset (h.chains i).nodup fun e he => ((h.mem i e).mp he).1).length_le

/-! ## Section 4: Looking for what has expired -/

theorem Indexed.lowest_eq_none (h : Indexed x E contents) (hlowest : x.lowest = none) : E = [] := by
  rw [List.eq_nil_iff_forall_not_mem]
  intro e he
  have hin := (h.mem _ e).mpr ⟨he, rfl⟩
  have hnone := List.find?_eq_none.mp hlowest _ (List.mem_range.mpr (h.bucket_lt he))
  rw [h.heads] at hnone
  cases hc : contents (bucket e.deadline x.floor) with
  | nil => simp [hc] at hin
  | cons y ys => simp [hc] at hnone

theorem Indexed.lowest_eq_some (h : Indexed x E contents) {index : Nat}
    (hlowest : x.lowest = some index) :
    (∃ y ys, contents index = y :: ys) ∧ ∀ e ∈ E, index ≤ bucket e.deadline x.floor := by
  obtain ⟨hsome, hbefore⟩ := List.find?_range_eq_some.mp hlowest
  constructor
  · rw [h.heads] at hsome
    cases hc : contents index with
    | nil => simp [hc] at hsome
    | cons y ys => exact ⟨y, ys, rfl⟩
  · intro e he
    by_contra hlt
    have hin := (h.mem _ e).mpr ⟨he, rfl⟩
    have hnone := hbefore.2 (bucket e.deadline x.floor) (by omega)
    rw [h.heads] at hnone
    cases hc : contents (bucket e.deadline x.floor) with
    | nil => simp [hc] at hin
    | cons y ys => simp [hc] at hnone

/-- The entries of the bucket are taken out, and the floor is raised to the least
    number of the bucket. -/
theorem Indexed.raise (h : Indexed x E contents) {index : Nat}
    (hlow : ∀ e ∈ E, index + 1 ≤ bucket e.deadline x.floor) :
    Indexed { x with floor := low x.floor (index + 1), buckets := Function.update x.buckets (index + 1) none }
      (E.filter fun e => bucket e.deadline x.floor != index + 1)
      (Function.update contents (index + 1) []) := by
  have hhigher : ∀ e ∈ E.filter fun e => bucket e.deadline x.floor != index + 1,
      e ∈ E ∧ index + 1 < bucket e.deadline x.floor := by
    intro e he
    obtain ⟨hE, hne⟩ := List.mem_filter.mp he
    have hle := hlow e hE
    rw [bne_iff_ne] at hne
    exact ⟨hE, by omega⟩
  refine ⟨?_, ?_, ?_, ?_, ?_, ?_⟩
  · intro i
    by_cases hi : i = index + 1
    · subst hi
      simp
    · simp [Function.update_of_ne hi, h.heads]
  · intro i
    by_cases hi : i = index + 1
    · subst hi
      rw [Function.update_self]
      exact .nil _
    · rw [Function.update_of_ne hi]
      exact h.chains i
  · intro i e
    by_cases hi : i = index + 1
    · subst hi
      rw [Function.update_self]
      constructor
      · intro he
        cases he
      · rintro ⟨he, hbucket⟩
        obtain ⟨-, hlt⟩ := hhigher e he
        rw [bucket_low_of_lt hlt] at hbucket
        omega
    · rw [Function.update_of_ne hi, h.mem]
      constructor
      · rintro ⟨he, rfl⟩
        have hmem : e ∈ E.filter fun e => bucket e.deadline x.floor != index + 1 :=
          List.mem_filter.mpr ⟨he, bne_iff_ne.mpr hi⟩
        exact ⟨hmem, bucket_low_of_lt (hhigher e hmem).2⟩
      · rintro ⟨he, hbucket⟩
        obtain ⟨hE, hlt⟩ := hhigher e he
        exact ⟨hE, (bucket_low_of_lt hlt).symm.trans hbucket⟩
  · intro e he
    obtain ⟨hE, hlt⟩ := hhigher e he
    exact (h.bucketOf e hE).trans (bucket_low_of_lt hlt).symm
  · intro e he
    obtain ⟨hE, hlt⟩ := hhigher e he
    have hle := low_add_le (h.floor e hE) hlt
    exact Nat.le_of_add_right_le hle
  · intro e he
    exact h.small e (hhigher e he).1

/-- What looking for an expired entry finds. -/
def Finds (E : List MemoryEntry) (now : Nat) : Option MemoryEntry → Prop
  | none => ∀ e ∈ E, now < e.deadline
  | some e => e ∈ E ∧ e.deadline ≤ now

/-- Each round that does not end the search leaves the entries of the lowest
    bucket in lower ones. -/
theorem Holds.expired (h : Holds x E) (now : Nat) {fuel : Nat}
    (hfuel : 0 < fuel ∧ (E ≠ [] → ∃ e ∈ E, bucket e.deadline x.floor < fuel)) :
    ∃ found x', ExpiryIndex.expired now fuel x = some (found, x') ∧ Holds x' E ∧
      Finds E now found := by
  induction fuel generalizing x with
  | zero => omega
  | succ fuel ih =>
    obtain ⟨contents, hindexed⟩ := h.indexed
    simp only [ExpiryIndex.expired]
    rcases hlowest : x.lowest with _ | index
    · have hnil := hindexed.lowest_eq_none hlowest
      exact ⟨none, x, rfl, h, by simp [Finds, hnil]⟩
    · obtain ⟨⟨y, ys, hcontents⟩, hle⟩ := hindexed.lowest_eq_some hlowest
      have hhead : x.buckets index = some y := by rw [hindexed.heads, hcontents]; rfl
      obtain ⟨hy, hybucket⟩ := (hindexed.mem index y).mp (by simp [hcontents])
      simp only
      split
      · rename_i hfloor
        refine ⟨none, x, rfl, h, ?_⟩
        intro e he
        exact Nat.lt_of_lt_of_le hfloor (hindexed.floor e he)
      · rename_i hfloor
        split
        · rename_i hzero
          subst hzero
          refine ⟨some y, x, by rw [hhead], h, hy, ?_⟩
          rw [bucket_eq_zero_iff.mp hybucket]
          omega
        · rename_i hpos
          obtain ⟨index, rfl⟩ : ∃ n, index = n + 1 := ⟨index - 1, by omega⟩
          have hlow : x.floor - x.floor % (2 * 2 ^ (index + 1 - 1)) + 2 ^ (index + 1 - 1) =
              low x.floor (index + 1) := rfl
          rw [hlow]
          split
          · -- the bucket has the earliest deadlines, and none of them has come
            rename_i hnow
            refine ⟨none, x, rfl, h, ?_⟩
            intro e he
            rcases Nat.eq_or_lt_of_le (hle e he) with heq | hlt
            · exact Nat.lt_of_lt_of_le hnow (bounds (hindexed.floor e he) heq.symm).1
            · have hadd := low_add_le (hindexed.floor e he) hlt
              exact Nat.lt_of_lt_of_le hnow (Nat.le_of_add_right_le hadd)
          · split
            · rename_i hall
              refine ⟨some y, x, by rw [hhead], h, hy, ?_⟩
              have hbounds := bounds (hindexed.floor y hy) hybucket
              rw [Nat.add_sub_cancel] at hall
              exact Nat.le_trans (Nat.le_sub_one_of_lt hbounds.2) hall
            · have hraise := hindexed.raise hle
              have hys : ∀ e ∈ contents (index + 1), e ∈ E ∧ bucket e.deadline x.floor = index + 1 :=
                fun e he => (hindexed.mem _ e).mp he
              obtain ⟨x', contents', hx', hindexed', hfloor', hsize'⟩ :=
                relink_holds hraise (hindexed.chains (index + 1)).nodup
                  (by
                    intro e he hmem
                    have hne := (List.mem_filter.mp hmem).2
                    rw [bne_iff_ne] at hne
                    exact hne (hys e he).2)
                  (leads_of_chain (hindexed.chains (index + 1)))
                  (fun e he => (bounds (hindexed.floor e (hys e he).1) (hys e he).2).1)
                  (fun e he => hindexed.small e (hys e he).1) x.size
                  (by rw [h.size]; exact hindexed.length_le h.nodup _)
              rw [hindexed.heads, hx', Option.bind_some]
              refine ih ⟨⟨contents', hindexed'.congr ?_⟩, hsize'.trans h.size, h.nodup⟩ ?_
              · intro e
                simp only [List.mem_append, List.mem_filter, hindexed.mem, bne_iff_ne]
                tauto
              · obtain ⟨e, he, hbucket⟩ := hfuel.2 (List.ne_nil_of_mem hy)
                have hlowest' := hle e he
                refine ⟨by omega, ?_⟩
                intro _
                refine ⟨y, hy, ?_⟩
                rw [hfloor']
                have hlower := bucket_low (hindexed.floor y hy) hybucket
                show bucket y.deadline (low x.floor (index + 1)) < fuel
                omega

/-! ## Section 5: Adding an entry -/

theorem mapM_some {α β : Type} {f : α → Option β} {g : α → β} {xs : List α}
    (h : ∀ x ∈ xs, f x = some (g x)) : xs.mapM f = some (xs.map g) := by
  induction xs with
  | nil => rfl
  | cons x xs ih =>
    rw [List.mapM_cons, h x List.mem_cons_self, ih fun y hy => h y (List.mem_cons_of_mem _ hy)]
    rfl

theorem foldl_min_le (entries : List MemoryEntry) (now : Nat) :
    entries.foldl (fun floor e => min floor e.deadline) now ≤ now ∧
      ∀ e ∈ entries, entries.foldl (fun floor e => min floor e.deadline) now ≤ e.deadline := by
  induction entries generalizing now with
  | nil => exact ⟨Nat.le_refl _, nofun⟩
  | cons y ys ih =>
    obtain ⟨hnow, hys⟩ := ih (min now y.deadline)
    simp only [List.foldl_cons]
    refine ⟨by omega, ?_⟩
    intro e he
    rcases List.mem_cons.mp he with rfl | he
    · omega
    · exact hys e he

theorem Indexed.link_all (h : Indexed x E contents) {ys : List MemoryEntry} (hys : ys.Nodup)
    (hnot : ∀ y ∈ ys, y ∉ E) (hfloor : ∀ y ∈ ys, x.floor ≤ y.deadline)
    (hsmall : ∀ y ∈ ys, y.deadline < 2 ^ 53) :
    (∃ contents', Indexed (ys.foldl ExpiryIndex.link x) (ys ++ E) contents') ∧
      (ys.foldl ExpiryIndex.link x).floor = x.floor ∧ (ys.foldl ExpiryIndex.link x).size = x.size := by
  induction ys generalizing x E contents with
  | nil => exact ⟨⟨contents, h⟩, rfl, rfl⟩
  | cons y ys ih =>
    rw [List.nodup_cons] at hys
    have hlink := h.link (hnot y List.mem_cons_self) (hfloor y List.mem_cons_self)
      (hsmall y List.mem_cons_self)
    have hnot' : ∀ z ∈ ys, z ∉ y :: E := by
      intro z hz hmem
      rcases List.mem_cons.mp hmem with rfl | hE
      · exact hys.1 hz
      · exact hnot z (List.mem_cons_of_mem _ hz) hE
    obtain ⟨⟨contents', hindexed⟩, hfloor', hsize⟩ := ih hlink hys.2 hnot'
      (fun z hz => hfloor z (List.mem_cons_of_mem _ hz))
      (fun z hz => hsmall z (List.mem_cons_of_mem _ hz))
    refine ⟨⟨contents', hindexed.congr ?_⟩, hfloor', hsize⟩
    intro z
    simp only [List.mem_append, List.mem_cons, List.cons_append]
    tauto

/-- The floor is lowered to the clock at least. -/
theorem Holds.rebase (h : Holds x E) (now : Nat) :
    ∃ x', x.rebase now = some x' ∧ Holds x' E ∧ x'.floor ≤ now := by
  obtain ⟨contents, hindexed⟩ := h.indexed
  have hwalk : (List.range expiryBuckets).mapM (fun index => x.walk x.size (x.buckets index)) =
      some ((List.range expiryBuckets).map contents) := by
    refine mapM_some ?_
    intro i _
    rw [hindexed.heads]
    refine walk_eq (leads_of_chain (hindexed.chains i)) ?_
    rw [h.size]
    exact hindexed.length_le h.nodup i
  have hmem : ∀ e, e ∈ ((List.range expiryBuckets).map contents).flatten ↔ e ∈ E := by
    intro e
    simp only [List.mem_flatten, List.mem_map, List.mem_range]
    constructor
    · rintro ⟨_, ⟨i, _, rfl⟩, he⟩
      exact ((hindexed.mem i e).mp he).1
    · intro he
      exact ⟨_, ⟨_, hindexed.bucket_lt he, rfl⟩, (hindexed.mem _ e).mpr ⟨he, rfl⟩⟩
  have hnodup : ((List.range expiryBuckets).map contents).flatten.Nodup := by
    rw [List.nodup_flatten]
    constructor
    · intro ys hys
      obtain ⟨i, -, rfl⟩ := List.mem_map.mp hys
      exact (hindexed.chains i).nodup
    · rw [List.pairwise_map]
      refine List.nodup_range.pairwise_of_forall_ne ?_
      intro i _ j _ hne e hi hj
      exact hne (((hindexed.mem i e).mp hi).2.symm.trans ((hindexed.mem j e).mp hj).2)
  unfold ExpiryIndex.rebase
  rw [hwalk, Option.map_some]
  simp only
  generalize ((List.range expiryBuckets).map contents).flatten = entries at hmem hnodup
  obtain ⟨hnow, hdeadlines⟩ := foldl_min_le entries now
  generalize entries.foldl (fun floor e => min floor e.deadline) now = floor at hnow hdeadlines
  have hempty : Indexed { x with buckets := fun _ => none, floor := floor } [] fun _ => [] :=
    indexed_nil fun _ => rfl
  obtain ⟨⟨contents', hlinked⟩, hfloor, hsize⟩ := hempty.link_all hnodup nofun hdeadlines
    fun e he => hindexed.small e ((hmem e).mp he)
  refine ⟨_, rfl, ⟨⟨contents', hlinked.congr ?_⟩, hsize.trans h.size, h.nodup⟩, ?_⟩
  · intro e
    rw [List.append_nil, hmem]
  · rw [hfloor]
    exact hnow

theorem Holds.add (h : Holds x E) (he : e ∉ E) {now : Nat} (hnow : now < e.deadline)
    (hsmall : e.deadline < 2 ^ 53) : ∃ x', x.add e now = some x' ∧ Holds x' (e :: E) := by
  have hlink : ∀ y : ExpiryIndex, Holds y E → y.floor ≤ e.deadline →
      Holds ({ y with size := y.size + 1 }.link e) (e :: E) := by
    intro y hy hfloor
    obtain ⟨contents, hindexed⟩ := hy.indexed
    refine ⟨⟨_, (hindexed.resize (y.size + 1)).link he hfloor hsmall⟩, ?_,
      List.nodup_cons.mpr ⟨he, h.nodup⟩⟩
    show y.size + 1 = _
    rw [hy.size, List.length_cons]
  unfold ExpiryIndex.add
  split
  · rename_i hzero
    have hnil : E = [] := List.length_eq_zero_iff.mp (h.size.symm.trans hzero)
    subst hnil
    refine ⟨_, rfl, hlink _ ⟨⟨fun _ => [], ?_⟩, h.size, h.nodup⟩ (Nat.le_of_lt hnow)⟩
    obtain ⟨contents, hindexed⟩ := h.indexed
    refine indexed_nil ?_
    intro i
    rw [hindexed.heads, List.head?_eq_none_iff, List.eq_nil_iff_forall_not_mem]
    intro y hy
    cases ((hindexed.mem i y).mp hy).1
  · split
    · obtain ⟨y, hy, hholds, hfloor⟩ := h.rebase now
      rw [hy]
      exact ⟨_, rfl, hlink y hholds (by omega)⟩
    · exact ⟨_, rfl, hlink x h (by omega)⟩

end Cossack.Framework.MemoryCache
