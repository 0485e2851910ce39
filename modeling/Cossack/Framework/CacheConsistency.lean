import Cossack.Framework.MemoryCache
import Mathlib

/-! # The structures of the cache agree

    The map, the recency list and the expiry index hold the same entries, and the
    counter is the sum of their sizes.  Every operation keeps that. -/

namespace Cossack.Framework.MemoryCache

open LinkedLists

/-! ## Section 1: The invariant -/

/-- The entry has a deadline. -/
def MemoryEntry.dated (e : MemoryEntry) : Bool := e.expiresAt.isSome

/-- The structures hold the entries `xs`, the least recently used first. -/
structure Agree (limits : Limits) (s : Store) (xs : List MemoryEntry) : Prop where
  chain : Chain s.links xs
  oldest : s.oldest = xs.head?
  newest : s.newest = xs.getLast?
  map : s.entries.Perm (xs.map fun e => (e.key, e))
  keys : (xs.map MemoryEntry.key).Nodup
  expiry : Holds s.expiry (xs.filter MemoryEntry.dated)
  bytes : s.bytes = (xs.map MemoryEntry.bytes).sum
  room : s.bytes ≤ limits.maxBytes
  count : xs.length ≤ limits.maxEntries
  fresh : ∀ e ∈ xs, e.id < s.fresh

variable {limits : Limits} {s : Store} {xs l r : List MemoryEntry} {e : MemoryEntry}

theorem agree_empty (limits : Limits) : Agree limits .empty [] :=
  ⟨.nil _, rfl, rfl, List.Perm.refl _, List.nodup_nil, holds_empty, rfl, Nat.zero_le _,
    Nat.zero_le _, nofun⟩

theorem Agree.flush (_ : Agree limits s xs) : Agree limits s.flush [] :=
  ⟨.nil _, rfl, rfl, List.Perm.refl _, List.nodup_nil, holds_clear _, rfl, Nat.zero_le _,
    Nat.zero_le _, nofun⟩

theorem Agree.length (h : Agree limits s xs) : s.entries.length = xs.length := by
  rw [h.map.length_eq, List.length_map]

theorem Agree.nodup_keys (h : Agree limits s xs) : (s.entries.map Prod.fst).Nodup := by
  rw [(h.map.map Prod.fst).nodup_iff, List.map_map]
  exact h.keys

theorem Agree.get_eq_some (h : Agree limits s xs) {key : String} :
    Entries.get s.entries key = some e ↔ e ∈ xs ∧ e.key = key := by
  rw [Entries.get_eq_some h.nodup_keys, h.map.mem_iff, List.mem_map]
  constructor
  · rintro ⟨e', he', heq⟩
    cases heq
    exact ⟨he', rfl⟩
  · rintro ⟨he, rfl⟩
    exact ⟨e, he, rfl⟩

theorem Agree.get_eq_none (h : Agree limits s xs) {key : String} :
    Entries.get s.entries key = none ↔ ∀ e ∈ xs, e.key ≠ key := by
  constructor
  · intro hnone e he hkey
    rw [h.get_eq_some.mpr ⟨he, hkey⟩] at hnone
    cases hnone
  · intro hne
    rcases hget : Entries.get s.entries key with _ | e
    · rfl
    · obtain ⟨he, hkey⟩ := h.get_eq_some.mp hget
      exact absurd hkey (hne e he)

theorem Holds.perm {x : ExpiryIndex} {E E' : List MemoryEntry} (h : Holds x E) (hperm : E.Perm E') :
    Holds x E' := by
  obtain ⟨contents, hindexed⟩ := h.indexed
  refine ⟨⟨contents, hindexed.congr fun e => hperm.symm.mem_iff⟩, ?_, hperm.nodup_iff.mp h.nodup⟩
  rw [h.size, hperm.length_eq]

/-! ## Section 2: Removing an entry -/

/-- Without the entry of a key. -/
theorem filter_key (hkeys : ((l ++ e :: r).map MemoryEntry.key).Nodup) :
    (l ++ e :: r).filter (·.key != e.key) = l ++ r := by
  rw [List.map_append, List.map_cons, List.nodup_middle, List.nodup_cons, ← List.map_append] at hkeys
  have hne : ∀ y ∈ l ++ r, (y.key != e.key) = true := by
    intro y hy
    rw [bne_iff_ne]
    intro heq
    exact hkeys.1 (heq ▸ List.mem_map_of_mem hy)
  rw [List.filter_append, List.filter_cons_of_neg (by simp), ← List.filter_append,
    List.filter_eq_self.mpr hne]

theorem Agree.remove (h : Agree limits s (l ++ e :: r)) : Agree limits (s.remove e) (l ++ r) := by
  obtain ⟨hprev, hnext⟩ := h.chain.neighbours l e r rfl
  have hnodup := h.chain.nodup
  rw [List.nodup_middle, List.nodup_cons] at hnodup
  have hbytes := h.bytes
  have hroom := h.room
  have hsum : ((l ++ e :: r).map MemoryEntry.bytes).sum = e.bytes + ((l ++ r).map MemoryEntry.bytes).sum := by
    simp only [List.map_append, List.map_cons, List.sum_append, List.sum_cons]
    omega
  rw [hsum] at hbytes
  refine ⟨h.chain.unlink, ?_, ?_, ?_, ?_, ?_, ?_, ?_, ?_, ?_⟩
  · dsimp only [Store.remove]
    rw [hprev, hnext, h.oldest]
    cases l with
    | nil => rfl
    | cons y l => simp [List.getLast?_cons]
  · dsimp only [Store.remove]
    rw [hprev, hnext, h.newest]
    cases r with
    | nil => simp
    | cons y r => simp [List.getLast?_append, List.getLast?_cons]
  · have hfilter := h.map.filter fun entry => entry.1 != e.key
    rw [List.filter_map] at hfilter
    have hcomp : (fun entry : String × MemoryEntry => entry.1 != e.key) ∘ (fun e => (e.key, e)) =
        fun y : MemoryEntry => y.key != e.key := rfl
    rw [hcomp, filter_key h.keys] at hfilter
    exact hfilter
  · exact h.keys.sublist (by simp)
  · show Holds (if e.expiresAt.isSome then s.expiry.remove e else s.expiry) _
    have hexpiry := h.expiry
    split
    · rename_i hdated
      have hmem : e ∈ (l ++ e :: r).filter MemoryEntry.dated :=
        List.mem_filter.mpr ⟨by simp, hdated⟩
      have hremoved := hexpiry.remove hmem
      have heq : ((l ++ e :: r).filter MemoryEntry.dated).filter (· != e) =
          (l ++ r).filter MemoryEntry.dated := by
        have hself : ∀ y ∈ l ++ r, (y != e) = true := by
          intro y hy
          rw [bne_iff_ne]
          rintro rfl
          exact hnodup.1 hy
        rw [List.filter_filter]
        have hcomm : ∀ y, ((y != e) && y.dated) = (y.dated && (y != e)) := fun y => Bool.and_comm _ _
        simp only [hcomm]
        rw [← List.filter_filter, List.filter_append, List.filter_cons_of_neg (by simp),
          ← List.filter_append, List.filter_eq_self.mpr hself]
      rwa [heq] at hremoved
    · rename_i hdated
      have hundated : ¬ e.dated = true := hdated
      rwa [List.filter_append, List.filter_cons_of_neg hundated, ← List.filter_append] at hexpiry
  · show s.bytes - e.bytes = _
    omega
  · show s.bytes - e.bytes ≤ _
    omega
  · have hcount := h.count
    simp only [List.length_append, List.length_cons] at hcount ⊢
    omega
  · intro y hy
    refine h.fresh y ?_
    simp only [List.mem_append, List.mem_cons] at hy ⊢
    tauto

/-- An entry that is removed, wherever it is. -/
theorem Agree.remove_mem (h : Agree limits s xs) (he : e ∈ xs) :
    Agree limits (s.remove e) (xs.filter (·.key != e.key)) := by
  obtain ⟨l, r, rfl⟩ := List.append_of_mem he
  rw [filter_key h.keys]
  exact h.remove

theorem Agree.removeKey (h : Agree limits s xs) (key : String) :
    Agree limits (s.removeKey key) (xs.filter (·.key != key)) := by
  unfold Store.removeKey
  split
  · rename_i e hget
    obtain ⟨he, rfl⟩ := h.get_eq_some.mp hget
    exact h.remove_mem he
  · rename_i hget
    have hne := h.get_eq_none.mp hget
    rwa [List.filter_eq_self.mpr fun e he => bne_iff_ne.mpr (hne e he)]

/-! ## Section 3: Using an entry -/

theorem Agree.touch (h : Agree limits s (l ++ e :: r)) : Agree limits (s.touch e) (l ++ r ++ [e]) := by
  unfold Store.touch
  split
  · rename_i hnewest
    -- the entry is the last one already
    rw [h.newest] at hnewest
    cases r using List.reverseRecOn with
    | nil => simpa using h
    | append_singleton r y =>
      have hlast : y = e := by simpa [List.getLast?_append, List.getLast?_cons] using hnewest
      subst hlast
      have hnodup := h.chain.nodup
      rw [List.nodup_middle, List.nodup_cons] at hnodup
      exact absurd (by simp) hnodup.1
  · rename_i hnewest
    obtain ⟨hprev, hnext⟩ := h.chain.neighbours l e r rfl
    have hnodup := h.chain.nodup
    rw [List.nodup_middle, List.nodup_cons] at hnodup
    have hperm : (l ++ e :: r).Perm (l ++ r ++ [e]) :=
      List.perm_middle.trans (List.perm_append_singleton e (l ++ r)).symm
    have hlast : (l ++ r).getLast? = s.newest := by
      rw [h.newest] at hnewest ⊢
      cases r with
      | nil => simp at hnewest
      | cons y r => simp [List.getLast?_append, List.getLast?_cons]
    refine ⟨?_, ?_, by simp, ?_, ?_, ?_, ?_, h.room, ?_, ?_⟩
    · rw [← hlast]
      exact h.chain.bypass.append hnodup.1
    · dsimp only
      rw [hprev, hnext, h.oldest]
      cases l with
      | nil =>
        cases r with
        | nil =>
          rw [h.newest] at hnewest
          simp at hnewest
        | cons y r => rfl
      | cons y l => simp [List.getLast?_cons]
    · exact h.map.trans (hperm.map _)
    · exact (hperm.map _).nodup_iff.mp h.keys
    · exact h.expiry.perm (hperm.filter _)
    · exact h.bytes.trans (hperm.map _).sum_nat
    · rw [← hperm.length_eq]
      exact h.count
    · intro y hy
      exact h.fresh y (hperm.mem_iff.mpr hy)

/-! ## Section 4: Making room -/

/-- The entry has not expired. -/
def MemoryEntry.liveAt (now : Nat) (e : MemoryEntry) : Bool := !isExpired e.expiresAt now

theorem liveAt_of_deadline {now : Nat} (h : e.dated = true → now < e.deadline) :
    e.liveAt now = true := by
  cases hexpires : e.expiresAt with
  | none => simp [MemoryEntry.liveAt, isExpired, hexpires]
  | some d =>
    have hlt := h (by simp [MemoryEntry.dated, hexpires])
    simp only [MemoryEntry.deadline, hexpires, Option.getD_some] at hlt
    simp [MemoryEntry.liveAt, isExpired, hexpires]
    omega

theorem Holds.bucket_lt {x : ExpiryIndex} {E : List MemoryEntry} (h : Holds x E) :
    0 < expiryBuckets ∧ (E ≠ [] → ∃ e ∈ E, RadixBuckets.bucket e.deadline x.floor < expiryBuckets) := by
  refine ⟨by decide, ?_⟩
  intro hne
  obtain ⟨contents, hindexed⟩ := h.indexed
  obtain ⟨e, he⟩ := List.exists_mem_of_ne_nil E hne
  exact ⟨e, he, hindexed.bucket_lt he⟩

theorem Agree.reindex (h : Agree limits s xs) {x : ExpiryIndex}
    (hx : Holds x (xs.filter MemoryEntry.dated)) : Agree limits { s with expiry := x } xs :=
  ⟨h.chain, h.oldest, h.newest, h.map, h.keys, hx, h.bytes, h.room, h.count, h.fresh⟩

theorem Agree.key_inj (h : Agree limits s xs) {y : MemoryEntry} (hy : y ∈ xs) (he : e ∈ xs)
    (hkey : y.key = e.key) : y = e :=
  List.inj_on_of_nodup_map h.keys hy he hkey

/-- All that has expired goes, however the clock has moved. -/
theorem Agree.removeExpired (h : Agree limits s xs) (now fuel : Nat)
    (hfuel : xs.length < fuel) :
    ∃ s', s.removeExpired now fuel = some s' ∧ Agree limits s' (xs.filter (·.liveAt now)) := by
  induction fuel generalizing s xs with
  | zero => omega
  | succ fuel ih =>
    obtain ⟨found, x, hexpired, hx, hfound⟩ := h.expiry.expired now h.expiry.bucket_lt
    have hreindex := h.reindex hx
    simp only [Store.removeExpired, hexpired, Option.bind_eq_bind, Option.bind_some]
    cases found with
    | none =>
      refine ⟨_, rfl, ?_⟩
      have hall : ∀ e ∈ xs, e.liveAt now = true := by
        intro e he
        refine liveAt_of_deadline ?_
        intro hdated
        exact hfound e (List.mem_filter.mpr ⟨he, hdated⟩)
      rwa [List.filter_eq_self.mpr hall]
    | some e =>
      obtain ⟨hmem, hdeadline⟩ := hfound
      obtain ⟨he, hdated⟩ := List.mem_filter.mp hmem
      have hdead : e.liveAt now = false := by
        obtain ⟨d, hd⟩ := Option.isSome_iff_exists.mp hdated
        simp only [MemoryEntry.deadline, hd, Option.getD_some] at hdeadline
        simp [MemoryEntry.liveAt, isExpired, hd, hdeadline]
      have hremoved := hreindex.remove_mem he
      have hshorter : (xs.filter (·.key != e.key)).length < xs.length := by
        refine List.length_filter_lt_length_iff_exists.mpr ⟨e, he, ?_⟩
        simp
      obtain ⟨s', hs', hagree⟩ := ih hremoved (by omega)
      refine ⟨s', hs', ?_⟩
      have hsame : (xs.filter (·.key != e.key)).filter (·.liveAt now) = xs.filter (·.liveAt now) := by
        rw [List.filter_filter]
        refine List.filter_congr ?_
        intro y hy
        cases hlive : y.liveAt now with
        | false => rfl
        | true =>
          rw [Bool.true_and, bne_iff_ne]
          intro hkey
          rw [h.key_inj hy he hkey, hdead] at hlive
          cases hlive
      rwa [hsame] at hagree

/-- The least recently used go, as long as there is no room. -/
theorem Agree.evict (h : Agree limits s xs) (bytes fuel : Nat) (hfuel : xs.length < fuel) :
    ∃ s' evicted kept, s.evict limits bytes fuel = some (s', evicted) ∧ xs = evicted ++ kept ∧
      Agree limits s' kept ∧ (kept ≠ [] → s'.full limits bytes = false) := by
  induction fuel generalizing s xs with
  | zero => omega
  | succ fuel ih =>
    simp only [Store.evict, h.oldest]
    cases xs with
    | nil => exact ⟨s, [], [], rfl, rfl, h, nofun⟩
    | cons e xs =>
      simp only [List.head?_cons]
      split
      · have hremoved : Agree limits (s.remove e) xs := Agree.remove (l := []) h
        obtain ⟨s', evicted, kept, hs', hsplit, hagree, hroom⟩ := ih hremoved (by simpa using hfuel)
        rw [hs']
        exact ⟨s', e :: evicted, kept, rfl, by rw [hsplit]; rfl, hagree, hroom⟩
      · rename_i hfull
        exact ⟨s, [], e :: xs, rfl, rfl, h, fun _ => by simpa using hfull⟩

theorem Agree.makeRoom (h : Agree limits s xs) {bytes : Nat} (hbytes : bytes ≤ limits.maxBytes)
    (now : Nat) :
    ∃ s' evicted kept, s.makeRoom limits bytes now = some (s', evicted) ∧ Agree limits s' kept ∧
      s'.full limits bytes = false ∧
      (evicted = [] ∧ kept = xs ∨ xs.filter (·.liveAt now) = evicted ++ kept) := by
  unfold Store.makeRoom
  split
  · obtain ⟨s₁, hs₁, hagree₁⟩ := h.removeExpired now (s.entries.length + 1) (by rw [h.length]; omega)
    obtain ⟨s₂, evicted, kept, hs₂, hsplit, hagree₂, hroom⟩ :=
      hagree₁.evict bytes (s₁.entries.length + 1) (by rw [hagree₁.length]; omega)
    simp only [hs₁, Option.bind_eq_bind, Option.bind_some, hs₂]
    refine ⟨s₂, evicted, kept, rfl, hagree₂, ?_, .inr hsplit⟩
    cases kept with
    | cons e kept => exact hroom (List.cons_ne_nil e kept)
    | nil =>
      -- with nothing left there is room for any entry of the store
      have hzero : s₂.bytes = 0 := hagree₂.bytes
      have hlength := hagree₂.length
      have hmax := limits.entries_ok.1
      simp only [Store.full, hlength, hzero, List.length_nil, Bool.or_eq_false_iff,
        decide_eq_false_iff_not]
      omega
  · rename_i hfull
    exact ⟨s, [], xs, rfl, h, by simpa using hfull, .inl ⟨rfl, rfl⟩⟩

/-! ## Section 5: Writing and reading -/

theorem Agree.insert (h : Agree limits s xs) {key : String} (raw : String)
    {expiresAt : Option Nat} {bytes now : Nat} (hkey : ∀ e ∈ xs, e.key ≠ key) (hroom : s.full limits bytes = false)
    (hlive : isExpired expiresAt now = false) (hsmall : ∀ d, expiresAt = some d → d < 2 ^ 53) :
    ∃ s', s.insert key raw expiresAt bytes now = some s' ∧
      Agree limits s' (xs ++ [⟨s.fresh, key, raw, expiresAt, bytes⟩]) := by
  unfold Store.insert
  simp only
  generalize he : (⟨s.fresh, key, raw, expiresAt, bytes⟩ : MemoryEntry) = e
  have hnew : e ∉ xs := by
    intro hmem
    have hlt := h.fresh e hmem
    rw [← he] at hlt
    exact Nat.lt_irrefl _ hlt
  have hekey : e.key = key := by rw [← he]
  have hbytes : e.bytes = bytes := by rw [← he]
  obtain ⟨x, hx, hholds⟩ : ∃ x, (if expiresAt.isSome then s.expiry.add e now else some s.expiry) = some x ∧
      Holds x ((xs ++ [e]).filter MemoryEntry.dated) := by
    have hexpires : e.expiresAt = expiresAt := by rw [← he]
    split
    · rename_i hsome
      obtain ⟨d, hd⟩ := Option.isSome_iff_exists.mp hsome
      have hdated : e.dated = true := by rw [MemoryEntry.dated, hexpires]; exact hsome
      have hdeadline : e.deadline = d := by simp [MemoryEntry.deadline, hexpires, hd]
      have hnow : now < d := by simpa [isExpired, hd] using hlive
      obtain ⟨x, hx, hholds⟩ := h.expiry.add (e := e)
        (fun hmem => hnew (List.mem_filter.mp hmem).1) (hdeadline ▸ hnow) (hdeadline ▸ hsmall d hd)
      refine ⟨x, hx, hholds.perm ?_⟩
      rw [List.filter_append, List.filter_cons_of_pos hdated]
      exact (List.perm_append_singleton _ _).symm
    · rename_i hnone
      have hundated : ¬ e.dated = true := by rw [MemoryEntry.dated, hexpires]; exact hnone
      refine ⟨_, rfl, ?_⟩
      rw [List.filter_append, List.filter_cons_of_neg hundated]
      simpa using h.expiry
  rw [hx]
  simp only [Store.full, Bool.or_eq_false_iff, decide_eq_false_iff_not, h.length] at hroom
  refine ⟨_, rfl, ?_, ?_, by simp, ?_, ?_, hholds, ?_, ?_, ?_, ?_⟩
  · show Chain (s.links.append s.newest e) _
    rw [h.newest]
    exact h.chain.append hnew
  · dsimp only
    rw [h.newest, h.oldest]
    cases xs with
    | nil => rfl
    | cons y xs => simp [List.getLast?_cons]
  · have hnone := h.get_eq_none.mpr hkey
    show (Entries.set s.entries key e).Perm _
    rw [Entries.set_of_get_none hnone, List.map_append, ← hekey]
    exact h.map.append_right _
  · rw [List.map_append, List.nodup_append]
    refine ⟨h.keys, List.nodup_singleton _, ?_⟩
    intro a ha b hb heq
    obtain ⟨y, hy, rfl⟩ := List.mem_map.mp ha
    rw [List.map_singleton, List.mem_singleton] at hb
    exact hkey y hy (heq.trans (hb.trans hekey))
  · show s.bytes + bytes = _
    rw [h.bytes, List.map_append, List.sum_append, List.map_singleton, List.sum_singleton, hbytes]
  · show s.bytes + bytes ≤ _
    omega
  · rw [List.length_append, List.length_singleton]
    omega
  · intro y hy
    show y.id < s.fresh + 1
    rcases List.mem_append.mp hy with hy | hy
    · exact Nat.lt_succ_of_lt (h.fresh y hy)
    · rw [List.mem_singleton.mp hy, ← he]
      exact Nat.lt_succ_self _

/-- What a write does to the entries, the least recently used first, and which
    live ones it evicts. -/
inductive Wrote (xs : List MemoryEntry) (input : PreparedCacheEntry) (bytes now : Nat) :
    List MemoryEntry → List MemoryEntry → Prop
  | dropped : input.raw = none ∨ isExpired input.expiresAt now = true →
      Wrote xs input bytes now (xs.filter (·.key != input.key)) []
  | stored (e : MemoryEntry) (evicted kept : List MemoryEntry) :
      e.key = input.key → input.raw = some e.raw → e.expiresAt = input.expiresAt →
      e.bytes = bytes →
      (evicted = [] ∧ kept = xs.filter (·.key != input.key) ∨
        (xs.filter (·.key != input.key)).filter (·.liveAt now) = evicted ++ kept) →
      Wrote xs input bytes now (kept ++ [e]) evicted

theorem Agree.write (h : Agree limits s xs) {input : PreparedCacheEntry} {bytes : Nat}
    (hbytes : bytes ≤ limits.maxBytes) (now : Nat) (hsmall : ∀ d, input.expiresAt = some d → d < 2 ^ 53) :
    ∃ s' xs' evicted, s.write limits input bytes now = some (s', evicted) ∧ Agree limits s' xs' ∧
      Wrote xs input bytes now xs' evicted := by
  have hremoved := h.removeKey input.key
  unfold Store.write
  simp only
  split
  · rename_i hraw
    exact ⟨_, _, [], rfl, hremoved, .dropped (.inl hraw)⟩
  · rename_i raw hraw
    split
    · rename_i hexpired
      exact ⟨_, _, [], rfl, hremoved, .dropped (.inr hexpired)⟩
    · rename_i hexpired
      obtain ⟨s₁, evicted, kept, hs₁, hagree₁, hroom, hkept⟩ := hremoved.makeRoom hbytes now
      have hkey : ∀ e ∈ kept, e.key ≠ input.key := by
        intro e he
        have hmem : e ∈ xs.filter (·.key != input.key) := by
          rcases hkept with ⟨-, rfl⟩ | hsplit
          · exact he
          · have hin : e ∈ (xs.filter (·.key != input.key)).filter (·.liveAt now) := by
              rw [hsplit]
              exact List.mem_append_right _ he
            exact (List.mem_filter.mp hin).1
        simpa using (List.mem_filter.mp hmem).2
      obtain ⟨s₂, hs₂, hagree₂⟩ := hagree₁.insert raw hkey hroom (by simpa using hexpired) hsmall
      simp only [hs₁, Option.bind_eq_bind, Option.bind_some, hs₂]
      exact ⟨s₂, _, evicted, rfl, hagree₂, .stored _ evicted kept rfl hraw rfl rfl hkept⟩

/-- What a lookup does to the entries, and what it gives. -/
inductive Read {V : Type} (parse : String → Option V) (xs : List MemoryEntry) (key : String)
    (now : Nat) : List MemoryEntry → Option V → Prop
  | missing : (∀ e ∈ xs, e.key ≠ key) → Read parse xs key now xs none
  | expired (e : MemoryEntry) : e ∈ xs → e.key = key → isExpired e.expiresAt now = true →
      Read parse xs key now (xs.filter (·.key != key)) none
  | broken (e : MemoryEntry) : e ∈ xs → e.key = key → isExpired e.expiresAt now = false →
      parse e.raw = none → Read parse xs key now (xs.filter (·.key != key)) none
  | found (e : MemoryEntry) (v : V) : e ∈ xs → e.key = key → isExpired e.expiresAt now = false →
      parse e.raw = some v → Read parse xs key now (xs.filter (·.key != key) ++ [e]) (some v)

theorem Agree.get {V : Type} (parse : String → Option V) (h : Agree limits s xs) (key : String)
    (now : Nat) :
    ∃ xs', Agree limits (s.get parse key now).2 xs' ∧
      Read parse xs key now xs' (s.get parse key now).1 := by
  unfold Store.get
  split
  · rename_i hget
    exact ⟨xs, h, .missing (h.get_eq_none.mp hget)⟩
  · rename_i e hget
    obtain ⟨he, rfl⟩ := h.get_eq_some.mp hget
    split
    · rename_i hexpired
      exact ⟨_, h.remove_mem he, .expired e he rfl hexpired⟩
    · rename_i hexpired
      have hlive : isExpired e.expiresAt now = false := by simpa using hexpired
      split
      · rename_i v hparse
        obtain ⟨l, r, hsplit⟩ := List.append_of_mem he
        have hkeys := h.keys
        rw [hsplit] at h hkeys
        have hread : Read parse xs e.key now _ (some v) := .found e v he rfl hlive hparse
        refine ⟨_, ?_, hread⟩
        rw [hsplit, filter_key hkeys]
        exact h.touch
      · rename_i hparse
        exact ⟨_, h.remove_mem he, .broken e he rfl hlive hparse⟩

end Cossack.Framework.MemoryCache
