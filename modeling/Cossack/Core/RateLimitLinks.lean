import Cossack.Core.RateLimitStores
import Cossack.Lib.LinkedLists

/-! # The in-memory rate-limit store, with its pointers

    The buckets of `InMemoryRateLimitStore` point to their neighbours in window
    order, the map and the sweep point to buckets.  What the pointers make is the
    store of the list of buckets. -/

namespace Cossack.Core.RateLimit

namespace InMemoryRateLimitStore

/-- A hit on the list, once its arguments are checked. -/
def enter (s : InMemoryRateLimitStore) (key : String) (windowMs now : Nat) : Reply × InMemoryRateLimitStore :=
  let start := fun s : InMemoryRateLimitStore =>
    (.ok ⟨1, now + windowMs⟩, s.push ⟨key, 1, now + windowMs⟩)
  match s.get key with
  | some existing =>
      if now < existing.resetAt then
        match readCounter ⟨existing.count + 1, existing.resetAt⟩ with
        | .error e => (.error e, s)
        | .ok c => (.ok c, s.setCount key c.count)
      else start (s.remove key)
  | none => start (if s.maxEntries ≤ s.buckets.length then s.makeRoom now else s)

theorem hit_eq (s : InMemoryRateLimitStore) (key : String) (windowMs now : Nat) :
    s.hit key windowMs now = match assertHit key windowMs now with
      | .error e => (.error e, s)
      | .ok _ => s.enter key windowMs now := rfl

end InMemoryRateLimitStore

namespace Linked

open LinkedLists

/-! ## Section 1: The model -/

/-- A bucket; `count` is a field of the store's heap. -/
structure MemoryBucket where
  id : Nat
  key : String
  resetAt : Nat
  deriving DecidableEq

structure InMemoryRateLimitStore where
  maxEntries : Nat
  entries : List (String × MemoryBucket)
  count : MemoryBucket → Nat
  /-- `older` and `newer`. -/
  links : Links MemoryBucket
  oldest : Option MemoryBucket
  newest : Option MemoryBucket
  sweep : Option MemoryBucket
  /-- The identity of the next bucket that is made. -/
  fresh : Nat

namespace InMemoryRateLimitStore

def create (maxEntries : Nat) : InMemoryRateLimitStore :=
  ⟨maxEntries, [], fun _ => 0, .empty, none, none, none, 0⟩

/-- The constructor. -/
def construct (maxEntries : Nat) : Except String InMemoryRateLimitStore :=
  if maxEntries < 1 ∨ 100000 < maxEntries then
    .error "[Cossack] Rate-limit maxEntries must be an integer between 1 and 100000."
  else .ok (create maxEntries)

def remove (s : InMemoryRateLimitStore) (bucket : MemoryBucket) : InMemoryRateLimitStore :=
  { s with
    sweep := if s.sweep = some bucket then s.links.next bucket else s.sweep
    oldest := match s.links.prev bucket with
      | some _ => s.oldest
      | none => s.links.next bucket
    newest := match s.links.next bucket with
      | some _ => s.newest
      | none => s.links.prev bucket
    links := s.links.unlink bucket
    entries := Entries.erase s.entries bucket.key }

/-- The buckets at the oldest end that are over, at most `n` of them. -/
def removeExpired (now : Nat) : Nat → InMemoryRateLimitStore → InMemoryRateLimitStore
  | 0, s => s
  | n + 1, s =>
      match s.oldest with
      | none => s
      | some oldest => if now < oldest.resetAt then s else removeExpired now n (s.remove oldest)

/-- At most `n` buckets are examined, from where the last sweep ended. -/
def sweepExpired (now : Nat) : Nat → InMemoryRateLimitStore → InMemoryRateLimitStore
  | 0, s => s
  | n + 1, s =>
      if s.entries.length < s.maxEntries then s
      else
        match s.sweep.or s.oldest with
        | none => s
        | some bucket =>
            let s := { s with sweep := s.links.next bucket }
            sweepExpired now n (if now < bucket.resetAt then s else s.remove bucket)

def makeRoom (s : InMemoryRateLimitStore) (now : Nat) : InMemoryRateLimitStore :=
  let s := s.removeExpired now s.entries.length
  let s := s.sweepExpired now (min 8 s.entries.length)
  match s.oldest with
  | none => s
  | some oldest => if s.entries.length < s.maxEntries then s else s.remove oldest

/-- A new window joins the newest end. -/
def push (s : InMemoryRateLimitStore) (key : String) (resetAt : Nat) : InMemoryRateLimitStore :=
  let bucket : MemoryBucket := ⟨s.fresh, key, resetAt⟩
  { s with
    links := s.links.append s.newest bucket
    oldest := match s.newest with
      | some _ => s.oldest
      | none => some bucket
    newest := some bucket
    entries := Entries.set s.entries key bucket
    count := Function.update s.count bucket 1
    fresh := s.fresh + 1 }

/-- The hit, once its arguments are checked. -/
def enter (s : InMemoryRateLimitStore) (key : String) (windowMs now : Nat) : Reply × InMemoryRateLimitStore :=
  let start := fun s : InMemoryRateLimitStore => (.ok ⟨1, now + windowMs⟩, s.push key (now + windowMs))
  match Entries.get s.entries key with
  | some existing =>
      if now < existing.resetAt then
        match readCounter ⟨s.count existing + 1, existing.resetAt⟩ with
        | .error e => (.error e, s)
        | .ok c => (.ok c, { s with count := Function.update s.count existing c.count })
      else start (s.remove existing)
  | none => start (if s.maxEntries ≤ s.entries.length then s.makeRoom now else s)

/-- The clock is read for the check and again for the window. -/
def hit (s : InMemoryRateLimitStore) (key : String) (windowMs checked now : Nat) :
    Reply × InMemoryRateLimitStore :=
  match assertHit key windowMs checked with
  | .error e => (.error e, s)
  | .ok _ => s.enter key windowMs now

/-! ## Section 2: The pointers make a list -/

/-- The map, the list and the sweep have the buckets `xs`, oldest first. -/
structure Agree (s : InMemoryRateLimitStore) (xs : List MemoryBucket) : Prop where
  chain : Chain s.links xs
  oldest : s.oldest = xs.head?
  newest : s.newest = xs.getLast?
  map : s.entries.Perm (xs.map fun bucket => (bucket.key, bucket))
  keys : (xs.map MemoryBucket.key).Nodup
  sweep : ∀ bucket, s.sweep = some bucket → bucket ∈ xs
  fresh : ∀ bucket ∈ xs, bucket.id < s.fresh

/-- A bucket with its count. -/
def plain (s : InMemoryRateLimitStore) (bucket : MemoryBucket) : RateLimit.MemoryBucket :=
  ⟨bucket.key, s.count bucket, bucket.resetAt⟩

/-- The store of the list that the pointers make. -/
def listed (s : InMemoryRateLimitStore) (xs : List MemoryBucket) : RateLimit.InMemoryRateLimitStore :=
  ⟨s.maxEntries, xs.map s.plain, s.sweep.map MemoryBucket.key⟩

@[simp] theorem plain_key (s : InMemoryRateLimitStore) (bucket : MemoryBucket) :
    (s.plain bucket).key = bucket.key := rfl

@[simp] theorem plain_resetAt (s : InMemoryRateLimitStore) (bucket : MemoryBucket) :
    (s.plain bucket).resetAt = bucket.resetAt := rfl

@[simp] theorem listed_maxEntries (s : InMemoryRateLimitStore) (xs : List MemoryBucket) :
    (s.listed xs).maxEntries = s.maxEntries := rfl

theorem agree_create (maxEntries : Nat) : Agree (create maxEntries) [] :=
  ⟨.nil _, rfl, rfl, .refl _, List.nodup_nil, nofun, nofun⟩

variable {s : InMemoryRateLimitStore} {xs l r : List MemoryBucket} {bucket : MemoryBucket}

theorem Agree.length (h : Agree s xs) : s.entries.length = xs.length := by
  rw [h.map.length_eq, List.length_map]

theorem Agree.get_eq_some (h : Agree s xs) {key : String} :
    Entries.get s.entries key = some bucket ↔ bucket ∈ xs ∧ bucket.key = key := by
  have hkeys : (s.entries.map Prod.fst).Nodup := by
    rw [(h.map.map Prod.fst).nodup_iff, List.map_map]
    exact h.keys
  rw [Entries.get_eq_some hkeys, h.map.mem_iff, List.mem_map]
  constructor
  · rintro ⟨other, hother, heq⟩
    cases heq
    exact ⟨hother, rfl⟩
  · rintro ⟨hmem, rfl⟩
    exact ⟨bucket, hmem, rfl⟩

theorem Agree.get_eq_none (h : Agree s xs) {key : String} :
    Entries.get s.entries key = none ↔ ∀ bucket ∈ xs, bucket.key ≠ key := by
  constructor
  · intro hnone bucket hmem hkey
    rw [h.get_eq_some.mpr ⟨hmem, hkey⟩] at hnone
    cases hnone
  · intro hne
    rcases hget : Entries.get s.entries key with _ | bucket
    · rfl
    · obtain ⟨hmem, hkey⟩ := h.get_eq_some.mp hget
      exact absurd hkey (hne bucket hmem)

/-- Buckets with one key are one. -/
theorem Agree.key_inj (h : Agree s xs) {other : MemoryBucket} (hbucket : bucket ∈ xs) (hother : other ∈ xs)
    (hkey : bucket.key = other.key) : bucket = other := by
  have hget := h.get_eq_some.mpr ⟨hother, hkey.symm⟩
  rw [h.get_eq_some.mpr ⟨hbucket, rfl⟩] at hget
  exact Option.some.inj hget

/-- The list has the bucket of a key where the map has. -/
theorem Agree.get_listed (h : Agree s xs) (key : String) :
    (s.listed xs).get key = (Entries.get s.entries key).map s.plain := by
  have hfind : (s.listed xs).get key = (xs.find? fun bucket => bucket.key = key).map s.plain := by
    simp only [RateLimit.InMemoryRateLimitStore.get, listed, List.find?_map]
    rfl
  rw [hfind]
  congr 1
  cases hget : Entries.get s.entries key with
  | some bucket =>
    obtain ⟨hmem, hkey⟩ := h.get_eq_some.mp hget
    cases hx : xs.find? fun bucket => bucket.key = key with
    | none =>
      have hne := List.find?_eq_none.mp hx bucket hmem
      simp [hkey] at hne
    | some other =>
      have hother : other.key = key := by simpa using List.find?_some hx
      exact congrArg some (h.key_inj (List.mem_of_find?_eq_some hx) hmem (hother.trans hkey.symm))
  | none =>
    rw [List.find?_eq_none]
    intro bucket hmem hkey
    rw [h.get_eq_some.mpr ⟨hmem, by simpa using hkey⟩] at hget
    cases hget

/-- Without the bucket of a key. -/
theorem filter_key (hkeys : ((l ++ bucket :: r).map MemoryBucket.key).Nodup) :
    (l ++ bucket :: r).filter (·.key != bucket.key) = l ++ r := by
  rw [List.map_append, List.map_cons, List.nodup_middle, List.nodup_cons, ← List.map_append] at hkeys
  have hne : ∀ y ∈ l ++ r, (y.key != bucket.key) = true := by
    intro y hy
    rw [bne_iff_ne]
    intro heq
    exact hkeys.1 (heq ▸ List.mem_map_of_mem hy)
  rw [List.filter_append, List.filter_cons_of_neg (by simp), ← List.filter_append, List.filter_eq_self.mpr hne]

theorem Agree.newer (h : Agree s (l ++ bucket :: r)) :
    (s.listed (l ++ bucket :: r)).newer bucket.key = (s.links.next bucket).map MemoryBucket.key := by
  have hkeys := h.keys
  rw [List.map_append, List.nodup_append] at hkeys
  have hl : ∀ y ∈ l.map s.plain, (decide (y.key ≠ bucket.key)) = true := by
    intro y hy
    obtain ⟨b, hb, rfl⟩ := List.mem_map.mp hy
    exact decide_eq_true (hkeys.2.2 b.key (List.mem_map_of_mem hb) bucket.key (by simp))
  rw [(h.chain.neighbours l bucket r rfl).2]
  simp only [RateLimit.InMemoryRateLimitStore.newer, listed, List.map_append, List.map_cons]
  rw [List.dropWhile_append_of_pos hl, List.dropWhile_cons_of_neg (by simp [plain])]
  cases r <;> simp [plain]

theorem Agree.remove (h : Agree s (l ++ bucket :: r)) :
    Agree (s.remove bucket) (l ++ r) ∧
    (s.remove bucket).listed (l ++ r) = (s.listed (l ++ bucket :: r)).remove bucket.key := by
  obtain ⟨hprev, hnext⟩ := h.chain.neighbours l bucket r rfl
  constructor
  · refine ⟨h.chain.unlink, ?_, ?_, ?_, ?_, ?_, ?_⟩
    · show (match s.links.prev bucket with | some _ => s.oldest | none => s.links.next bucket) = _
      rw [hprev, hnext, h.oldest]
      cases l with
      | nil => rfl
      | cons y l => simp [List.getLast?_cons]
    · show (match s.links.next bucket with | some _ => s.newest | none => s.links.prev bucket) = _
      rw [hprev, hnext, h.newest]
      cases r with
      | nil => simp
      | cons y r => simp [List.getLast?_append, List.getLast?_cons]
    · have hfilter := h.map.filter fun entry => entry.1 != bucket.key
      rw [List.filter_map] at hfilter
      have hcomp : (fun entry : String × MemoryBucket => entry.1 != bucket.key) ∘ (fun b => (b.key, b)) =
          fun b : MemoryBucket => b.key != bucket.key := rfl
      rw [hcomp, filter_key h.keys] at hfilter
      exact hfilter
    · exact h.keys.sublist (by simp)
    · intro other hother
      change (if s.sweep = some bucket then s.links.next bucket else s.sweep) = some other at hother
      split at hother
      · rw [hnext] at hother
        exact List.mem_append_right _ (List.mem_of_head? hother)
      · rename_i hne
        have hmem := h.sweep other hother
        have hother' : other ≠ bucket := fun heq => hne (heq ▸ hother)
        simpa [hother'] using hmem
    · intro y hy
      refine h.fresh y ?_
      simp only [List.mem_append, List.mem_cons] at hy ⊢
      tauto
  · have hbuckets : (l ++ r).map s.plain =
        ((l ++ bucket :: r).map s.plain).filter fun b => decide (b.key ≠ bucket.key) := by
      rw [List.filter_map, ← filter_key h.keys]
      congr 1
      refine List.filter_congr fun y _ => ?_
      by_cases heq : y.key = bucket.key <;> simp [heq]
    have hsweep : (if s.sweep = some bucket then s.links.next bucket else s.sweep).map MemoryBucket.key =
        if s.sweep.map MemoryBucket.key = some bucket.key then (s.listed (l ++ bucket :: r)).newer bucket.key
        else s.sweep.map MemoryBucket.key := by
      rw [h.newer]
      by_cases heq : s.sweep = some bucket
      · simp [heq]
      · have hne : s.sweep.map MemoryBucket.key ≠ some bucket.key := by
          intro hkey
          obtain ⟨other, hother, hkey⟩ := Option.map_eq_some_iff.mp hkey
          rw [h.key_inj (h.sweep other hother) (by simp) hkey] at hother
          exact heq hother
        rw [if_neg heq, if_neg hne]
    show (⟨s.maxEntries, (l ++ r).map s.plain, _⟩ : RateLimit.InMemoryRateLimitStore) = _
    rw [RateLimit.InMemoryRateLimitStore.remove, RateLimit.InMemoryRateLimitStore.mk.injEq]
    exact ⟨rfl, hbuckets, hsweep⟩

/-- Another place for the sweep. -/
theorem Agree.sweepTo (h : Agree s xs) {next : Option MemoryBucket} (hnext : ∀ b, next = some b → b ∈ xs) :
    Agree { s with sweep := next } xs :=
  ⟨h.chain, h.oldest, h.newest, h.map, h.keys, hnext, h.fresh⟩

theorem sublist_remove (l r : List MemoryBucket) (bucket : MemoryBucket) : (l ++ r).Sublist (l ++ bucket :: r) :=
  (List.sublist_cons_self bucket r).append_left l

theorem Agree.removeExpired (h : Agree s xs) (now n : Nat) :
    ∃ ys, ys.Sublist xs ∧ Agree (s.removeExpired now n) ys ∧
      (s.removeExpired now n).listed ys = (s.listed xs).removeExpired now n := by
  induction n generalizing s xs with
  | zero => exact ⟨xs, .refl _, h, rfl⟩
  | succ n ih =>
    rw [InMemoryRateLimitStore.removeExpired, RateLimit.InMemoryRateLimitStore.removeExpired, h.oldest]
    cases xs with
    | nil => exact ⟨[], .refl _, h, rfl⟩
    | cons oldest rest =>
      simp only [List.head?_cons, listed, List.map_cons, plain_resetAt, plain_key]
      split
      · exact ⟨oldest :: rest, .refl _, h, rfl⟩
      · have hsplit : Agree s ([] ++ oldest :: rest) := h
        obtain ⟨hremoved, hlisted⟩ := hsplit.remove
        obtain ⟨ys, hsub, hys, heq⟩ := ih hremoved
        rw [hlisted] at heq
        exact ⟨ys, hsub.trans (sublist_remove [] rest oldest), hys, heq⟩

theorem Agree.sweepExpired (h : Agree s xs) (now n : Nat) :
    ∃ ys, ys.Sublist xs ∧ Agree (s.sweepExpired now n) ys ∧
      (s.sweepExpired now n).listed ys = (s.listed xs).sweepExpired now n := by
  induction n generalizing s xs with
  | zero => exact ⟨xs, .refl _, h, rfl⟩
  | succ n ih =>
    rw [InMemoryRateLimitStore.sweepExpired, RateLimit.InMemoryRateLimitStore.sweepExpired]
    have hlen : (s.listed xs).buckets.length = s.entries.length := by
      rw [h.length]
      exact List.length_map _
    have hnext : ((s.listed xs).sweep.bind (s.listed xs).get).or (s.listed xs).buckets.head? =
        (s.sweep.or s.oldest).map s.plain := by
      rw [h.oldest]
      cases hsweep : s.sweep with
      | none => simp [listed, hsweep]
      | some bucket =>
        have hget := h.get_listed bucket.key
        rw [h.get_eq_some.mpr ⟨h.sweep bucket hsweep, rfl⟩] at hget
        have hkey : (s.listed xs).sweep = some bucket.key := by simp [listed, hsweep]
        rw [hkey, Option.bind_some, hget]
        rfl
    rw [hlen, hnext, listed_maxEntries]
    split
    · exact ⟨xs, .refl _, h, rfl⟩
    · cases hbucket : s.sweep.or s.oldest with
      | none => exact ⟨xs, .refl _, h, rfl⟩
      | some bucket =>
        have hmem : bucket ∈ xs := by
          rcases Option.or_eq_some_iff.mp hbucket with hsweep | ⟨-, hhead⟩
          · exact h.sweep bucket hsweep
          · exact List.mem_of_head? (h.oldest ▸ hhead)
        obtain ⟨l, r, rfl⟩ := List.append_of_mem hmem
        have hnewer := h.newer
        have hafter : ∀ b, s.links.next bucket = some b → b ∈ l ++ bucket :: r := by
          rw [(h.chain.neighbours l bucket r rfl).2]
          intro b hb
          exact List.mem_append_right _ (List.mem_cons_of_mem _ (List.mem_of_head? hb))
        have hswept := h.sweepTo hafter
        have heq : ({ s with sweep := s.links.next bucket } : InMemoryRateLimitStore).listed (l ++ bucket :: r) =
            ⟨s.maxEntries, (s.listed (l ++ bucket :: r)).buckets, (s.listed (l ++ bucket :: r)).newer bucket.key⟩ := by
          rw [hnewer]
          rfl
        simp only [Option.map_some, plain_key]
        by_cases hlive : now < bucket.resetAt
        · have hlive' : now < (s.plain bucket).resetAt := hlive
          simp only [if_pos hlive, if_pos hlive']
          have hrest := ih hswept
          rw [heq] at hrest
          exact hrest
        · have hlive' : ¬ now < (s.plain bucket).resetAt := hlive
          simp only [if_neg hlive, if_neg hlive']
          obtain ⟨ys, hsub, hys, hlisted⟩ := ih hswept.remove.1
          rw [hswept.remove.2, heq] at hlisted
          exact ⟨ys, hsub.trans (sublist_remove l r bucket), hys, hlisted⟩

theorem Agree.makeRoom (h : Agree s xs) (now : Nat) :
    ∃ ys, ys.Sublist xs ∧ Agree (s.makeRoom now) ys ∧
      (s.makeRoom now).listed ys = (s.listed xs).makeRoom now := by
  have hlen : ∀ {s xs}, Agree s xs → (s.listed xs).buckets.length = s.entries.length := by
    intro s xs h
    rw [h.length]
    exact List.length_map _
  obtain ⟨ys, hsub, hys, hexpired⟩ := h.removeExpired now s.entries.length
  obtain ⟨zs, hsub', hzs, hswept⟩ :=
    hys.sweepExpired now (min 8 (s.removeExpired now s.entries.length).entries.length)
  unfold InMemoryRateLimitStore.makeRoom RateLimit.InMemoryRateLimitStore.makeRoom
  simp only
  rw [hlen h, ← hexpired, hlen hys, ← hswept, hlen hzs]
  generalize (s.removeExpired now s.entries.length).sweepExpired now
    (min 8 (s.removeExpired now s.entries.length).entries.length) = t at hzs
  rw [hzs.oldest]
  cases zs with
  | nil => exact ⟨[], hsub'.trans hsub, hzs, rfl⟩
  | cons oldest rest =>
    simp only [List.head?_cons, listed, List.map_cons, plain_key]
    split
    · exact ⟨oldest :: rest, hsub'.trans hsub, hzs, rfl⟩
    · have hsplit : Agree t ([] ++ oldest :: rest) := hzs
      have hrest := sublist_remove [] rest oldest
      exact ⟨rest, (hrest.trans hsub').trans hsub, hsplit.remove.1, hsplit.remove.2⟩

theorem Agree.push (h : Agree s xs) {key : String} (hnone : Entries.get s.entries key = none) (resetAt : Nat) :
    Agree (s.push key resetAt) (xs ++ [⟨s.fresh, key, resetAt⟩]) ∧
    (s.push key resetAt).listed (xs ++ [⟨s.fresh, key, resetAt⟩]) =
      (s.listed xs).push ⟨key, 1, resetAt⟩ := by
  generalize hbucket : (⟨s.fresh, key, resetAt⟩ : MemoryBucket) = bucket
  have hnew : bucket ∉ xs := by
    intro hmem
    have hlt := h.fresh bucket hmem
    rw [← hbucket] at hlt
    exact Nat.lt_irrefl _ hlt
  have hkey : bucket.key = key := by rw [← hbucket]
  have hother : ∀ y ∈ xs, y.key ≠ key := by
    intro y hy heq
    rw [h.get_eq_some.mpr ⟨hy, heq⟩] at hnone
    cases hnone
  have hpush : s.push key resetAt =
      { s with
        links := s.links.append s.newest bucket
        oldest := match s.newest with
          | some _ => s.oldest
          | none => some bucket
        newest := some bucket
        entries := Entries.set s.entries key bucket
        count := Function.update s.count bucket 1
        fresh := s.fresh + 1 } := by
    rw [← hbucket]
    rfl
  rw [hpush]
  constructor
  · refine ⟨?_, ?_, by simp, ?_, ?_, ?_, ?_⟩
    · show Chain (s.links.append s.newest bucket) _
      rw [h.newest]
      exact h.chain.append hnew
    · show (match s.newest with | some _ => s.oldest | none => some bucket) = _
      rw [h.newest, h.oldest]
      cases xs with
      | nil => rfl
      | cons y xs => simp [List.getLast?_cons]
    · show (Entries.set s.entries key bucket).Perm _
      rw [Entries.set_of_get_none hnone, List.map_append, ← hkey]
      exact h.map.append_right _
    · rw [List.map_append, List.nodup_append]
      refine ⟨h.keys, List.nodup_singleton _, ?_⟩
      intro a ha b hb heq
      obtain ⟨y, hy, rfl⟩ := List.mem_map.mp ha
      rw [List.map_singleton, List.mem_singleton] at hb
      exact hother y hy (heq.trans (hb.trans hkey))
    · intro b hb
      exact List.mem_append_left _ (h.sweep b hb)
    · intro y hy
      show y.id < s.fresh + 1
      rcases List.mem_append.mp hy with hy | hy
      · exact Nat.lt_succ_of_lt (h.fresh y hy)
      · rw [List.mem_singleton.mp hy, ← hbucket]
        exact Nat.lt_succ_self _
  · have hcount : ∀ y ∈ xs, Function.update s.count bucket 1 y = s.count y := fun y hy =>
      Function.update_of_ne (fun heq : y = bucket => hnew (heq ▸ hy)) _ _
    have hold : (xs.map fun y => (⟨y.key, Function.update s.count bucket 1 y, y.resetAt⟩ : RateLimit.MemoryBucket)) =
        xs.map s.plain := List.map_congr_left fun y hy => by rw [hcount y hy]; rfl
    simp only [listed, RateLimit.InMemoryRateLimitStore.push, List.map_append, RateLimit.InMemoryRateLimitStore.mk.injEq,
      true_and, and_true]
    refine congrArg₂ _ hold ?_
    simp [plain, ← hbucket]

/-- A hit on the pointers is one on the list. -/
theorem Agree.enter (h : Agree s xs) (key : String) (windowMs now : Nat) :
    ∃ ys, Agree (s.enter key windowMs now).2 ys ∧
      (s.enter key windowMs now).1 = ((s.listed xs).enter key windowMs now).1 ∧
      (s.enter key windowMs now).2.listed ys = ((s.listed xs).enter key windowMs now).2 := by
  have hget := h.get_listed key
  unfold InMemoryRateLimitStore.enter RateLimit.InMemoryRateLimitStore.enter
  rw [hget]
  cases hentry : Entries.get s.entries key with
  | some existing =>
    obtain ⟨hmem, hkey⟩ := h.get_eq_some.mp hentry
    simp only [Option.map_some, plain]
    by_cases hlive : now < existing.resetAt
    · simp only [if_pos hlive]
      cases hread : readCounter ⟨s.count existing + 1, existing.resetAt⟩ with
      | error e => exact ⟨xs, h, rfl, rfl⟩
      | ok c =>
        refine ⟨xs, ⟨h.chain, h.oldest, h.newest, h.map, h.keys, h.sweep, h.fresh⟩, rfl, ?_⟩
        simp only [listed, RateLimit.InMemoryRateLimitStore.setCount, List.map_map,
          RateLimit.InMemoryRateLimitStore.mk.injEq, true_and, and_true]
        refine List.map_congr_left fun y hy => ?_
        by_cases heq : y = existing
        · simp [plain, heq, hkey]
        · have hne : y.key ≠ key := fun hyk => heq (h.key_inj hy hmem (hyk.trans hkey.symm))
          simp [plain, heq, hne]
    · simp only [if_neg hlive]
      obtain ⟨l, r, rfl⟩ := List.append_of_mem hmem
      obtain ⟨hremoved, hlisted⟩ := h.remove
      have hnone : Entries.get (s.remove existing).entries key = none := by
        rw [← hkey]
        exact Entries.get_erase_self _ _
      obtain ⟨hpushed, heq⟩ := hremoved.push hnone (now + windowMs)
      exact ⟨_, hpushed, trivial, by rw [heq, hlisted, hkey]⟩
  | none =>
    simp only [Option.map_none]
    have hlen : (s.listed xs).buckets.length = s.entries.length := by
      rw [h.length]
      exact List.length_map _
    rw [hlen, listed_maxEntries]
    by_cases hfull : s.maxEntries ≤ s.entries.length
    · simp only [if_pos hfull]
      obtain ⟨ys, hsub, hys, hlisted⟩ := h.makeRoom now
      have hnone : Entries.get (s.makeRoom now).entries key = none := by
        rw [hys.get_eq_none]
        intro bucket hbucket
        exact h.get_eq_none.mp hentry bucket (hsub.subset hbucket)
      obtain ⟨hpushed, heq⟩ := hys.push hnone (now + windowMs)
      exact ⟨_, hpushed, trivial, by rw [heq, hlisted]⟩
    · simp only [if_neg hfull]
      obtain ⟨hpushed, heq⟩ := h.push hentry (now + windowMs)
      exact ⟨_, hpushed, trivial, heq⟩

theorem Agree.hit (h : Agree s xs) (key : String) (windowMs now : Nat) :
    ∃ ys, Agree (s.hit key windowMs now now).2 ys ∧
      (s.hit key windowMs now now).1 = ((s.listed xs).hit key windowMs now).1 ∧
      (s.hit key windowMs now now).2.listed ys = ((s.listed xs).hit key windowMs now).2 := by
  rw [RateLimit.InMemoryRateLimitStore.hit_eq, InMemoryRateLimitStore.hit]
  cases assertHit key windowMs now with
  | error e => exact ⟨xs, h, rfl, rfl⟩
  | ok => exact h.enter key windowMs now

end InMemoryRateLimitStore

end Linked

end Cossack.Core.RateLimit
