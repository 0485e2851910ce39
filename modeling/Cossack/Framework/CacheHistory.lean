import Cossack.Framework.CacheConsistency
import Cossack.Lib.Outcome

/-! # What a cache returns

    Runs of the cache beside a record of the last write of each key.  A lookup
    gives what was written last, unless that has expired or was evicted. -/

namespace Cossack.Framework.MemoryCache

/-! ## Section 1: Operations -/

/-- Each operation has the clock readings it makes.  Those of a batch come entry
    by entry, one for the check and one for the write. -/
inductive Op where
  | get (key : String) (now : Nat)
  | set (key : String) (value : Value) (ttlMs : Option Int) (checked written : Nat)
  | setMany (entries : List (CacheEntry × Nat × Nat))
  | delete (key : String)
  | flush

inductive Response (V : Type) where
  | value (v : Option V)
  | done
  | refused (message : String)

/-- The last write of a key, and what has become of it. -/
structure Written where
  raw : String
  expiresAt : Option Nat
  evicted : Bool
  /-- The clock has been seen at the deadline or later. -/
  overdue : Bool
  /-- When the value was last written or returned. -/
  used : Nat

abbrev History := String → Option Written

namespace History

def tick (h : History) (now : Nat) : History := fun key =>
  (h key).map fun w => { w with overdue := w.overdue || isExpired w.expiresAt now }

def put (h : History) (key : String) (w : Option Written) : History := Function.update h key w

def evict (h : History) (keys : List String) : History := fun key =>
  (h key).map fun w => { w with evicted := w.evicted || key ∈ keys }

def use (h : History) (key : String) (time : Nat) : History :=
  h.put key ((h key).map fun w => { w with used := time })

def used (h : History) (key : String) : Nat := ((h key).map Written.used).getD 0

end History

/-- A live entry that went for another one, with the other entries that were left. -/
structure Eviction where
  entry : MemoryEntry
  now : Nat
  history : History
  left : List (String × MemoryEntry)

/-- The cache, and the record of what has happened to it.  `time` counts the
    writes and the lookups. -/
structure World where
  store : Store
  history : History
  time : Nat
  evictions : List Eviction

namespace World

def initial : World := ⟨.empty, fun _ => none, 0, []⟩

def tick (w : World) (now : Nat) : World := { w with history := w.history.tick now }

def write (limits : Limits) (w : World) (input : PreparedCacheEntry) (bytes now : Nat) :
    Option World :=
  (w.store.write limits input bytes now).map fun (store, evicted) =>
    { store := store
      history :=
        ((w.history.put input.key
          (input.raw.map fun raw => ⟨raw, input.expiresAt, false, false, w.time⟩)).evict
            (evicted.map MemoryEntry.key)).tick now
      time := w.time + 1
      evictions := w.evictions ++ evicted.map fun e =>
        ⟨e, now, w.history, Entries.erase store.entries input.key⟩ }

/-- The writes of a batch, each with its size and its clock reading. -/
def writeAll (limits : Limits) : World → List (PreparedCacheEntry × Nat × Nat) → Option World
  | w, [] => some w
  | w, (input, bytes, now) :: rest => do
      let w ← w.write limits input bytes now
      writeAll limits w rest

def lookup {V : Type} (parse : String → Option V) (w : World) (key : String) (now : Nat) : World :=
  let (result, store) := w.store.get parse key now
  let history := w.history.tick now
  { w with
    store := store
    history := if result.isSome then history.use key w.time else history
    time := w.time + 1 }

/-- `set`, up to the write. -/
def prepare (limits : Limits) (key : String) (value : Value) (ttlMs : Option Int) (checked : Nat) :
    Except String (PreparedCacheEntry × Nat) := do
  cacheKey key
  let expiresAt ← cacheExpiry ttlMs checked
  let raw ← cacheJsonValue value
  let bytes ← Store.entryBytes limits key raw
  .ok (⟨key, raw, expiresAt⟩, bytes)

/-- `setMany`, up to the first write. -/
def prepareMany (limits : Limits) (entries : List (CacheEntry × Nat × Nat)) :
    Except String (List (PreparedCacheEntry × Nat × Nat)) := do
  let prepared ← prepareCacheEntries (entries.map fun (entry, checked, _) => (entry, checked))
  let sizes ← prepared.mapM fun entry => Store.entryBytes limits entry.key entry.raw
  .ok (prepared.zip (sizes.zip (entries.map fun (_, _, written) => written)))

def step {V : Type} (parse : String → Option V) (limits : Limits) (w : World) :
    Op → Option (World × Response V)
  | .get key now =>
      match cacheKey key with
      | .error message => some (w, .refused message)
      | .ok _ => some (w.lookup parse key now, .value (w.store.get parse key now).1)
  | .set key value ttlMs checked written =>
      match prepare limits key value ttlMs checked with
      | .error message => some (w, .refused message)
      | .ok (input, bytes) => ((w.tick checked).write limits input bytes written).map (·, .done)
  | .setMany entries =>
      match prepareMany limits entries with
      | .error message => some (w, .refused message)
      | .ok inputs =>
          ((entries.foldl (fun w (_, checked, _) => w.tick checked) w).writeAll limits inputs).map
            (·, .done)
  | .delete key =>
      match cacheKey key with
      | .error message => some (w, .refused message)
      | .ok _ =>
          some ({ w with store := w.store.removeKey key, history := w.history.put key none }, .done)
  | .flush => some ({ w with store := w.store.flush, history := fun _ => none }, .done)

def run {V : Type} (parse : String → Option V) (limits : Limits) : World → List Op → Option World
  | w, [] => some w
  | w, op :: rest => (w.step parse limits op).bind fun (w, _) => run parse limits w rest

end World

/-! ## Section 2: The record and the entries -/

/-- The record tells of the entries, the least recently used first. -/
structure Tracks {V : Type} (parse : String → Option V) (h : History) (time : Nat)
    (xs : List MemoryEntry) : Prop where
  known : ∀ e ∈ xs, ∃ w, h e.key = some w ∧ w.raw = e.raw ∧ w.expiresAt = e.expiresAt ∧
    w.evicted = false
  kept : ∀ key w, h key = some w → w.evicted = false → w.overdue = false →
    (parse w.raw).isSome = true → ∃ e ∈ xs, e.key = key
  recent : ∀ e ∈ xs, h.used e.key < time
  order : xs.Pairwise fun e f => h.used e.key < h.used f.key

/-- The eviction was of the least recently used entry, and nothing that was left
    had expired. -/
def Eviction.fair (ev : Eviction) : Prop :=
  ev.entry.liveAt ev.now = true ∧ ∀ left ∈ ev.left, left.2.liveAt ev.now = true ∧
    ev.history.used ev.entry.key < ev.history.used left.1

/-- The size of an entry is that of its key and its value. -/
def Sized (xs : List MemoryEntry) : Prop :=
  ∀ e ∈ xs, e.bytes = e.key.utf8ByteSize + e.raw.utf8ByteSize

structure Consistent {V : Type} (parse : String → Option V) (limits : Limits) (w : World) : Prop where
  agree : ∃ xs, Agree limits w.store xs ∧ Sized xs ∧ Tracks parse w.history w.time xs
  evictions : ∀ ev ∈ w.evictions, ev.fair

variable {V : Type} {parse : String → Option V} {limits : Limits} {h : History} {time : Nat}
  {xs ys : List MemoryEntry}

@[simp] theorem used_tick (h : History) (now : Nat) (key : String) :
    (h.tick now).used key = h.used key := by
  simp [History.used, History.tick, Function.comp_def]

@[simp] theorem used_evict (h : History) (keys : List String) (key : String) :
    (h.evict keys).used key = h.used key := by
  simp [History.used, History.evict, Function.comp_def]

theorem used_put_of_ne (h : History) {key other : String} (w : Option Written) (hne : other ≠ key) :
    (h.put key w).used other = h.used other := by
  simp [History.used, History.put, Function.update_of_ne hne]

/-- A look at the clock. -/
theorem Tracks.tick (ht : Tracks parse h time xs) (now : Nat) :
    Tracks parse (h.tick now) time xs := by
  refine ⟨?_, ?_, ?_, ?_⟩
  · intro e he
    obtain ⟨w, hw, hraw, hexpires, hevicted⟩ := ht.known e he
    refine ⟨{ w with overdue := w.overdue || isExpired w.expiresAt now }, ?_, hraw, hexpires, hevicted⟩
    simp [History.tick, hw]
  · intro key w hw hevicted hoverdue hparse
    obtain ⟨w', hw', rfl⟩ := Option.map_eq_some_iff.mp hw
    rw [Bool.or_eq_false_iff] at hoverdue
    exact ht.kept key w' hw' hevicted hoverdue.1 hparse
  · simpa using ht.recent
  · simpa using ht.order

theorem Tracks.later (ht : Tracks parse h time xs) : Tracks parse h (time + 1) xs :=
  ⟨ht.known, ht.kept, fun e he => Nat.lt_succ_of_lt (ht.recent e he), ht.order⟩

/-- Entries that are left when others go, of which the record says why. -/
theorem Tracks.sublist (ht : Tracks parse h time xs) (hsub : ys.Sublist xs)
    (hkept : ∀ e ∈ xs, ∀ w, h e.key = some w → w.evicted = false → w.overdue = false →
      (parse w.raw).isSome = true → ∃ f ∈ ys, f.key = e.key) :
    Tracks parse h time ys := by
  refine ⟨fun e he => ht.known e (hsub.subset he), ?_, fun e he => ht.recent e (hsub.subset he),
    ht.order.sublist hsub⟩
  intro key w hw hevicted hoverdue hparse
  obtain ⟨e, he, rfl⟩ := ht.kept key w hw hevicted hoverdue hparse
  exact hkept e he w hw hevicted hoverdue hparse

/-- The value of one key is used, which makes its entry the last. -/
theorem Tracks.use (ht : Tracks parse h time xs) {e : MemoryEntry} (he : e ∈ xs) :
    Tracks parse (h.use e.key time) (time + 1) (xs.filter (·.key != e.key) ++ [e]) := by
  have hother : ∀ key, key ≠ e.key → (h.use e.key time).used key = h.used key := fun key hne =>
    used_put_of_ne h _ hne
  have hself : (h.use e.key time).used e.key = time := by
    obtain ⟨w, hw, -⟩ := ht.known e he
    simp [History.used, History.use, History.put, hw]
  have hmem : ∀ f, f ∈ xs.filter (·.key != e.key) → f ∈ xs ∧ f.key ≠ e.key := by
    intro f hf
    obtain ⟨hin, hne⟩ := List.mem_filter.mp hf
    exact ⟨hin, bne_iff_ne.mp hne⟩
  refine ⟨?_, ?_, ?_, ?_⟩
  · intro f hf
    have hin : f ∈ xs := by
      rcases List.mem_append.mp hf with hf | hf
      · exact (hmem f hf).1
      · rwa [List.mem_singleton.mp hf]
    obtain ⟨w, hw, hraw, hexpires, hevicted⟩ := ht.known f hin
    by_cases hkey : f.key = e.key
    · refine ⟨{ w with used := time }, ?_, hraw, hexpires, hevicted⟩
      rw [hkey] at hw
      simp [History.use, History.put, hkey, hw]
    · refine ⟨w, ?_, hraw, hexpires, hevicted⟩
      simp [History.use, History.put, Function.update_of_ne hkey, hw]
  · intro key w hw hevicted hoverdue hparse
    by_cases hkey : key = e.key
    · exact ⟨e, by simp, hkey.symm⟩
    · rw [History.use, History.put, Function.update_of_ne hkey] at hw
      obtain ⟨f, hf, rfl⟩ := ht.kept key w hw hevicted hoverdue hparse
      exact ⟨f, List.mem_append_left _ (List.mem_filter.mpr ⟨hf, bne_iff_ne.mpr hkey⟩), rfl⟩
  · intro f hf
    rcases List.mem_append.mp hf with hf | hf
    · obtain ⟨hin, hne⟩ := hmem f hf
      rw [hother f.key hne]
      exact Nat.lt_succ_of_lt (ht.recent f hin)
    · rw [List.mem_singleton.mp hf, hself]
      exact Nat.lt_succ_self time
  · rw [List.pairwise_append]
    refine ⟨?_, List.pairwise_singleton _ _, ?_⟩
    · refine (ht.order.sublist List.filter_sublist).imp_of_mem ?_
      intro f g hf hg hlt
      rwa [hother f.key (hmem f hf).2, hother g.key (hmem g hg).2]
    · intro f hf g hg
      obtain ⟨hin, hne⟩ := hmem f hf
      rw [List.mem_singleton.mp hg, hself, hother f.key hne]
      exact ht.recent f hin

/-- The value of a key is taken away. -/
theorem Tracks.delete (ht : Tracks parse h time xs) (key : String) :
    Tracks parse (h.put key none) time (xs.filter (·.key != key)) := by
  have hmem : ∀ f, f ∈ xs.filter (·.key != key) → f ∈ xs ∧ f.key ≠ key := by
    intro f hf
    obtain ⟨hin, hne⟩ := List.mem_filter.mp hf
    exact ⟨hin, bne_iff_ne.mp hne⟩
  refine ⟨?_, ?_, ?_, ?_⟩
  · intro f hf
    obtain ⟨hin, hne⟩ := hmem f hf
    obtain ⟨w, hw, hrest⟩ := ht.known f hin
    exact ⟨w, by rw [History.put, Function.update_of_ne hne, hw], hrest⟩
  · intro other w hw hevicted hoverdue hparse
    have hne : other ≠ key := by
      rintro rfl
      simp [History.put] at hw
    rw [History.put, Function.update_of_ne hne] at hw
    obtain ⟨f, hf, rfl⟩ := ht.kept other w hw hevicted hoverdue hparse
    exact ⟨f, List.mem_filter.mpr ⟨hf, bne_iff_ne.mpr hne⟩, rfl⟩
  · intro f hf
    obtain ⟨hin, hne⟩ := hmem f hf
    rw [used_put_of_ne h none hne]
    exact ht.recent f hin
  · refine (ht.order.sublist List.filter_sublist).imp_of_mem ?_
    intro f g hf hg hlt
    rwa [used_put_of_ne h none (hmem f hf).2, used_put_of_ne h none (hmem g hg).2]

/-! ## Section 3: Lookups and writes -/

theorem Tracks.read (ht : Tracks parse h time xs) {key : String} {now : Nat} {v : Option V}
    (hread : Read parse xs key now ys v) :
    Tracks parse (if v.isSome then (h.tick now).use key time else h.tick now) (time + 1) ys := by
  have htick := ht.tick now
  -- an entry that goes has expired or cannot be parsed
  have hgone : ∀ e ∈ xs, e.key = key →
      isExpired e.expiresAt now = true ∨ parse e.raw = none →
      Tracks parse (h.tick now) time (xs.filter (·.key != key)) := by
    intro e he hkey hwhy
    refine htick.sublist List.filter_sublist ?_
    intro f hf w hw hevicted hoverdue hparse
    by_cases hfkey : f.key = key
    · obtain ⟨w₀, hw₀, hraw, hexpires, -⟩ := ht.known e he
      rw [hfkey, ← hkey] at hw
      have hwritten : w = { w₀ with overdue := w₀.overdue || isExpired w₀.expiresAt now } := by
        simpa [History.tick, hw₀, eq_comm] using hw
      subst hwritten
      rcases hwhy with hexpired | hbroken
      · rw [Bool.or_eq_false_iff, hexpires, hexpired] at hoverdue
        cases hoverdue.2
      · simp only [hraw, hbroken] at hparse
        cases hparse
    · exact ⟨f, List.mem_filter.mpr ⟨hf, bne_iff_ne.mpr hfkey⟩, rfl⟩
  cases hread with
  | missing hnone => exact htick.later
  | expired e he hkey hexpired => exact (hgone e he hkey (.inl hexpired)).later
  | broken e he hkey hlive hparse => exact (hgone e he hkey (.inr hparse)).later
  | found e v he hkey hlive hparse =>
    subst hkey
    exact htick.use he

/-- The record after a write. -/
def History.wrote (h : History) (input : PreparedCacheEntry) (now time : Nat)
    (evicted : List MemoryEntry) : History :=
  ((h.put input.key (input.raw.map fun raw => ⟨raw, input.expiresAt, false, false, time⟩)).evict
    (evicted.map MemoryEntry.key)).tick now

theorem wrote_of_ne (h : History) {input : PreparedCacheEntry} (now time : Nat)
    (evicted : List MemoryEntry) {key : String} (hne : key ≠ input.key) :
    h.wrote input now time evicted key = (h key).map fun w =>
      { w with
        evicted := w.evicted || key ∈ evicted.map MemoryEntry.key
        overdue := w.overdue || isExpired w.expiresAt now } := by
  simp [History.wrote, History.tick, History.evict, History.put, Function.update_of_ne hne,
    Function.comp_def]

theorem wrote_self (h : History) (input : PreparedCacheEntry) (now time : Nat)
    (evicted : List MemoryEntry) :
    h.wrote input now time evicted input.key = input.raw.map fun raw =>
      ⟨raw, input.expiresAt, decide (input.key ∈ evicted.map MemoryEntry.key),
        isExpired input.expiresAt now, time⟩ := by
  simp [History.wrote, History.tick, History.evict, History.put, Function.comp_def]

theorem used_wrote_of_ne (h : History) {input : PreparedCacheEntry} (now time : Nat)
    (evicted : List MemoryEntry) {key : String} (hne : key ≠ input.key) :
    (h.wrote input now time evicted).used key = h.used key := by
  rw [History.wrote, used_tick, used_evict, used_put_of_ne h _ hne]

/-- What a write leaves of the entries of other keys. -/
structure Leaves (xs : List MemoryEntry) (input : PreparedCacheEntry) (now : Nat)
    (evicted kept : List MemoryEntry) : Prop where
  sublist : kept.Sublist xs
  other : ∀ f ∈ kept, f.key ≠ input.key
  apart : ∀ f ∈ kept, f.key ∉ evicted.map MemoryEntry.key
  all : ∀ f ∈ xs, f.key ≠ input.key → f ∈ kept ∨ f ∈ evicted ∨ f.liveAt now = false

variable {input : PreparedCacheEntry} {bytes now : Nat} {evicted kept : List MemoryEntry}

theorem leaves_all (xs : List MemoryEntry) (input : PreparedCacheEntry) (now : Nat) :
    Leaves xs input now [] (xs.filter (·.key != input.key)) := by
  refine ⟨List.filter_sublist, ?_, by simp, ?_⟩
  · intro f hf
    simpa using (List.mem_filter.mp hf).2
  · intro f hf hne
    exact .inl (List.mem_filter.mpr ⟨hf, bne_iff_ne.mpr hne⟩)

theorem leaves_evicted (hkeys : (xs.map MemoryEntry.key).Nodup)
    (hsplit : (xs.filter (·.key != input.key)).filter (·.liveAt now) = evicted ++ kept) :
    Leaves xs input now evicted kept := by
  have hsub : (evicted ++ kept).Sublist xs := by
    rw [← hsplit]
    exact List.filter_sublist.trans List.filter_sublist
  have hmem : ∀ f ∈ evicted ++ kept, f.key ≠ input.key := by
    intro f hf
    rw [← hsplit] at hf
    simpa using (List.mem_filter.mp (List.mem_filter.mp hf).1).2
  have hnodup := hkeys.sublist (hsub.map MemoryEntry.key)
  rw [List.map_append, List.nodup_append] at hnodup
  refine ⟨(List.sublist_append_right _ _).trans hsub,
    fun f hf => hmem f (List.mem_append_right _ hf), ?_, ?_⟩
  · intro f hf hin
    exact hnodup.2.2 _ hin _ (List.mem_map_of_mem hf) rfl
  · intro f hf hne
    cases hlive : f.liveAt now with
    | false => exact .inr (.inr rfl)
    | true =>
      have hin : f ∈ evicted ++ kept := by
        rw [← hsplit]
        exact List.mem_filter.mpr ⟨List.mem_filter.mpr ⟨hf, bne_iff_ne.mpr hne⟩, hlive⟩
      rcases List.mem_append.mp hin with hin | hin
      · exact .inr (.inl hin)
      · exact .inl hin

/-- The record of other keys after a write. -/
theorem Tracks.wrote_others (ht : Tracks parse h time xs) (hl : Leaves xs input now evicted kept) :
    (∀ e ∈ kept, ∃ w, h.wrote input now time evicted e.key = some w ∧ w.raw = e.raw ∧
        w.expiresAt = e.expiresAt ∧ w.evicted = false) ∧
      (∀ key w, key ≠ input.key → h.wrote input now time evicted key = some w →
        w.evicted = false → w.overdue = false → (parse w.raw).isSome = true →
        ∃ e ∈ kept, e.key = key) ∧
      (∀ e ∈ kept, (h.wrote input now time evicted).used e.key < time) ∧
      kept.Pairwise fun e f =>
        (h.wrote input now time evicted).used e.key < (h.wrote input now time evicted).used f.key := by
  have hused : ∀ f ∈ kept, (h.wrote input now time evicted).used f.key = h.used f.key := fun f hf =>
    used_wrote_of_ne h now time evicted (hl.other f hf)
  refine ⟨?_, ?_, ?_, ?_⟩
  · intro e he
    obtain ⟨w, hw, hraw, hexpires, hevicted⟩ := ht.known e (hl.sublist.subset he)
    have hwrote := wrote_of_ne h now time evicted (hl.other e he)
    rw [hw, Option.map_some] at hwrote
    refine ⟨_, hwrote, hraw, hexpires, ?_⟩
    simp only [hevicted, Bool.false_or, decide_eq_false_iff_not]
    exact hl.apart e he
  · intro key w hne hw hevicted hoverdue hparse
    rw [wrote_of_ne h now time evicted hne] at hw
    obtain ⟨w₀, hw₀, rfl⟩ := Option.map_eq_some_iff.mp hw
    simp only [Bool.or_eq_false_iff, decide_eq_false_iff_not] at hevicted hoverdue
    obtain ⟨e, he, rfl⟩ := ht.kept key w₀ hw₀ hevicted.1 hoverdue.1 hparse
    obtain ⟨w₁, hw₁, -, hexpires, -⟩ := ht.known e he
    rw [hw₀, Option.some.injEq] at hw₁
    subst hw₁
    rcases hl.all e he hne with hin | hin | hdead
    · exact ⟨e, hin, rfl⟩
    · exact absurd (List.mem_map_of_mem hin) hevicted.2
    · rw [MemoryEntry.liveAt, ← hexpires, hoverdue.2] at hdead
      cases hdead
  · intro e he
    rw [hused e he]
    exact ht.recent e (hl.sublist.subset he)
  · refine (ht.order.sublist hl.sublist).imp_of_mem ?_
    intro e f he hf hlt
    rwa [hused e he, hused f hf]

theorem Tracks.wrote (ht : Tracks parse h time xs) (hkeys : (xs.map MemoryEntry.key).Nodup)
    (hwrote : Wrote xs input bytes now ys evicted) :
    Tracks parse (h.wrote input now time evicted) (time + 1) ys := by
  cases hwrote with
  | dropped hwhy =>
    obtain ⟨hknown, hkept, hrecent, horder⟩ := ht.wrote_others (leaves_all xs input now)
    refine ⟨hknown, ?_, fun e he => Nat.lt_succ_of_lt (hrecent e he), horder⟩
    intro key w hw hevicted hoverdue hparse
    by_cases hkey : key = input.key
    · subst hkey
      rw [wrote_self] at hw
      obtain ⟨raw, hraw, rfl⟩ := Option.map_eq_some_iff.mp hw
      rcases hwhy with hnone | hexpired
      · rw [hnone] at hraw
        cases hraw
      · exact absurd (hexpired.symm.trans hoverdue) (by simp)
    · exact hkept key w hkey hw hevicted hoverdue hparse
  | stored e _ kept hekey heraw heexpires _ hrest =>
    have hl : Leaves xs input now evicted kept := by
      rcases hrest with ⟨rfl, rfl⟩ | hsplit
      · exact leaves_all xs input now
      · exact leaves_evicted hkeys hsplit
    obtain ⟨hknown, hkept, hrecent, horder⟩ := ht.wrote_others hl
    have hnot : input.key ∉ evicted.map MemoryEntry.key := by
      rcases hrest with ⟨rfl, -⟩ | hsplit
      · exact List.not_mem_nil
      · intro hin
        obtain ⟨f, hf, hfkey⟩ := List.mem_map.mp hin
        have hmem : f ∈ (xs.filter (·.key != input.key)).filter (·.liveAt now) := by
          rw [hsplit]
          exact List.mem_append_left _ hf
        have hne := (List.mem_filter.mp (List.mem_filter.mp hmem).1).2
        rw [bne_iff_ne] at hne
        exact hne hfkey
    have hself := wrote_self h input now time evicted
    rw [heraw] at hself
    have hnew : (h.wrote input now time evicted).used e.key = time := by
      rw [hekey, History.used, hself]
      rfl
    refine ⟨?_, ?_, ?_, ?_⟩
    · intro f hf
      rcases List.mem_append.mp hf with hf | hf
      · exact hknown f hf
      · rw [List.mem_singleton.mp hf, hekey, hself]
        exact ⟨_, rfl, rfl, heexpires.symm, by simpa using hnot⟩
    · intro key w hw hevicted hoverdue hparse
      by_cases hkey : key = input.key
      · exact ⟨e, by simp, hekey.trans hkey.symm⟩
      · obtain ⟨f, hf, hfkey⟩ := hkept key w hkey hw hevicted hoverdue hparse
        exact ⟨f, List.mem_append_left _ hf, hfkey⟩
    · intro f hf
      rcases List.mem_append.mp hf with hf | hf
      · exact Nat.lt_succ_of_lt (hrecent f hf)
      · rw [List.mem_singleton.mp hf, hnew]
        exact Nat.lt_succ_self time
    · rw [List.pairwise_append]
      refine ⟨horder, List.pairwise_singleton _ _, ?_⟩
      intro f hf g hg
      rw [List.mem_singleton.mp hg, hnew]
      exact hrecent f hf

/-- The evicted entries of a write, with what was left at its end. -/
theorem fair_of_wrote (ht : Tracks parse h time xs) (hwrote : Wrote xs input bytes now ys evicted)
    {left : List (String × MemoryEntry)}
    (hleft : ∀ entry ∈ left, entry.2 ∈ ys ∧ entry.2.key = entry.1 ∧ entry.1 ≠ input.key)
    {e : MemoryEntry} (he : e ∈ evicted) : Eviction.fair ⟨e, now, h, left⟩ := by
  cases hwrote with
  | dropped => cases he
  | stored new _ kept hkey _ _ _ hrest =>
    rcases hrest with ⟨rfl, -⟩ | hsplit
    · cases he
    have hlive : ∀ f ∈ evicted ++ kept, f.liveAt now = true := by
      intro f hf
      rw [← hsplit] at hf
      exact (List.mem_filter.mp hf).2
    have horder : (evicted ++ kept).Pairwise fun e f => h.used e.key < h.used f.key := by
      rw [← hsplit]
      exact ht.order.sublist (List.filter_sublist.trans List.filter_sublist)
    rw [List.pairwise_append] at horder
    refine ⟨hlive e (List.mem_append_left _ he), ?_⟩
    intro entry hentry
    obtain ⟨hmem, hentryKey, hne⟩ := hleft entry hentry
    have hkept : entry.2 ∈ kept := by
      rcases List.mem_append.mp hmem with hin | hin
      · exact hin
      · rw [List.mem_singleton.mp hin, hkey] at hentryKey
        exact absurd hentryKey.symm hne
    refine ⟨hlive _ (List.mem_append_right _ hkept), ?_⟩
    have hlt := horder.2.2 e he entry.2 hkept
    rwa [hentryKey] at hlt

theorem Sized.read {xs ys : List MemoryEntry} (h : Sized xs) {key : String} {v : Option V}
    (hread : Read parse xs key now ys v) : Sized ys := by
  have hfilter : Sized (xs.filter (·.key != key)) := fun e he => h e (List.mem_filter.mp he).1
  cases hread with
  | missing _ => exact h
  | expired _ _ _ _ => exact hfilter
  | broken _ _ _ _ _ => exact hfilter
  | found e _ he _ _ _ =>
    intro f hf
    rcases List.mem_append.mp hf with hf | hf
    · exact hfilter f hf
    · rw [List.mem_singleton.mp hf]
      exact h e he

theorem Sized.wrote {xs ys : List MemoryEntry} (h : Sized xs)
    (hwrote : Wrote xs input bytes now ys evicted)
    (hbytes : ∀ raw, input.raw = some raw → bytes = input.key.utf8ByteSize + raw.utf8ByteSize) :
    Sized ys := by
  have hfilter : Sized (xs.filter (·.key != input.key)) := fun e he => h e (List.mem_filter.mp he).1
  cases hwrote with
  | dropped _ => exact hfilter
  | stored e _ kept hkey hraw _ hsize hrest =>
    intro f hf
    rcases List.mem_append.mp hf with hf | hf
    · rcases hrest with ⟨-, rfl⟩ | hsplit
      · exact hfilter f hf
      · have hin : f ∈ (xs.filter (·.key != input.key)).filter (·.liveAt now) := by
          rw [hsplit]
          exact List.mem_append_right _ hf
        exact hfilter f (List.mem_filter.mp hin).1
    · rw [List.mem_singleton.mp hf, hsize, hbytes e.raw hraw, hkey]

/-! ## Section 4: Runs -/

namespace World

variable {w w' : World}

theorem consistent_initial (parse : String → Option V) (limits : Limits) :
    Consistent parse limits initial := by
  refine ⟨⟨[], agree_empty limits, nofun, nofun, ?_, nofun, List.Pairwise.nil⟩, nofun⟩
  intro key w hw
  cases hw

theorem tick_consistent (h : Consistent parse limits w) (now : Nat) :
    Consistent parse limits (w.tick now) := by
  obtain ⟨xs, hagree, hsized, htracks⟩ := h.agree
  exact ⟨⟨xs, hagree, hsized, htracks.tick now⟩, h.evictions⟩

/-- A value that the checks let through. -/
structure Fits (limits : Limits) (input : PreparedCacheEntry) (bytes : Nat) : Prop where
  room : bytes ≤ limits.maxBytes
  size : ∀ raw, input.raw = some raw → bytes = input.key.utf8ByteSize + raw.utf8ByteSize
  deadline : ∀ d, input.expiresAt = some d → d < 2 ^ 53

theorem write_consistent (h : Consistent parse limits w) {input : PreparedCacheEntry} {bytes : Nat}
    (hfits : Fits limits input bytes) (now : Nat) :
    ∃ w', w.write limits input bytes now = some w' ∧ Consistent parse limits w' := by
  obtain ⟨xs, hagree, hsized, htracks⟩ := h.agree
  obtain ⟨store, ys, evicted, hwrite, hagree', hwrote⟩ := hagree.write hfits.room now hfits.deadline
  unfold write
  rw [hwrite, Option.map_some]
  refine ⟨_, rfl, ⟨ys, hagree', hsized.wrote hwrote hfits.size, htracks.wrote hagree.keys hwrote⟩, ?_⟩
  intro ev hev
  rcases List.mem_append.mp hev with hold | hnew
  · exact h.evictions ev hold
  · obtain ⟨e, he, rfl⟩ := List.mem_map.mp hnew
    refine fair_of_wrote htracks hwrote ?_ he
    rintro ⟨key, f⟩ hentry
    obtain ⟨hin, hne⟩ := List.mem_filter.mp hentry
    obtain ⟨f', hf', heq⟩ := List.mem_map.mp (hagree'.map.mem_iff.mp hin)
    cases heq
    exact ⟨hf', rfl, by simpa using hne⟩

theorem writeAll_consistent (h : Consistent parse limits w)
    {inputs : List (PreparedCacheEntry × Nat × Nat)}
    (hfits : ∀ input ∈ inputs, Fits limits input.1 input.2.1) :
    ∃ w', w.writeAll limits inputs = some w' ∧ Consistent parse limits w' := by
  induction inputs generalizing w with
  | nil => exact ⟨w, rfl, h⟩
  | cons input rest ih =>
    obtain ⟨input, bytes, now⟩ := input
    obtain ⟨w₁, hw₁, hconsistent⟩ := write_consistent h (hfits _ List.mem_cons_self) now
    obtain ⟨w₂, hw₂, hfinal⟩ := ih hconsistent fun input' h' => hfits input' (List.mem_cons_of_mem _ h')
    refine ⟨w₂, ?_, hfinal⟩
    simp only [writeAll, hw₁, Option.bind_eq_bind, Option.bind_some, hw₂]

theorem lookup_consistent (h : Consistent parse limits w) (key : String) (now : Nat) :
    Consistent parse limits (w.lookup parse key now) := by
  obtain ⟨xs, hagree, hsized, htracks⟩ := h.agree
  obtain ⟨ys, hagree', hread⟩ := hagree.get parse key now
  exact ⟨⟨ys, hagree', hsized.read hread, htracks.read hread⟩, h.evictions⟩

/-! ### Checks -/

theorem entryBytes_ok {key : String} {raw : Option String} {bytes : Nat}
    (h : Store.entryBytes limits key raw = .ok bytes) :
    bytes ≤ limits.maxBytes ∧
      ∀ text, raw = some text → bytes = key.utf8ByteSize + text.utf8ByteSize := by
  unfold Store.entryBytes at h
  split at h
  · cases h
    exact ⟨Nat.zero_le _, nofun⟩
  · simp only at h
    split at h
    · cases h
    · rename_i hle
      cases h
      refine ⟨by omega, ?_⟩
      intro text htext
      cases htext
      rfl

theorem cacheExpiry_lt {ttlMs : Option Int} {now d : Nat} (h : cacheExpiry ttlMs now = .ok (some d)) :
    d < 2 ^ 53 := by
  unfold cacheExpiry at h
  split at h
  · cases h
  · split at h
    · cases h
    · simp only at h
      split at h
      · cases h
      · cases h
        omega

theorem prepare_fits {key : String} {value : Value} {ttlMs : Option Int} {checked : Nat}
    {prepared : PreparedCacheEntry × Nat} (h : prepare limits key value ttlMs checked = .ok prepared) :
    Fits limits prepared.1 prepared.2 := by
  unfold prepare at h
  obtain ⟨_, -, h⟩ := Outcome.bind_eq_ok.mp h
  obtain ⟨expiresAt, hexpires, h⟩ := Outcome.bind_eq_ok.mp h
  obtain ⟨raw, -, h⟩ := Outcome.bind_eq_ok.mp h
  obtain ⟨bytes, hbytes, h⟩ := Outcome.bind_eq_ok.mp h
  cases h
  obtain ⟨hle, hsize⟩ := entryBytes_ok hbytes
  refine ⟨hle, hsize, ?_⟩
  intro d hd
  cases hd
  exact cacheExpiry_lt hexpires

theorem prepareEach_deadline {bytes : Nat} {entries : List (CacheEntry × Nat)}
    {prepared : List PreparedCacheEntry} (h : prepareEach bytes entries = .ok prepared) :
    ∀ input ∈ prepared, ∀ d, input.expiresAt = some d → d < 2 ^ 53 := by
  induction entries generalizing bytes prepared with
  | nil =>
    cases h
    nofun
  | cons entry rest ih =>
    obtain ⟨entry, now⟩ := entry
    unfold prepareEach at h
    obtain ⟨_, -, h⟩ := Outcome.bind_eq_ok.mp h
    obtain ⟨expiresAt, hexpires, h⟩ := Outcome.bind_eq_ok.mp h
    obtain ⟨json, -, h⟩ := Outcome.bind_eq_ok.mp h
    simp only at h
    split at h
    · cases h
    · obtain ⟨prepared', hrest, h⟩ := Outcome.bind_eq_ok.mp h
      cases h
      intro input hinput d hd
      rcases List.mem_cons.mp hinput with rfl | hinput
      · cases hd
        exact cacheExpiry_lt hexpires
      · exact ih hrest input hinput d hd

theorem mapM_ok {α β γ ε : Type} {f : α → Except ε β} {xs : List α} {ys : List β}
    (h : xs.mapM f = .ok ys) (zs : List γ) :
    ∀ entry ∈ xs.zip (ys.zip zs), f entry.1 = .ok entry.2.1 := by
  induction xs generalizing ys zs with
  | nil =>
    cases h
    nofun
  | cons x xs ih =>
    rw [List.mapM_cons] at h
    obtain ⟨y, hy, h⟩ := Outcome.bind_eq_ok.mp h
    obtain ⟨ys', hys, h⟩ := Outcome.bind_eq_ok.mp h
    cases h
    cases zs with
    | nil => nofun
    | cons z zs =>
      intro entry hentry
      rcases List.mem_cons.mp hentry with rfl | hentry
      · exact hy
      · exact ih hys zs entry hentry

theorem mapM_ok_of_mem {α β ε : Type} {f : α → Except ε β} {xs : List α} {ys : List β}
    (h : xs.mapM f = .ok ys) : ∀ x ∈ xs, ∃ y, f x = .ok y := by
  induction xs generalizing ys with
  | nil => nofun
  | cons x xs ih =>
    rw [List.mapM_cons] at h
    obtain ⟨y, hy, h⟩ := Outcome.bind_eq_ok.mp h
    obtain ⟨ys', hys, -⟩ := Outcome.bind_eq_ok.mp h
    intro z hz
    rcases List.mem_cons.mp hz with rfl | hz
    · exact ⟨y, hy⟩
    · exact ih hys z hz

theorem prepareMany_fits {entries : List (CacheEntry × Nat × Nat)}
    {inputs : List (PreparedCacheEntry × Nat × Nat)} (h : prepareMany limits entries = .ok inputs) :
    ∀ input ∈ inputs, Fits limits input.1 input.2.1 := by
  unfold prepareMany at h
  obtain ⟨prepared, hprepared, h⟩ := Outcome.bind_eq_ok.mp h
  obtain ⟨sizes, hsizes, h⟩ := Outcome.bind_eq_ok.mp h
  cases h
  intro input hinput
  obtain ⟨hle, hsize⟩ := entryBytes_ok (mapM_ok hsizes _ input hinput)
  unfold prepareCacheEntries at hprepared
  split at hprepared
  · cases hprepared
  · exact ⟨hle, hsize, prepareEach_deadline hprepared _ (List.of_mem_zip hinput).1⟩

theorem step_consistent (h : Consistent parse limits w) (op : Op) :
    ∃ w' response, w.step parse limits op = some (w', response) ∧ Consistent parse limits w' := by
  cases op with
  | get key now =>
    simp only [step]
    split
    · exact ⟨_, _, rfl, h⟩
    · exact ⟨_, _, rfl, lookup_consistent h key now⟩
  | set key value ttlMs checked written =>
    simp only [step]
    split
    · exact ⟨_, _, rfl, h⟩
    · rename_i input bytes hprepare
      obtain ⟨w', hw', hconsistent⟩ :=
        write_consistent (tick_consistent h checked) (prepare_fits hprepare) written
      rw [hw']
      exact ⟨w', _, rfl, hconsistent⟩
  | setMany entries =>
    simp only [step]
    split
    · exact ⟨_, _, rfl, h⟩
    · rename_i inputs hprepare
      have hticks : Consistent parse limits (entries.foldl (fun w (_, checked, _) => w.tick checked) w) := by
        clear hprepare
        induction entries generalizing w with
        | nil => exact h
        | cons entry rest ih => exact ih (tick_consistent h _)
      obtain ⟨w', hw', hconsistent⟩ := writeAll_consistent hticks (prepareMany_fits hprepare)
      rw [hw']
      exact ⟨w', _, rfl, hconsistent⟩
  | delete key =>
    simp only [step]
    split
    · exact ⟨_, _, rfl, h⟩
    · obtain ⟨xs, hagree, hsized, htracks⟩ := h.agree
      refine ⟨_, _, rfl, ⟨_, hagree.removeKey key, ?_, htracks.delete key⟩, h.evictions⟩
      exact fun e he => hsized e (List.mem_filter.mp he).1
  | flush =>
    obtain ⟨xs, hagree, -⟩ := h.agree
    refine ⟨_, _, rfl, ⟨[], hagree.flush, nofun, nofun, ?_, nofun, List.Pairwise.nil⟩, h.evictions⟩
    intro key wr hwr
    cases hwr

theorem run_consistent (h : Consistent parse limits w) (ops : List Op) :
    ∃ w', run parse limits w ops = some w' ∧ Consistent parse limits w' := by
  induction ops generalizing w with
  | nil => exact ⟨w, rfl, h⟩
  | cons op rest ih =>
    obtain ⟨w₁, response, hstep, hconsistent⟩ := step_consistent h op
    obtain ⟨w₂, hrun, hfinal⟩ := ih hconsistent
    refine ⟨w₂, ?_, hfinal⟩
    rw [run, hstep, Option.bind_some]
    exact hrun

/-! ### Lookups -/

theorem get_written (h : Consistent parse limits w) {key : String} {now : Nat} {v : V}
    (hget : (w.store.get parse key now).1 = some v) :
    ∃ wr, w.history key = some wr ∧ parse wr.raw = some v ∧ isExpired wr.expiresAt now = false := by
  obtain ⟨xs, hagree, -, htracks⟩ := h.agree
  obtain ⟨ys, -, hread⟩ := hagree.get parse key now
  rw [hget] at hread
  cases hread with
  | found e v he hkey hlive hparse =>
    subst hkey
    obtain ⟨wr, hwr, hraw, hexpires, -⟩ := htracks.known e he
    exact ⟨wr, hwr, by rw [hraw, hparse], by rw [hexpires, hlive]⟩

theorem get_kept (h : Consistent parse limits w) {key : String} {now : Nat} {wr : Written}
    (hwr : w.history key = some wr) (hevicted : wr.evicted = false) (hoverdue : wr.overdue = false)
    (hlive : isExpired wr.expiresAt now = false) :
    (w.store.get parse key now).1 = parse wr.raw := by
  obtain ⟨xs, hagree, -, htracks⟩ := h.agree
  obtain ⟨ys, -, hread⟩ := hagree.get parse key now
  have hsame : ∀ e ∈ xs, e.key = key → wr.raw = e.raw ∧ wr.expiresAt = e.expiresAt := by
    rintro e he rfl
    obtain ⟨wr', hwr', hraw, hexpires, -⟩ := htracks.known e he
    rw [hwr, Option.some.injEq] at hwr'
    subst hwr'
    exact ⟨hraw, hexpires⟩
  generalize (w.store.get parse key now).1 = v at hread
  cases hread with
  | missing hnone =>
    rcases hparse : parse wr.raw with _ | v
    · rfl
    · obtain ⟨e, he, hkey⟩ := htracks.kept key wr hwr hevicted hoverdue (by rw [hparse]; rfl)
      exact absurd hkey (hnone e he)
  | expired e he hkey hexpired =>
    rw [(hsame e he hkey).2, hexpired] at hlive
    cases hlive
  | broken e he hkey _ hparse => rw [(hsame e he hkey).1, hparse]
  | found e v he hkey _ hparse => rw [(hsame e he hkey).1, hparse]

/-! ### Refusals -/

theorem step_refused {op : Op} {message : String}
    (h : w.step parse limits op = some (w', .refused message)) : w' = w := by
  cases op with
  | get key now =>
    simp only [step] at h
    split at h <;> cases h
    rfl
  | set key value ttlMs checked written =>
    simp only [step] at h
    split at h
    · cases h
      rfl
    · obtain ⟨_, _, hw'⟩ := Option.map_eq_some_iff.mp h
      cases hw'
  | setMany entries =>
    simp only [step] at h
    split at h
    · cases h
      rfl
    · obtain ⟨_, _, hw'⟩ := Option.map_eq_some_iff.mp h
      cases hw'
  | delete key =>
    simp only [step] at h
    split at h <;> cases h
    rfl
  | flush => cases h

/-- The value is more than the store may hold. -/
def tooLarge (limits : Limits) (key : String) (value : Value) : Prop :=
  ∃ raw, value = .json raw ∧ limits.maxBytes < key.utf8ByteSize + raw.utf8ByteSize

theorem set_tooLarge {key : String} {value : Value} (h : tooLarge limits key value)
    (ttlMs : Option Int) (checked written : Nat) :
    ∃ message, w.step parse limits (.set key value ttlMs checked written) =
      some (w, .refused message) := by
  obtain ⟨raw, rfl, hlarge⟩ := h
  simp only [step]
  split
  · exact ⟨_, rfl⟩
  · rename_i hprepare
    unfold prepare at hprepare
    obtain ⟨_, -, hprepare⟩ := Outcome.bind_eq_ok.mp hprepare
    obtain ⟨_, -, hprepare⟩ := Outcome.bind_eq_ok.mp hprepare
    obtain ⟨json, hjson, hprepare⟩ := Outcome.bind_eq_ok.mp hprepare
    obtain ⟨bytes, hbytes, -⟩ := Outcome.bind_eq_ok.mp hprepare
    unfold cacheJsonValue at hjson
    simp only at hjson
    split at hjson
    · cases hjson
    · cases hjson
      simp only [Store.entryBytes, if_pos hlarge] at hbytes
      cases hbytes

theorem prepareEach_mem {bytes : Nat} {entries : List (CacheEntry × Nat)}
    {prepared : List PreparedCacheEntry} (h : prepareEach bytes entries = .ok prepared)
    {entry : CacheEntry × Nat} (he : entry ∈ entries) {raw : String} (hvalue : entry.1.value = .json raw) :
    ∃ input ∈ prepared, input.key = entry.1.key ∧ input.raw = some raw := by
  induction entries generalizing bytes prepared with
  | nil => cases he
  | cons first rest ih =>
    obtain ⟨first, now⟩ := first
    unfold prepareEach at h
    obtain ⟨_, -, h⟩ := Outcome.bind_eq_ok.mp h
    obtain ⟨expiresAt, -, h⟩ := Outcome.bind_eq_ok.mp h
    obtain ⟨json, hjson, h⟩ := Outcome.bind_eq_ok.mp h
    simp only at h
    split at h
    · cases h
    · obtain ⟨prepared', hrest, h⟩ := Outcome.bind_eq_ok.mp h
      cases h
      rcases List.mem_cons.mp he with rfl | he
      · refine ⟨_, List.mem_cons_self, rfl, ?_⟩
        simp only at hvalue
        rw [hvalue, cacheJsonValue] at hjson
        split at hjson
        · cases hjson
        · cases hjson
          rfl
      · obtain ⟨input, hinput, hsame⟩ := ih hrest he
        exact ⟨input, List.mem_cons_of_mem _ hinput, hsame⟩

theorem setMany_tooLarge {entries : List (CacheEntry × Nat × Nat)}
    (h : ∃ entry ∈ entries, tooLarge limits entry.1.key entry.1.value) :
    ∃ message, w.step parse limits (.setMany entries) = some (w, .refused message) := by
  obtain ⟨⟨entry, checked, written⟩, he, raw, hvalue, hlarge⟩ := h
  simp only [step]
  split
  · exact ⟨_, rfl⟩
  · rename_i hprepare
    unfold prepareMany at hprepare
    obtain ⟨prepared, hprepared, hprepare⟩ := Outcome.bind_eq_ok.mp hprepare
    obtain ⟨sizes, hsizes, -⟩ := Outcome.bind_eq_ok.mp hprepare
    unfold prepareCacheEntries at hprepared
    split at hprepared
    · cases hprepared
    · obtain ⟨input, hinput, hkey, hraw⟩ :=
        prepareEach_mem hprepared (List.mem_map.mpr ⟨_, he, rfl⟩) hvalue
      obtain ⟨bytes, hbytes⟩ := mapM_ok_of_mem hsizes input hinput
      have hkey' : input.key = entry.key := hkey
      rw [hkey', hraw, Store.entryBytes] at hbytes
      simp only [if_pos hlarge] at hbytes
      cases hbytes

end World

end Cossack.Framework.MemoryCache
