import Cossack.Core.RateLimitStores
import Mathlib

/-! # The stores count alike

    Each store is compared with one that forgets nothing.  A store may drop a
    counter once its window is over, and that is all the memory store does while
    it evicts no open window, KV when a time to live ends, and an object when its
    alarm comes, early or late.  KV alone refuses keys that are too long with
    their namespace. -/

namespace Cossack.Core.RateLimit

open Windows (Counter Forgets live live_mono live_eq_some live_some_of_lt live_some_of_le)

/-! ## Section 1: A store that forgets nothing -/

abbrev Remembered := String → Option Counter

def Remembered.hit (s : Remembered) (key : String) (windowMs now : Nat) : Reply × Remembered :=
  match assertHit key windowMs now with
  | .error e => (.error e, s)
  | .ok _ =>
      match readCounter (Windows.next (s key) windowMs now) with
      | .error e => (.error e, s)
      | .ok next => (.ok next, Function.update s key (some next))

def Remembered.step (s : Remembered) (now : Nat) : Event → Option Reply × Remembered
  | .hit key windowMs => ((s.hit key windowMs now).1, (s.hit key windowMs now).2)
  | .alarm _ | .expire _ => (none, s)

theorem readCounter_ok {c next : Counter} (h : readCounter c = .ok next) :
    next = c ∧ 0 < c.count ∧ c.resetAt ≤ maxAlarmTimestamp := by
  unfold readCounter at h
  split at h
  · rename_i hvalid
    cases h
    exact ⟨rfl, hvalid.1, hvalid.2.2.2⟩
  · cases h

theorem readCounter_idem {c next : Counter} (h : readCounter c = .ok next) :
    readCounter next = .ok next := by
  obtain ⟨rfl, -⟩ := readCounter_ok h
  exact h

theorem assertHit_ok {key : String} {windowMs now : Nat} {u : Unit}
    (h : assertHit key windowMs now = .ok u) :
    validKey key = true ∧ validWindow windowMs now = true := by
  unfold assertHit at h
  split at h
  · cases h
  · split at h
    · cases h
    · simp_all

/-- A window that was checked begins with a counter in bounds. -/
theorem readCounter_first {windowMs now : Nat} (h : validWindow windowMs now = true) :
    readCounter ⟨1, now + windowMs⟩ = .ok ⟨1, now + windowMs⟩ := by
  simp only [validWindow, Bool.and_eq_true, decide_eq_true_eq] at h
  obtain ⟨⟨-, hpos⟩, hmax⟩ := h
  have hone : 1 ≤ maxSafeInteger := by decide
  exact if_pos ⟨Nat.one_pos, hone, Nat.lt_of_lt_of_le hpos (Nat.le_add_left _ _), hmax⟩

/-- The next counter of an open window. -/
theorem next_live {counter : Option Counter} {c : Counter} {now : Nat}
    (h : live now counter = some c) (windowMs : Nat) :
    Windows.next counter windowMs now = ⟨c.count + 1, c.resetAt⟩ := by
  rw [Windows.next, h]

theorem next_over {counter : Option Counter} {now : Nat} (h : live now counter = none)
    (windowMs : Nat) : Windows.next counter windowMs now = ⟨1, now + windowMs⟩ := by
  rw [Windows.next, h]

/-- What a hit on a store that forgets nothing does, given the counter that is open. -/
theorem Remembered.hit_eq (s : Remembered) {key : String} {windowMs now : Nat}
    (h : assertHit key windowMs now = .ok ()) {next : Counter}
    (hnext : Windows.next (s key) windowMs now = next) :
    s.hit key windowMs now = match readCounter next with
      | .error e => (.error e, s)
      | .ok next => (.ok next, Function.update s key (some next)) := by
  subst hnext
  simp only [Remembered.hit, h]

/-- Two stores answer alike as long as their steps do and keep them related. -/
theorem replies_eq {S T : Type} {step : S → Nat → Event → Option Reply × S}
    {step' : T → Nat → Event → Option Reply × T} (related : Nat → S → T → Prop)
    (ok : S → Nat → Event → Prop)
    (hstep : ∀ before s t now e, related before s t → before ≤ now → ok s now e →
      (step s now e).1 = (step' t now e).1 ∧ related now (step s now e).2 (step' t now e).2)
    {P : S → List (Nat × Event) → Prop}
    (hruns : ∀ s now e rest, P s ((now, e) :: rest) → ok s now e ∧ P (step s now e).2 rest)
    {before : Nat} {s : S} {t : T} {events : List (Nat × Event)} (hrelated : related before s t)
    (hsorted : (before :: events.map Prod.fst).Pairwise (· ≤ ·)) (hevents : P s events) :
    replies step s events = replies step' t events := by
  induction events generalizing before s t with
  | nil => rfl
  | cons first rest ih =>
    obtain ⟨now, e⟩ := first
    obtain ⟨hbefore, hrest⟩ := List.pairwise_cons.mp hsorted
    obtain ⟨hok, hruns'⟩ := hruns s now e rest hevents
    obtain ⟨hreply, hnext⟩ :=
      hstep before s t now e hrelated (hbefore now (List.mem_cons_self ..)) hok
    rw [replies, replies, hreply, ih hnext hrest hruns']

/-! ## Section 2: Memory -/

namespace InMemoryRateLimitStore

/-- The store remembers every counter whose window is open. -/
def Tracks (now : Nat) (s : InMemoryRateLimitStore) (t : Remembered) : Prop :=
  ∀ key, live now (s.counters key) = live now (t key)

/-- A step drops no counter whose window is open. -/
def Keeps (s : InMemoryRateLimitStore) (now : Nat) (e : Event) : Prop :=
  ∀ key, live now (s.counters key) ≠ none → (s.step now e).2.counters key ≠ none

/-- No bucket whose window is open is evicted. -/
def Spacious : InMemoryRateLimitStore → List (Nat × Event) → Prop
  | _, [] => True
  | s, (now, e) :: rest => s.Keeps now e ∧ (s.step now e).2.Spacious rest

/-- It is enough that each bucket is still there. -/
theorem keeps_of_buckets {s : InMemoryRateLimitStore} {now : Nat} {e : Event}
    (h : ∀ bucket ∈ s.buckets, ((s.step now e).2.get bucket.key).isSome) : s.Keeps now e := by
  intro key hlive hgone
  cases hget : s.get key with
  | none =>
    rw [counters, hget] at hlive
    exact hlive rfl
  | some bucket =>
    have hthere := h bucket (List.mem_of_find?_eq_some hget)
    have hkey : bucket.key = key := by simpa using List.find?_some hget
    rw [hkey] at hthere
    simp only [counters, Option.map_eq_none_iff] at hgone
    rw [hgone] at hthere
    cases hthere

theorem get_key {s : InMemoryRateLimitStore} {key : String} {bucket : MemoryBucket}
    (h : s.get key = some bucket) : bucket.key = key := by
  simpa using List.find?_some h

theorem get_remove (s : InMemoryRateLimitStore) (key k : String) :
    (s.remove key).get k = if k = key then none else s.get k := by
  simp only [get, remove, List.find?_filter]
  split
  · rename_i heq
    subst heq
    rw [List.find?_eq_none]
    simp
  · rename_i hne
    congr 1
    funext bucket
    by_cases hk : bucket.key = k <;> simp [hk, hne]

theorem counters_remove (s : InMemoryRateLimitStore) (key : String) :
    (s.remove key).counters = Function.update s.counters key none := by
  funext k
  rw [counters, get_remove]
  by_cases hk : k = key
  · subst hk
    rw [if_pos rfl, Function.update_self, Option.map_none]
  · rw [if_neg hk, Function.update_of_ne hk, counters]

theorem get_push (s : InMemoryRateLimitStore) (bucket : MemoryBucket) (k : String) :
    (s.push bucket).get k = (s.get k).or (if k = bucket.key then some bucket else none) := by
  simp only [get, push, List.find?_append]
  congr 1
  by_cases hk : k = bucket.key
  · simp [hk]
  · simp [hk, Ne.symm hk]

theorem counters_push {s : InMemoryRateLimitStore} {b : MemoryBucket} (h : s.get b.key = none) :
    (s.push b).counters = Function.update s.counters b.key (some ⟨b.count, b.resetAt⟩) := by
  funext k
  rw [counters, get_push]
  by_cases hk : k = b.key
  · subst hk
    rw [h, if_pos rfl, Function.update_self]
    rfl
  · rw [if_neg hk, Option.or_none, Function.update_of_ne hk, counters]

theorem counters_setCount {s : InMemoryRateLimitStore} {key : String} {bucket : MemoryBucket}
    (h : s.get key = some bucket) (count : Nat) :
    (s.setCount key count).counters =
      Function.update s.counters key (some ⟨count, bucket.resetAt⟩) := by
  have hget : ∀ k, (s.setCount key count).get k = (s.get k).map fun bucket =>
      if bucket.key = key then { bucket with count := count } else bucket := by
    intro k
    simp only [get, setCount, List.find?_map]
    congr 2
    funext bucket
    by_cases hk : bucket.key = key <;> simp [hk]
  funext k
  rw [counters, hget, Option.map_map]
  by_cases hk : k = key
  · subst hk
    rw [h, Function.update_self]
    simp [get_key h]
  · rw [Function.update_of_ne hk, counters]
    cases hbucket : s.get k with
    | none => rfl
    | some bucket =>
      have hne : bucket.key ≠ key := by rwa [get_key hbucket]
      simp [hne]

theorem get_head {s : InMemoryRateLimitStore} {oldest : MemoryBucket} {rest : List MemoryBucket}
    (h : s.buckets = oldest :: rest) : s.get oldest.key = some oldest := by
  simp [get, h]

/-- A bucket that is over may go. -/
theorem forgets_remove {s : InMemoryRateLimitStore} {bucket : MemoryBucket} {now : Nat}
    (h : s.get bucket.key = some bucket) (hover : bucket.resetAt ≤ now) :
    Forgets now s.counters (s.remove bucket.key).counters := by
  rw [counters_remove]
  apply Windows.forgets_update
  rw [counters, h]
  exact live_some_of_le hover

theorem removeExpired_forgets (now n : Nat) (s : InMemoryRateLimitStore) :
    Forgets now s.counters (removeExpired now n s).counters := by
  induction n generalizing s with
  | zero => exact .refl now _
  | succ n ih =>
    rw [removeExpired]
    split
    · exact .refl now _
    · rename_i oldest rest hbuckets
      split
      · exact .refl now _
      · rename_i hover
        exact (forgets_remove (get_head hbuckets) (Nat.le_of_not_lt hover)).trans (ih _)

theorem sweepExpired_forgets (now n : Nat) (s : InMemoryRateLimitStore) :
    Forgets now s.counters (sweepExpired now n s).counters := by
  induction n generalizing s with
  | zero => exact .refl now _
  | succ n ih =>
    rw [sweepExpired]
    split
    · exact .refl now _
    · split
      · exact .refl now _
      · rename_i bucket hbucket
        have hget : s.get bucket.key = some bucket := by
          rcases Option.or_eq_some_iff.mp hbucket with hsweep | ⟨-, hhead⟩
          · obtain ⟨key, -, hkey⟩ := Option.bind_eq_some_iff.mp hsweep
            rwa [get_key hkey]
          · obtain ⟨rest, hrest⟩ := List.head?_eq_some_iff.mp hhead
            exact get_head hrest
        split
        · exact ih { s with sweep := s.newer bucket.key }
        · rename_i hover
          have hremoved := forgets_remove (s := { s with sweep := s.newer bucket.key }) hget
            (Nat.le_of_not_lt hover)
          exact Forgets.trans hremoved (ih _)

/-- To make room only what is over is dropped, and then at most one more bucket. -/
theorem makeRoom_forgets (s : InMemoryRateLimitStore) (now : Nat) :
    ∃ t : InMemoryRateLimitStore, Forgets now s.counters t.counters ∧
      (s.makeRoom now = t ∨
        ∃ oldest, t.get oldest.key = some oldest ∧ s.makeRoom now = t.remove oldest.key) := by
  have hforgets := (removeExpired_forgets now s.buckets.length s).trans
    (sweepExpired_forgets now (min 8 (s.removeExpired now s.buckets.length).buckets.length) _)
  refine ⟨_, hforgets, ?_⟩
  unfold makeRoom
  simp only
  split
  · exact .inl rfl
  · rename_i oldest rest hbuckets
    split
    · exact .inl rfl
    · exact .inr ⟨oldest, get_head hbuckets, rfl⟩

/-- A new window after only counters that are over were dropped. -/
theorem Tracks.start {now : Nat} {s s' : InMemoryRateLimitStore} {t : Remembered}
    (h : s.Tracks now t) (hforgets : Forgets now s.counters s'.counters) {key : String}
    (hnone : s'.get key = none) (c : Counter) :
    (s'.push ⟨key, c.count, c.resetAt⟩).Tracks now (Function.update t key (some c)) := by
  intro k
  have hpush := counters_push (s := s') (b := ⟨key, c.count, c.resetAt⟩) hnone
  rw [hpush]
  exact Windows.live_update ((hforgets.live k).trans (h k)) key _

theorem hit_tracks {now : Nat} {s : InMemoryRateLimitStore} {t : Remembered} {key : String}
    {windowMs : Nat} (h : s.Tracks now t) (hkeeps : s.Keeps now (.hit key windowMs)) :
    (s.hit key windowMs now).1 = (t.hit key windowMs now).1 ∧
      (s.hit key windowMs now).2.Tracks now (t.hit key windowMs now).2 := by
  unfold Keeps step at hkeeps
  cases hassert : assertHit key windowMs now with
  | error e =>
    simp only [hit, Remembered.hit, hassert]
    exact ⟨trivial, h⟩
  | ok =>
    have hfirst := readCounter_first (assertHit_ok hassert).2
    cases hget : s.get key with
    | some existing =>
      have hcounters : s.counters key = some ⟨existing.count, existing.resetAt⟩ := by
        rw [counters, hget, Option.map_some]
      by_cases hlt : now < existing.resetAt
      · -- the window is open, in both
        have hopen : live now (t key) = some ⟨existing.count, existing.resetAt⟩ := by
          rw [← h key, hcounters]
          exact live_some_of_lt hlt
        rw [t.hit_eq hassert (next_live hopen windowMs)]
        simp only [hit, hassert, hget, if_pos hlt]
        cases hread : readCounter ⟨existing.count + 1, existing.resetAt⟩ with
        | error e => exact ⟨rfl, h⟩
        | ok next =>
          obtain ⟨rfl, -⟩ := readCounter_ok hread
          refine ⟨rfl, fun k => ?_⟩
          show live now ((s.setCount key (existing.count + 1)).counters k) = _
          rw [counters_setCount hget]
          exact Windows.live_update (h k) key _
      · -- the window is over, in both
        have hle := Nat.le_of_not_lt hlt
        have hover : live now (t key) = none := by
          rw [← h key, hcounters]
          exact live_some_of_le hle
        rw [t.hit_eq hassert (next_over hover windowMs), hfirst]
        simp only [hit, hassert, hget, if_neg hlt]
        refine ⟨trivial, h.start ?_ (by rw [get_remove, if_pos rfl]) ⟨1, now + windowMs⟩⟩
        have hremoved := forgets_remove (by rwa [get_key hget]) hle
        rwa [get_key hget] at hremoved
    | none =>
      have hnone : s.counters key = none := by rw [counters, hget, Option.map_none]
      have hover : live now (t key) = none := by
        rw [← h key, hnone, Windows.live_none]
      rw [t.hit_eq hassert (next_over hover windowMs), hfirst]
      simp only [hit, hassert, hget] at hkeeps ⊢
      refine ⟨trivial, ?_⟩
      by_cases hfull : s.maxEntries ≤ s.buckets.length
      · rw [if_pos hfull] at hkeeps ⊢
        obtain ⟨mid, hforgets, hroom⟩ := s.makeRoom_forgets now
        have hmid : mid.get key = none := by
          have hdropped : mid.counters key = none := by
            rcases hforgets key with heq | ⟨hnone', -⟩
            · rw [heq, hnone]
            · exact hnone'
          simpa [counters] using hdropped
        rcases hroom with heq | ⟨oldest, holdest, heq⟩
        · rw [heq]
          exact h.start hforgets hmid ⟨1, now + windowMs⟩
        · -- the last bucket that was dropped was over too, or the step would not keep it
          have hne : oldest.key ≠ key := by
            intro hkey
            rw [hkey, hmid] at holdest
            cases holdest
          have hgone : (mid.remove oldest.key).get key = none := by
            rw [get_remove, if_neg hne.symm, hmid]
          have hle : oldest.resetAt ≤ now := by
            by_contra hlt
            have hcounters : mid.counters oldest.key = some ⟨oldest.count, oldest.resetAt⟩ := by
              rw [counters, holdest, Option.map_some]
            have hlive : live now (s.counters oldest.key) ≠ none := by
              rw [← hforgets.live, hcounters, live_some_of_lt (Nat.lt_of_not_le hlt)]
              exact Option.some_ne_none _
            apply hkeeps oldest.key hlive
            rw [heq, counters_push (b := ⟨key, 1, now + windowMs⟩) hgone,
              Function.update_of_ne hne, counters_remove, Function.update_self]
          rw [heq]
          exact h.start (hforgets.trans (forgets_remove holdest hle)) hgone ⟨1, now + windowMs⟩
      · rw [if_neg hfull]
        exact h.start (.refl now _) hget ⟨1, now + windowMs⟩

theorem Tracks.mono {before now : Nat} {s : InMemoryRateLimitStore} {t : Remembered}
    (h : s.Tracks before t) (hle : before ≤ now) : s.Tracks now t :=
  fun key => live_mono hle (h key)

theorem replies_remembered (maxEntries : Nat) {events : List (Nat × Event)}
    (hsorted : (events.map Prod.fst).Pairwise (· ≤ ·))
    (hspacious : (create maxEntries).Spacious events) :
    replies InMemoryRateLimitStore.step (create maxEntries) events =
      replies Remembered.step (fun _ => none) events := by
  have hsorted' := List.pairwise_cons.mpr ⟨fun _ _ => Nat.zero_le _, hsorted⟩
  refine replies_eq Tracks Keeps ?_ (fun _ _ _ _ h => h) ?_ hsorted' hspacious
  · intro before s t now e h hle hkeeps
    cases e with
    | hit key windowMs =>
      obtain ⟨hreply, htracks⟩ := hit_tracks (h.mono hle) hkeeps
      exact ⟨congrArg some hreply, htracks⟩
    | alarm | expire => exact ⟨rfl, h.mono hle⟩
  · exact fun _ => rfl

end InMemoryRateLimitStore

/-! ## Section 3: Durable Objects -/

namespace DurableObjectRateLimitStore

def counters (s : DurableObjectRateLimitStore) (key : String) : Option Counter :=
  (s.object key).counter

def Tracks (now : Nat) (s : DurableObjectRateLimitStore) (t : Remembered) : Prop :=
  ∀ key, live now (s.counters key) = live now (t key)

theorem counters_set (s : DurableObjectRateLimitStore) (key : String) (o : RateLimitDurableObject) :
    counters ⟨Entries.set s.objects key o⟩ = Function.update s.counters key o.counter := by
  funext k
  by_cases hk : k = key
  · subst hk
    rw [Function.update_self, counters, object, Entries.get_set_self, Option.getD_some]
  · rw [Function.update_of_ne hk, counters, object, Entries.get_set_of_ne _ _ (Ne.symm hk)]
    rfl

/-- A request is answered as by a store that forgets nothing. -/
theorem hit_tracks {now : Nat} {s : DurableObjectRateLimitStore} {t : Remembered} {key : String}
    {windowMs : Nat} (h : s.Tracks now t) :
    (s.hit key windowMs now).1 = (t.hit key windowMs now).1 ∧
      (s.hit key windowMs now).2.Tracks now (t.hit key windowMs now).2 := by
  cases hassert : assertHit key windowMs now with
  | error e =>
    simp only [hit, Remembered.hit, hassert]
    exact ⟨trivial, h⟩
  | ok =>
    have hwindow := (assertHit_ok hassert).2
    have hfirst := readCounter_first hwindow
    have hkept : ∀ k (c : Option Counter) (alarmAt : Option Nat),
        live now (counters ⟨Entries.set s.objects key ⟨c, alarmAt⟩⟩ k) =
          live now (Function.update t key c k) := by
      intro k c alarmAt
      rw [counters_set]
      exact Windows.live_update (h k) key c
    have hobject := h key
    simp only [counters] at hobject
    -- a new window is begun where the object has none, or one that is over
    have hfresh : live now (s.object key).counter = none →
        (s.object key).fetch windowMs now = (.ok ⟨1, now + windowMs⟩,
          ⟨some ⟨1, now + windowMs⟩, some (now + windowMs)⟩) := by
      intro hover
      simp only [RateLimitDurableObject.fetch, hwindow, Bool.not_true, Bool.false_eq_true, if_false]
      split
      · rfl
      · rename_i previous hprevious
        rw [if_pos]
        by_contra hlt
        rw [hprevious, live_some_of_lt (Nat.lt_of_not_le hlt)] at hover
        cases hover
    cases hlive : live now (s.object key).counter with
    | none =>
      rw [t.hit_eq hassert (next_over (hobject.symm.trans hlive) windowMs), hfirst]
      simp only [hit, hassert, hfresh hlive]
      exact ⟨hfirst, fun k => hkept k _ _⟩
    | some c =>
      obtain ⟨hcounter, hlt⟩ := live_eq_some.mp hlive
      rw [t.hit_eq hassert (next_live (hobject.symm.trans hlive) windowMs)]
      simp only [hit, hassert, RateLimitDurableObject.fetch, hwindow, Bool.not_true,
        Bool.false_eq_true, if_false, hcounter, if_neg (Nat.not_le.mpr hlt)]
      cases hread : readCounter ⟨c.count + 1, c.resetAt⟩ with
      | error e =>
        refine ⟨rfl, fun k => ?_⟩
        have hsame : Function.update t key (t key) k = t k := by rw [Function.update_eq_self]
        show live now (counters ⟨Entries.set s.objects key (s.object key)⟩ k) = live now (t k)
        rw [counters_set]
        by_cases hk : k = key
        · subst hk
          rw [Function.update_self]
          exact hobject
        · rw [Function.update_of_ne hk]
          exact h k
      | ok next => exact ⟨readCounter_idem hread, fun k => hkept k _ _⟩

/-- An alarm drops a counter that is over, or none. -/
theorem alarm_forgets (s : DurableObjectRateLimitStore) (key : String) (now : Nat) :
    Forgets now s.counters (s.alarm key now).counters := by
  intro k
  rw [alarm, counters_set]
  by_cases hk : k = key
  · subst hk
    rw [Function.update_self, RateLimitDurableObject.alarm, counters]
    split
    · rename_i hnone
      exact .inl hnone.symm
    · rename_i counter hcounter
      split
      · rename_i hle
        exact .inr ⟨rfl, by rw [hcounter, live_some_of_le hle]⟩
      · exact .inl rfl
  · exact .inl (Function.update_of_ne hk ..)

theorem replies_remembered {events : List (Nat × Event)}
    (hsorted : (events.map Prod.fst).Pairwise (· ≤ ·)) :
    replies step ⟨[]⟩ events = replies Remembered.step (fun _ => none) events := by
  have hsorted' := List.pairwise_cons.mpr ⟨fun _ _ => Nat.zero_le _, hsorted⟩
  refine replies_eq Tracks (fun _ _ _ => True) ?_ (fun _ _ _ _ _ => ⟨trivial, trivial⟩)
    (P := fun _ _ => True) ?_ hsorted' trivial
  · intro before s t now e h hle _
    have hnow : s.Tracks now t := fun key => live_mono hle (h key)
    cases e with
    | hit key windowMs =>
      obtain ⟨hreply, htracks⟩ := hit_tracks hnow
      exact ⟨congrArg some hreply, htracks⟩
    | alarm key => exact ⟨rfl, fun k => ((s.alarm_forgets key now).live k).trans (hnow k)⟩
    | expire => exact ⟨rfl, hnow⟩
  · exact fun _ => rfl

end DurableObjectRateLimitStore

/-! ## Section 4: KV -/

theorem framedKey_injective {nameSpace key key' : String}
    (h : framedKey nameSpace key = framedKey nameSpace key') : key = key' := by
  have hlist := String.ofList_injective h
  simp only [JsonText.quote, List.cons_append, List.append_assoc, List.nil_append,
    List.cons.injEq, true_and] at hlist
  have hrest := List.append_cancel_left hlist
  simp only [List.cons.injEq, true_and] at hrest
  have hunits := (JsonText.printUnits_injective (fun _ => JsonText.utf16_lt)
    (fun _ => JsonText.utf16_lt) hrest).1
  exact JsString.utf16_injective hunits

namespace KvRateLimitStore

/-- A key that the stores accept is short enough for KV too. -/
def Storable (nameSpace : String) : Event → Prop
  | .hit key _ => validKey key = true → (framedKey nameSpace key).utf8ByteSize ≤ 512
  | _ => True

def counters (s : KvRateLimitStore) (key : String) : Option Counter :=
  (Entries.get s.entries (framedKey s.nameSpace key)).map KvEntry.counter

/-- No entry may be dropped before its window is over. -/
structure Tracks (nameSpace : String) (now : Nat) (s : KvRateLimitStore) (t : Remembered) :
    Prop where
  nameSpace : s.nameSpace = nameSpace
  kept : ∀ kvKey entry, Entries.get s.entries kvKey = some entry →
    entry.counter.resetAt ≤ entry.expiresAt
  counters : ∀ key, live now (s.counters key) = live now (t key)

theorem counters_set (s : KvRateLimitStore) (key : String) (entry : KvEntry) :
    counters { s with entries := Entries.set s.entries (framedKey s.nameSpace key) entry } =
      Function.update s.counters key (some entry.counter) := by
  funext k
  by_cases hk : k = key
  · subst hk
    rw [Function.update_self, counters, Entries.get_set_self, Option.map_some]
  · have hne : framedKey s.nameSpace key ≠ framedKey s.nameSpace k :=
      fun heq => hk (framedKey_injective heq).symm
    rw [Function.update_of_ne hk, counters, Entries.get_set_of_ne _ _ hne]
    rfl

theorem nextCounter_eq (entry : Option Counter) (windowMs now : Nat) :
    nextCounter entry windowMs now = Windows.next entry windowMs now := by
  cases entry with
  | none => rfl
  | some entry =>
    by_cases hlt : now < entry.resetAt
    · simp only [nextCounter, if_pos hlt, next_live (live_some_of_lt hlt)]
    · simp only [nextCounter, if_neg hlt, next_over (live_some_of_le (Nat.le_of_not_lt hlt))]

/-- The counter outlives its window. -/
theorem resetAt_le_expiresAt (resetAt now : Nat) : resetAt ≤ now + ttl resetAt now * 1000 := by
  have hle : (resetAt - now + 999) / 1000 ≤ ttl resetAt now := Nat.le_max_right _ _
  omega

theorem hit_tracks {nameSpace : String} {now : Nat} {s : KvRateLimitStore} {t : Remembered}
    {key : String} {windowMs : Nat} (h : s.Tracks nameSpace now t)
    (hstorable : Storable nameSpace (.hit key windowMs)) :
    (s.hit key windowMs now).1 = (t.hit key windowMs now).1 ∧
      (s.hit key windowMs now).2.Tracks nameSpace now (t.hit key windowMs now).2 := by
  cases hassert : assertHit key windowMs now with
  | error e =>
    simp only [hit, Remembered.hit, hassert]
    exact ⟨trivial, h⟩
  | ok =>
    have hbytes := hstorable (assertHit_ok hassert).1
    rw [← h.nameSpace] at hbytes
    have hkvKey : rateLimitStorageKey s.nameSpace key = .ok (framedKey s.nameSpace key) := by
      simp only [rateLimitStorageKey]
      rw [if_neg (Nat.not_lt.mpr hbytes)]
    -- the counter that is stored next is that of the store that forgets nothing
    have hnext : nextCounter (s.counters key) windowMs now =
        Windows.next (t key) windowMs now := by
      rw [nextCounter_eq, Windows.next_congr (h.counters key)]
    unfold counters at hnext
    simp only [hit, Remembered.hit, hassert, hkvKey, hnext]
    cases hread : readCounter (Windows.next (t key) windowMs now) with
    | error e => exact ⟨rfl, h⟩
    | ok next =>
      refine ⟨rfl, h.nameSpace, ?_, ?_⟩
      · intro kvKey entry hentry
        by_cases hk : framedKey s.nameSpace key = kvKey
        · subst hk
          rw [Entries.get_set_self] at hentry
          cases hentry
          exact resetAt_le_expiresAt next.resetAt now
        · rw [Entries.get_set_of_ne _ _ hk] at hentry
          exact h.kept kvKey entry hentry
      · intro k
        rw [counters_set]
        exact Windows.live_update (h.counters k) key _

theorem expire_tracks {nameSpace : String} {now : Nat} {s : KvRateLimitStore} {t : Remembered}
    (h : s.Tracks nameSpace now t) (kvKey : String) :
    (s.expire kvKey now).Tracks nameSpace now t := by
  unfold expire
  split
  · rename_i entry hentry
    split
    · exact h
    · rename_i hexpired
      have hover : entry.counter.resetAt ≤ now :=
        (h.kept kvKey entry hentry).trans (Nat.le_of_not_lt hexpired)
      refine ⟨h.nameSpace, ?_, ?_⟩
      · intro k e he
        by_cases hk : kvKey = k
        · subst hk
          rw [Entries.get_erase_self] at he
          cases he
        · rw [Entries.get_erase_of_ne _ hk] at he
          exact h.kept k e he
      · intro key
        rw [← h.counters key, counters]
        by_cases hk : kvKey = framedKey s.nameSpace key
        · subst hk
          rw [Entries.get_erase_self, counters, hentry]
          exact (live_some_of_le hover).symm
        · rw [Entries.get_erase_of_ne _ hk]
          rfl
  · exact h

theorem replies_remembered (nameSpace : String) {events : List (Nat × Event)}
    (hsorted : (events.map Prod.fst).Pairwise (· ≤ ·))
    (hstorable : ∀ e ∈ events, Storable nameSpace e.2) :
    replies step ⟨nameSpace, []⟩ events = replies Remembered.step (fun _ => none) events := by
  have hsorted' := List.pairwise_cons.mpr ⟨fun _ _ => Nat.zero_le _, hsorted⟩
  refine replies_eq (Tracks nameSpace) (fun _ _ e => Storable nameSpace e) ?_
    (P := fun _ events => ∀ e ∈ events, Storable nameSpace e.2) ?_ ?_ hsorted' hstorable
  · intro before s t now e h hle hok
    have hnow : s.Tracks nameSpace now t :=
      ⟨h.nameSpace, h.kept, fun key => live_mono hle (h.counters key)⟩
    cases e with
    | hit key windowMs =>
      obtain ⟨hreply, htracks⟩ := hit_tracks hnow hok
      exact ⟨congrArg some hreply, htracks⟩
    | alarm => exact ⟨rfl, hnow⟩
    | expire kvKey => exact ⟨rfl, expire_tracks hnow kvKey⟩
  · exact fun _ now e rest hall =>
      ⟨hall (now, e) (List.mem_cons_self ..), fun e he => hall e (List.mem_cons_of_mem _ he)⟩
  · exact ⟨rfl, nofun, fun _ => rfl⟩

end KvRateLimitStore

/-! ## Section 5: Agreement -/

/-- The three stores give the same replies to the same hits, for keys that KV can
    store, while the memory store evicts no open window. -/
theorem rate_limit_stores_agree (maxEntries : Nat) (nameSpace : String)
    (events : List (Nat × Event)) (hsorted : (events.map Prod.fst).Pairwise (· ≤ ·))
    (hspacious : (InMemoryRateLimitStore.create maxEntries).Spacious events)
    (hstorable : ∀ e ∈ events, KvRateLimitStore.Storable nameSpace e.2) :
    replies InMemoryRateLimitStore.step (.create maxEntries) events =
        replies KvRateLimitStore.step ⟨nameSpace, []⟩ events ∧
      replies InMemoryRateLimitStore.step (.create maxEntries) events =
        replies DurableObjectRateLimitStore.step ⟨[]⟩ events := by
  rw [InMemoryRateLimitStore.replies_remembered maxEntries hsorted hspacious,
    KvRateLimitStore.replies_remembered nameSpace hsorted hstorable,
    DurableObjectRateLimitStore.replies_remembered hsorted]
  exact ⟨rfl, rfl⟩

/-- Hits up to the end of a window and at it, an early alarm and a late one. -/
def hitsAndAlarms : List (Nat × Event) :=
  [(1000, .hit "a" 500), (1200, .hit "a" 500), (1200, .alarm "a"), (1499, .hit "a" 500),
    (1500, .hit "a" 500), (2100, .alarm "a"), (2100, .hit "a" 500)]

theorem rate_limit_stores_agree_on_alarms :
    replies InMemoryRateLimitStore.step (.create 10000) hitsAndAlarms =
        replies KvRateLimitStore.step ⟨"cossack:rl:", []⟩ hitsAndAlarms ∧
      replies InMemoryRateLimitStore.step (.create 10000) hitsAndAlarms =
        replies DurableObjectRateLimitStore.step ⟨[]⟩ hitsAndAlarms := by
  apply rate_limit_stores_agree 10000 "cossack:rl:" hitsAndAlarms (by decide)
  · refine ⟨?_, ?_, ?_, ?_, ?_, ?_, ?_, trivial⟩ <;>
      exact InMemoryRateLimitStore.keeps_of_buckets (by decide)
  · intro e he
    simp only [hitsAndAlarms, List.mem_cons, List.not_mem_nil, or_false] at he
    rcases he with rfl | rfl | rfl | rfl | rfl | rfl | rfl
    all_goals first | trivial | exact fun _ => by decide

theorem utf8ByteSize_ofList (l : List Char) : (String.ofList l).utf8ByteSize = (l.map Char.utf8Size).sum := by
  induction l with
  | nil => rfl
  | cons c l ih =>
    rw [← List.singleton_append, String.ofList_append, String.utf8ByteSize_append, ih]
    simp

/-- A key that only KV finds too long. -/
theorem refused_by_kv {key : String} (hhit : assertHit key 500 1000 = .ok ())
    (hlong : rateLimitStorageKey "cossack:rl:" key = .error .storageKey) :
    replies InMemoryRateLimitStore.step (.create 10000) [(1000, .hit key 500)] = [.ok ⟨1, 1500⟩] ∧
      replies KvRateLimitStore.step ⟨"cossack:rl:", []⟩ [(1000, .hit key 500)] = [.error .storageKey] := by
  constructor
  · simp only [replies, InMemoryRateLimitStore.step, InMemoryRateLimitStore.hit, hhit]
    rfl
  · simp only [replies, KvRateLimitStore.step, KvRateLimitStore.hit, hhit, hlong]
    rfl

/-- A key of 512 bytes is counted in memory and refused by KV, which puts its
    namespace before it. -/
theorem long_key_refused_by_kv :
    replies InMemoryRateLimitStore.step (.create 10000)
        [(1000, .hit (String.ofList (List.replicate 512 'a')) 500)] = [.ok ⟨1, 1500⟩] ∧
      replies KvRateLimitStore.step ⟨"cossack:rl:", []⟩
        [(1000, .hit (String.ofList (List.replicate 512 'a')) 500)] = [.error .storageKey] := by
  have hvalid : validKey (String.ofList (List.replicate 512 'a')) = true := by
    unfold validKey JsString.isBlank
    rw [utf8ByteSize_ofList, String.toList_ofList]
    decide +kernel
  have hhit : assertHit (String.ofList (List.replicate 512 'a')) 500 1000 = .ok () := by
    unfold assertHit
    rw [hvalid]
    decide
  have hlong : rateLimitStorageKey "cossack:rl:" (String.ofList (List.replicate 512 'a')) =
      .error .storageKey := by
    unfold rateLimitStorageKey framedKey
    simp only [utf8ByteSize_ofList, JsString.utf16, String.toList_ofList]
    exact if_pos (by decide +kernel)
  exact refused_by_kv hhit hlong

end Cossack.Core.RateLimit
