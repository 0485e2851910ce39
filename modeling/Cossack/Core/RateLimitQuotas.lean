import Cossack.Core.RateLimitAgreement
import Cossack.Core.RateLimitLinks
import Mathlib.Data.List.TakeWhile

/-! # The in-memory store over whole runs

    Hits and requests through `evaluateRateLimit`, each with the clock readings
    of its own.  The pointers of the store agree in every state, it never has
    more than `maxEntries` buckets, it drops a bucket whose window is open only
    when nothing else made room, and a window that is not dropped admits at most
    `max` requests. -/

namespace Cossack.Core.RateLimit

open Windows (Counter Answers)

/-! ## Section 1: The middleware -/

structure RateLimitOptions where
  window : Option Nat
  max : Option Nat
  message : Option String

namespace RateLimitOptions

def windowMs (options : RateLimitOptions) : Nat := options.window.getD 60000

def limit (options : RateLimitOptions) : Nat := options.max.getD 60

end RateLimitOptions

/-- When the clock is read, in this order: for the options, for the arguments of
    the hit, for the window and for the answer. -/
structure Readings where
  asked : Nat
  checked : Nat
  now : Nat
  answered : Nat

def Readings.toList (t : Readings) : List Nat := [t.asked, t.checked, t.now, t.answered]

inductive Refusal where
  | store (e : RateLimitError)
  | max

def Refusal.message : Refusal → String
  | .store e => e.message
  | .max => "[Cossack] Rate-limit max must be a non-negative safe integer."

structure Blocked where
  message : String
  retryAfter : Nat

/-- What `evaluateRateLimit` checks before it counts. -/
def checkRequest (asked : Nat) (scopeKey caller : String) (options : RateLimitOptions) :
    Except Refusal Unit :=
  if !validWindow options.windowMs asked then .error (.store .window)
  else if maxSafeInteger < options.limit then .error .max
  else if !validKey scopeKey then .error (.store .key)
  else if !validKey caller then .error (.store .key)
  else .ok ()

/-- Its answer to a counter; no answer admits the request. -/
def decision (options : RateLimitOptions) (counter : Counter) (answered : Nat) : Option Blocked :=
  if counter.count ≤ options.limit then none
  else some ⟨options.message.getD "Too Many Requests", max 1 ((counter.resetAt - answered + 999) / 1000)⟩

namespace Linked

namespace InMemoryRateLimitStore

def evaluateRateLimit (s : InMemoryRateLimitStore) (t : Readings) (scopeKey caller : String)
    (options : RateLimitOptions) : Except Refusal (Option Blocked) × InMemoryRateLimitStore :=
  match checkRequest t.asked scopeKey caller options with
  | .error e => (.error e, s)
  | .ok _ =>
      let (reply, s) := s.hit (framedKey scopeKey caller) options.windowMs t.checked t.now
      match reply.bind readCounter with
      | .error e => (.error (.store e), s)
      | .ok counter => (.ok (decision options counter t.answered), s)

end InMemoryRateLimitStore

/-! ## Section 2: Runs -/

inductive Call where
  | hit (key : String) (windowMs : Nat)
  | evaluateRateLimit (scopeKey caller : String) (options : RateLimitOptions)

namespace Call

/-- The key it counts under. -/
def key : Call → String
  | .hit key _ => key
  | .evaluateRateLimit scopeKey caller _ => framedKey scopeKey caller

def perform (s : InMemoryRateLimitStore) (t : Readings) : Call → InMemoryRateLimitStore
  | .hit key windowMs => (s.hit key windowMs t.checked t.now).2
  | .evaluateRateLimit scopeKey caller options => (s.evaluateRateLimit t scopeKey caller options).2

end Call

/-- What the store remembers. -/
def InMemoryRateLimitStore.counters (s : InMemoryRateLimitStore) (key : String) : Option Counter :=
  (Entries.get s.entries key).map fun bucket => ⟨s.count bucket, bucket.resetAt⟩

/-- A request that passes, with the counter of its window. -/
structure Admission where
  now : Nat
  limit : Nat
  counter : Counter

/-- A call, with the store before it. -/
structure Turn where
  before : InMemoryRateLimitStore
  readings : Readings
  call : Call

def Turn.after (turn : Turn) : InMemoryRateLimitStore := turn.call.perform turn.before turn.readings

def run (s : InMemoryRateLimitStore) : List (Readings × Call) → InMemoryRateLimitStore
  | [] => s
  | (t, call) :: rest => run (call.perform s t) rest

def turns (s : InMemoryRateLimitStore) : List (Readings × Call) → List Turn
  | [] => []
  | (t, call) :: rest => ⟨s, t, call⟩ :: turns (call.perform s t) rest

namespace Turn

/-- A bucket whose window is open is dropped. -/
def Evicts (turn : Turn) (bucket : MemoryBucket) : Prop :=
  Entries.get turn.before.entries bucket.key = some bucket ∧ turn.readings.now < bucket.resetAt ∧
    Entries.get turn.after.entries bucket.key ≠ some bucket

/-- The request of the key that passes, if one does. -/
def admission (turn : Turn) (key : String) : Option Admission :=
  match turn.call with
  | .hit _ _ => none
  | .evaluateRateLimit scopeKey caller options =>
      if framedKey scopeKey caller = key then
        match (turn.before.evaluateRateLimit turn.readings scopeKey caller options).1 with
        | .ok none => some ⟨turn.readings.now, options.limit, (turn.after.counters key).getD ⟨0, 0⟩⟩
        | _ => none
      else none

end Turn

/-! ## Section 3: What the sweep examines -/

namespace InMemoryRateLimitStore

/-- The buckets that are over are dropped from the oldest end, then from the swept batch. -/
def cleared (s : InMemoryRateLimitStore) (now : Nat) : InMemoryRateLimitStore :=
  let s := s.removeExpired now s.entries.length
  s.sweepExpired now (min 8 s.entries.length)

/-- The batch: from where the last sweep ended, and on from the oldest. -/
def batch (s : InMemoryRateLimitStore) (xs : List MemoryBucket) : List MemoryBucket :=
  ((xs.dropWhile fun b => !decide (s.sweep = some b)) ++
    xs.takeWhile fun b => !decide (s.sweep = some b)).take 8

/-- Nothing in the store made room: its oldest bucket goes. -/
structure LastResort (s : InMemoryRateLimitStore) (now : Nat) (bucket : MemoryBucket) : Prop where
  /-- The store is full after everything found over was dropped. -/
  full : (s.cleared now).entries.length = s.maxEntries
  oldest : s.oldest = some bucket
  oldest_cleared : (s.cleared now).oldest = some bucket
  batch : ∃ xs, Agree s xs ∧ Agree (s.cleared now) xs ∧ ∀ b ∈ s.batch xs, now < b.resetAt

variable {s : InMemoryRateLimitStore} {xs ys l r : List MemoryBucket} {bucket : MemoryBucket}

theorem Agree.sweep_split (h : Agree s xs) :
    s.sweep = (xs.dropWhile fun b => !decide (s.sweep = some b)).head? := by
  rw [← List.find?_eq_head?_dropWhile_not]
  cases hsweep : s.sweep with
  | none => exact (List.find?_eq_none.mpr (by simp)).symm
  | some bucket =>
    have hmem := h.sweep bucket hsweep
    cases hfind : xs.find? fun b => decide (some bucket = some b) with
    | none => simpa using List.find?_eq_none.mp hfind bucket hmem
    | some other => simpa using List.find?_some hfind

/-- A sweep that drops nothing met open windows only. -/
theorem Agree.sweep_live (h : Agree s (l ++ r)) (hsweep : s.sweep = r.head?) {now n : Nat}
    (hfull : (l ++ r).length ≤ s.maxEntries)
    (hafter : s.maxEntries ≤ (s.sweepExpired now n).entries.length) :
    ∀ b ∈ (r ++ l).take n, now < b.resetAt := by
  induction n generalizing s l r with
  | zero => simp
  | succ n ih =>
    rw [InMemoryRateLimitStore.sweepExpired, h.length] at hafter
    have hroom : ¬ (l ++ r).length < s.maxEntries := by
      intro hlt
      rw [if_pos hlt, h.length] at hafter
      omega
    rw [if_neg hroom] at hafter
    -- one bucket is examined: it is live, or the store would not be full
    have examine : ∀ {c : MemoryBucket} {p q : List MemoryBucket}, Agree s (p ++ c :: q) →
        (p ++ c :: q).length ≤ s.maxEntries → s.sweep.or s.oldest = some c →
        now < c.resetAt ∧ ∀ b ∈ (q ++ (p ++ [c])).take n, now < b.resetAt := by
      intro c p q hagree hlen hcursor
      rw [hcursor] at hafter
      have hnext := (hagree.chain.neighbours p c q rfl).2
      have hswept := hagree.sweepTo fun b (hb : s.links.next c = some b) => by
        rw [hnext] at hb
        exact List.mem_append_right _ (List.mem_cons_of_mem _ (List.mem_of_head? hb))
      by_cases hlive : now < c.resetAt
      · simp only [if_pos hlive] at hafter
        have hswept' : Agree { s with sweep := s.links.next c } ((p ++ [c]) ++ q) := by
          rw [List.append_assoc]
          exact hswept
        have hlen' : ((p ++ [c]) ++ q).length ≤ s.maxEntries := by
          rw [List.append_assoc]
          exact hlen
        exact ⟨hlive, ih hswept' hnext hlen' hafter⟩
      · simp only [if_neg hlive] at hafter
        obtain ⟨ys, hsub, hys, -⟩ := hswept.remove.1.sweepExpired now n
        rw [hys.length] at hafter
        have hle := hsub.length_le
        simp only [List.length_append, List.length_cons] at hle hlen
        omega
    cases r with
    | cons c r =>
      obtain ⟨hlive, hrest⟩ := examine h hfull (by rw [hsweep]; rfl)
      rw [← List.append_assoc, List.take_append] at hrest
      rintro b (_ | ⟨_, hb⟩)
      · exact hlive
      · exact hrest b (List.mem_append_left _ hb)
    | nil =>
      rw [List.append_nil] at h hfull
      cases l with
      | nil => simp
      | cons c l =>
        obtain ⟨hlive, hrest⟩ := examine (p := []) h hfull (by rw [hsweep, h.oldest]; rfl)
        rw [List.nil_append, List.take_append] at hrest
        rintro b (_ | ⟨_, hb⟩)
        · exact hlive
        · exact hrest b (List.mem_append_left _ hb)

/-! ## Section 4: What making room drops -/

theorem Agree.counters_listed (h : Agree s xs) : (s.listed xs).counters = s.counters := by
  funext key
  rw [RateLimit.InMemoryRateLimitStore.counters, h.get_listed, Option.map_map]
  rfl

theorem maxEntries_removeExpired (now n : Nat) (s : InMemoryRateLimitStore) :
    (s.removeExpired now n).maxEntries = s.maxEntries := by
  induction n generalizing s with
  | zero => rfl
  | succ n ih =>
    rw [removeExpired]
    split
    · rfl
    · split
      · rfl
      · exact ih _

theorem maxEntries_sweepExpired (now n : Nat) (s : InMemoryRateLimitStore) :
    (s.sweepExpired now n).maxEntries = s.maxEntries := by
  induction n generalizing s with
  | zero => rfl
  | succ n ih =>
    rw [sweepExpired]
    split
    · rfl
    · split
      · rfl
      · simp only
        rw [ih]
        split <;> rfl

theorem maxEntries_cleared (s : InMemoryRateLimitStore) (now : Nat) :
    (s.cleared now).maxEntries = s.maxEntries :=
  (maxEntries_sweepExpired ..).trans (maxEntries_removeExpired ..)

theorem makeRoom_eq (s : InMemoryRateLimitStore) (now : Nat) :
    s.makeRoom now = match (s.cleared now).oldest with
      | none => s.cleared now
      | some oldest =>
          if (s.cleared now).entries.length < (s.cleared now).maxEntries then s.cleared now
          else (s.cleared now).remove oldest := rfl

theorem maxEntries_makeRoom (s : InMemoryRateLimitStore) (now : Nat) :
    (s.makeRoom now).maxEntries = s.maxEntries := by
  rw [makeRoom_eq, ← maxEntries_cleared s now]
  split
  · rfl
  · split <;> rfl

/-- Clearing drops only what is over. -/
theorem Agree.cleared (h : Agree s xs) (now : Nat) :
    ∃ ys, ys.Sublist xs ∧ Agree (s.cleared now) ys ∧ Windows.Forgets now s.counters (s.cleared now).counters := by
  obtain ⟨ys, hsub, hys, hexpired⟩ := h.removeExpired now s.entries.length
  obtain ⟨zs, hsub', hzs, hswept⟩ :=
    hys.sweepExpired now (min 8 (s.removeExpired now s.entries.length).entries.length)
  refine ⟨zs, hsub'.trans hsub, hzs, ?_⟩
  have hcounters : (s.cleared now).counters = _ := hzs.counters_listed.symm
  rw [← h.counters_listed, hcounters, hswept, hexpired]
  exact Windows.Forgets.trans (RateLimit.InMemoryRateLimitStore.removeExpired_forgets _ _ _)
    (RateLimit.InMemoryRateLimitStore.sweepExpired_forgets _ _ _)

/-- A bucket whose window is open is still there. -/
theorem Agree.survives (h : Agree s xs) {t : InMemoryRateLimitStore} (ht : Agree t ys) (hsub : ys.Sublist xs)
    {now : Nat} (hforgets : Windows.Forgets now s.counters t.counters) (hmem : bucket ∈ xs)
    (hlive : now < bucket.resetAt) : bucket ∈ ys := by
  have hcounter : s.counters bucket.key = some ⟨s.count bucket, bucket.resetAt⟩ := by
    rw [counters, h.get_eq_some.mpr ⟨hmem, rfl⟩, Option.map_some]
  rcases hforgets bucket.key with heq | ⟨-, hover⟩
  · rw [hcounter] at heq
    obtain ⟨other, hother, -⟩ := Option.map_eq_some_iff.mp heq
    obtain ⟨hthere, hkey⟩ := ht.get_eq_some.mp hother
    rwa [h.key_inj hmem (hsub.subset hthere) hkey.symm]
  · rw [hcounter, Windows.live_some_of_lt hlive] at hover
    cases hover

theorem removeExpired_of_live {oldest : MemoryBucket} {now : Nat} (h : s.oldest = some oldest)
    (hlive : now < oldest.resetAt) (n : Nat) : s.removeExpired now n = s := by
  cases n with
  | zero => rfl
  | succ n =>
    rw [removeExpired, h]
    exact if_pos hlive

theorem Agree.makeRoom_drops (h : Agree s xs) {now : Nat} (hsize : xs.length ≤ s.maxEntries)
    (hmem : bucket ∈ xs) (hlive : now < bucket.resetAt)
    (hgone : Entries.get (s.makeRoom now).entries bucket.key ≠ some bucket) : s.LastResort now bucket := by
  obtain ⟨ys, hsub, hys, hforgets⟩ := h.cleared now
  have hkept := h.survives hys hsub hforgets hmem hlive
  have hthere := hys.get_eq_some.mpr ⟨hkept, rfl⟩
  rw [makeRoom_eq, hys.oldest, maxEntries_cleared] at hgone
  cases ys with
  | nil => cases hkept
  | cons oldest rest =>
    simp only [List.head?_cons] at hgone
    by_cases hroom : (s.cleared now).entries.length < s.maxEntries
    · rw [if_pos hroom] at hgone
      exact absurd hthere hgone
    · rw [if_neg hroom] at hgone
      -- nothing was dropped yet: the list is the whole list, and its head goes
      have hlen : xs.length ≤ (oldest :: rest).length := by
        rw [← hys.length]
        omega
      have hall := hsub.eq_of_length_le hlen
      subst hall
      have hfirst : bucket = oldest := by
        by_contra hne
        have hremoved := Agree.remove (l := []) hys
        refine hgone (hremoved.1.get_eq_some.mpr ⟨?_, rfl⟩)
        exact (List.mem_cons.mp hkept).resolve_left hne
      subst hfirst
      have hfull : (s.cleared now).entries.length = s.maxEntries := by
        rw [hys.length] at hroom ⊢
        omega
      refine ⟨hfull, h.oldest, hys.oldest, ⟨_, h, hys, ?_⟩⟩
      have hexpired := removeExpired_of_live h.oldest hlive s.entries.length
      have hswept : s.maxEntries ≤ (s.sweepExpired now (min 8 s.entries.length)).entries.length := by
        have heq : s.cleared now = s.sweepExpired now (min 8 s.entries.length) := by
          rw [InMemoryRateLimitStore.cleared, hexpired]
        rw [← heq, hfull]
      have hwhole := List.takeWhile_append_dropWhile
        (p := fun b => !decide (s.sweep = some b)) (l := bucket :: rest)
      have hlength := congrArg List.length hwhole
      rw [List.length_append, ← h.length] at hlength
      have hsplit := h.sweep_split
      rw [← hwhole] at h hsize
      have hbatch := h.sweep_live hsplit hsize hswept
      intro b hb
      refine hbatch b ?_
      rw [batch, List.take_eq_take_min, List.length_append, Nat.add_comm, hlength] at hb
      exact hb

/-- After making room there is room. -/
theorem Agree.length_makeRoom (h : Agree s xs) (now : Nat) (hpos : 0 < s.maxEntries)
    (hsize : xs.length ≤ s.maxEntries) : (s.makeRoom now).entries.length < s.maxEntries := by
  obtain ⟨ys, hsub, hys, -⟩ := h.cleared now
  have hle := hsub.length_le
  rw [makeRoom_eq, hys.oldest, maxEntries_cleared]
  cases ys with
  | nil =>
    show (s.cleared now).entries.length < _
    rw [hys.length]
    exact hpos
  | cons oldest rest =>
    simp only [List.head?_cons]
    split
    · assumption
    · rw [(Agree.remove (l := []) hys).1.length]
      rw [List.length_cons] at hle
      show rest.length < _
      omega

/-! ## Section 5: One hit -/

/-- The map, the list and the sweep agree, and the store is not too large. -/
structure Sound (s : InMemoryRateLimitStore) : Prop where
  agree : ∃ xs, Agree s xs
  size : s.entries.length ≤ s.maxEntries
  room : 0 < s.maxEntries

/-- What a hit that opens a window does before it adds the new bucket. -/
structure Opens (s : InMemoryRateLimitStore) (key : String) (now : Nat) (mid : InMemoryRateLimitStore) : Prop where
  agree : ∃ ys, Agree mid ys
  absent : Entries.get mid.entries key = none
  room : mid.entries.length < mid.maxEntries
  maxEntries : mid.maxEntries = s.maxEntries
  expired : Windows.live now (s.counters key) = none
  others : ∀ k, k ≠ key → mid.counters k = s.counters k ∨ mid.counters k = none
  evicts : ∀ bucket, Entries.get s.entries bucket.key = some bucket → now < bucket.resetAt →
    Entries.get mid.entries bucket.key ≠ some bucket →
      Entries.get s.entries key = none ∧ s.LastResort now bucket

/-- A bucket whose window is over gives way to a new one of its key. -/
theorem Agree.opens_remove (h : Agree s xs) {key : String} {existing : MemoryBucket}
    (hsize : xs.length ≤ s.maxEntries) (hget : Entries.get s.entries key = some existing) {now : Nat}
    (hover : existing.resetAt ≤ now) : s.Opens key now (s.remove existing) := by
  obtain ⟨hmem, hkey⟩ := h.get_eq_some.mp hget
  obtain ⟨l, r, rfl⟩ := List.append_of_mem hmem
  have hother : ∀ k, k ≠ key → Entries.get (s.remove existing).entries k = Entries.get s.entries k := by
    intro k hk
    exact Entries.get_erase_of_ne _ (hkey ▸ hk.symm)
  refine ⟨⟨_, h.remove.1⟩, ?_, ?_, rfl, ?_, ?_, ?_⟩
  · rw [← hkey]
    exact Entries.get_erase_self _ _
  · rw [h.remove.1.length]
    show (l ++ r).length < s.maxEntries
    simp only [List.length_append, List.length_cons] at hsize ⊢
    omega
  · rw [counters, hget]
    exact Windows.live_some_of_le hover
  · intro k hk
    exact .inl (by rw [counters, hother k hk]; rfl)
  · intro bucket hbucket hlive hgone
    have hne : bucket.key ≠ key := by
      intro heq
      rw [heq, hget] at hbucket
      cases hbucket
      omega
    rw [hother _ hne] at hgone
    exact absurd hbucket hgone

theorem Agree.opens_free (h : Agree s xs) {key : String} (hroom : s.entries.length < s.maxEntries)
    (hget : Entries.get s.entries key = none) (now : Nat) : s.Opens key now s := by
  refine ⟨⟨xs, h⟩, hget, hroom, rfl, ?_, fun _ _ => .inl rfl, ?_⟩
  · rw [counters, hget]
    rfl
  · intro bucket hbucket _ hgone
    exact absurd hbucket hgone

theorem Agree.opens_makeRoom (h : Agree s xs) {key : String} (hpos : 0 < s.maxEntries)
    (hsize : xs.length ≤ s.maxEntries) (hget : Entries.get s.entries key = none) (now : Nat) :
    s.Opens key now (s.makeRoom now) := by
  obtain ⟨ys, hsub, hys, hlisted⟩ := h.makeRoom now
  refine ⟨⟨ys, hys⟩, ?_, ?_, maxEntries_makeRoom .., ?_, ?_, ?_⟩
  · rw [hys.get_eq_none]
    intro bucket hbucket
    exact h.get_eq_none.mp hget bucket (hsub.subset hbucket)
  · rw [maxEntries_makeRoom]
    exact h.length_makeRoom now hpos hsize
  · rw [counters, hget]
    rfl
  · intro k _
    obtain ⟨t, hforgets, hroom⟩ := RateLimit.InMemoryRateLimitStore.makeRoom_forgets (s.listed xs) now
    rw [← hys.counters_listed, hlisted, ← h.counters_listed]
    have ht : t.counters k = (s.listed xs).counters k ∨ t.counters k = none := by
      rcases hforgets k with heq | ⟨hnone, -⟩
      · exact .inl heq
      · exact .inr hnone
    rcases hroom with heq | ⟨oldest, -, heq⟩
    · rwa [heq]
    · rw [heq, RateLimit.InMemoryRateLimitStore.counters_remove]
      by_cases hk : k = oldest.key
      · subst hk
        exact .inr (Function.update_self ..)
      · rwa [Function.update_of_ne hk]
  · intro bucket hbucket hlive hgone
    exact ⟨hget, h.makeRoom_drops hsize (h.get_eq_some.mp hbucket).1 hlive hgone⟩

/-- A hit is refused, counts on in an open window, or opens one. -/
theorem Sound.enter_cases (h : Sound s) (key : String) (windowMs now : Nat) :
    (∃ e, s.enter key windowMs now = (.error e, s)) ∨
    (∃ existing, Entries.get s.entries key = some existing ∧ now < existing.resetAt ∧
      s.enter key windowMs now = (.ok ⟨s.count existing + 1, existing.resetAt⟩,
        { s with count := Function.update s.count existing (s.count existing + 1) })) ∨
    ∃ mid, s.Opens key now mid ∧
      s.enter key windowMs now = (.ok ⟨1, now + windowMs⟩, mid.push key (now + windowMs)) := by
  obtain ⟨xs, hxs⟩ := h.agree
  have hsize : xs.length ≤ s.maxEntries := by
    rw [← hxs.length]
    exact h.size
  unfold enter
  cases hget : Entries.get s.entries key with
  | some existing =>
    simp only
    by_cases hlive : now < existing.resetAt
    · rw [if_pos hlive]
      cases hread : readCounter ⟨s.count existing + 1, existing.resetAt⟩ with
      | error e => exact .inl ⟨e, rfl⟩
      | ok c =>
        obtain ⟨rfl, -⟩ := readCounter_ok hread
        exact .inr (.inl ⟨existing, rfl, hlive, rfl⟩)
    · rw [if_neg hlive]
      exact .inr (.inr ⟨_, hxs.opens_remove hsize hget (Nat.le_of_not_lt hlive), rfl⟩)
  | none =>
    refine .inr (.inr ⟨_, ?_, rfl⟩)
    split
    · exact hxs.opens_makeRoom h.room hsize hget now
    · exact hxs.opens_free (by omega) hget now

theorem Opens.counters_push {key : String} {now : Nat} {mid : InMemoryRateLimitStore} (h : s.Opens key now mid)
    (resetAt : Nat) :
    (mid.push key resetAt).counters = Function.update mid.counters key (some ⟨1, resetAt⟩) := by
  obtain ⟨ys, hys⟩ := h.agree
  obtain ⟨hpushed, hlisted⟩ := hys.push h.absent resetAt
  have habsent : (mid.listed ys).get key = none := by
    rw [hys.get_listed, h.absent, Option.map_none]
  rw [← hpushed.counters_listed, hlisted, ← hys.counters_listed]
  exact RateLimit.InMemoryRateLimitStore.counters_push (b := ⟨key, 1, resetAt⟩) habsent

/-- The counters after one more hit in an open window. -/
theorem Agree.counters_count (h : Agree s xs) {key : String} {existing : MemoryBucket}
    (hget : Entries.get s.entries key = some existing) (count : Nat) :
    ({ s with count := Function.update s.count existing count } : InMemoryRateLimitStore).counters =
      Function.update s.counters key (some ⟨count, existing.resetAt⟩) := by
  funext k
  unfold counters
  by_cases hk : k = key
  · subst hk
    rw [hget, Function.update_self, Option.map_some]
    simp only [Function.update_self]
  · rw [Function.update_of_ne hk]
    cases hbucket : Entries.get s.entries k with
    | none => rfl
    | some bucket =>
      have hne : bucket ≠ existing := by
        intro heq
        rw [← (h.get_eq_some.mp hbucket).2, heq, (h.get_eq_some.mp hget).2] at hk
        exact hk rfl
      rw [Option.map_some, Option.map_some]
      simp only [Function.update_of_ne hne]

theorem Sound.enter (h : Sound s) (key : String) (windowMs now : Nat) : Sound (s.enter key windowMs now).2 := by
  obtain ⟨xs, hxs⟩ := h.agree
  obtain ⟨ys, hys, -⟩ := hxs.enter key windowMs now
  rcases h.enter_cases key windowMs now with ⟨e, heq⟩ | ⟨existing, -, -, heq⟩ | ⟨mid, hmid, heq⟩
  · rw [heq]
    exact h
  · rw [heq] at hys ⊢
    exact ⟨⟨ys, hys⟩, h.size, h.room⟩
  · rw [heq] at hys ⊢
    refine ⟨⟨ys, hys⟩, ?_, ?_⟩
    · have hlt := hmid.room
      show (Entries.set mid.entries key _).length ≤ mid.maxEntries
      rw [Entries.set_of_get_none hmid.absent, List.length_append]
      exact hlt
    · show 0 < mid.maxEntries
      rw [hmid.maxEntries]
      exact h.room

/-- The counter of the key goes on; another counter stays, or its bucket is dropped. -/
theorem Sound.enter_counters (h : Sound s) (key : String) (windowMs now : Nat) :
    ((∃ e, (s.enter key windowMs now).1 = .error e) ∧ (s.enter key windowMs now).2 = s) ∨
    (s.enter key windowMs now).1 = .ok (Windows.next (s.counters key) windowMs now) ∧
      (s.enter key windowMs now).2.counters key = some (Windows.next (s.counters key) windowMs now) ∧
      ∀ k, k ≠ key → (s.enter key windowMs now).2.counters k = s.counters k ∨
        (s.enter key windowMs now).2.counters k = none := by
  obtain ⟨xs, hxs⟩ := h.agree
  rcases h.enter_cases key windowMs now with ⟨e, heq⟩ | ⟨existing, hget, hlive, heq⟩ | ⟨mid, hmid, heq⟩
  · exact .inl ⟨⟨e, by rw [heq]⟩, by rw [heq]⟩
  · right
    have hcounter : s.counters key = some ⟨s.count existing, existing.resetAt⟩ := by
      rw [counters, hget, Option.map_some]
    rw [heq, hcounter, Windows.next_of_lt hlive, hxs.counters_count hget, Function.update_self]
    refine ⟨rfl, rfl, fun k hk => .inl ?_⟩
    rw [Function.update_of_ne hk]
  · right
    rw [heq, Windows.next_of_over hmid.expired, hmid.counters_push, Function.update_self]
    refine ⟨rfl, rfl, fun k hk => ?_⟩
    rw [Function.update_of_ne hk]
    exact hmid.others k hk

/-- A bucket whose window is open goes only as a last resort. -/
theorem Sound.enter_evicts (h : Sound s) {key : String} {windowMs now : Nat}
    (hget : Entries.get s.entries bucket.key = some bucket) (hlive : now < bucket.resetAt)
    (hgone : Entries.get (s.enter key windowMs now).2.entries bucket.key ≠ some bucket) :
    Entries.get s.entries key = none ∧ s.LastResort now bucket := by
  rcases h.enter_cases key windowMs now with ⟨e, heq⟩ | ⟨existing, -, -, heq⟩ | ⟨mid, hmid, heq⟩
  · rw [heq] at hgone
    exact absurd hget hgone
  · rw [heq] at hgone
    exact absurd hget hgone
  · rw [heq] at hgone
    have hne : bucket.key ≠ key := by
      intro hkey
      have hover := hmid.expired
      rw [← hkey, counters, hget, Option.map_some, Windows.live_some_of_lt hlive] at hover
      cases hover
    refine hmid.evicts bucket hget hlive fun hthere => hgone ?_
    show Entries.get (Entries.set mid.entries key _) bucket.key = _
    rw [Entries.get_set_of_ne _ _ hne.symm]
    exact hthere

/-! ## Section 6: Calls -/

theorem hit_cases (s : InMemoryRateLimitStore) (key : String) (windowMs checked now : Nat) :
    (∃ e, s.hit key windowMs checked now = (.error e, s)) ∨
    0 < windowMs ∧ s.hit key windowMs checked now = s.enter key windowMs now := by
  unfold hit
  cases hassert : assertHit key windowMs checked with
  | error e => exact .inl ⟨e, rfl⟩
  | ok =>
    have hwindow := (assertHit_ok hassert).2
    simp only [validWindow, Bool.and_eq_true, decide_eq_true_eq] at hwindow
    exact .inr ⟨hwindow.1.2, rfl⟩

/-- A request changes nothing, or it is a hit; one that passes was counted, at most `max`. -/
theorem evaluateRateLimit_cases (s : InMemoryRateLimitStore) (t : Readings) (scopeKey caller : String)
    (options : RateLimitOptions) :
    (∃ e, s.evaluateRateLimit t scopeKey caller options = (.error e, s)) ∨
    (s.evaluateRateLimit t scopeKey caller options).2 =
        (s.hit (framedKey scopeKey caller) options.windowMs t.checked t.now).2 ∧
      ((s.evaluateRateLimit t scopeKey caller options).1 = .ok none →
        ∃ counter, (s.hit (framedKey scopeKey caller) options.windowMs t.checked t.now).1 = .ok counter ∧
          counter.count ≤ options.limit) := by
  unfold evaluateRateLimit
  cases checkRequest t.asked scopeKey caller options with
  | error e => exact .inl ⟨e, rfl⟩
  | ok =>
    right
    rcases s.hit (framedKey scopeKey caller) options.windowMs t.checked t.now with ⟨reply | c, s'⟩
    · exact ⟨rfl, nofun⟩
    · cases hread : (Except.ok c : Reply).bind readCounter with
      | error e =>
        simp only [hread]
        exact ⟨trivial, nofun⟩
      | ok counter =>
        obtain ⟨rfl, -⟩ := readCounter_ok (c := c) hread
        simp only [hread]
        refine ⟨trivial, fun hnone => ⟨counter, rfl, ?_⟩⟩
        by_contra hlt
        have hdecision : decision options counter t.answered = none := Except.ok.inj hnone
        rw [decision, if_neg hlt] at hdecision
        cases hdecision

theorem admission_some {t : Readings} {scopeKey caller key : String} {options : RateLimitOptions} {a : Admission}
    (h : Turn.admission ⟨s, t, .evaluateRateLimit scopeKey caller options⟩ key = some a) :
    framedKey scopeKey caller = key ∧ (s.evaluateRateLimit t scopeKey caller options).1 = .ok none ∧
      a = ⟨t.now, options.limit,
        ((s.evaluateRateLimit t scopeKey caller options).2.counters key).getD ⟨0, 0⟩⟩ := by
  simp only [Turn.admission] at h
  split at h
  · rename_i hkey
    split at h
    · rename_i hok
      cases h
      exact ⟨hkey, hok, rfl⟩
    · cases h
  · cases h

/-- A call leaves the store as it is, or it is a hit. -/
theorem perform_cases (s : InMemoryRateLimitStore) (t : Readings) (call : Call) :
    (call.perform s t = s ∧ ∀ key, Turn.admission ⟨s, t, call⟩ key = none) ∨
    ∃ windowMs, 0 < windowMs ∧ call.perform s t = (s.enter call.key windowMs t.now).2 ∧
      ∀ key a, Turn.admission ⟨s, t, call⟩ key = some a → call.key = key ∧ a.now = t.now ∧
        a.counter = ((s.enter call.key windowMs t.now).2.counters key).getD ⟨0, 0⟩ ∧
        ∃ counter, (s.enter call.key windowMs t.now).1 = .ok counter ∧ counter.count ≤ a.limit := by
  cases call with
  | hit key windowMs =>
    rcases s.hit_cases key windowMs t.checked t.now with ⟨e, heq⟩ | ⟨hpos, heq⟩
    · exact .inl ⟨congrArg Prod.snd heq, fun _ => rfl⟩
    · exact .inr ⟨windowMs, hpos, congrArg Prod.snd heq, nofun⟩
  | evaluateRateLimit scopeKey caller options =>
    rcases s.evaluateRateLimit_cases t scopeKey caller options with ⟨e, heq⟩ | ⟨hafter, hok⟩
    · refine .inl ⟨congrArg Prod.snd heq, fun key => ?_⟩
      cases hadmission : Turn.admission ⟨s, t, .evaluateRateLimit scopeKey caller options⟩ key with
      | none => rfl
      | some a =>
        obtain ⟨-, hnone, -⟩ := admission_some hadmission
        rw [heq] at hnone
        cases hnone
    · rcases s.hit_cases (framedKey scopeKey caller) options.windowMs t.checked t.now with
        ⟨e, heq⟩ | ⟨hpos, heq⟩
      · rw [heq] at hafter hok
        refine .inl ⟨hafter, fun key => ?_⟩
        cases hadmission : Turn.admission ⟨s, t, .evaluateRateLimit scopeKey caller options⟩ key with
        | none => rfl
        | some a =>
          obtain ⟨counter, hcounter, -⟩ := hok (admission_some hadmission).2.1
          cases hcounter
      · rw [heq] at hafter hok
        refine .inr ⟨options.windowMs, hpos, hafter, fun key a hadmission => ?_⟩
        obtain ⟨hkey, hnone, rfl⟩ := admission_some hadmission
        exact ⟨hkey, rfl, by rw [hafter]; rfl, hok hnone⟩

/-! ## Section 7: Runs -/

theorem Sound.perform (h : Sound s) (t : Readings) (call : Call) : Sound (call.perform s t) := by
  rcases s.perform_cases t call with ⟨heq, -⟩ | ⟨windowMs, -, heq, -⟩
  · rwa [heq]
  · rw [heq]
    exact h.enter _ _ _

theorem Sound.run (h : Sound s) (calls : List (Readings × Call)) : Sound (run s calls) := by
  induction calls generalizing s with
  | nil => exact h
  | cons first rest ih => exact ih (h.perform first.1 first.2)

theorem maxEntries_enter (h : Sound s) (key : String) (windowMs now : Nat) :
    (s.enter key windowMs now).2.maxEntries = s.maxEntries := by
  rcases h.enter_cases key windowMs now with ⟨e, heq⟩ | ⟨existing, -, -, heq⟩ | ⟨mid, hmid, heq⟩
  · rw [heq]
  · rw [heq]
  · rw [heq]
    exact hmid.maxEntries

theorem maxEntries_run (h : Sound s) (calls : List (Readings × Call)) :
    (Linked.run s calls).maxEntries = s.maxEntries := by
  induction calls generalizing s with
  | nil => rfl
  | cons first rest ih =>
    rw [Linked.run, ih (h.perform first.1 first.2)]
    rcases s.perform_cases first.1 first.2 with ⟨heq, -⟩ | ⟨windowMs, -, heq, -⟩
    · rw [heq]
    · rw [heq]
      exact maxEntries_enter h _ _ _

/-- Every call of a run is made of a sound store. -/
theorem Sound.turns (h : Sound s) (calls : List (Readings × Call)) :
    ∀ turn ∈ Linked.turns s calls, Sound turn.before := by
  induction calls generalizing s with
  | nil => exact nofun
  | cons first rest ih =>
    rintro turn (_ | ⟨_, hturn⟩)
    · exact h
    · exact ih (h.perform first.1 first.2) turn hturn

theorem Sound.turn_evicts {turn : Turn} (h : Sound turn.before) (hevicts : turn.Evicts bucket) :
    Entries.get turn.before.entries turn.call.key = none ∧
      turn.before.LastResort turn.readings.now bucket := by
  obtain ⟨hget, hlive, hgone⟩ := hevicts
  rcases turn.before.perform_cases turn.readings turn.call with ⟨heq, -⟩ | ⟨windowMs, -, heq, -⟩
  · rw [Turn.after, heq] at hgone
    exact absurd hget hgone
  · rw [Turn.after, heq] at hgone
    exact h.enter_evicts hget hlive hgone

/-- One call, as its counter sees it: nothing, forgotten when over, or counted. -/
theorem Sound.turn_counters (h : Sound s) (t : Readings) (call : Call) (key : String)
    (hkept : ∀ bucket, bucket.key = key → ¬ Turn.Evicts ⟨s, t, call⟩ bucket) :
    Turn.admission ⟨s, t, call⟩ key = none ∧
        ((call.perform s t).counters key = s.counters key ∨
          (call.perform s t).counters key = none ∧ Windows.live t.now (s.counters key) = none) ∨
    ∃ windowMs, 0 < windowMs ∧
      (call.perform s t).counters key = some (Windows.next (s.counters key) windowMs t.now) ∧
      ∀ a, Turn.admission ⟨s, t, call⟩ key = some a →
        a.now = t.now ∧ a.counter = Windows.next (s.counters key) windowMs t.now ∧ a.counter.count ≤ a.limit := by
  rcases s.perform_cases t call with ⟨heq, hnone⟩ | ⟨windowMs, hpos, heq, hadmits⟩
  · exact .inl ⟨hnone key, .inl (by rw [heq])⟩
  · rcases h.enter_counters call.key windowMs t.now with ⟨⟨e, he⟩, hsame⟩ | ⟨hok, hcounter, hothers⟩
    · refine .inl ⟨?_, .inl (by rw [heq, hsame])⟩
      cases hadmission : Turn.admission ⟨s, t, call⟩ key with
      | none => rfl
      | some a =>
        obtain ⟨-, -, -, counter, hcounter, -⟩ := hadmits key a hadmission
        rw [he] at hcounter
        cases hcounter
    · by_cases hkey : call.key = key
      · subst hkey
        refine .inr ⟨windowMs, hpos, by rw [heq, hcounter], fun a hadmission => ?_⟩
        obtain ⟨-, hnow, hcount, counter, hreply, hle⟩ := hadmits _ a hadmission
        rw [hok] at hreply
        cases hreply
        rw [hcounter, Option.getD_some] at hcount
        exact ⟨hnow, hcount, by rwa [hcount]⟩
      · refine .inl ⟨?_, ?_⟩
        · cases hadmission : Turn.admission ⟨s, t, call⟩ key with
          | none => rfl
          | some a => exact absurd (hadmits key a hadmission).1 hkey
        · rw [heq]
          rcases hothers key (Ne.symm hkey) with hsame | hgone
          · exact .inl hsame
          · refine .inr ⟨hgone, ?_⟩
            -- a bucket whose window is open would have been evicted
            cases hbucket : Entries.get s.entries key with
            | none => rw [counters, hbucket]; rfl
            | some bucket =>
              obtain ⟨xs, hxs⟩ := h.agree
              have hbkey := (hxs.get_eq_some.mp hbucket).2
              rw [counters, hbucket]
              refine Windows.live_some_of_le (Nat.le_of_not_lt fun hlive => ?_)
              refine hkept bucket hbkey ⟨by rwa [hbkey], hlive, ?_⟩
              rw [Turn.after, heq, hbkey, Option.map_eq_none_iff.mp hgone]
              exact Option.some_ne_none _ |>.symm

/-- The requests of a key that pass are answers of its counter, each within its limit. -/
theorem Sound.answers (h : Sound s) {calls : List (Readings × Call)} {key : String} {start : Nat}
    (hclock : (start :: calls.map fun call => call.1.now).Pairwise (· ≤ ·))
    (hkept : ∀ turn ∈ Linked.turns s calls, ∀ bucket, bucket.key = key → ¬ turn.Evicts bucket) :
    ∃ answers, Answers start (s.counters key) answers ∧
      (((Linked.turns s calls).filterMap (·.admission key)).map fun a => (a.now, a.counter)).Sublist answers ∧
      ∀ a ∈ (Linked.turns s calls).filterMap (·.admission key), a.counter.count ≤ a.limit := by
  induction calls generalizing s start with
  | nil => exact ⟨[], .done _ _, .refl _, nofun⟩
  | cons first rest ih =>
    obtain ⟨t, call⟩ := first
    obtain ⟨hstart, hrest⟩ := List.pairwise_cons.mp hclock
    have hle : start ≤ t.now := hstart t.now (List.mem_cons_self ..)
    obtain ⟨answers, hanswers, hsub, hlimits⟩ := ih (h.perform t call) hrest
      fun turn hturn => hkept turn (List.mem_cons_of_mem _ hturn)
    have hturn := h.turn_counters t call key (hkept ⟨s, t, call⟩ (List.mem_cons_self ..))
    rw [Linked.turns]
    rcases hturn with ⟨hnone, hcounter⟩ | ⟨windowMs, hpos, hcounter, hadmits⟩
    · simp only [List.filterMap_cons, hnone]
      refine ⟨answers, ?_, hsub, hlimits⟩
      rcases hcounter with hsame | ⟨hgone, hover⟩
      · rw [hsame] at hanswers
        exact .same hle hanswers
      · rw [hgone] at hanswers
        exact .expired hle hover hanswers
    · rw [hcounter] at hanswers
      refine ⟨_, .counted hle hpos hanswers, ?_⟩
      cases hadmission : Turn.admission ⟨s, t, call⟩ key with
      | none =>
        simp only [List.filterMap_cons, hadmission]
        exact ⟨hsub.cons _, hlimits⟩
      | some a =>
        obtain ⟨hnow, hcount, hlimit⟩ := hadmits a hadmission
        simp only [List.filterMap_cons, hadmission, List.map_cons, hnow, hcount]
        refine ⟨hsub.cons_cons _, ?_⟩
        rintro b (_ | ⟨_, hb⟩)
        · exact hlimit
        · exact hlimits b hb

theorem now_pairwise {calls : List (Readings × Call)}
    (h : (calls.flatMap fun call => call.1.toList).Pairwise (· ≤ ·)) :
    (0 :: calls.map fun call => call.1.now).Pairwise (· ≤ ·) := by
  refine List.pairwise_cons.mpr ⟨fun _ _ => Nat.zero_le _, h.sublist ?_⟩
  induction calls with
  | nil => exact .slnil
  | cons first rest ih =>
    have hone : [first.1.now].Sublist first.1.toList := by simp [Readings.toList]
    exact hone.append (ih (List.pairwise_append.mp h).2.1)

/-- In every state of a run the map, the list and the sweep have the same buckets,
    at most `maxEntries`.  A bucket whose window is open is dropped only for a new
    key, when the store is full after all that was found over was dropped: it is
    the oldest, and the whole batch of the sweep is open.  Of a key that this does
    not happen to, each window admits at most `max` requests, and until it ends
    every request that passes is in it. -/
theorem in_memory_rate_limit {maxEntries : Nat} {store : InMemoryRateLimitStore}
    (hstore : construct maxEntries = .ok store) (calls : List (Readings × Call))
    (hclock : (calls.flatMap fun call => call.1.toList).Pairwise (· ≤ ·)) :
    (∃ xs, Agree (run store calls) xs) ∧ (run store calls).entries.length ≤ maxEntries ∧
    (∀ turn ∈ turns store calls, ∀ bucket, turn.Evicts bucket →
      Entries.get turn.before.entries turn.call.key = none ∧
        turn.before.LastResort turn.readings.now bucket) ∧
    ∀ key, (∀ turn ∈ turns store calls, ∀ bucket, bucket.key = key → ¬ turn.Evicts bucket) →
      (∀ limit resetAt, (((turns store calls).filterMap (·.admission key)).countP fun a =>
        a.limit = limit ∧ a.counter.resetAt = resetAt) ≤ limit) ∧
      ((turns store calls).filterMap (·.admission key)).Pairwise fun a b =>
        b.now < a.counter.resetAt → b.counter.resetAt = a.counter.resetAt := by
  have hsound : Sound store ∧ store.maxEntries = maxEntries := by
    unfold construct at hstore
    split at hstore
    · cases hstore
    · rename_i hrange
      cases hstore
      exact ⟨⟨⟨[], agree_create maxEntries⟩, Nat.zero_le _, show 0 < maxEntries by omega⟩, rfl⟩
  obtain ⟨hsound, hmax⟩ := hsound
  have hrun := hsound.run calls
  refine ⟨hrun.agree, ?_, fun turn hturn bucket => (hsound.turns calls turn hturn).turn_evicts, ?_⟩
  · rw [← hmax, ← maxEntries_run hsound calls]
    exact hrun.size
  · intro key hkept
    obtain ⟨answers, hanswers, hsub, hlimits⟩ := hsound.answers (now_pairwise hclock) hkept
    generalize (turns store calls).filterMap (·.admission key) = admissions at hsub hlimits
    constructor
    · intro limit resetAt
      calc admissions.countP (fun a => a.limit = limit ∧ a.counter.resetAt = resetAt)
          ≤ admissions.countP (fun a => a.counter.resetAt = resetAt ∧ a.counter.count ≤ limit) := by
            refine List.countP_mono_left fun a ha => ?_
            simp only [decide_eq_true_eq]
            rintro ⟨rfl, hreset⟩
            exact ⟨hreset, hlimits a ha⟩
        _ = (admissions.map fun a => (a.now, a.counter)).countP
              (fun a => a.2.resetAt = resetAt ∧ a.2.count ≤ limit) := by
            rw [List.countP_map]
            rfl
        _ ≤ answers.countP (fun a => a.2.resetAt = resetAt ∧ a.2.count ≤ limit) := hsub.countP_le
        _ ≤ limit := hanswers.quota limit resetAt
    · exact List.pairwise_map.mp (hanswers.windows.sublist hsub)

/-- Two requests of one caller, of whom one passes. -/
def twoRequests : List (Readings × Call) :=
  [(⟨1, 1, 1, 1⟩, .evaluateRateLimit "save" "ip:a" ⟨some 10, some 1, none⟩),
    (⟨2, 2, 2, 2⟩, .evaluateRateLimit "save" "ip:a" ⟨some 10, some 1, none⟩)]

theorem in_memory_rate_limit_two :
    (run (create 1) twoRequests).entries.length ≤ 1 ∧
    (((turns (create 1) twoRequests).filterMap (·.admission (framedKey "save" "ip:a"))).countP fun a =>
      a.limit = 1 ∧ a.counter.resetAt = 11) ≤ 1 := by
  have h := @in_memory_rate_limit 1 (create 1) rfl twoRequests (by decide)
  refine ⟨h.2.1, (h.2.2.2 (framedKey "save" "ip:a") ?_).1 1 11⟩
  intro turn hturn bucket hkey hevicts
  obtain ⟨hget, hlive, hgone⟩ := hevicts
  rw [hkey] at hget hgone
  simp only [twoRequests, turns, List.mem_cons, List.not_mem_nil, or_false] at hturn
  rcases hturn with rfl | rfl
  · cases hget
  · refine hgone ?_
    rw [← hget]
    decide

end InMemoryRateLimitStore

end Linked

end Cossack.Core.RateLimit
