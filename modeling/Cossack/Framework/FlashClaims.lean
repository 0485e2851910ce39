import Cossack.Lib.Entries
import Cossack.Lib.MinHeaps
import Mathlib

/-! # Claims of flash messages

    The replay guard of a process: a map from the nonces that were claimed to
    their expiries, and a heap of the same claims by expiry.  A nonce is only
    compared; the clock is an argument of a call. -/

namespace Cossack.Framework.Flash

open MinHeaps

variable {Nonce : Type} [DecidableEq Nonce]

/-! ## Section 1: The model -/

structure FlashClaimExpiry (Nonce : Type) where
  nonce : Nonce
  expiresAt : Int

/-- `processFlashClaims`, `processFlashClaimExpiries` and the capacity. -/
structure ProcessFlash (Nonce : Type) where
  claims : List (Nonce × Int)
  expiries : List (FlashClaimExpiry Nonce)
  capacity : Nat

inductive ClaimAnswer where
  | claimed
  | replayed
  | full
  deriving DecidableEq

namespace ProcessFlash

def reset (capacity : Nat) : ProcessFlash Nonce := ⟨[], [], capacity⟩

def pushFlashClaimExpiry (s : ProcessFlash Nonce) (entry : FlashClaimExpiry Nonce) : ProcessFlash Nonce :=
  { s with expiries := push FlashClaimExpiry.expiresAt s.expiries entry }

/-- Remove what expired, at most `fuel` claims. -/
def purgeExpired (now : Int) : Nat → ProcessFlash Nonce → ProcessFlash Nonce
  | 0, s => s
  | fuel + 1, s =>
      match s.expiries.head? with
      | none => s
      | some first =>
          if first.expiresAt ≤ now then
            match pop FlashClaimExpiry.expiresAt s.expiries with
            | (none, _) => s
            | (some expired, rest) =>
                let claims :=
                  if Entries.get s.claims expired.nonce = some expired.expiresAt then
                    Entries.erase s.claims expired.nonce
                  else s.claims
                purgeExpired now fuel { s with claims, expiries := rest }
          else s

def claimProcessFlash (nonce : Nonce) (expiresAt now : Int) (s : ProcessFlash Nonce) :
    ClaimAnswer × ProcessFlash Nonce :=
  let s := purgeExpired now s.expiries.length s
  if expiresAt ≤ now then (.replayed, s)
  else if (Entries.get s.claims nonce).isSome then (.replayed, s)
  else if s.capacity ≤ s.claims.length then (.full, s)
  else
    (.claimed, { s with claims := Entries.set s.claims nonce expiresAt }.pushFlashClaimExpiry ⟨nonce, expiresAt⟩)

/-! ## Section 2: The invariant -/

/-- The heap is one, and holds the entries of the map. -/
structure Inv (s : ProcessFlash Nonce) : Prop where
  ordered : Ordered FlashClaimExpiry.expiresAt s.expiries
  entries : (s.expiries.map fun e => (e.nonce, e.expiresAt)).Perm s.claims
  nodup : (s.claims.map Prod.fst).Nodup
  size : s.claims.length ≤ s.capacity

theorem inv_reset (capacity : Nat) : Inv (reset capacity : ProcessFlash Nonce) :=
  ⟨nofun, .refl _, List.nodup_nil, Nat.zero_le _⟩

/-- Erasing the entry of a claim leaves the others. -/
theorem erase_perm {claims rest : List (Nonce × Int)} {nonce : Nonce} {expiresAt : Int}
    (hnodup : (claims.map Prod.fst).Nodup) (hperm : ((nonce, expiresAt) :: rest).Perm claims) :
    rest.Perm (Entries.erase claims nonce) := by
  have hkeys : (((nonce, expiresAt) :: rest).map Prod.fst).Nodup := (hperm.map Prod.fst).nodup_iff.mpr hnodup
  rw [List.map_cons, List.nodup_cons] at hkeys
  have hrest : rest.filter (·.1 != nonce) = rest := by
    rw [List.filter_eq_self]
    intro e he
    have hne : e.1 ≠ nonce := fun heq => hkeys.1 (List.mem_map.mpr ⟨e, he, heq⟩)
    simpa using hne
  have hfilter := hperm.filter (·.1 != nonce)
  rw [List.filter_cons_of_neg (by simp), hrest] at hfilter
  exact hfilter

/-- What a purge keeps, and what it leaves. -/
structure Purged (now : Int) (s s' : ProcessFlash Nonce) : Prop where
  inv : Inv s'
  capacity : s'.capacity = s.capacity
  live : ∀ e ∈ s'.claims, now < e.2
  kept : s'.claims.Perm (s.claims.filter (now < ·.2))

theorem purgeExpired_spec {now : Int} {fuel : Nat} {s : ProcessFlash Nonce} (h : Inv s)
    (hfuel : s.expiries.length ≤ fuel) : Purged now s (purgeExpired now fuel s) := by
  induction fuel generalizing s with
  | zero =>
    have hnil : s.claims = [] := by
      have hlen := h.entries.length_eq
      rw [List.length_map, Nat.le_zero.mp hfuel] at hlen
      exact List.length_eq_zero_iff.mp hlen.symm
    refine ⟨h, rfl, ?_, ?_⟩
    · simp [purgeExpired, hnil]
    · simp [purgeExpired, hnil]
  | succ fuel ih =>
    have hdone : (∀ e ∈ s.expiries, now < e.expiresAt) → Purged now s s := by
      intro hlive
      have hclaims : ∀ e ∈ s.claims, now < e.2 := by
        intro e he
        obtain ⟨entry, hentry, rfl⟩ := List.mem_map.mp (h.entries.mem_iff.mpr he)
        exact hlive entry hentry
      refine ⟨h, rfl, hclaims, ?_⟩
      rw [List.filter_eq_self.mpr (by simpa using hclaims)]
    rw [purgeExpired]
    cases hhead : s.expiries.head? with
    | none =>
      have hnil : s.expiries = [] := List.head?_eq_none_iff.mp hhead
      exact hdone (by simp [hnil])
    | some first =>
      dsimp only
      split
      · rename_i hexpired
        cases hpop : pop FlashClaimExpiry.expiresAt s.expiries with
        | mk popped rest =>
          have hpopped : popped = some first := by
            have hne : s.expiries.getLast? ≠ none := by
              intro hnone
              rw [List.getLast?_eq_none_iff.mp hnone] at hhead
              cases hhead
            obtain ⟨last, hlast⟩ := Option.ne_none_iff_exists'.mp hne
            have hfst := congrArg Prod.fst hpop
            simp only [pop, hlast] at hfst
            exact hfst.symm.trans hhead
          subst hpopped
          have hperm := perm_pop FlashClaimExpiry.expiresAt hpop
          have hentries : ((first.nonce, first.expiresAt) :: rest.map fun e => (e.nonce, e.expiresAt)).Perm s.claims :=
            (hperm.map fun e : FlashClaimExpiry Nonce => (e.nonce, e.expiresAt)).symm.trans h.entries
          have hget : Entries.get s.claims first.nonce = some first.expiresAt :=
            (Entries.get_eq_some h.nodup).mpr (hentries.mem_iff.mp List.mem_cons_self)
          have herase := erase_perm h.nodup hentries
          have hlen : s.expiries.length = rest.length + 1 := hperm.length_eq
          have hordered : Ordered FlashClaimExpiry.expiresAt rest := by
            have := ordered_pop h.ordered
            rwa [hpop] at this
          have hinv : Inv { s with claims := Entries.erase s.claims first.nonce, expiries := rest } := by
            refine ⟨hordered, herase, Entries.nodup_erase h.nodup _, ?_⟩
            have hle : (Entries.erase s.claims first.nonce).length ≤ s.claims.length := List.length_filter_le _ _
            exact Nat.le_trans hle h.size
          simp only [hget, if_true]
          have hnext := ih hinv (by simp only; omega)
          refine ⟨hnext.inv, hnext.capacity, hnext.live, hnext.kept.trans ?_⟩
          -- the entry that was popped is not among the live ones
          have hfilter := (hentries.filter (now < ·.2))
          rw [List.filter_cons_of_neg (by simpa using hexpired)] at hfilter
          exact (herase.symm.filter _).trans hfilter
      · rename_i hlater
        refine hdone fun e he => ?_
        have hle : first.expiresAt ≤ e.expiresAt := head_le h.ordered hhead he
        omega

/-- What a call does: it forgets the expired claims, and a claim that succeeds is
    new and is added. -/
structure Claims (nonce : Nonce) (expiresAt now : Int) (s : ProcessFlash Nonce)
    (answer : ClaimAnswer) (s' : ProcessFlash Nonce) : Prop where
  inv : Inv s'
  capacity : s'.capacity = s.capacity
  keeps : ∀ e ∈ s.claims, now < e.2 → e ∈ s'.claims
  added : answer = .claimed → (nonce, expiresAt) ∈ s'.claims ∧ ∀ e ∈ s.claims, now < e.2 → e.1 ≠ nonce
  full : answer = .full → (s.claims.filter (now < ·.2)).length = s.capacity

theorem claimProcessFlash_spec {s : ProcessFlash Nonce} (h : Inv s) (nonce : Nonce) (expiresAt now : Int) :
    Claims nonce expiresAt now s (claimProcessFlash nonce expiresAt now s).1
      (claimProcessFlash nonce expiresAt now s).2 := by
  have hpurged : Purged now s (purgeExpired now s.expiries.length s) := purgeExpired_spec h (Nat.le_refl _)
  unfold claimProcessFlash
  generalize purgeExpired now s.expiries.length s = p at hpurged
  have hkeeps : ∀ e ∈ s.claims, now < e.2 → e ∈ p.claims := fun e he hlive =>
    hpurged.kept.mem_iff.mpr (List.mem_filter.mpr ⟨he, by simpa using hlive⟩)
  dsimp only
  split
  · exact ⟨hpurged.inv, hpurged.capacity, hkeeps, (by rintro ⟨⟩), (by rintro ⟨⟩)⟩
  · split
    · exact ⟨hpurged.inv, hpurged.capacity, hkeeps, (by rintro ⟨⟩), (by rintro ⟨⟩)⟩
    · rename_i hnew
      have hnone : Entries.get p.claims nonce = none := by simpa using hnew
      split
      · rename_i hfull
        refine ⟨hpurged.inv, hpurged.capacity, hkeeps, (by rintro ⟨⟩), fun _ => ?_⟩
        rw [← hpurged.kept.length_eq, ← hpurged.capacity]
        exact Nat.le_antisymm hpurged.inv.size hfull
      · rename_i hroom
        have hset := Entries.set_of_get_none hnone expiresAt
        have hperm := perm_push FlashClaimExpiry.expiresAt p.expiries ⟨nonce, expiresAt⟩
        refine ⟨⟨ordered_push hpurged.inv.ordered _, ?_, Entries.nodup_set hpurged.inv.nodup _ _, ?_⟩,
          hpurged.capacity, ?_, fun _ => ⟨?_, ?_⟩, (by rintro ⟨⟩)⟩
        · show ((push FlashClaimExpiry.expiresAt p.expiries ⟨nonce, expiresAt⟩).map _).Perm
            (Entries.set p.claims nonce expiresAt)
          rw [hset]
          refine (hperm.map _).trans ?_
          exact (hpurged.inv.entries.cons _).trans (List.perm_append_singleton _ _).symm
        · show (Entries.set p.claims nonce expiresAt).length ≤ p.capacity
          rw [hset, List.length_append, List.length_singleton]
          omega
        · intro e he hlive
          show e ∈ Entries.set p.claims nonce expiresAt
          rw [hset]
          exact List.mem_append_left _ (hkeeps e he hlive)
        · show (nonce, expiresAt) ∈ Entries.set p.claims nonce expiresAt
          rw [hset]
          exact List.mem_append_right _ (List.mem_singleton_self _)
        · intro e he hlive heq
          have hget := (Entries.get_eq_some hpurged.inv.nodup).mpr (hkeeps e he hlive)
          rw [heq, hnone] at hget
          cases hget

end ProcessFlash

/-! ## Section 3: Runs -/

structure ClaimCall (Nonce : Type) where
  nonce : Nonce
  expiresAt : Int
  now : Int

namespace ProcessFlash

def answer (s : ProcessFlash Nonce) (call : ClaimCall Nonce) : ClaimAnswer :=
  (claimProcessFlash call.nonce call.expiresAt call.now s).1

/-- The state after the calls. -/
def after (s : ProcessFlash Nonce) (calls : List (ClaimCall Nonce)) : ProcessFlash Nonce :=
  calls.foldl (fun s call => (claimProcessFlash call.nonce call.expiresAt call.now s).2) s

theorem inv_after {s : ProcessFlash Nonce} (h : Inv s) (calls : List (ClaimCall Nonce)) : Inv (s.after calls) := by
  induction calls generalizing s with
  | nil => exact h
  | cons call rest ih => exact ih (claimProcessFlash_spec h _ _ _).inv

theorem capacity_after {s : ProcessFlash Nonce} (h : Inv s) (calls : List (ClaimCall Nonce)) :
    (s.after calls).capacity = s.capacity := by
  induction calls generalizing s with
  | nil => rfl
  | cons call rest ih =>
    have hspec := claimProcessFlash_spec h call.nonce call.expiresAt call.now
    exact (ih hspec.inv).trans hspec.capacity

/-- A claim is held until it expires. -/
theorem mem_after {s : ProcessFlash Nonce} (h : Inv s) {calls : List (ClaimCall Nonce)} {e : Nonce × Int}
    (he : e ∈ s.claims) (hclock : ∀ call ∈ calls, call.now < e.2) : e ∈ (s.after calls).claims := by
  induction calls generalizing s with
  | nil => exact he
  | cons call rest ih =>
    have hspec := claimProcessFlash_spec h call.nonce call.expiresAt call.now
    exact ih hspec.inv (hspec.keeps e he (hclock call List.mem_cons_self))
      fun later hlater => hclock later (List.mem_cons_of_mem _ hlater)

/-- The guard over all calls: the heap and the map agree and are bounded, no claim
    succeeds again before it expires, and `full` is said of a full guard. -/
theorem flash_one_use (capacity : Nat) (calls : List (ClaimCall Nonce))
    (hclock : calls.Pairwise fun call later => call.now ≤ later.now) :
    Inv ((reset capacity).after calls) ∧ ((reset capacity).after calls).claims.length ≤ capacity ∧
    ∀ before call rest, calls = before ++ call :: rest →
      (((reset capacity).after before).answer call = .claimed →
        ∀ between later others, rest = between ++ later :: others → later.nonce = call.nonce →
          later.now < call.expiresAt →
            ((reset capacity).after (before ++ call :: between)).answer later ≠ .claimed) ∧
      (((reset capacity).after before).answer call = .full →
        (((reset capacity).after before).claims.filter (call.now < ·.2)).length = capacity) := by
  have hinv : Inv (reset capacity : ProcessFlash Nonce) := inv_reset capacity
  refine ⟨inv_after hinv calls, (inv_after hinv calls).size.trans_eq (capacity_after hinv calls), ?_⟩
  rintro before call rest rfl
  have hbefore := inv_after hinv before
  have hspec := claimProcessFlash_spec hbefore call.nonce call.expiresAt call.now
  constructor
  · rintro hclaimed between later others rfl hnonce hlater hagain
    have hsplit : (reset capacity).after (before ++ call :: between) =
        (claimProcessFlash call.nonce call.expiresAt call.now ((reset capacity).after before)).2.after between := by
      simp [after]
    have hrest := (List.pairwise_cons.mp (List.pairwise_append.mp hclock).2.1).2
    have hmid : ∀ c ∈ between, c.now < call.expiresAt := by
      intro c hc
      have hle := (List.pairwise_append.mp hrest).2.2 c hc later List.mem_cons_self
      omega
    have hheld := mem_after hspec.inv (hspec.added hclaimed).1 hmid
    rw [hsplit] at hagain
    have hlast := claimProcessFlash_spec (inv_after hspec.inv between) later.nonce later.expiresAt later.now
    exact (hlast.added hagain).2 _ hheld hlater hnonce.symm
  · intro hfull
    rw [hspec.full hfull, capacity_after hinv]
    rfl

/-- A nonce that comes twice with different expiries. -/
theorem flash_one_use_twice :
    ((reset 2).after [⟨"a", 10, 0⟩]).answer ⟨"a", 20, 5⟩ ≠ .claimed := by
  have h := flash_one_use 2 [⟨"a", 10, 0⟩, ⟨"a", 20, 5⟩] (by decide)
  exact (h.2.2 [] ⟨"a", 10, 0⟩ [⟨"a", 20, 5⟩] rfl).1 (by decide) [] ⟨"a", 20, 5⟩ [] rfl rfl (by decide)

end ProcessFlash

end Cossack.Framework.Flash
