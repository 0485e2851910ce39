import Mathlib.Data.List.Nodup
import Mathlib.Data.List.Perm.Subperm

/-! # Leases

    A ledger hands out claims on keys.  A claim has a fresh token, the number of
    the attempt and the time its lease runs out; a key is claimed again when the
    lease has run out or the owner has released it, unless it was closed.  The
    owner of a claim does its work at most once, but nothing makes it do so
    before the lease runs out.

    The ledger is a function of the log of actions, newest first.  This file
    says what a legal log is and what follows of it. -/

namespace Leases

variable {K W : Type} [DecidableEq K]

/-! ## Section 1: Logs -/

structure Claim where
  token : Nat
  attempt : Nat
  expiresAt : Nat

/-- What the ledger has under a key: a claim, a time before which it is not
    claimed again, or the end of it. -/
inductive Entry where
  | running (claim : Claim)
  | waiting (deadline attempt : Nat)
  | closed (attempt : Nat)

inductive Action (K W : Type) where
  | claimed (key : K) (now : Nat) (claim : Claim)
  | released (key : K) (token : Nat) (entry : Entry)
  | worked (key : K) (work : W) (claim : Claim) (time : Nat)

/-- What the last claim or release of a key left. -/
def ledger : List (Action K W) → K → Option Entry
  | [], _ => none
  | .claimed k _ claim :: log, key => if k = key then some (.running claim) else ledger log key
  | .released k _ entry :: log, key => if k = key then some entry else ledger log key
  | .worked .. :: log, key => ledger log key

/-- The key may be claimed for the time being, as the given attempt. -/
def Claimable (entry : Option Entry) (now attempt : Nat) : Prop :=
  match entry with
  | none => attempt = 1
  | some (.running claim) => claim.expiresAt ≤ now ∧ attempt = claim.attempt + 1
  | some (.waiting deadline last) => deadline ≤ now ∧ attempt = last + 1
  | some (.closed _) => False

/-- What the owner of a claim may leave behind. -/
def Follows (claim : Claim) (entry : Entry) : Prop :=
  entry = .closed claim.attempt ∨ ∃ deadline, entry = .waiting deadline claim.attempt

/-- The logs that may have come about by a point in time, when work of a kind is
    done up to `limit` attempts. -/
inductive Legal (limit : W → Nat) : Nat → List (Action K W) → Prop
  | nil (t : Nat) : Legal limit t []
  | tick {t t' : Nat} {log : List (Action K W)} : Legal limit t log → t ≤ t' → Legal limit t' log
  | claim {t now : Nat} {log : List (Action K W)} {key : K} {claim : Claim} : Legal limit t log →
      now ≤ t → (∀ k n c, .claimed k n c ∈ log → c.token ≠ claim.token) →
      Claimable (ledger log key) now claim.attempt → Legal limit t (.claimed key now claim :: log)
  | release {t : Nat} {log : List (Action K W)} {key : K} {claim : Claim} {entry : Entry} :
      Legal limit t log → ledger log key = some (.running claim) → Follows claim entry →
      Legal limit t (.released key claim.token entry :: log)
  | work {t now : Nat} {log : List (Action K W)} {key : K} {claim : Claim} {w : W} :
      Legal limit t log → .claimed key now claim ∈ log →
      (∀ entry, .released key claim.token entry ∉ log) →
      (∀ k w' c n, .worked k w' c n ∈ log → c.token ≠ claim.token) → claim.attempt ≤ limit w →
      Legal limit t (.worked key w claim t :: log)

variable {limit : W → Nat} {t : Nat} {log : List (Action K W)}

/-! ## Section 2: The ledger of a legal log -/

/-- A claim in the ledger was made. -/
theorem claimed_of_running (h : Legal limit t log) {key : K} {claim : Claim}
    (hrun : ledger log key = some (.running claim)) : ∃ now, .claimed key now claim ∈ log := by
  induction h with
  | nil => cases hrun
  | tick _ _ ih => exact ih hrun
  | @claim t now log k c _ _ _ _ ih =>
    unfold ledger at hrun
    by_cases hkey : k = key
    · rw [if_pos hkey] at hrun
      cases hrun
      exact ⟨now, hkey ▸ List.mem_cons_self⟩
    · rw [if_neg hkey] at hrun
      obtain ⟨n, hn⟩ := ih hrun
      exact ⟨n, List.mem_cons_of_mem _ hn⟩
  | @release t log k c entry _ _ hfollows ih =>
    unfold ledger at hrun
    by_cases hkey : k = key
    · rw [if_pos hkey] at hrun
      rcases hfollows with rfl | ⟨_, rfl⟩ <;> cases hrun
    · rw [if_neg hkey] at hrun
      obtain ⟨n, hn⟩ := ih hrun
      exact ⟨n, List.mem_cons_of_mem _ hn⟩
  | work _ _ _ _ _ ih =>
    obtain ⟨n, hn⟩ := ih hrun
    exact ⟨n, List.mem_cons_of_mem _ hn⟩

/-- A claim that was not released is in the ledger until its lease has run out. -/
theorem running_or_expired (h : Legal limit t log) {key : K} {now : Nat} {claim : Claim}
    (hc : .claimed key now claim ∈ log) (hheld : ∀ entry, .released key claim.token entry ∉ log) :
    ledger log key = some (.running claim) ∨ claim.expiresAt ≤ t := by
  induction h with
  | nil => cases hc
  | tick _ hle ih => exact (ih hc hheld).imp_right fun hexp => Nat.le_trans hexp hle
  | @claim t now' log k c hlegal hnow hfresh hclaimable ih =>
    rcases List.mem_cons.mp hc with heq | hmem
    · cases heq
      exact .inl (if_pos rfl)
    · have hbefore := ih hmem fun entry hr => hheld entry (List.mem_cons_of_mem _ hr)
      rcases hbefore with hrun | hexp
      · by_cases hkey : k = key
        · -- claimed anew, so the lease had run out
          rw [hkey, hrun] at hclaimable
          exact .inr (Nat.le_trans hclaimable.1 hnow)
        · left
          show (if k = key then some (.running c) else ledger log key) = _
          rw [if_neg hkey]
          exact hrun
      · exact .inr hexp
  | @release t log k c entry hlegal hrunning _ ih =>
    have hmem := (List.mem_cons.mp hc).resolve_left (nofun)
    rcases ih hmem fun entry hr => hheld entry (List.mem_cons_of_mem _ hr) with hrun | hexp
    · left
      show (if k = key then some entry else ledger log key) = _
      by_cases hkey : k = key
      · -- the owner of the claim would have released it
        rw [hkey, hrun] at hrunning
        cases hrunning
        exact absurd List.mem_cons_self (hkey ▸ hheld entry)
      · rw [if_neg hkey]
        exact hrun
    · exact .inr hexp
  | work _ _ _ _ _ ih =>
    exact ih ((List.mem_cons.mp hc).resolve_left (nofun))
      fun entry hr => hheld entry (List.mem_cons_of_mem _ hr)

/-- A closed key stays closed. -/
theorem closed_of_released (h : Legal limit t log) {key : K} {token attempt : Nat}
    (hr : .released key token (.closed attempt) ∈ log) : ledger log key = some (.closed attempt) := by
  induction h with
  | nil => cases hr
  | tick _ _ ih => exact ih hr
  | @claim t now log k c _ _ _ hclaimable ih =>
    have hclosed := ih ((List.mem_cons.mp hr).resolve_left (nofun))
    show (if k = key then some (.running c) else ledger log key) = _
    by_cases hkey : k = key
    · rw [hkey, hclosed] at hclaimable
      exact hclaimable.elim
    · rw [if_neg hkey]
      exact hclosed
  | @release t log k c entry _ hrunning _ ih =>
    show (if k = key then some entry else ledger log key) = _
    rcases List.mem_cons.mp hr with heq | hmem
    · cases heq
      exact if_pos rfl
    · by_cases hkey : k = key
      · rw [hkey, ih hmem] at hrunning
        cases hrunning
      · rw [if_neg hkey]
        exact ih hmem
  | work _ _ _ _ _ ih => exact ih ((List.mem_cons.mp hr).resolve_left (nofun))

/-- Whatever was released was claimed. -/
theorem claimed_of_released (h : Legal limit t log) {key : K} {token : Nat} {entry : Entry}
    (hr : .released key token entry ∈ log) :
    ∃ now claim, .claimed key now claim ∈ log ∧ claim.token = token := by
  induction h with
  | nil => cases hr
  | tick _ _ ih => exact ih hr
  | claim _ _ _ _ ih =>
    obtain ⟨now, c, hc, htoken⟩ := ih ((List.mem_cons.mp hr).resolve_left (nofun))
    exact ⟨now, c, List.mem_cons_of_mem _ hc, htoken⟩
  | @release t log k claim entry' hlegal hrunning _ ih =>
    rcases List.mem_cons.mp hr with heq | hmem
    · cases heq
      obtain ⟨now, hc⟩ := claimed_of_running hlegal hrunning
      exact ⟨now, claim, List.mem_cons_of_mem _ hc, rfl⟩
    · obtain ⟨now, c, hc, htoken⟩ := ih hmem
      exact ⟨now, c, List.mem_cons_of_mem _ hc, htoken⟩
  | work _ _ _ _ _ ih =>
    obtain ⟨now, c, hc, htoken⟩ := ih ((List.mem_cons.mp hr).resolve_left (nofun))
    exact ⟨now, c, List.mem_cons_of_mem _ hc, htoken⟩

/-- Work is done under a claim. -/
theorem claimed_of_worked (h : Legal limit t log) {key : K} {w : W} {claim : Claim} {time : Nat}
    (hw : .worked key w claim time ∈ log) : ∃ now, .claimed key now claim ∈ log := by
  induction h with
  | nil => cases hw
  | tick _ _ ih => exact ih hw
  | claim _ _ _ _ ih =>
    obtain ⟨now, hc⟩ := ih ((List.mem_cons.mp hw).resolve_left (nofun))
    exact ⟨now, List.mem_cons_of_mem _ hc⟩
  | release _ _ _ ih =>
    obtain ⟨now, hc⟩ := ih ((List.mem_cons.mp hw).resolve_left (nofun))
    exact ⟨now, List.mem_cons_of_mem _ hc⟩
  | @work t now log k c w' _ hclaimed _ _ _ ih =>
    rcases List.mem_cons.mp hw with heq | hmem
    · cases heq
      exact ⟨now, List.mem_cons_of_mem _ hclaimed⟩
    · obtain ⟨now', hc⟩ := ih hmem
      exact ⟨now', List.mem_cons_of_mem _ hc⟩

/-! ## Section 3: Attempts -/

/-- The claims of a key, newest first. -/
def claims (log : List (Action K W)) (key : K) : List Claim :=
  log.filterMap fun
    | .claimed k _ claim => if k = key then some claim else none
    | _ => none

def Entry.attempt : Entry → Nat
  | .running claim => claim.attempt
  | .waiting _ attempt => attempt
  | .closed attempt => attempt

theorem mem_claims {key : K} {claim : Claim} :
    claim ∈ claims log key ↔ ∃ now, .claimed key now claim ∈ log := by
  unfold claims
  rw [List.mem_filterMap]
  constructor
  · rintro ⟨action, hmem, heq⟩
    cases action with
    | claimed k now c =>
      simp only at heq
      by_cases hkey : k = key
      · rw [if_pos hkey] at heq
        cases heq
        exact ⟨now, hkey ▸ hmem⟩
      · rw [if_neg hkey] at heq
        cases heq
    | _ => cases heq
  · rintro ⟨now, hmem⟩
    exact ⟨_, hmem, if_pos rfl⟩

/-- The last attempt has the highest number; there was one if any claim was. -/
theorem attempts_le (h : Legal limit t log) (key : K) :
    (ledger log key = none → claims log key = []) ∧
      ∀ entry, ledger log key = some entry → 1 ≤ entry.attempt ∧
        ∀ claim ∈ claims log key, 1 ≤ claim.attempt ∧ claim.attempt ≤ entry.attempt := by
  induction h with
  | nil => exact ⟨fun _ => rfl, fun entry hentry => (nomatch hentry)⟩
  | tick _ _ ih => exact ih
  | @claim t now log k c _ _ _ hclaimable ih =>
    unfold claims
    rw [List.filterMap_cons]
    unfold ledger
    by_cases hkey : k = key
    · simp only [hkey, if_true]
      refine ⟨fun hnone => (nomatch hnone), fun entry hentry => ?_⟩
      cases hentry
      show 1 ≤ c.attempt ∧ ∀ claim ∈ c :: claims log key, _
      rw [hkey] at hclaimable
      cases hledger : ledger log key with
      | none =>
        rw [hledger] at hclaimable
        have hone : c.attempt = 1 := hclaimable
        rw [ih.1 hledger]
        refine ⟨by omega, fun claim hclaim => ?_⟩
        cases List.mem_singleton.mp hclaim
        exact ⟨by omega, Nat.le_refl _⟩
      | some entry =>
        obtain ⟨hone, hall⟩ := ih.2 entry hledger
        have hnext : c.attempt = entry.attempt + 1 := by
          rw [hledger] at hclaimable
          cases entry with
          | running claim => exact hclaimable.2
          | waiting deadline attempt => exact hclaimable.2
          | closed attempt => exact hclaimable.elim
        refine ⟨by omega, fun claim hclaim => ?_⟩
        rcases List.mem_cons.mp hclaim with rfl | hold
        · exact ⟨by omega, Nat.le_refl _⟩
        · obtain ⟨hpos, hle⟩ := hall claim hold
          show 1 ≤ claim.attempt ∧ claim.attempt ≤ c.attempt
          omega
    · simp only [if_neg hkey]
      exact ih
  | @release t log k c entry _ hrunning hfollows ih =>
    unfold claims
    rw [List.filterMap_cons]
    unfold ledger
    by_cases hkey : k = key
    · simp only [hkey, if_true]
      refine ⟨fun hnone => (nomatch hnone), fun entry' hentry => ?_⟩
      cases hentry
      rw [hkey] at hrunning
      have hattempt : entry.attempt = c.attempt := by
        rcases hfollows with rfl | ⟨_, rfl⟩ <;> rfl
      rw [hattempt]
      exact ih.2 _ hrunning
    · simp only [if_neg hkey]
      exact ih
  | work _ _ _ _ _ ih => exact ih

/-- Each claim of a key is a higher attempt than all before it. -/
theorem attempts_increase (h : Legal limit t log) (key : K) :
    (claims log key).Pairwise fun newer older => older.attempt < newer.attempt := by
  induction h with
  | nil => exact .nil
  | tick _ _ ih => exact ih
  | @claim t now log k c hlegal _ _ hclaimable ih =>
    unfold claims
    rw [List.filterMap_cons]
    by_cases hkey : k = key
    · simp only [hkey, if_true]
      refine List.pairwise_cons.mpr ⟨fun older holder => ?_, ih⟩
      obtain ⟨hnone, hsome⟩ := attempts_le hlegal key
      rw [hkey] at hclaimable
      cases hledger : ledger log key with
      | none =>
        have hempty : older ∈ ([] : List Claim) := hnone hledger ▸ holder
        cases hempty
      | some entry =>
        have hle := ((hsome entry hledger).2 older holder).2
        rw [hledger] at hclaimable
        cases entry with
        | running claim => exact Nat.lt_of_le_of_lt hle (hclaimable.2 ▸ Nat.lt_succ_self _)
        | waiting deadline attempt => exact Nat.lt_of_le_of_lt hle (hclaimable.2 ▸ Nat.lt_succ_self _)
        | closed attempt => exact hclaimable.elim
    · simp only [if_neg hkey]
      exact ih
  | release _ _ _ ih => exact ih
  | work _ _ _ _ _ ih => exact ih

/-! ## Section 4: What a legal log promises -/

/-- What an action finds in the log before it. -/
def Guard (limit : W → Nat) (t : Nat) (log : List (Action K W)) : Action K W → Prop
  | .claimed key now claim =>
      now ≤ t ∧ (∀ k n c, .claimed k n c ∈ log → c.token ≠ claim.token) ∧
        Claimable (ledger log key) now claim.attempt
  | .released key token entry =>
      ∃ claim, claim.token = token ∧ ledger log key = some (.running claim) ∧ Follows claim entry
  | .worked key w claim time =>
      time = t ∧ (∃ now, .claimed key now claim ∈ log) ∧
        (∀ entry, .released key claim.token entry ∉ log) ∧
        (∀ k w' c n, .worked k w' c n ∈ log → c.token ≠ claim.token) ∧ claim.attempt ≤ limit w

theorem legal_cons {action : Action K W} (h : Legal limit t (action :: log)) :
    ∃ t', t' ≤ t ∧ Legal limit t' log ∧ Guard limit t' log action := by
  generalize hlog : action :: log = whole at h
  induction h with
  | nil => cases hlog
  | tick _ hle ih =>
    obtain ⟨t', hle', hlegal, hguard⟩ := ih hlog
    exact ⟨t', Nat.le_trans hle' hle, hlegal, hguard⟩
  | @claim t now log key claim hlegal hnow hfresh hclaimable _ =>
    cases hlog
    exact ⟨t, Nat.le_refl t, hlegal, hnow, hfresh, hclaimable⟩
  | @release t log key claim entry hlegal hrunning hfollows _ =>
    cases hlog
    exact ⟨t, Nat.le_refl t, hlegal, claim, rfl, hrunning, hfollows⟩
  | @work t now log key claim w hlegal hclaimed hheld hfirst hlimit _ =>
    cases hlog
    exact ⟨t, Nat.le_refl t, hlegal, rfl, ⟨now, hclaimed⟩, hheld, hfirst, hlimit⟩

theorem legal_suffix {later : List (Action K W)} (h : Legal limit t (later ++ log)) :
    ∃ t', t' ≤ t ∧ Legal limit t' log := by
  induction later generalizing t with
  | nil => exact ⟨t, Nat.le_refl t, h⟩
  | cons action later ih =>
    obtain ⟨t', hle, hlegal, -⟩ := legal_cons h
    obtain ⟨t'', hle', hsuffix⟩ := ih hlegal
    exact ⟨t'', Nat.le_trans hle' hle, hsuffix⟩

/-- A claim that was made and not released. -/
def Held (log : List (Action K W)) (key : K) (claim : Claim) : Prop :=
  (∃ now, .claimed key now claim ∈ log) ∧ ∀ entry, .released key claim.token entry ∉ log

/-- At most one claim of a key has a lease that has not run out. -/
theorem held_unique (h : Legal limit t log) {key : K} {claim claim' : Claim}
    (hc : Held log key claim) (hc' : Held log key claim') (hlease : t < claim.expiresAt)
    (hlease' : t < claim'.expiresAt) : claim = claim' := by
  obtain ⟨⟨now, hclaimed⟩, hheld⟩ := hc
  obtain ⟨⟨now', hclaimed'⟩, hheld'⟩ := hc'
  have hrun := (running_or_expired h hclaimed hheld).resolve_right (Nat.not_le.mpr hlease)
  have hrun' := (running_or_expired h hclaimed' hheld').resolve_right (Nat.not_le.mpr hlease')
  rw [hrun] at hrun'
  cases hrun'
  rfl

/-- Work that is done after the key was closed is done on a lease that has run
    out. -/
theorem worked_late {later earlier : List (Action K W)} {key : K} {w : W} {claim : Claim}
    {time token attempt : Nat} (h : Legal limit t (later ++ .worked key w claim time :: earlier))
    (hclosed : .released key token (.closed attempt) ∈ earlier) : claim.expiresAt ≤ time := by
  obtain ⟨t', -, hsuffix⟩ := legal_suffix h
  obtain ⟨t'', -, hearlier, rfl, ⟨now, hclaimed⟩, hheld, -⟩ := legal_cons hsuffix
  rcases running_or_expired hearlier hclaimed hheld with hrun | hexp
  · rw [closed_of_released hearlier hclosed] at hrun
    cases hrun
  · exact hexp

/-- A token whose claim was released, or was followed by another claim. -/
def Stale (log : List (Action K W)) (key : K) (token : Nat) : Prop :=
  ∃ later earlier now claim, log = later ++ .claimed key now claim :: earlier ∧
    claim.token = token ∧
    ((∃ n c, .claimed key n c ∈ later) ∨ ∃ entry, .released key token entry ∈ later)

/-- The claim in the ledger is the last thing that happened to its key. -/
theorem running_last {later earlier : List (Action K W)} {key : K} {now : Nat} {claim c : Claim}
    (h : Legal limit t (later ++ .claimed key now claim :: earlier))
    (hrun : ledger (later ++ .claimed key now claim :: earlier) key = some (.running c))
    (htoken : c.token = claim.token) :
    (∀ n c', .claimed key n c' ∉ later) ∧ ∀ token entry, .released key token entry ∉ later := by
  induction later generalizing t with
  | nil => exact ⟨fun n c' hmem => (nomatch hmem), fun token entry hmem => (nomatch hmem)⟩
  | cons action later ih =>
    obtain ⟨t', -, hlegal, hguard⟩ := legal_cons h
    cases action with
    | claimed k n c' =>
      change (if k = key then some (Entry.running c') else ledger _ key) = _ at hrun
      by_cases hkey : k = key
      · -- its token is fresh
        rw [if_pos hkey] at hrun
        cases hrun
        exact absurd htoken.symm (hguard.2.1 key now claim (by simp))
      · rw [if_neg hkey] at hrun
        obtain ⟨hclaims, hreleases⟩ := ih hlegal hrun
        refine ⟨fun n' c'' hmem => ?_, fun token entry hmem => ?_⟩
        · rcases List.mem_cons.mp hmem with heq | hold
          · cases heq
            exact hkey rfl
          · exact hclaims n' c'' hold
        · exact hreleases token entry ((List.mem_cons.mp hmem).resolve_left (nofun))
    | released k token entry =>
      change (if k = key then some entry else ledger _ key) = _ at hrun
      by_cases hkey : k = key
      · rw [if_pos hkey] at hrun
        cases hrun
        obtain ⟨c', -, -, hfollows⟩ := hguard
        rcases hfollows with heq | ⟨_, heq⟩ <;> cases heq
      · rw [if_neg hkey] at hrun
        obtain ⟨hclaims, hreleases⟩ := ih hlegal hrun
        refine ⟨fun n' c'' hmem => ?_, fun token' entry' hmem => ?_⟩
        · exact hclaims n' c'' ((List.mem_cons.mp hmem).resolve_left (nofun))
        · rcases List.mem_cons.mp hmem with heq | hold
          · cases heq
            exact hkey rfl
          · exact hreleases token' entry' hold
    | worked k w c' time =>
      obtain ⟨hclaims, hreleases⟩ := ih hlegal hrun
      exact ⟨fun n' c'' hmem => hclaims n' c'' ((List.mem_cons.mp hmem).resolve_left (nofun)),
        fun token entry hmem => hreleases token entry ((List.mem_cons.mp hmem).resolve_left (nofun))⟩

/-- The ledger has no claim with a stale token. -/
theorem stale_not_running (h : Legal limit t log) {key : K} {token : Nat}
    (hstale : Stale log key token) {claim : Claim}
    (hrun : ledger log key = some (.running claim)) : claim.token ≠ token := by
  obtain ⟨later, earlier, now, old, rfl, rfl, hlater⟩ := hstale
  intro htoken
  obtain ⟨hclaims, hreleases⟩ := running_last h hrun htoken
  rcases hlater with ⟨n, c, hmem⟩ | ⟨entry, hmem⟩
  · exact hclaims n c hmem
  · exact hreleases _ entry hmem

/-! ## Section 5: How often work is done -/

section works

variable [DecidableEq W]

/-- The claims under which a kind of work was done for a key. -/
def works (log : List (Action K W)) (key : K) (w : W) : List Claim :=
  log.filterMap fun
    | .worked k w' claim _ => if k = key ∧ w' = w then some claim else none
    | _ => none

theorem mem_works {key : K} {w : W} {claim : Claim} :
    claim ∈ works log key w ↔ ∃ time, .worked key w claim time ∈ log := by
  unfold works
  rw [List.mem_filterMap]
  constructor
  · rintro ⟨action, hmem, heq⟩
    cases action with
    | worked k w' c time =>
      simp only at heq
      by_cases hkey : k = key ∧ w' = w
      · obtain ⟨rfl, rfl⟩ := hkey
        rw [if_pos ⟨rfl, rfl⟩] at heq
        cases heq
        exact ⟨time, hmem⟩
      · rw [if_neg hkey] at heq
        cases heq
    | _ => cases heq
  · rintro ⟨time, hmem⟩
    exact ⟨_, hmem, if_pos ⟨rfl, rfl⟩⟩

/-- Work is done under claims, up to the limit, and once for each attempt. -/
theorem works_attempts (h : Legal limit t log) (key : K) (w : W) :
    (∀ claim ∈ works log key w, claim ∈ claims log key ∧ claim.attempt ≤ limit w) ∧
      ((works log key w).map Claim.attempt).Nodup := by
  induction h with
  | nil => exact ⟨fun claim hmem => (nomatch hmem), List.nodup_nil⟩
  | tick _ _ ih => exact ih
  | claim _ _ _ _ ih =>
    refine ⟨fun c hmem => ⟨?_, (ih.1 c hmem).2⟩, ih.2⟩
    obtain ⟨n, hn⟩ := mem_claims.mp (ih.1 c hmem).1
    exact mem_claims.mpr ⟨n, List.mem_cons_of_mem _ hn⟩
  | release _ _ _ ih => exact ih
  | @work t now log k c w' hlegal hclaimed hheld hfirst hlimit ih =>
    have hclaims : claims (.worked k w' c t :: log) key = claims log key := rfl
    rw [hclaims]
    by_cases hkey : k = key ∧ w' = w
    · obtain ⟨rfl, rfl⟩ := hkey
      have hworks : works (.worked k w' c t :: log) k w' = c :: works log k w' := by
        unfold works
        rw [List.filterMap_cons]
        simp
      rw [hworks]
      have hmem := mem_claims.mpr ⟨now, hclaimed⟩
      refine ⟨fun claim hclaim => ?_, ?_⟩
      · rcases List.mem_cons.mp hclaim with rfl | hold
        · exact ⟨hmem, hlimit⟩
        · exact ih.1 claim hold
      · rw [List.map_cons, List.nodup_cons]
        refine ⟨fun hdup => ?_, ih.2⟩
        obtain ⟨other, hother, hattempt⟩ := List.mem_map.mp hdup
        -- claims of a key with one attempt number are one claim
        have hsame : other = c := by
          have hdistinct : ((claims log k).map Claim.attempt).Nodup :=
            List.pairwise_map.mpr ((attempts_increase hlegal k).imp fun hlt => (Nat.ne_of_lt hlt).symm)
          exact List.inj_on_of_nodup_map hdistinct (ih.1 other hother).1 hmem hattempt
        obtain ⟨time, hworked⟩ := mem_works.mp hother
        exact hfirst _ _ _ _ hworked (hsame ▸ rfl)
    · have hworks : works (.worked k w' c t :: log) key w = works log key w := by
        unfold works
        rw [List.filterMap_cons]
        simp only [if_neg hkey]
      rw [hworks]
      exact ih

theorem works_length_le (h : Legal limit t log) (key : K) (w : W) :
    (works log key w).length ≤ limit w := by
  obtain ⟨hclaims, hnodup⟩ := works_attempts h key w
  have hrange : (works log key w).map Claim.attempt ⊆ List.range' 1 (limit w) := by
    intro attempt hmem
    obtain ⟨claim, hclaim, rfl⟩ := List.mem_map.mp hmem
    obtain ⟨hclaimed, hlimit⟩ := hclaims claim hclaim
    obtain ⟨hnone, hsome⟩ := attempts_le h key
    have hpos : 1 ≤ claim.attempt := by
      cases hledger : ledger log key with
      | none =>
        rw [hnone hledger] at hclaimed
        cases hclaimed
      | some entry => exact ((hsome entry hledger).2 claim hclaimed).1
    rw [List.mem_range'_1]
    omega
  have hle := (hnodup.subperm hrange).length_le
  rwa [List.length_map, List.length_range'] at hle

end works

end Leases
