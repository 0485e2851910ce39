import Cossack.Core.JobRuntime
import Mathlib

/-! # What the job ledger guarantees

    Every run of the consumer writes a legal log of leases, over both stores;
    the guarantees are those of legal logs.  A delivery whose lease has run out
    is not stopped from invoking the handler, so that a handler may run after
    another delivery completed the job. -/

namespace Cossack.Core.Jobs

open Runs
open Leases (Action Claim Claimable Entry Follows Held Legal Stale claims ledger works)

variable {R : Type}

/-! ## Section 1: The guarantees -/

/-- What holds in every state that a run reaches. -/
structure LedgerSafe (rt : JobRuntime) (store : JobStore R) (s : JobState R) : Prop where
  /-- The handler of a job is invoked at most `maxAttempts` times for a key. -/
  bounded : ∀ job key, (works s.log key job).length ≤ rt.limit job
  /-- After the key was completed or failed, only a claim whose lease has run out
      still invokes it. -/
  afterOutcome : ∀ later earlier job key claim time,
    s.log = later ++ .worked key job claim time :: earlier →
    (∃ token attempt, .released key token (.closed attempt) ∈ earlier) → claim.expiresAt ≤ time
  /-- One claim at most has a lease that has not run out. -/
  exclusive : ∀ key claim claim', Held s.log key claim → Held s.log key claim' →
    s.clock < claim.expiresAt → s.clock < claim'.expiresAt → claim = claim'
  /-- Attempts increase with each claim; the newest claim comes first. -/
  increasing : ∀ key, (claims s.log key).Pairwise fun newer older => older.attempt < newer.attempt
  /-- With a stale token `complete` and `fail` give `false`. -/
  fenced : ∀ key token, Stale s.log key token → ∀ record, s.records key = some record →
    (∀ now, store.complete token now record = none) ∧
    ∀ failure, failure.Timely → store.fail token failure record = .ok none
  /-- The failures deliveries record are such that `fail` accepts them. -/
  timely : ∀ delivery ∈ s.deliveries, ∀ claim failure, delivery.phase = .failing claim failure →
    failure.Timely

/-! ## Section 2: The invariant -/

/-- The claim a delivery holds. -/
def Phase.claim? : Phase → Option Claim
  | .acquired claim | .parsing claim | .handling claim | .cleaning claim .. | .completing claim _
  | .failing claim _ => some claim
  | _ => none

/-- The handler is still to be invoked. -/
def Phase.Before : Phase → Prop
  | .acquired _ | .parsing _ => True
  | _ => False

/-- What a delivery may rely on. -/
structure Owns (rt : JobRuntime) (clock : Nat) (log : List (Action String String))
    (delivery : Delivery) : Prop where
  claimed : ∀ claim, delivery.phase.claim? = some claim → ∃ now, .claimed delivery.key now claim ∈ log
  held : ∀ claim, delivery.phase.claim? = some claim →
    ∀ entry, .released delivery.key claim.token entry ∉ log
  before : ∀ claim, delivery.phase.claim? = some claim → delivery.phase.Before →
    ∀ key job other time, .worked key job other time ∈ log → other.token ≠ claim.token
  attempts : ∀ claim, delivery.phase = .parsing claim → claim.attempt ≤ rt.limit delivery.job
  past : ∀ options, delivery.phase = .claiming options → options.now ≤ clock
  timely : ∀ claim failure, delivery.phase = .failing claim failure → failure.Timely

structure LedgerInv (rt : JobRuntime) (store : JobStore R) (s : JobState R) : Prop where
  legal : Legal rt.limit s.clock s.log
  records : ∀ key, (s.records key).map store.entry = ledger s.log key
  fresh : ∀ key now claim, .claimed key now claim ∈ s.log → claim.token < s.uuids
  owns : ∀ delivery ∈ s.deliveries, Owns rt s.clock s.log delivery
  distinct : ∀ (i j : Nat) (d d' : Delivery) (claim claim' : Claim), s.deliveries[i]? = some d →
    s.deliveries[j]? = some d' → d.phase.claim? = some claim → d'.phase.claim? = some claim' →
    claim.token = claim'.token → i = j

/-- A delivery that holds no claim, and does not make one, relies on nothing. -/
theorem Owns.idle {rt : JobRuntime} {clock : Nat} {log : List (Action String String)}
    {delivery : Delivery} (hclaim : delivery.phase.claim? = none)
    (hpast : ∀ options, delivery.phase = .claiming options → options.now ≤ clock) :
    Owns rt clock log delivery where
  claimed claim h := by rw [hclaim] at h; cases h
  held claim h := by rw [hclaim] at h; cases h
  before claim h := by rw [hclaim] at h; cases h
  attempts claim h := by rw [h] at hclaim; cases hclaim
  past := hpast
  timely claim failure h := by rw [h] at hclaim; cases hclaim

theorem Owns.tick {rt : JobRuntime} {clock clock' : Nat} {log : List (Action String String)}
    {delivery : Delivery} (h : Owns rt clock log delivery) (hle : clock ≤ clock') :
    Owns rt clock' log delivery :=
  { h with past := fun options hphase => Nat.le_trans (h.past options hphase) hle }

/-- An action under another token changes nothing for a delivery. -/
theorem Owns.cons {rt : JobRuntime} {clock : Nat} {log : List (Action String String)}
    {delivery : Delivery} (h : Owns rt clock log delivery) {action : Action String String}
    (hreleased : ∀ claim, delivery.phase.claim? = some claim → ∀ key entry,
      action ≠ .released key claim.token entry)
    (hworked : ∀ claim, delivery.phase.claim? = some claim → ∀ key job other time,
      action = .worked key job other time → other.token ≠ claim.token) :
    Owns rt clock (action :: log) delivery where
  claimed claim hclaim := by
    obtain ⟨now, hmem⟩ := h.claimed claim hclaim
    exact ⟨now, List.mem_cons_of_mem _ hmem⟩
  held claim hclaim entry hmem := by
    rcases List.mem_cons.mp hmem with heq | hold
    · exact hreleased claim hclaim _ _ heq.symm
    · exact h.held claim hclaim entry hold
  before claim hclaim hbefore key job other time hmem := by
    rcases List.mem_cons.mp hmem with heq | hold
    · exact hworked claim hclaim key job other time heq.symm
    · exact h.before claim hclaim hbefore key job other time hold
  attempts := h.attempts
  past := h.past
  timely := h.timely

/-- The retry deadline `settle` computes lies within a day. -/
theorem settle_spec (definition : JobDefinition) (now : Nat) (claim : Claim)
    (failure : Option JobFailureCode) (permanent handlerCompleted : Bool) :
    (settle definition now claim failure permanent handlerCompleted).claim? = some claim ∧
      (∀ claim', settle definition now claim failure permanent handlerCompleted ≠ .parsing claim') ∧
      ¬ (settle definition now claim failure permanent handlerCompleted).Before ∧
      (∀ options, settle definition now claim failure permanent handlerCompleted ≠
        .claiming options) ∧
      ∀ claim' recorded, settle definition now claim failure permanent handlerCompleted =
        .failing claim' recorded → recorded.Timely := by
  cases failure with
  | none => exact ⟨rfl, fun _ => nofun, id, fun _ => nofun, fun _ _ => nofun⟩
  | some failure =>
    refine ⟨rfl, fun _ => nofun, id, fun _ => nofun, fun claim' recorded heq => ?_⟩
    have hdelay := definition.delay.2
    cases heq
    unfold JobFailure.Timely
    simp only
    split <;> omega

section step

variable {rt : JobRuntime} {store : JobStore R} {s : JobState R}

theorem LedgerInv.initial : LedgerInv rt store (JobState.initial : JobState R) where
  legal := .nil 0
  records _ := rfl
  fresh _ _ _ h := by cases h
  owns _ h := by cases h
  distinct _ _ _ _ _ _ h := by cases h

/-- A delivery enters another phase, perhaps with a new claim; the others keep
    what they rely on. -/
theorem LedgerInv.put (h : LedgerInv rt store s) {i : Nat} {delivery : Delivery} {phase : Phase}
    (hi : s.deliveries[i]? = some delivery) {uuids : Nat} {records : String → Option R}
    {log : List (Action String String)} (hlegal : Legal rt.limit s.clock log)
    (hrecords : ∀ key, (records key).map store.entry = ledger log key)
    (hfresh : ∀ key now claim, .claimed key now claim ∈ log → claim.token < uuids)
    (hown : Owns rt s.clock log { delivery with phase := phase })
    (hclaim : ∀ claim, phase.claim? = some claim →
      delivery.phase.claim? = some claim ∨ s.uuids ≤ claim.token)
    (hothers : ∀ (j : Nat) (d : Delivery), j ≠ i → s.deliveries[j]? = some d →
      Owns rt s.clock log d) :
    LedgerInv rt store
      { s with
        uuids := uuids, records := records, log := log
        deliveries := s.deliveries.set i { delivery with phase := phase } } where
  legal := hlegal
  records := hrecords
  fresh := hfresh
  owns d hd := by
    obtain ⟨j, hj⟩ := List.mem_iff_getElem?.mp hd
    by_cases hij : i = j
    · subst hij
      rw [List.getElem?_set_self (List.getElem?_eq_some_iff.mp hi).1] at hj
      cases hj
      exact hown
    · rw [List.getElem?_set_ne hij] at hj
      exact hothers j d (Ne.symm hij) hj
  distinct := by
    -- the new claim is the old one, or newer than every claim in the log
    have hnew : ∀ (j : Nat) (d : Delivery) (claim claim' : Claim), i ≠ j →
        phase.claim? = some claim → s.deliveries[j]? = some d → d.phase.claim? = some claim' →
        claim.token ≠ claim'.token := by
      intro j d claim claim' hij hc hj hc' htoken
      rcases hclaim claim hc with hold | hfresh'
      · exact hij (h.distinct i j _ _ _ _ hi hj hold hc' htoken)
      · obtain ⟨now, hmem⟩ := (h.owns d (List.mem_of_getElem? hj)).claimed claim' hc'
        have hlt := h.fresh _ _ _ hmem
        omega
    intro j k d d' claim claim' hj hk hc hc' htoken
    have hlength := (List.getElem?_eq_some_iff.mp hi).1
    by_cases hij : i = j <;> by_cases hik : i = k
    · exact hij.symm.trans hik
    · subst hij
      rw [List.getElem?_set_self hlength] at hj
      rw [List.getElem?_set_ne hik] at hk
      cases hj
      exact absurd htoken (hnew k d' claim claim' hik hc hk hc')
    · subst hik
      rw [List.getElem?_set_self hlength] at hk
      rw [List.getElem?_set_ne hij] at hj
      cases hk
      exact absurd htoken.symm (hnew j d claim' claim hij hc' hj hc)
    · rw [List.getElem?_set_ne hij] at hj
      rw [List.getElem?_set_ne hik] at hk
      exact h.distinct j k d d' claim claim' hj hk hc hc' htoken

/-- The same without a new action. -/
theorem LedgerInv.go (h : LedgerInv rt store s) {i : Nat} {delivery : Delivery} {phase : Phase}
    (hi : s.deliveries[i]? = some delivery)
    (hown : Owns rt s.clock s.log { delivery with phase := phase })
    (hclaim : ∀ claim, phase.claim? = some claim → delivery.phase.claim? = some claim) :
    LedgerInv rt store (s.put i delivery phase) :=
  h.put hi h.legal h.records h.fresh hown (fun claim hc => .inl (hclaim claim hc))
    fun _ _ _ hj => h.owns _ (List.mem_of_getElem? hj)

/-- A delivery that is done relies on nothing. -/
theorem LedgerInv.finish (h : LedgerInv rt store s) {i : Nat} {delivery : Delivery}
    (hi : s.deliveries[i]? = some delivery) (result : Option JobResult) :
    LedgerInv rt store (s.put i delivery (.done result)) :=
  h.go hi (.idle rfl fun _ => nofun) fun _ => nofun

/-- A delivery goes on with its claim, past the handler. -/
theorem Owns.settle {clock : Nat} {log : List (Action String String)} {delivery : Delivery}
    (h : Owns rt clock log delivery) {claim : Claim} (hclaim : delivery.phase.claim? = some claim)
    (definition : JobDefinition) (failure : Option JobFailureCode)
    (permanent handlerCompleted : Bool) :
    Owns rt clock log
      { delivery with phase := settle definition clock claim failure permanent handlerCompleted } := by
  obtain ⟨hsame, hparsing, hbefore, hclaiming, htimely⟩ :=
    settle_spec definition clock claim failure permanent handlerCompleted
  refine ⟨fun c hc => ?_, fun c hc => ?_, fun c _ hb => absurd hb hbefore,
    fun c hc => absurd hc (hparsing c), fun o ho => absurd ho (hclaiming o), htimely⟩
  · rw [hsame] at hc
    cases hc
    exact h.claimed claim hclaim
  · rw [hsame] at hc
    cases hc
    exact h.held claim hclaim

/-- A step between two awaits, without the store. -/
theorem LedgerInv.advance (h : LedgerInv rt store s) {i : Nat} {delivery : Delivery}
    (hi : s.deliveries[i]? = some delivery) {definition : JobDefinition}
    (hjob : rt.jobs delivery.job = some definition) {outcome : Outcome} {phase : Phase}
    {actions : List (Action String String)}
    (hadvance : advance definition s.clock delivery.job delivery.key delivery.phase outcome =
      some (phase, actions)) :
    LedgerInv rt store { s.put i delivery phase with log := actions ++ s.log } := by
  have howns := h.owns delivery (List.mem_of_getElem? hi)
  have hlimit : rt.limit delivery.job = definition.maxAttempts.getD 3 := by
    rw [JobRuntime.limit, hjob]
    rfl
  cases hphase : delivery.phase with
  | acquired claim =>
    have hclaim : delivery.phase.claim? = some claim := by rw [hphase]; rfl
    rw [hphase] at hadvance
    unfold Jobs.advance at hadvance
    simp only at hadvance
    split at hadvance
    · cases hadvance
      exact h.finish hi none
    · split at hadvance
      · cases hadvance
        refine h.go hi (howns.settle hclaim ..) fun c hc => ?_
        rw [(settle_spec ..).1] at hc
        exact hc ▸ hclaim
      · next hattempt =>
        cases hadvance
        refine h.go hi ⟨fun c hc => ?_, fun c hc => ?_, fun c hc _ => ?_, fun c hc => ?_,
          fun _ => nofun, fun _ _ => nofun⟩ fun c hc => ?_
        · cases hc
          exact howns.claimed claim hclaim
        · cases hc
          exact howns.held claim hclaim
        · cases hc
          exact howns.before claim hclaim (by rw [hphase]; trivial)
        · cases hc
          show claim.attempt ≤ rt.limit delivery.job
          omega
        · cases hc
          exact hclaim
  | parsing claim =>
    have hclaim : delivery.phase.claim? = some claim := by rw [hphase]; rfl
    have hbefore := howns.before claim hclaim (by rw [hphase]; trivial)
    rw [hphase] at hadvance
    unfold Jobs.advance at hadvance
    simp only at hadvance
    split at hadvance
    · -- the handler is invoked
      cases hadvance
      obtain ⟨now, hclaimed⟩ := howns.claimed claim hclaim
      have hheld := howns.held claim hclaim
      refine h.put hi (h.legal.work hclaimed hheld hbefore (howns.attempts claim hphase))
        h.records ?_ ?_ (fun c hc => .inl ?_) ?_
      · intro key now' c hmem
        exact h.fresh key now' c ((List.mem_cons.mp hmem).resolve_left (nofun))
      · refine ⟨fun c hc => ?_, fun c hc entry hmem => ?_, fun _ _ hb => hb.elim, fun _ => nofun,
          fun _ => nofun, fun _ _ => nofun⟩
        · cases hc
          exact ⟨now, List.mem_cons_of_mem _ hclaimed⟩
        · cases hc
          exact hheld entry ((List.mem_cons.mp hmem).resolve_left (nofun))
      · cases hc
        exact hclaim
      · intro j d hj hd
        apply (h.owns d (List.mem_of_getElem? hd)).cons
        · exact fun c hc key entry => nofun
        · intro c hc key job other time heq
          cases heq
          exact fun htoken => hj (h.distinct j i d delivery c claim hd hi hc hclaim htoken.symm)
    · cases hadvance
      refine h.go hi (howns.settle hclaim ..) fun c hc => ?_
      rw [(settle_spec ..).1] at hc
      exact hc ▸ hclaim
  | handling claim =>
    have hclaim : delivery.phase.claim? = some claim := by rw [hphase]; rfl
    rw [hphase] at hadvance
    have hcleaning : actions = [] ∧ ∃ failure permanent completed,
        phase = .cleaning claim failure permanent completed := by
      cases outcome <;> cases hadvance <;> exact ⟨rfl, _, _, _, rfl⟩
    obtain ⟨rfl, failure, permanent, completed, rfl⟩ := hcleaning
    refine h.go hi ⟨fun c hc => ?_, fun c hc => ?_, fun _ _ hb => hb.elim, fun _ => nofun,
      fun _ => nofun, fun _ _ => nofun⟩ fun c hc => ?_
    · cases hc
      exact howns.claimed claim hclaim
    · cases hc
      exact howns.held claim hclaim
    · cases hc
      exact hclaim
  | cleaning claim failure permanent completed =>
    have hclaim : delivery.phase.claim? = some claim := by rw [hphase]; rfl
    rw [hphase] at hadvance
    cases hadvance
    refine h.go hi (howns.settle hclaim ..) fun c hc => ?_
    rw [(settle_spec ..).1] at hc
    exact hc ▸ hclaim
  | _ =>
    rw [hphase] at hadvance
    cases hadvance

/-- The owner of a running claim leaves another entry under its key. -/
theorem LedgerInv.release (h : LedgerInv rt store s) {i : Nat} {delivery : Delivery}
    (hi : s.deliveries[i]? = some delivery) {claim running : Claim}
    (hclaim : delivery.phase.claim? = some claim) {record record' : R}
    (hrecord : s.records delivery.key = some record) (htoken : running.token = claim.token)
    (hrunning : store.entry record = .running running) (hfollows : Follows running (store.entry record'))
    (result : Option JobResult) :
    LedgerInv rt store
      { (s.store delivery.key (some record')).put i delivery (.done result) with
        log := .released delivery.key claim.token (store.entry record') :: s.log } := by
  have hledger : ledger s.log delivery.key = some (.running running) := by
    rw [← h.records, hrecord, Option.map_some, hrunning]
  rw [← htoken]
  refine h.put hi (h.legal.release hledger hfollows) ?_ ?_ (.idle rfl fun _ => nofun)
    (fun _ => nofun) ?_
  · intro key
    show (Function.update s.records delivery.key (some record') key).map store.entry =
      if delivery.key = key then some (store.entry record') else ledger s.log key
    by_cases hkey : delivery.key = key
    · rw [if_pos hkey, hkey, Function.update_self]
      rfl
    · rw [if_neg hkey, Function.update_of_ne (Ne.symm hkey)]
      exact h.records key
  · intro key now c hmem
    exact h.fresh key now c ((List.mem_cons.mp hmem).resolve_left (nofun))
  · intro j d hj hd
    apply (h.owns d (List.mem_of_getElem? hd)).cons
    · intro c hc key entry heq
      have htoken' : running.token = c.token := (Action.released.inj heq).2.1
      exact hj (h.distinct j i d delivery c claim hd hi hc hclaim (htoken'.symm.trans htoken))
    · exact fun c hc key job other time => nofun

theorem LedgerInv.resume (h : LedgerInv rt store s) (hstore : store.Lawful) {i : Nat}
    {delivery : Delivery} (hi : s.deliveries[i]? = some delivery) {definition : JobDefinition}
    (hjob : rt.jobs delivery.job = some definition) {outcome : Outcome} {s' : JobState R}
    (hstep : store.resume s i delivery definition outcome = some s') : LedgerInv rt store s' := by
  have howns := h.owns delivery (List.mem_of_getElem? hi)
  cases hphase : delivery.phase with
  | claiming options =>
    unfold JobStore.resume at hstep
    simp only [hphase] at hstep
    have hmore : ∀ key now claim, Action.claimed key now claim ∈ s.log → claim.token < s.uuids + 1 :=
      fun key now claim hmem => Nat.lt_succ_of_lt (h.fresh key now claim hmem)
    have hsame : ∀ record, record = s.records delivery.key →
        Function.update s.records delivery.key record = s.records := by
      rintro record rfl
      exact Function.update_eq_self _ _
    rcases hstore.claim delivery.key options s.uuids (s.records delivery.key) with
      ⟨attempt, hclaimable, hanswer, hentry⟩ | ⟨hrecord, hanswer⟩
    · -- the record is claimed under a fresh token
      simp only [hanswer] at hstep
      cases hstep
      rw [h.records] at hclaimable
      have hfresh : ∀ k n c, Action.claimed k n c ∈ s.log → c.token ≠ s.uuids := fun k n c hmem =>
        Nat.ne_of_lt (h.fresh k n c hmem)
      refine h.put hi (h.legal.claim (howns.past options hphase) hfresh hclaimable) ?_ ?_ ?_
        (fun c hc => .inr ?_) ?_
      · intro key
        show (Function.update s.records delivery.key _ key).map store.entry =
          if delivery.key = key then _ else ledger s.log key
        by_cases hkey : delivery.key = key
        · rw [if_pos hkey, ← hkey, Function.update_self]
          exact hentry
        · rw [if_neg hkey, Function.update_of_ne (Ne.symm hkey)]
          exact h.records key
      · intro key now c hmem
        rcases List.mem_cons.mp hmem with heq | hold
        · cases heq
          exact Nat.lt_succ_self _
        · exact hmore key now c hold
      · refine ⟨fun c hc => ?_, fun c hc entry hmem => ?_, fun c hc _ key job other time hmem => ?_,
          fun _ => nofun, fun _ => nofun, fun _ _ => nofun⟩
        · cases hc
          exact ⟨options.now, List.mem_cons_self⟩
        · cases hc
          -- whatever was released was claimed before
          obtain ⟨now, c, hclaimed, htoken⟩ := Leases.claimed_of_released h.legal
            ((List.mem_cons.mp hmem).resolve_left (nofun))
          exact absurd htoken (hfresh _ _ _ hclaimed)
        · cases hc
          obtain ⟨now, hclaimed⟩ := Leases.claimed_of_worked h.legal
            ((List.mem_cons.mp hmem).resolve_left (nofun))
          exact hfresh _ _ _ hclaimed
      · cases hc
        exact Nat.le_refl _
      · intro j d hj hd
        exact (h.owns d (List.mem_of_getElem? hd)).cons (fun _ _ _ _ => nofun)
          fun _ _ _ _ _ _ => nofun
    · -- the record stays as it is
      have hstill : ∀ phase, phase.claim? = none → (∀ options, phase ≠ .claiming options) →
          LedgerInv rt store { s.store delivery.key
              (store.claim delivery.key options s.uuids (s.records delivery.key)).1 with
            uuids := s.uuids + 1
            deliveries := s.deliveries.set i { delivery with phase := phase } } := by
        intro phase hclaim hclaiming
        have hrecords := hsame _ hrecord
        refine h.put hi h.legal ?_ hmore (.idle hclaim fun o ho => absurd ho (hclaiming o)) ?_
          fun j d _ hd => h.owns d (List.mem_of_getElem? hd)
        · intro key
          show (Function.update s.records delivery.key _ key).map store.entry = _
          rw [hrecords]
          exact h.records key
        · intro c hc
          rw [hclaim] at hc
          cases hc
      cases hresult : (store.claim delivery.key options s.uuids (s.records delivery.key)).2 with
      | none =>
        simp only [hresult] at hstep
        cases hstep
        exact hstill _ rfl fun _ => nofun
      | some answer =>
        simp only [hresult] at hstep
        cases answer with
        | acquired token attempt => exact absurd hresult (hanswer token attempt)
        | _ =>
          cases hstep
          exact hstill _ rfl fun _ => nofun
  | reading options =>
    unfold JobStore.resume at hstep
    simp only [hphase] at hstep
    cases hstep
    exact h.finish hi _
  | completing claim now =>
    have hclaim : delivery.phase.claim? = some claim := by rw [hphase]; rfl
    unfold JobStore.resume at hstep
    simp only [hphase] at hstep
    cases hrecord : s.records delivery.key with
    | none =>
      simp only [hrecord, Option.bind_none] at hstep
      cases hstep
      exact h.finish hi _
    | some record =>
      simp only [hrecord, Option.bind_some] at hstep
      cases hcomplete : store.complete claim.token now record with
      | none =>
        simp only [hcomplete] at hstep
        cases hstep
        exact h.finish hi _
      | some record' =>
        simp only [hcomplete] at hstep
        cases hstep
        obtain ⟨running, htoken, hrunning, hclosed⟩ := hstore.complete _ _ _ _ hcomplete
        exact h.release hi hclaim hrecord htoken hrunning (.inl hclosed) _
  | failing claim failure =>
    have hclaim : delivery.phase.claim? = some claim := by rw [hphase]; rfl
    unfold JobStore.resume at hstep
    simp only [hphase] at hstep
    cases hrecord : s.records delivery.key with
    | none =>
      simp only [hrecord, Option.elim_none] at hstep
      cases hstep
      exact h.finish hi _
    | some record =>
      simp only [hrecord, Option.elim_some] at hstep
      cases hfail : store.fail claim.token failure record with
      | error e =>
        simp only [hfail] at hstep
        cases hstep
        exact h.finish hi _
      | ok result =>
        cases result with
        | none =>
          simp only [hfail] at hstep
          cases hstep
          exact h.finish hi _
        | some record' =>
          simp only [hfail] at hstep
          cases hstep
          obtain ⟨running, htoken, hrunning, hfollows⟩ := hstore.fail _ _ _ _ hfail
          exact h.release hi hclaim hrecord htoken hrunning hfollows _
  | _ =>
    unfold JobStore.resume at hstep
    simp only [hphase] at hstep
    obtain ⟨⟨phase, actions⟩, hadvance, rfl⟩ := Option.map_eq_some_iff.mp hstep
    exact h.advance hi hjob (hphase ▸ hadvance)

/-- A new delivery holds no claim yet. -/
theorem LedgerInv.deliver (h : LedgerInv rt store s) {delivery : Delivery}
    (hclaim : delivery.phase.claim? = none)
    (hpast : ∀ options, delivery.phase = .claiming options → options.now ≤ s.clock) :
    LedgerInv rt store { s with deliveries := s.deliveries ++ [delivery] } where
  legal := h.legal
  records := h.records
  fresh := h.fresh
  owns d hd := by
    rcases List.mem_append.mp hd with hold | hnew
    · exact h.owns d hold
    · cases List.mem_singleton.mp hnew
      exact .idle hclaim hpast
  distinct := by
    -- the last delivery does not count
    have hold : ∀ (i : Nat) (d : Delivery) (claim : Claim), (s.deliveries ++ [delivery])[i]? = some d →
        d.phase.claim? = some claim → s.deliveries[i]? = some d := by
      intro i d claim hi hc
      rw [List.getElem?_append] at hi
      split at hi
      · exact hi
      · cases List.mem_singleton.mp (List.mem_of_getElem? hi)
        rw [hclaim] at hc
        cases hc
    intro i j d d' claim claim' hi hj hc hc' htoken
    exact h.distinct i j d d' claim claim' (hold i d claim hi hc) (hold j d' claim' hj hc') hc hc' htoken

theorem LedgerInv.step (hstore : store.Lawful) (h : LedgerInv rt store s) {e : JobEvent}
    {s' : JobState R} (hstep : rt.step store s e = some s') : LedgerInv rt store s' := by
  cases e with
  | tick ms =>
    cases hstep
    have hle : s.clock ≤ s.clock + ms := Nat.le_add_right ..
    exact { h with
      legal := h.legal.tick hle
      owns := fun d hd => (h.owns d hd).tick hle }
  | deliver envelope =>
    cases hstep
    apply h.deliver
    · cases envelope with
      | none => rfl
      | some envelope =>
        obtain ⟨job, key⟩ := envelope
        cases hjob : rt.jobs job <;> simp only [hjob] <;> rfl
    · intro options hoptions
      cases envelope with
      | none => cases hoptions
      | some envelope =>
        obtain ⟨job, key⟩ := envelope
        simp only at hoptions
        cases hjob : rt.jobs job with
        | none =>
          rw [hjob] at hoptions
          cases hoptions
        | some definition =>
          rw [hjob] at hoptions
          cases hoptions
          exact Nat.le_refl _
  | crash i =>
    obtain ⟨delivery, hi, rfl⟩ := Option.map_eq_some_iff.mp hstep
    exact h.finish hi none
  | resume i outcome =>
    unfold JobRuntime.step at hstep
    cases hi : s.deliveries[i]? with
    | none =>
      simp only [hi] at hstep
      cases hstep
    | some delivery =>
      simp only [hi] at hstep
      cases hjob : rt.jobs delivery.job with
      | none =>
        simp only [hjob] at hstep
        cases hstep
      | some definition =>
        simp only [hjob] at hstep
        exact h.resume hstore hi hjob hstep

/-! ## Section 3: Every run -/

theorem LedgerInv.safe (hstore : store.Lawful) (h : LedgerInv rt store s) : LedgerSafe rt store s where
  bounded job key := Leases.works_length_le h.legal key job
  afterOutcome later earlier job key claim time hlog hclosed := by
    obtain ⟨token, attempt, hreleased⟩ := hclosed
    exact Leases.worked_late (hlog ▸ h.legal) hreleased
  exclusive key claim claim' hc hc' hlease hlease' := Leases.held_unique h.legal hc hc' hlease hlease'
  increasing key := Leases.attempts_increase h.legal key
  fenced key token hstale record hrecord := by
    have hstranger : ∀ claim, store.entry record = .running claim → claim.token ≠ token := by
      intro claim hrunning
      apply Leases.stale_not_running h.legal hstale
      rw [← h.records, hrecord, Option.map_some, hrunning]
    refine ⟨fun now => ?_, fun failure htimely => ?_⟩
    · cases hcomplete : store.complete token now record with
      | none => rfl
      | some record' =>
        obtain ⟨claim, htoken, hrunning, -⟩ := hstore.complete _ _ _ _ hcomplete
        exact absurd htoken (hstranger claim hrunning)
    · obtain ⟨result, hresult⟩ := hstore.timely token failure record htimely
      cases result with
      | none => exact hresult
      | some record' =>
        obtain ⟨claim, htoken, hrunning, -⟩ := hstore.fail _ _ _ _ hresult
        exact absurd htoken (hstranger claim hrunning)
  timely delivery hdelivery claim failure hphase := (h.owns delivery hdelivery).timely claim failure hphase

theorem run_safe (hstore : store.Lawful) (hrun : Run (rt.step store) Free .initial s) :
    LedgerSafe rt store s :=
  (hrun.invariant LedgerInv.initial fun _ _ _ hinv _ hstep => hinv.step hstore hstep).safe hstore

end step

/-- Whatever the deliveries, crashes, failures and clock advances, the ledger is
    safe, with the memory store and with the durable one. -/
theorem job_ledger_safe (rt : JobRuntime) :
    (∀ s, Run (rt.step memoryJobStore) Free .initial s → LedgerSafe rt memoryJobStore s) ∧
      ∀ s, Run (rt.step d1JobStore) Free .initial s → LedgerSafe rt d1JobStore s :=
  ⟨fun _ => run_safe memoryJobStore_lawful, fun _ => run_safe d1JobStore_lawful⟩

/-- One job, with a lease of one second. -/
def reports : JobRuntime where
  jobs name := if name = "report" then some ⟨none, none, by decide, by decide⟩ else none
  leaseMs := 1000
  lease := by decide

/-- A delivery claims the key and its lease runs out; another one completes the
    job; then the first invokes the handler. -/
def lateDelivery : List JobEvent :=
  [.deliver (some ("report", "key")), .resume 0 .ok, .resume 0 .ok, .tick 1000,
    .deliver (some ("report", "key")), .resume 1 .ok, .resume 1 .ok, .resume 1 .ok, .resume 1 .ok,
    .resume 1 .ok, .resume 1 .ok, .resume 0 .ok]

theorem handler_after_completion :
    (∃ s, exec (reports.step memoryJobStore) .initial lateDelivery = some s ∧
      s.log = [.worked "key" "report" ⟨0, 1, 1000⟩ 1000, .released "key" 1 (.closed 2),
        .worked "key" "report" ⟨1, 2, 2000⟩ 1000, .claimed "key" 1000 ⟨1, 2, 2000⟩,
        .claimed "key" 0 ⟨0, 1, 1000⟩]) ∧
    ∃ s, exec (reports.step d1JobStore) .initial lateDelivery = some s ∧
      s.log = [.worked "key" "report" ⟨0, 1, 1000⟩ 1000, .released "key" 1 (.closed 2),
        .worked "key" "report" ⟨1, 2, 2000⟩ 1000, .claimed "key" 1000 ⟨1, 2, 2000⟩,
        .claimed "key" 0 ⟨0, 1, 1000⟩] :=
  ⟨⟨_, rfl, rfl⟩, ⟨_, rfl, rfl⟩⟩

/-- The guarantees of that run. -/
theorem late_delivery_safe :
    (∃ s, exec (reports.step memoryJobStore) .initial lateDelivery = some s ∧
      LedgerSafe reports memoryJobStore s) ∧
    ∃ s, exec (reports.step d1JobStore) .initial lateDelivery = some s ∧
      LedgerSafe reports d1JobStore s := by
  have hmemory : ∃ s, exec (reports.step memoryJobStore) .initial lateDelivery = some s := ⟨_, rfl⟩
  have hd1 : ∃ s, exec (reports.step d1JobStore) .initial lateDelivery = some s := ⟨_, rfl⟩
  obtain ⟨s, hs⟩ := hmemory
  obtain ⟨s', hs'⟩ := hd1
  exact ⟨⟨s, hs, (job_ledger_safe reports).1 s (run_of_exec hs (admits_free _ _))⟩,
    s', hs', (job_ledger_safe reports).2 s' (run_of_exec hs' (admits_free _ _))⟩

end Cossack.Core.Jobs
