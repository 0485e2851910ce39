import Cossack.Core.NotificationRuntime
import Mathlib

/-! # No notification is sent twice through a provider that is not idempotent

    The marker of a send is stored before the provider is invoked and stays until
    the outcome is recorded.  The invariant says what the marker, with the token
    of the claim, tells about the sends that may have been accepted: those a
    delivery is about to make, and those that were made and not recorded as
    rejected. -/

namespace Cossack.Core.Notifications

open Runs

/-! ## Section 1: What is to be shown -/

/-- The send under a token ended with a rejection that may be retried, and that
    was recorded. -/
def Rejected (log : List Action) (id : String) (token : Nat) : Prop :=
  .ended id token (.rejected true) ∈ log ∧
    ∃ result, .recorded id token result ∈ log ∧ result.status = .queued ∧
      result.code = some .providerRejected

/-- When two sends of a notification are not both idempotent, the first was
    rejected before the second. -/
def Sends (log : List Action) : Prop :=
  ∀ later earlier id token idempotency message,
    log = later ++ .invoked id token idempotency message :: earlier →
    ∀ token' idempotency' message', .invoked id token' idempotency' message' ∈ earlier →
      (idempotency = .none ∨ idempotency' = .none) → Rejected earlier id token'

/-- After a send with an unknown outcome through a provider that is not
    idempotent, no provider is invoked, the notification is uncertain or about to
    be, and a claim after the lease makes it so. -/
def EndsUncertain (store : NotificationStore) (s : State) : Prop :=
  ∀ later earlier id token message, s.log = later ++ .ended id token .unknown :: earlier →
    .invoked id token .none message ∈ earlier →
    (∀ token' idempotency message', .invoked id token' idempotency message' ∉ later) ∧
      ∃ item, s.records id = some item ∧ (item.record.status = .unknown ∨
        item.record.status = .queued ∧ item.sending = some .none ∧
          ∀ options uuid, item.expiresAt ≤ options.now →
            ∃ closed, (store.claim 0 options uuid (some item)).1 = some closed ∧
              closed.record.status = .unknown)

/-! ## Section 2: Sends that may have been accepted -/

def Action.token : Action → Nat
  | .invoked _ token _ _ => token
  | .ended _ token _ => token
  | .recorded _ token _ => token

/-- A delivery is about to invoke a provider. -/
def Begun (s : State) (id : String) (token : Nat) (idempotency : Idempotency) : Prop :=
  ∃ d ∈ s.deliveries, d.id = id ∧ ∃ claim email recipient,
    d.phase = .begun claim email recipient ∧ claim.token = token ∧ email.idempotency = idempotency

/-- A send that is to come, or that was made and not recorded as rejected. -/
def Pending (s : State) (id : String) (token : Nat) (idempotency : Idempotency) : Prop :=
  Begun s id token idempotency ∨
    ((∃ message, .invoked id token idempotency message ∈ s.log) ∧ ¬ Rejected s.log id token)

/-- What the stored notification tells about them. -/
def Marked (s : State) (id : String) (item : StoredNotification) : Prop :=
  if item.record.status = .queued then
    match item.sending with
    | Option.none => ∀ token idempotency, ¬ Pending s id token idempotency
    | some .none => ∃ owner, item.token = some owner ∧
        ∀ token idempotency, Pending s id token idempotency → token = owner
    | some .provider => ∀ token idempotency, Pending s id token idempotency → idempotency = .provider
  else
    (∃ owner, ∀ token idempotency, Pending s id token idempotency → token = owner) ∨
      ∀ token idempotency, Pending s id token idempotency → idempotency = .provider

theorem Rejected.mono {log log' : List Action} {id : String} {token : Nat}
    (h : Rejected log id token) (hsub : log ⊆ log') : Rejected log' id token := by
  obtain ⟨hended, result, hrecorded, hresult⟩ := h
  exact ⟨hsub hended, result, hsub hrecorded, hresult⟩

/-- Only an invocation can break it. -/
theorem Sends.cons {log : List Action} (h : Sends log) {action : Action}
    (haction : ∀ id token idempotency message, action ≠ .invoked id token idempotency message) :
    Sends (action :: log) := by
  intro later earlier id token idempotency message hlog
  cases later with
  | nil => exact absurd (List.cons.inj hlog).1 (haction _ _ _ _)
  | cons _ rest => exact h rest earlier id token idempotency message (List.cons.inj hlog).2

theorem Marked.mono {s s' : State} {id : String} {item : StoredNotification} (h : Marked s id item)
    (hpending : ∀ token idempotency, Pending s' id token idempotency →
      Pending s id token idempotency) : Marked s' id item := by
  unfold Marked at h ⊢
  by_cases hstatus : item.record.status = .queued
  · rw [if_pos hstatus] at h ⊢
    cases hsending : item.sending with
    | none =>
      rw [hsending] at h
      exact fun token idempotency hp => h token idempotency (hpending _ _ hp)
    | some idempotency =>
      rw [hsending] at h
      cases idempotency with
      | none =>
        obtain ⟨owner, howner, hall⟩ := h
        exact ⟨owner, howner, fun token idempotency hp => hall token idempotency (hpending _ _ hp)⟩
      | provider => exact fun token idempotency hp => h token idempotency (hpending _ _ hp)
  · rw [if_neg hstatus] at h ⊢
    rcases h with ⟨owner, hall⟩ | hall
    · exact .inl ⟨owner, fun token idempotency hp => hall token idempotency (hpending _ _ hp)⟩
    · exact .inr fun token idempotency hp => hall token idempotency (hpending _ _ hp)

/-- In every state two pending sends are one, or both idempotent. -/
theorem Marked.pair {s : State} {id : String} {item : StoredNotification} (h : Marked s id item)
    {token token' : Nat} {idempotency idempotency' : Idempotency}
    (hp : Pending s id token idempotency) (hp' : Pending s id token' idempotency') :
    token = token' ∨ idempotency = .provider ∧ idempotency' = .provider := by
  unfold Marked at h
  split at h
  · split at h
    · exact absurd hp (h token idempotency)
    · obtain ⟨owner, -, hall⟩ := h
      exact .inl ((hall _ _ hp).trans (hall _ _ hp').symm)
    · exact .inr ⟨h _ _ hp, h _ _ hp'⟩
  · rcases h with ⟨owner, hall⟩ | hall
    · exact .inl ((hall _ _ hp).trans (hall _ _ hp').symm)
    · exact .inr ⟨hall _ _ hp, hall _ _ hp'⟩

/-! ## Section 3: What a delivery relies on -/

def Phase.claim? : Phase → Option Acquired
  | .preferring claim | .beginning claim .. | .begun claim .. | .sending claim _
  | .finishing claim _ => some claim
  | _ => Option.none

/-- While the claim is the current one, the marker is as the delivery left it,
    and a send is pending only under this claim if none was when it was made. -/
def Current (s : State) (id : String) (claim : Acquired) (marker : Option Idempotency) : Prop :=
  ∀ item, s.records id = some item → item.token = some claim.token → item.sending = marker ∧
    (claim.sending = Option.none → ∀ token idempotency, Pending s id token idempotency →
      token = claim.token)

/-- A send that is not idempotent: the claim is the current one still, or the
    notification was closed as uncertain. -/
def Sure (s : State) (id : String) (claim : Acquired) (idempotency : Idempotency) : Prop :=
  idempotency = .none → ∃ item, s.records id = some item ∧
    (item.token = some claim.token ∧ item.record.status = .queued ∨ item.record.status = .unknown)

def Uninvoked (log : List Action) (token : Nat) : Prop :=
  ∀ id idempotency message, .invoked id token idempotency message ∉ log

def Unended (log : List Action) (token : Nat) : Prop := ∀ id outcome, .ended id token outcome ∉ log

def Unrecorded (log : List Action) (token : Nat) : Prop := ∀ id result, .recorded id token result ∉ log

/-- What a delivery relies on before it set the marker. -/
structure Early (s : State) (id : String) (claim : Acquired) : Prop where
  marker : claim.sending ≠ some .none
  uninvoked : Uninvoked s.log claim.token
  unended : Unended s.log claim.token
  unrecorded : Unrecorded s.log claim.token
  current : Current s id claim claim.sending

/-- What it relies on from the marker on. -/
structure Late (s : State) (id : String) (claim : Acquired) (idempotency : Idempotency) : Prop where
  marker : claim.sending ≠ some .none
  unrecorded : Unrecorded s.log claim.token
  current : Current s id claim (some idempotency)
  sure : Sure s id claim idempotency

def Owns (s : State) (d : Delivery) : Prop :=
  match d.phase with
  | .claiming .. | .done => True
  | .preferring claim => Early s d.id claim
  | .beginning claim email _ _ =>
      Early s d.id claim ∧ (claim.sending = some .provider → email.idempotency = .provider)
  | .begun claim email _ =>
      Late s d.id claim email.idempotency ∧ Uninvoked s.log claim.token ∧ Unended s.log claim.token
  | .sending claim email =>
      Late s d.id claim email.idempotency ∧ Unended s.log claim.token ∧
        ∃ message, .invoked d.id claim.token email.idempotency message ∈ s.log
  | .finishing claim result =>
      (Early s d.id claim ∧ (claim.sending = some .provider → result.status = .queued →
        result.code = some .deliveryUnknown)) ∨
      ∃ email outcome now, Late s d.id claim email.idempotency ∧
        result = afterSend d.runtime now claim email outcome ∧
        .ended d.id claim.token outcome ∈ s.log ∧
        ∃ message, .invoked d.id claim.token email.idempotency message ∈ s.log

/-- What a step leaves to a delivery that it is not a step of. -/
structure Keeps (s s' : State) (id : String) (token : Nat) : Prop where
  grows : s.log ⊆ s'.log
  foreign : ∀ action ∈ s'.log, action ∈ s.log ∨ action.token ≠ token
  current : ∀ item, s'.records id = some item → item.token = some token →
    s.records id = some item ∧ ∀ t p, Pending s' id t p → Pending s id t p
  sure : ∀ item, s.records id = some item →
    (item.token = some token ∧ item.record.status = .queued ∧ item.sending = some .none) ∨
      item.record.status = .unknown →
    ∃ item', s'.records id = some item' ∧
      (item'.token = some token ∧ item'.record.status = .queued ∨ item'.record.status = .unknown)

section keeps

variable {s s' : State} {id : String} {claim : Acquired}

theorem Current.keep {marker : Option Idempotency} (h : Current s id claim marker)
    (hk : Keeps s s' id claim.token) : Current s' id claim marker := by
  intro item hitem htoken
  obtain ⟨hbefore, hpending⟩ := hk.current item hitem htoken
  obtain ⟨hmarker, hall⟩ := h item hbefore htoken
  exact ⟨hmarker, fun hnone token idempotency hp => hall hnone token idempotency (hpending _ _ hp)⟩

theorem Uninvoked.keep (h : Uninvoked s.log claim.token) (hk : Keeps s s' id claim.token) :
    Uninvoked s'.log claim.token := fun _ _ _ hmem =>
  (hk.foreign _ hmem).elim (h _ _ _) fun hne => hne rfl

theorem Unended.keep (h : Unended s.log claim.token) (hk : Keeps s s' id claim.token) :
    Unended s'.log claim.token := fun _ _ hmem =>
  (hk.foreign _ hmem).elim (h _ _) fun hne => hne rfl

theorem Unrecorded.keep (h : Unrecorded s.log claim.token) (hk : Keeps s s' id claim.token) :
    Unrecorded s'.log claim.token := fun _ _ hmem =>
  (hk.foreign _ hmem).elim (h _ _) fun hne => hne rfl

theorem Early.keep (h : Early s id claim) (hk : Keeps s s' id claim.token) : Early s' id claim :=
  ⟨h.marker, h.uninvoked.keep hk, h.unended.keep hk, h.unrecorded.keep hk, h.current.keep hk⟩

theorem Late.keep {idempotency : Idempotency} (h : Late s id claim idempotency)
    (hk : Keeps s s' id claim.token) : Late s' id claim idempotency := by
  refine ⟨h.marker, h.unrecorded.keep hk, h.current.keep hk, fun hnone => ?_⟩
  obtain ⟨item, hitem, hstate⟩ := h.sure hnone
  apply hk.sure item hitem
  rcases hstate with ⟨htoken, hstatus⟩ | hunknown
  · have hmarker := (h.current item hitem htoken).1
    exact .inl ⟨htoken, hstatus, hnone ▸ hmarker⟩
  · exact .inr hunknown

theorem Owns.keep {d : Delivery} (h : Owns s d)
    (hk : ∀ claim, d.phase.claim? = some claim → Keeps s s' d.id claim.token) : Owns s' d := by
  unfold Owns at h ⊢
  cases hphase : d.phase with
  | claiming stage options => trivial
  | done => trivial
  | preferring claim =>
    rw [hphase] at h hk
    exact Early.keep h (hk claim rfl)
  | beginning claim email recipient now =>
    rw [hphase] at h hk
    exact ⟨h.1.keep (hk claim rfl), h.2⟩
  | begun claim email recipient =>
    rw [hphase] at h hk
    exact ⟨h.1.keep (hk claim rfl), h.2.1.keep (hk claim rfl), h.2.2.keep (hk claim rfl)⟩
  | sending claim email =>
    rw [hphase] at h hk
    obtain ⟨hlate, hunended, message, hinvoked⟩ := h
    exact ⟨hlate.keep (hk claim rfl), hunended.keep (hk claim rfl), message,
      (hk claim rfl).grows hinvoked⟩
  | finishing claim result =>
    rw [hphase] at h hk
    rcases h with ⟨hearly, hresult⟩ | ⟨email, outcome, now, hlate, hresult, hended, message, hinvoked⟩
    · exact .inl ⟨hearly.keep (hk claim rfl), hresult⟩
    · exact .inr ⟨email, outcome, now, hlate.keep (hk claim rfl), hresult,
        (hk claim rfl).grows hended, message, (hk claim rfl).grows hinvoked⟩

end keeps

/-! ## Section 4: The invariant -/

structure Inv (s : State) : Prop where
  owns : ∀ d ∈ s.deliveries, Owns s d
  tokens : ∀ d ∈ s.deliveries, ∀ claim, d.phase.claim? = some claim → claim.token < s.uuids
  distinct : ∀ (i j : Nat) (d d' : Delivery) (claim claim' : Acquired), s.deliveries[i]? = some d →
    s.deliveries[j]? = some d' → d.phase.claim? = some claim → d'.phase.claim? = some claim' →
    claim.token = claim'.token → i = j
  logged : ∀ action ∈ s.log, action.token < s.uuids
  stored : ∀ id item token, s.records id = some item → item.token = some token →
    token < s.uuids ∧ item.record.status = .queued
  marked : ∀ id item, s.records id = some item → Marked s id item
  missing : ∀ id, s.records id = Option.none → ∀ token idempotency, ¬ Pending s id token idempotency
  ended : ∀ id token outcome outcome', .ended id token outcome ∈ s.log →
    .ended id token outcome' ∈ s.log → outcome = outcome'
  invoked : ∀ id token idempotency idempotency' message message',
    .invoked id token idempotency message ∈ s.log →
    .invoked id token idempotency' message' ∈ s.log → idempotency = idempotency'
  sends : Sends s.log
  uncertain : ∀ id token message, .invoked id token .none message ∈ s.log →
    .ended id token .unknown ∈ s.log → ∃ item, s.records id = some item ∧
      (item.record.status = .unknown ∨ item.record.status = .queued ∧ item.sending = some .none)

/-- A step that sets no marker makes no send pending: what it invokes was about
    to be. -/
theorem Pending.of_put {s s' : State} {i : Nat} {d : Delivery} {phase : Phase}
    (hdeliveries : s'.deliveries = s.deliveries.set i { d with phase := phase })
    (hphase : ∀ claim email recipient, phase ≠ .begun claim email recipient)
    (hinvoked : ∀ id token idempotency message, .invoked id token idempotency message ∈ s'.log →
      .invoked id token idempotency message ∈ s.log ∨ Begun s id token idempotency)
    (hsub : s.log ⊆ s'.log) {id : String} {token : Nat} {idempotency : Idempotency}
    (h : Pending s' id token idempotency) : Pending s id token idempotency := by
  rcases h with ⟨d', hd', hid, claim, email, recipient, hbegun, hclaim⟩ | ⟨⟨message, hmem⟩, hnot⟩
  · rw [hdeliveries] at hd'
    rcases List.mem_or_eq_of_mem_set hd' with hold | rfl
    · exact .inl ⟨d', hold, hid, claim, email, recipient, hbegun, hclaim⟩
    · exact absurd hbegun (hphase claim email recipient)
  · rcases hinvoked _ _ _ _ hmem with hold | hbegun
    · exact .inr ⟨⟨message, hold⟩, fun hrejected => hnot (hrejected.mono hsub)⟩
    · exact .inl hbegun

section step

variable {s : State} {i : Nat} {d : Delivery}

theorem Inv.initial : Inv State.initial := by
  refine ⟨?_, ?_, ?_, ?_, ?_, ?_, ?_, ?_, ?_, ?_, ?_⟩
  · exact fun d hd => (nomatch hd)
  · exact fun d hd => (nomatch hd)
  · exact fun i j d d' claim claim' hi => (nomatch hi)
  · exact fun action haction => (nomatch haction)
  · exact fun id item token hitem => (nomatch hitem)
  · exact fun id item hitem => (nomatch hitem)
  · rintro id - token idempotency (⟨d, hd, -⟩ | ⟨⟨message, hmem⟩, -⟩)
    · cases hd
    · cases hmem
  · exact fun id token outcome outcome' hmem => (nomatch hmem)
  · exact fun id token idempotency idempotency' message message' hmem => (nomatch hmem)
  · intro later earlier id token idempotency message hlog
    cases later <;> cases hlog
  · exact fun id token message hmem => (nomatch hmem)

/-- A delivery enters another phase; the others keep what they rely on. -/
theorem Inv.put (h : Inv s) (hi : s.deliveries[i]? = some d) {phase : Phase} {s' : State}
    (hdeliveries : s'.deliveries = s.deliveries.set i { d with phase := phase })
    (huuids : s.uuids ≤ s'.uuids) (hown : Owns s' { d with phase := phase })
    (hclaim : ∀ claim, phase.claim? = some claim → claim.token < s'.uuids ∧
      (d.phase.claim? = some claim ∨ s.uuids ≤ claim.token))
    (hkeeps : ∀ id token, token < s.uuids →
      (∀ claim, d.phase.claim? = some claim → token ≠ claim.token) → Keeps s s' id token)
    (hlogged : ∀ action ∈ s'.log, action.token < s'.uuids)
    (hstored : ∀ id item token, s'.records id = some item → item.token = some token →
      token < s'.uuids ∧ item.record.status = .queued)
    (hmarked : ∀ id item, s'.records id = some item → Marked s' id item)
    (hmissing : ∀ id, s'.records id = Option.none → ∀ token idempotency,
      ¬ Pending s' id token idempotency)
    (hended : ∀ id token outcome outcome', .ended id token outcome ∈ s'.log →
      .ended id token outcome' ∈ s'.log → outcome = outcome')
    (hinvoked : ∀ id token idempotency idempotency' message message',
      .invoked id token idempotency message ∈ s'.log →
      .invoked id token idempotency' message' ∈ s'.log → idempotency = idempotency')
    (hsends : Sends s'.log)
    (huncertain : ∀ id token message, .invoked id token .none message ∈ s'.log →
      .ended id token .unknown ∈ s'.log → ∃ item, s'.records id = some item ∧
        (item.record.status = .unknown ∨ item.record.status = .queued ∧ item.sending = some .none)) :
    Inv s' := by
  have hlength := (List.getElem?_eq_some_iff.mp hi).1
  -- a delivery at another place holds another token
  have hother : ∀ (j : Nat) (d' : Delivery) (claim' : Acquired), i ≠ j →
      s.deliveries[j]? = some d' → d'.phase.claim? = some claim' →
      ∀ claim, d.phase.claim? = some claim → claim'.token ≠ claim.token := by
    intro j d' claim' hij hj hc' claim hc htoken
    exact hij (h.distinct i j d d' claim claim' hi hj hc hc' htoken.symm)
  have hnew : ∀ (j : Nat) (d' : Delivery) (claim claim' : Acquired), i ≠ j →
      s.deliveries[j]? = some d' → phase.claim? = some claim → d'.phase.claim? = some claim' →
      claim.token ≠ claim'.token := by
    intro j d' claim claim' hij hj hc hc'
    rcases (hclaim claim hc).2 with hsame | hfresh
    · exact (hother j d' claim' hij hj hc' claim hsame).symm
    · have hlt := h.tokens d' (List.mem_of_getElem? hj) claim' hc'
      omega
  refine ⟨fun d' hd' => ?_, fun d' hd' claim hc => ?_, ?_, hlogged, hstored, hmarked, hmissing,
    hended, hinvoked, hsends, huncertain⟩
  · rw [hdeliveries] at hd'
    obtain ⟨j, hj⟩ := List.mem_iff_getElem?.mp hd'
    by_cases hij : i = j
    · subst hij
      rw [List.getElem?_set_self hlength] at hj
      cases hj
      exact hown
    · rw [List.getElem?_set_ne hij] at hj
      have hmem := List.mem_of_getElem? hj
      apply (h.owns d' hmem).keep
      intro claim hc
      exact hkeeps d'.id claim.token (h.tokens d' hmem claim hc) (hother j d' claim hij hj hc)
  · rw [hdeliveries] at hd'
    rcases List.mem_or_eq_of_mem_set hd' with hold | rfl
    · exact Nat.lt_of_lt_of_le (h.tokens d' hold claim hc) huuids
    · exact (hclaim claim hc).1
  · intro j k d₁ d₂ claim claim' hj hk hc hc' htoken
    rw [hdeliveries] at hj hk
    by_cases hij : i = j <;> by_cases hik : i = k
    · exact hij.symm.trans hik
    · subst hij
      rw [List.getElem?_set_self hlength] at hj
      rw [List.getElem?_set_ne hik] at hk
      cases hj
      exact absurd htoken (hnew k d₂ claim claim' hik hk hc hc')
    · subst hik
      rw [List.getElem?_set_self hlength] at hk
      rw [List.getElem?_set_ne hij] at hj
      cases hk
      exact absurd htoken.symm (hnew j d₁ claim' claim hij hj hc' hc)
    · rw [List.getElem?_set_ne hij] at hj
      rw [List.getElem?_set_ne hik] at hk
      exact h.distinct j k d₁ d₂ claim claim' hj hk hc hc' htoken

theorem Keeps.of_same {s s' : State} {id : String} {token : Nat} (hrecords : s'.records = s.records)
    (hlog : s'.log = s.log)
    (hpending : ∀ t p, Pending s' id t p → Pending s id t p) : Keeps s s' id token := by
  refine ⟨hlog ▸ fun _ ha => ha, fun action ha => .inl (hlog ▸ ha),
    fun item hitem _ => ⟨hrecords ▸ hitem, hpending⟩,
    fun item hitem hstate => ⟨item, hrecords ▸ hitem, ?_⟩⟩
  rcases hstate with ⟨htoken, hstatus, -⟩ | hunknown
  · exact .inl ⟨htoken, hstatus⟩
  · exact .inr hunknown

/-- A step that leaves records and log alone, and does not set out to send. -/
theorem Inv.go (h : Inv s) (hi : s.deliveries[i]? = some d) {phase : Phase} {s' : State}
    (hdeliveries : s'.deliveries = s.deliveries.set i { d with phase := phase })
    (hrecords : s'.records = s.records) (hlog : s'.log = s.log) (huuids : s.uuids ≤ s'.uuids)
    (hphase : ∀ claim email recipient, phase ≠ .begun claim email recipient)
    (hown : Owns s' { d with phase := phase })
    (hclaim : ∀ claim, phase.claim? = some claim → d.phase.claim? = some claim) : Inv s' := by
  have hpending : ∀ id token idempotency, Pending s' id token idempotency →
      Pending s id token idempotency := fun id token idempotency hp =>
    Pending.of_put hdeliveries hphase (fun _ _ _ _ hmem => .inl (hlog ▸ hmem))
      (fun _ hmem => hlog ▸ hmem) hp
  have hmem := List.mem_of_getElem? hi
  refine h.put hi hdeliveries huuids hown (fun claim hc => ?_) (fun id token _ _ => ?_)
    (fun action haction => ?_) (fun id item token hitem htoken => ?_) (fun id item hitem => ?_)
    (fun id hnone token idempotency hp => ?_) (hlog ▸ h.ended) (hlog ▸ h.invoked) (hlog ▸ h.sends)
    (hlog ▸ hrecords ▸ h.uncertain)
  · have hsame := hclaim claim hc
    exact ⟨Nat.lt_of_lt_of_le (h.tokens d hmem claim hsame) huuids, .inl hsame⟩
  · exact Keeps.of_same hrecords hlog (hpending id)
  · exact Nat.lt_of_lt_of_le (h.logged action (hlog ▸ haction)) huuids
  · obtain ⟨hlt, hstatus⟩ := h.stored id item token (hrecords ▸ hitem) htoken
    exact ⟨Nat.lt_of_lt_of_le hlt huuids, hstatus⟩
  · exact (h.marked id item (hrecords ▸ hitem)).mono (hpending id)
  · exact h.missing id (hrecords ▸ hnone) _ _ (hpending _ _ _ hp)

theorem Inv.finish (h : Inv s) (hi : s.deliveries[i]? = some d) : Inv (s.put i d .done) :=
  h.go hi rfl rfl rfl (Nat.le_refl _) (fun _ _ _ => nofun) trivial fun _ => nofun

/-- A delivery writes its notification, and may log that it did. Tokens of other
    deliveries do not move, and only its own send becomes pending. -/
theorem Inv.store (h : Inv s) (hi : s.deliveries[i]? = some d) {phase : Phase}
    {item item' : StoredNotification} (hitem : s.records d.id = some item)
    (hqueued : item.record.status = .queued) {s' : State}
    (hrecords : s'.records = Function.update s.records d.id (some item'))
    (hdeliveries : s'.deliveries = s.deliveries.set i { d with phase := phase })
    (huuids : s.uuids ≤ s'.uuids)
    (hlog : s'.log = s.log ∨ ∃ claim result, d.phase.claim? = some claim ∧
      s'.log = .recorded d.id claim.token result :: s.log)
    (hown : Owns s' { d with phase := phase })
    (hclaim : ∀ claim, phase.claim? = some claim → claim.token < s'.uuids ∧
      (d.phase.claim? = some claim ∨ s.uuids ≤ claim.token))
    (htoken : ∀ token, item'.token = some token → item'.record.status = .queued ∧
      token < s'.uuids ∧ (s.uuids ≤ token ∨
        ∃ claim, d.phase.claim? = some claim ∧ token = claim.token))
    (hpending : ∀ id token idempotency, Pending s' id token idempotency →
      Pending s id token idempotency ∨ id = d.id)
    (hmarked : Marked s' d.id item')
    (hsure : item.sending = some .none → item'.record.status = .unknown ∨
      ∃ claim, d.phase.claim? = some claim ∧ item.token = some claim.token)
    (huncertain : item.sending = some .none → ∀ token message,
      .invoked d.id token .none message ∈ s.log → .ended d.id token .unknown ∈ s.log →
      item'.record.status = .unknown ∨ item'.record.status = .queued ∧ item'.sending = some .none) :
    Inv s' := by
  have hsub : s.log ⊆ s'.log := by
    rcases hlog with hsame | ⟨claim, result, -, hcons⟩
    · exact hsame ▸ fun _ ha => ha
    · exact hcons ▸ fun _ ha => List.mem_cons_of_mem _ ha
  have hinvoked : ∀ id token idempotency message,
      .invoked id token idempotency message ∈ s'.log →
      .invoked id token idempotency message ∈ s.log := by
    intro id token idempotency message hmem
    rcases hlog with hsame | ⟨claim, result, -, hcons⟩
    · exact hsame ▸ hmem
    · rw [hcons] at hmem
      exact (List.mem_cons.mp hmem).resolve_left nofun
  have hended : ∀ id token outcome, .ended id token outcome ∈ s'.log →
      .ended id token outcome ∈ s.log := by
    intro id token outcome hmem
    rcases hlog with hsame | ⟨claim, result, -, hcons⟩
    · exact hsame ▸ hmem
    · rw [hcons] at hmem
      exact (List.mem_cons.mp hmem).resolve_left nofun
  have hself : s'.records d.id = some item' := by
    rw [hrecords, Function.update_self]
  have hother : ∀ id, id ≠ d.id → s'.records id = s.records id := by
    intro id hid
    rw [hrecords, Function.update_of_ne hid]
  have hmem := List.mem_of_getElem? hi
  refine h.put hi hdeliveries huuids hown hclaim (fun id token hlt hforeign => ?_)
    (fun action haction => ?_) (fun id stored token hstored htok => ?_) (fun id stored hstored => ?_)
    (fun id hnone token idempotency hp => ?_)
    (fun id token outcome outcome' hm hm' => h.ended _ _ _ _ (hended _ _ _ hm) (hended _ _ _ hm'))
    (fun id token p p' message message' hm hm' =>
      h.invoked _ _ _ _ _ _ (hinvoked _ _ _ _ hm) (hinvoked _ _ _ _ hm')) ?_
    (fun id token message hm hm' => ?_)
  · refine ⟨hsub, fun action haction => ?_, fun stored hstored htok => ?_,
      fun stored hstored hstate => ?_⟩
    · rcases hlog with hsame | ⟨claim, result, hc, hcons⟩
      · exact .inl (hsame ▸ haction)
      · rw [hcons] at haction
        rcases List.mem_cons.mp haction with rfl | hold
        · exact .inr (hforeign claim hc).symm
        · exact .inl hold
    · by_cases hid : id = d.id
      · subst hid
        rw [hself] at hstored
        cases hstored
        rcases (htoken token htok).2.2 with hfresh | ⟨claim, hc, hsame⟩
        · omega
        · exact absurd hsame (hforeign claim hc)
      · rw [hother id hid] at hstored
        exact ⟨hstored, fun t p hp => (hpending id t p hp).resolve_right hid⟩
    · by_cases hid : id = d.id
      · subst hid
        rw [hitem] at hstored
        cases hstored
        refine ⟨item', hself, ?_⟩
        rcases hstate with ⟨htok, -, hsending⟩ | hunknown
        · rcases hsure hsending with hunknown | ⟨claim, hc, hsame⟩
          · exact .inr hunknown
          · exact absurd (Option.some.inj (htok.symm.trans hsame)) (hforeign claim hc)
        · rw [hqueued] at hunknown
          cases hunknown
      · refine ⟨stored, (hother id hid).trans hstored, ?_⟩
        rcases hstate with ⟨htok, hstatus, -⟩ | hunknown
        · exact .inl ⟨htok, hstatus⟩
        · exact .inr hunknown
  · rcases hlog with hsame | ⟨claim, result, hc, hcons⟩
    · exact Nat.lt_of_lt_of_le (h.logged action (hsame ▸ haction)) huuids
    · rw [hcons] at haction
      rcases List.mem_cons.mp haction with rfl | hold
      · exact Nat.lt_of_lt_of_le (h.tokens d hmem claim hc) huuids
      · exact Nat.lt_of_lt_of_le (h.logged action hold) huuids
  · by_cases hid : id = d.id
    · subst hid
      rw [hself] at hstored
      cases hstored
      obtain ⟨hstatus, hlt, -⟩ := htoken token htok
      exact ⟨hlt, hstatus⟩
    · obtain ⟨hlt, hstatus⟩ := h.stored id stored token ((hother id hid).symm.trans hstored) htok
      exact ⟨Nat.lt_of_lt_of_le hlt huuids, hstatus⟩
  · by_cases hid : id = d.id
    · subst hid
      rw [hself] at hstored
      cases hstored
      exact hmarked
    · exact (h.marked id stored ((hother id hid).symm.trans hstored)).mono fun t p hp =>
        (hpending id t p hp).resolve_right hid
  · by_cases hid : id = d.id
    · subst hid
      rw [hself] at hnone
      cases hnone
    · exact h.missing id ((hother id hid).symm.trans hnone) _ _
        ((hpending id _ _ hp).resolve_right hid)
  · rcases hlog with hsame | ⟨claim, result, -, hcons⟩
    · exact hsame ▸ h.sends
    · exact hcons ▸ h.sends.cons fun _ _ _ _ => nofun
  · obtain ⟨stored, hstored, hstate⟩ := h.uncertain id token message (hinvoked _ _ _ _ hm)
      (hended _ _ _ hm')
    by_cases hid : id = d.id
    · subst hid
      rw [hitem] at hstored
      cases hstored
      refine ⟨item', hself, ?_⟩
      rcases hstate with hunknown | ⟨-, hsending⟩
      · rw [hqueued] at hunknown
        cases hunknown
      · exact huncertain hsending token message (hinvoked _ _ _ _ hm) (hended _ _ _ hm')
    · exact ⟨stored, (hother id hid).trans hstored, hstate⟩

/-! ## Section 5: The steps of a delivery -/

variable {store : NotificationStore}

/-- The pending sends of another phase than `begun`, after any store. -/
theorem Pending.of_store {s' : State} {phase : Phase}
    (hdeliveries : s'.deliveries = s.deliveries.set i { d with phase := phase })
    (hphase : ∀ claim email recipient, phase ≠ .begun claim email recipient)
    (hlog : s'.log = s.log) {id : String} {token : Nat} {idempotency : Idempotency}
    (h : Pending s' id token idempotency) : Pending s id token idempotency :=
  h.of_put hdeliveries hphase (fun _ _ _ _ hmem => .inl (hlog ▸ hmem)) fun _ hmem => hlog ▸ hmem

theorem Inv.claim (hlawful : store.Lawful) (h : Inv s) (hi : s.deliveries[i]? = some d)
    {stage : Nat} {options : NotificationClaimOptions} (hphase : d.phase = .claiming stage options)
    {answer : Answer} {s' : State} (hs' : store.resume s i d answer = some s') : Inv s' := by
  have hnone : d.phase.claim? = Option.none := by rw [hphase]; rfl
  unfold NotificationStore.resume at hs'
  rw [hphase] at hs'
  simp only at hs'
  rcases hlawful.claim stage options s.uuids (s.records d.id) with
    ⟨reply, hclaim, hreply⟩ | ⟨item, hitem, hqueued, ⟨hsending, hclaim⟩ | ⟨hsending, hclaim⟩⟩
  · -- the notification stays as it was
    have hsame : Function.update s.records d.id (s.records d.id) = s.records :=
      Function.update_eq_self _ _
    rw [hclaim] at hs'
    cases reply with
    | none =>
      cases hs'
      exact h.go hi rfl hsame rfl (Nat.le_succ _) (fun _ _ _ => nofun) trivial fun _ => nofun
    | some reply =>
      cases reply with
      | acquired token record sending => exact absurd rfl (hreply token record sending)
      | busy | missing | terminal record =>
        cases hs'
        exact h.go hi rfl hsame rfl (Nat.le_succ _) (fun _ _ _ => nofun) trivial fun _ => nofun
  · -- an uncertain send is closed
    rw [hclaim] at hs'
    have hdeliveries : s'.deliveries = s.deliveries.set i { d with phase := .done } := by
      cases hs'; rfl
    have hpending : ∀ id token idempotency, Pending s' id token idempotency →
        Pending s id token idempotency := fun id token idempotency hp =>
      hp.of_store hdeliveries (fun _ _ _ => nofun) (by cases hs'; rfl)
    cases hs'
    have hmarked := h.marked d.id item hitem
    unfold Marked at hmarked
    rw [if_pos hqueued, hsending] at hmarked
    obtain ⟨owner, -, hall⟩ := hmarked
    refine h.store hi hitem hqueued rfl rfl (Nat.le_succ _) (.inl rfl) trivial (fun _ => nofun)
      (fun _ => nofun) (fun id token idempotency hp => .inl (hpending _ _ _ hp)) ?_
      (fun _ => .inl rfl) fun _ _ _ _ _ => .inl rfl
    unfold Marked
    rw [if_neg (show (item.uncertain options.now).record.status ≠ .queued from nofun)]
    exact .inl ⟨owner, fun token idempotency hp => hall token idempotency (hpending _ _ _ hp)⟩
  · -- a notification is acquired under a fresh token
    rw [hclaim] at hs'
    have hdeliveries : s'.deliveries = s.deliveries.set i { d with
        phase := .preferring ⟨s.uuids, (item.acquire options s.uuids).record, item.sending⟩ } := by
      cases hs'; rfl
    have hpending : ∀ id token idempotency, Pending s' id token idempotency →
        Pending s id token idempotency := fun id token idempotency hp =>
      hp.of_store hdeliveries (fun _ _ _ => nofun) (by cases hs'; rfl)
    cases hs'
    have hmarked := h.marked d.id item hitem
    refine h.store hi hitem hqueued rfl rfl (Nat.le_succ _) (.inl rfl) ?_
      (fun claim hc => ?_) (fun token htoken => ?_)
      (fun id token idempotency hp => .inl (hpending _ _ _ hp)) ?_
      (fun hmarker => absurd hmarker hsending) fun hmarker => absurd hmarker hsending
    · -- the token is fresh, so nothing was logged under it
      refine ⟨hsending, fun id idempotency message hmem => ?_, fun id outcome hmem => ?_,
        fun id result hmem => ?_, fun item' hitem' _ => ?_⟩
      · exact absurd (h.logged _ hmem) (Nat.lt_irrefl _)
      · exact absurd (h.logged _ hmem) (Nat.lt_irrefl _)
      · exact absurd (h.logged _ hmem) (Nat.lt_irrefl _)
      · change Function.update s.records d.id (some (item.acquire options s.uuids)) d.id =
          some item' at hitem'
        rw [Function.update_self] at hitem'
        cases hitem'
        refine ⟨rfl, fun hmarker token idempotency hp => ?_⟩
        have hsend := hpending _ _ _ hp
        unfold Marked at hmarked
        rw [if_pos hqueued, show item.sending = Option.none from hmarker] at hmarked
        exact absurd hsend (hmarked _ _)
    · cases hc
      exact ⟨Nat.lt_succ_self _, .inr (Nat.le_refl _)⟩
    · cases htoken
      exact ⟨hqueued, Nat.lt_succ_self _, .inl (Nat.le_refl _)⟩
    · refine Marked.mono ?_ (hpending d.id)
      unfold Marked at hmarked ⊢
      rw [if_pos hqueued] at hmarked
      rw [if_pos (show (item.acquire options s.uuids).record.status = .queued from hqueued)]
      show match item.sending with
        | Option.none => _
        | some .none => _
        | some .provider => _
      cases hmarker : item.sending with
      | none => rw [hmarker] at hmarked; exact hmarked
      | some idempotency =>
        cases idempotency with
        | none => exact absurd hmarker hsending
        | provider => rw [hmarker] at hmarked; exact hmarked

/-- What follows the preferences: a record that keeps the marker of an earlier
    send, or a send that may repeat it. -/
theorem afterPreferences_cases (runtime : NotificationRuntime) (now : Nat) (claim : Acquired)
    (preference : Option Bool) :
    (∃ result, afterPreferences runtime now claim preference = .finishing claim result ∧
      (claim.sending = some .provider → result.status = .queued →
        result.code = some .deliveryUnknown)) ∨
    ∃ email recipient, afterPreferences runtime now claim preference =
        .beginning claim email recipient now ∧
      (claim.sending = some .provider → email.idempotency = .provider) := by
  unfold afterPreferences
  cases preference with
  | none =>
    left
    simp only
    by_cases hsending : claim.sending.isSome
    · rw [if_pos hsending]
      exact ⟨_, rfl, fun _ _ => rfl⟩
    · rw [if_neg hsending]
      refine ⟨_, rfl, fun hprovider => ?_⟩
      rw [hprovider] at hsending
      exact absurd rfl hsending
  | some enabled =>
    cases enabled with
    | false =>
      left
      simp only
      by_cases hsending : claim.sending.isSome
      · rw [if_pos hsending]
        exact ⟨_, rfl, fun _ => nofun⟩
      · rw [if_neg hsending]
        exact ⟨_, rfl, fun _ => nofun⟩
    | true =>
      simp only
      split
      · exact .inl ⟨_, rfl, fun _ => nofun⟩
      · next email recipient _ _ _ =>
        by_cases hmarker : claim.sending = some .provider ∧ email.idempotency ≠ .provider
        · rw [if_pos hmarker]
          exact .inl ⟨_, rfl, fun _ => nofun⟩
        · rw [if_neg hmarker]
          refine .inr ⟨email, recipient, rfl, fun hprovider => ?_⟩
          by_contra hnot
          exact hmarker ⟨hprovider, hnot⟩
      · left
        by_cases hsending : claim.sending.isSome
        · rw [if_pos hsending]
          exact ⟨_, rfl, fun _ => nofun⟩
        · rw [if_neg hsending]
          exact ⟨_, rfl, fun _ => nofun⟩

/-- The record of a send that says it was rejected does not follow an earlier
    send, and is of such a rejection. -/
theorem afterSend_rejected {runtime : NotificationRuntime} {now : Nat} {claim : Acquired}
    {email : EmailOptions} {outcome : SendOutcome}
    (hstatus : (afterSend runtime now claim email outcome).status = .queued)
    (hcode : (afterSend runtime now claim email outcome).code = some .providerRejected) :
    outcome = .rejected true ∧ claim.sending ≠ some .provider := by
  cases outcome with
  | accepted messageId => cases hstatus
  | unknown =>
    exfalso
    have huncertain : (decide (claim.sending = some Idempotency.provider) || true) = true :=
      Bool.or_true _
    change some (if (decide (claim.sending = some Idempotency.provider) || true) = true then
      NotificationFailureCode.deliveryUnknown else .providerRejected) = _ at hcode
    rw [if_pos huncertain] at hcode
    cases hcode
  | rejected retryable =>
    by_cases hsending : claim.sending = some .provider
    · exfalso
      simp [afterSend, hsending] at hcode
    · refine ⟨?_, hsending⟩
      cases retryable with
      | true => rfl
      | false => simp [afterSend, hsending] at hstatus

/-- The record of an unknown outcome through a provider that is not idempotent. -/
theorem afterSend_unknown (runtime : NotificationRuntime) (now : Nat) (claim : Acquired)
    {email : EmailOptions} (hnone : email.idempotency = .none) :
    (afterSend runtime now claim email .unknown).status = .unknown := by
  simp [afterSend, hnone]

theorem Inv.prefer (h : Inv s) (hi : s.deliveries[i]? = some d) {claim : Acquired}
    (hphase : d.phase = .preferring claim) {answer : Answer} {s' : State}
    (hs' : store.resume s i d answer = some s') : Inv s' := by
  have hown := h.owns d (List.mem_of_getElem? hi)
  have hclaim : d.phase.claim? = some claim := by rw [hphase]; rfl
  unfold Owns at hown
  rw [hphase] at hown
  unfold NotificationStore.resume at hs'
  rw [hphase] at hs'
  simp only at hs'
  have hearly : ∀ phase : Phase, (∀ claim email recipient, phase ≠ .begun claim email recipient) →
      Early (s.put i d phase) d.id claim := by
    intro phase hnot
    have hput : (s.put i d phase).deliveries = s.deliveries.set i { d with phase := phase } := rfl
    exact Early.keep hown (Keeps.of_same rfl rfl fun _ _ hp => hp.of_store hput hnot rfl)
  rcases afterPreferences_cases d.runtime s.clock claim answer.preference with
    ⟨result, heq, hresult⟩ | ⟨email, recipient, heq, hemail⟩
  · rw [heq] at hs'
    cases hs'
    refine h.go hi rfl rfl rfl (Nat.le_refl _) (fun _ _ _ => nofun)
      (.inl ⟨hearly _ fun _ _ _ => nofun, hresult⟩) ?_
    intro claim' hc
    cases hc
    exact hclaim
  · rw [heq] at hs'
    cases hs'
    refine h.go hi rfl rfl rfl (Nat.le_refl _) (fun _ _ _ => nofun)
      ⟨hearly _ fun _ _ _ => nofun, hemail⟩ ?_
    intro claim' hc
    cases hc
    exact hclaim

theorem Inv.begin (hlawful : store.Lawful) (h : Inv s) (hi : s.deliveries[i]? = some d)
    {claim : Acquired} {email : EmailOptions} {recipient : String} {now : Nat}
    (hphase : d.phase = .beginning claim email recipient now) {answer : Answer} {s' : State}
    (hs' : store.resume s i d answer = some s') : Inv s' := by
  have hmem := List.mem_of_getElem? hi
  have hown := h.owns d hmem
  have hclaim : d.phase.claim? = some claim := by rw [hphase]; rfl
  unfold Owns at hown
  rw [hphase] at hown
  obtain ⟨hearly, hemail⟩ := hown
  unfold NotificationStore.resume at hs'
  rw [hphase] at hs'
  simp only at hs'
  cases hitem : s.records d.id with
  | none =>
    rw [hitem] at hs'
    cases hs'
    exact h.finish hi
  | some item =>
    rw [hitem] at hs'
    simp only [Option.bind_some] at hs'
    cases hbegin : store.beginSend claim.token now email.idempotency item with
    | none =>
      rw [hbegin] at hs'
      cases hs'
      exact h.finish hi
    | some item' =>
      rw [hbegin] at hs'
      obtain ⟨htoken, hqueued, hprovider, rfl⟩ := hlawful.beginSend _ _ _ _ _ hbegin
      obtain ⟨hmarker, hfirst⟩ := hearly.current item hitem htoken
      have hfresh : item.sending ≠ some .none := hmarker ▸ hearly.marker
      -- only the send under this token is new
      have hpending : ∀ id token idempotency, Pending s' id token idempotency →
          Pending s id token idempotency ∨
            id = d.id ∧ token = claim.token ∧ idempotency = email.idempotency := by
        intro id token idempotency hp
        cases hs'
        rcases hp with ⟨d', hd', hid, claim', email', recipient', hbegun, hclaim', hemail'⟩ | hlogged
        · rcases List.mem_or_eq_of_mem_set hd' with hold | rfl
          · exact .inl (.inl ⟨d', hold, hid, claim', email', recipient', hbegun, hclaim', hemail'⟩)
          · cases hbegun
            exact .inr ⟨hid.symm, hclaim'.symm, hemail'.symm⟩
        · exact .inl (.inr hlogged)
      have hmarked := h.marked d.id item hitem
      unfold Marked at hmarked
      rw [if_pos hqueued] at hmarked
      cases hs'
      refine h.store hi hitem hqueued rfl rfl (Nat.le_refl _) (.inl rfl) ?_ ?_ ?_ ?_ ?_
        (fun _ => .inr ⟨claim, hclaim, htoken⟩) fun hnone => absurd hnone hfresh
      · refine ⟨⟨hearly.marker, hearly.unrecorded, fun stored hstored _ => ?_, fun _ => ?_⟩,
          hearly.uninvoked, hearly.unended⟩
        · change Function.update s.records d.id (some _) d.id = some stored at hstored
          rw [Function.update_self] at hstored
          cases hstored
          refine ⟨rfl, fun hnone token idempotency hp => ?_⟩
          rcases hpending _ _ _ hp with hold | ⟨-, hsame, -⟩
          · exact hfirst hnone _ _ hold
          · exact hsame
        · exact ⟨_, Function.update_self .., .inl ⟨htoken, hqueued⟩⟩
      · intro claim' hc
        cases hc
        exact ⟨h.tokens d hmem claim hclaim, .inl hclaim⟩
      · intro token htok
        obtain rfl := Option.some.inj (htoken.symm.trans htok)
        exact ⟨hqueued, h.tokens d hmem claim hclaim, .inr ⟨claim, hclaim, rfl⟩⟩
      · intro id token idempotency hp
        exact (hpending _ _ _ hp).imp_right fun hsame => hsame.1
      · unfold Marked
        rw [if_pos (show _ = NotificationStatus.queued from hqueued)]
        show match some email.idempotency with
          | Option.none => _
          | some .none => _
          | some .provider => _
        cases hsending : item.sending with
        | none =>
          -- no earlier send is pending
          rw [hsending] at hmarked
          cases hidem : email.idempotency with
          | none =>
            refine ⟨claim.token, htoken, fun token idempotency hp => ?_⟩
            rcases hpending _ _ _ hp with hold | ⟨-, hsame, -⟩
            · exact absurd hold (hmarked _ _)
            · exact hsame
          | provider =>
            intro token idempotency hp
            rcases hpending _ _ _ hp with hold | ⟨-, -, hsame⟩
            · exact absurd hold (hmarked _ _)
            · exact hsame.trans hidem
        | some earlier =>
          cases earlier with
          | none => exact absurd hsending hfresh
          | provider =>
            -- an earlier send may be repeated by an idempotent one only
            rw [hsending] at hmarked
            have hidem := hprovider hsending
            rw [hidem]
            intro token idempotency hp
            rcases hpending _ _ _ hp with hold | ⟨-, -, hsame⟩
            · exact hmarked _ _ hold
            · exact hsame.trans hidem

/-- A delivery logs an action under its token and goes on, its notification left
    alone. -/
theorem Inv.act (h : Inv s) (hi : s.deliveries[i]? = some d) {phase : Phase} {claim : Acquired}
    (hclaim : d.phase.claim? = some claim) (hphase : phase.claim? = some claim) {action : Action}
    (haction : action.token = claim.token)
    (hown : Owns { s.put i d phase with log := action :: s.log } { d with phase := phase })
    (hpending : ∀ id token idempotency,
      Pending { s.put i d phase with log := action :: s.log } id token idempotency →
      Pending s id token idempotency)
    (hended : ∀ id token outcome outcome', .ended id token outcome ∈ action :: s.log →
      .ended id token outcome' ∈ action :: s.log → outcome = outcome')
    (hinvoked : ∀ id token idempotency idempotency' message message',
      .invoked id token idempotency message ∈ action :: s.log →
      .invoked id token idempotency' message' ∈ action :: s.log → idempotency = idempotency')
    (hsends : Sends (action :: s.log))
    (huncertain : ∀ id token message, .invoked id token .none message ∈ action :: s.log →
      .ended id token .unknown ∈ action :: s.log → ∃ item, s.records id = some item ∧
        (item.record.status = .unknown ∨ item.record.status = .queued ∧ item.sending = some .none)) :
    Inv { s.put i d phase with log := action :: s.log } := by
  have hmem := List.mem_of_getElem? hi
  have hlt := h.tokens d hmem claim hclaim
  refine h.put hi rfl (Nat.le_refl _) hown (fun claim' hc => ?_) (fun id token _ hforeign => ?_)
    (fun action' hmem' => ?_) h.stored (fun id item hitem => (h.marked id item hitem).mono (hpending id))
    (fun id hnone token idempotency hp => h.missing id hnone _ _ (hpending _ _ _ hp)) hended hinvoked
    hsends huncertain
  · obtain rfl := Option.some.inj (hphase.symm.trans hc)
    exact ⟨hlt, .inl hclaim⟩
  · refine ⟨fun _ ha => List.mem_cons_of_mem _ ha, fun action' hmem' => ?_,
      fun item hitem _ => ⟨hitem, hpending id⟩, fun item hitem hstate => ⟨item, hitem, ?_⟩⟩
    · rcases List.mem_cons.mp hmem' with rfl | hold
      · exact .inr (haction ▸ (hforeign claim hclaim).symm)
      · exact .inl hold
    · rcases hstate with ⟨htoken, hstatus, -⟩ | hunknown
      · exact .inl ⟨htoken, hstatus⟩
      · exact .inr hunknown
  · rcases List.mem_cons.mp hmem' with rfl | hold
    · exact haction ▸ hlt
    · exact h.logged action' hold

/-- The provider is invoked: what was about to be sent is now sent. -/
theorem Inv.invoke (h : Inv s) (hi : s.deliveries[i]? = some d) {claim : Acquired}
    {email : EmailOptions} {recipient : String} (hphase : d.phase = .begun claim email recipient)
    {answer : Answer} {s' : State} (hs' : store.resume s i d answer = some s') : Inv s' := by
  have hmem := List.mem_of_getElem? hi
  have hown := h.owns d hmem
  have hclaim : d.phase.claim? = some claim := by rw [hphase]; rfl
  unfold Owns at hown
  rw [hphase] at hown
  obtain ⟨hlate, huninvoked, hunended⟩ := hown
  have hbegun : Begun s d.id claim.token email.idempotency :=
    ⟨d, hmem, rfl, claim, email, recipient, hphase, rfl, rfl⟩
  unfold NotificationStore.resume at hs'
  rw [hphase] at hs'
  simp only at hs'
  have hput : s'.deliveries = s.deliveries.set i { d with phase := .sending claim email } := by
    cases hs'; rfl
  have hlog : s'.log = .invoked d.id claim.token email.idempotency
      ⟨recipient, email.sender, claim.record.content, claim.record.key⟩ :: s.log := by
    cases hs'; rfl
  have hpending : ∀ id token idempotency, Pending s' id token idempotency →
      Pending s id token idempotency := by
    intro id token idempotency hp
    refine hp.of_put hput (fun _ _ _ => nofun) (fun id' token' idempotency' message hm => ?_)
      (hlog ▸ fun _ ha => List.mem_cons_of_mem _ ha)
    rw [hlog] at hm
    rcases List.mem_cons.mp hm with heq | hold
    · cases heq
      exact .inr hbegun
    · exact .inl hold
  cases hs'
  refine h.act hi hclaim rfl rfl ⟨⟨hlate.marker, fun id result hm => ?_, fun item hitem htoken => ?_,
    hlate.sure⟩, fun id outcome hm => ?_, _, List.mem_cons_self ..⟩ hpending
    (fun id token outcome outcome' hm hm' => ?_)
    (fun id token idempotency idempotency' message message' hm hm' => ?_) ?_
    (fun id token message hm hm' => ?_)
  · exact hlate.unrecorded _ _ ((List.mem_cons.mp hm).resolve_left nofun)
  · obtain ⟨hmarker, hfirst⟩ := hlate.current item hitem htoken
    exact ⟨hmarker, fun hnone token idempotency hp => hfirst hnone _ _ (hpending _ _ _ hp)⟩
  · exact hunended _ _ ((List.mem_cons.mp hm).resolve_left nofun)
  · exact h.ended _ _ _ _ ((List.mem_cons.mp hm).resolve_left nofun)
      ((List.mem_cons.mp hm').resolve_left nofun)
  · rcases List.mem_cons.mp hm with heq | hold <;> rcases List.mem_cons.mp hm' with heq' | hold'
    · cases heq; cases heq'; rfl
    · cases heq; exact absurd hold' (huninvoked _ _ _)
    · cases heq'; exact absurd hold (huninvoked _ _ _)
    · exact h.invoked _ _ _ _ _ _ hold hold'
  · intro later earlier id token idempotency message hsplit
    cases later with
    | cons _ rest => exact h.sends rest earlier id token idempotency message (List.cons.inj hsplit).2
    | nil =>
      -- an earlier send that is still pending is under this token, or both are idempotent
      intro token' idempotency' message' hearlier hnone
      obtain ⟨heq, rfl⟩ := List.cons.inj hsplit
      cases heq
      by_contra hrejected
      have hp : Pending s d.id token' idempotency' := .inr ⟨⟨message', hearlier⟩, hrejected⟩
      cases hitem : s.records d.id with
      | none => exact h.missing d.id hitem _ _ hp
      | some item =>
        rcases (h.marked d.id item hitem).pair hp (.inl hbegun) with rfl | ⟨hprovider', hprovider⟩
        · exact huninvoked _ _ _ hearlier
        · rcases hnone with hnone | hnone
          · rw [hprovider] at hnone
            cases hnone
          · rw [hprovider'] at hnone
            cases hnone
  · have hold' := (List.mem_cons.mp hm').resolve_left nofun
    rcases List.mem_cons.mp hm with heq | hold
    · obtain ⟨rfl, rfl, -, -⟩ := Action.invoked.inj heq
      exact absurd hold' (hunended _ _)
    · exact h.uncertain id token message hold hold'

/-- The send ends, and its outcome is about to be recorded. -/
theorem Inv.conclude (h : Inv s) (hi : s.deliveries[i]? = some d) {claim : Acquired}
    {email : EmailOptions} (hphase : d.phase = .sending claim email)
    {answer : Answer} {s' : State} (hs' : store.resume s i d answer = some s') : Inv s' := by
  have hmem := List.mem_of_getElem? hi
  have hown := h.owns d hmem
  have hclaim : d.phase.claim? = some claim := by rw [hphase]; rfl
  unfold Owns at hown
  rw [hphase] at hown
  obtain ⟨hlate, hunended, message₀, hsent⟩ := hown
  unfold NotificationStore.resume at hs'
  rw [hphase] at hs'
  simp only at hs'
  have hput : s'.deliveries = s.deliveries.set i { d with
      phase := .finishing claim (afterSend d.runtime s.clock claim email answer.outcome) } := by
    cases hs'; rfl
  have hlog : s'.log = .ended d.id claim.token answer.outcome :: s.log := by
    cases hs'; rfl
  have hpending : ∀ id token idempotency, Pending s' id token idempotency →
      Pending s id token idempotency := by
    intro id token idempotency hp
    refine hp.of_put hput (fun _ _ _ => nofun) (fun id' token' idempotency' message hm => ?_)
      (hlog ▸ fun _ ha => List.mem_cons_of_mem _ ha)
    rw [hlog] at hm
    exact .inl ((List.mem_cons.mp hm).resolve_left nofun)
  cases hs'
  refine h.act hi hclaim rfl rfl (.inr ⟨email, answer.outcome, s.clock, ⟨hlate.marker,
    fun id result hm => ?_, fun item hitem htoken => ?_, hlate.sure⟩, rfl, List.mem_cons_self ..,
    message₀, List.mem_cons_of_mem _ hsent⟩) hpending
    (fun id token outcome outcome' hm hm' => ?_)
    (fun id token idempotency idempotency' message message' hm hm' => ?_)
    (h.sends.cons fun _ _ _ _ => nofun) (fun id token message hm hm' => ?_)
  · exact hlate.unrecorded _ _ ((List.mem_cons.mp hm).resolve_left nofun)
  · obtain ⟨hmarker, hfirst⟩ := hlate.current item hitem htoken
    exact ⟨hmarker, fun hnone token idempotency hp => hfirst hnone _ _ (hpending _ _ _ hp)⟩
  · rcases List.mem_cons.mp hm with heq | hold <;> rcases List.mem_cons.mp hm' with heq' | hold'
    · cases heq; cases heq'; rfl
    · cases heq; exact absurd hold' (hunended _ _)
    · cases heq'; exact absurd hold (hunended _ _)
    · exact h.ended _ _ _ _ hold hold'
  · exact h.invoked _ _ _ _ _ _ ((List.mem_cons.mp hm).resolve_left nofun)
      ((List.mem_cons.mp hm').resolve_left nofun)
  · have hold := (List.mem_cons.mp hm).resolve_left nofun
    rcases List.mem_cons.mp hm' with heq | hold'
    · -- the send was not idempotent, so the marker says so still, or it was closed
      obtain ⟨rfl, rfl, -⟩ := Action.ended.inj heq
      have hnone : email.idempotency = .none := (h.invoked _ _ _ _ _ _ hold hsent).symm
      obtain ⟨item, hitem, hstate⟩ := hlate.sure hnone
      refine ⟨item, hitem, ?_⟩
      rcases hstate with ⟨htoken, hstatus⟩ | hunknown
      · exact .inr ⟨hstatus, hnone ▸ (hlate.current item hitem htoken).1⟩
      · exact .inl hunknown
    · exact h.uncertain id token message hold hold'

/-- A recorded rejection under its token leaves nothing pending under it. -/
theorem Inv.not_pending (h : Inv s) (hi : s.deliveries[i]? = some d) {claim : Acquired}
    (hclaim : d.phase.claim? = some claim) {s' : State}
    (hput : s'.deliveries = s.deliveries.set i { d with phase := .done })
    (hrejected : Rejected s'.log d.id claim.token) (idempotency : Idempotency) :
    ¬ Pending s' d.id claim.token idempotency := by
  rintro (⟨d', hd', -, claim', email, recipient, hbegun, hsame, -⟩ | ⟨-, hnot⟩)
  · rw [hput] at hd'
    obtain ⟨j, hj⟩ := List.mem_iff_getElem?.mp hd'
    by_cases hij : i = j
    · subst hij
      rw [List.getElem?_set_self (List.getElem?_eq_some_iff.mp hi).1] at hj
      cases hj
      cases hbegun
    · rw [List.getElem?_set_ne hij] at hj
      have hclaim' : d'.phase.claim? = some claim' := by rw [hbegun]; rfl
      exact hij (h.distinct i j d d' claim claim' hi hj hclaim hclaim' hsame.symm)
  · exact hnot hrejected

/-- What the marker says when the outcome has been recorded. -/
theorem Inv.marked_finished (h : Inv s) (hi : s.deliveries[i]? = some d) {claim : Acquired}
    {result : NotificationFinish} (hphase : d.phase = .finishing claim result)
    {item : StoredNotification} (hitem : s.records d.id = some item)
    (htoken : item.token = some claim.token) (hqueued : item.record.status = .queued)
    (hretry : result.status = .queued → item.sending = Option.none ∨
      result.code = some .providerRejected ∨
      (item.sending = some .provider ∧ result.code = some .deliveryUnknown)) {s' : State}
    (hput : s'.deliveries = s.deliveries.set i { d with phase := .done })
    (hlog : s'.log = .recorded d.id claim.token result :: s.log)
    (hpending : ∀ id token idempotency, Pending s' id token idempotency →
      Pending s id token idempotency) : Marked s' d.id (item.finished result) := by
  have hown := h.owns d (List.mem_of_getElem? hi)
  have hclaim : d.phase.claim? = some claim := by rw [hphase]; rfl
  unfold Owns at hown
  rw [hphase] at hown
  have hmarked := h.marked d.id item hitem
  unfold Marked at hmarked
  rw [if_pos hqueued] at hmarked
  -- an idempotent send that is to be repeated keeps its marker
  have hkept : result.status = .queued → item.sending = some .provider →
      result.code = some .deliveryUnknown → Marked s' d.id (item.finished result) := by
    intro hstatus hsending hcode
    have hkeep : (item.finished result).sending = some .provider := by
      simp [StoredNotification.finished, hstatus, hcode, hsending]
    rw [hsending] at hmarked
    unfold Marked
    rw [if_pos (show (item.finished result).record.status = .queued from hstatus), hkeep]
    exact fun token idempotency hp => hmarked _ _ (hpending _ _ _ hp)
  rcases hown with ⟨hearly, hresult⟩ |
    ⟨email, outcome, now, hlate, rfl, hended, message, hsent⟩
  · -- no provider was invoked under this token
    have hmarker := (hearly.current item hitem htoken).1
    cases hsending : item.sending with
    | none =>
      have hgone : (item.finished result).sending = Option.none := by
        simp [StoredNotification.finished, hsending]
      rw [hsending] at hmarked
      unfold Marked
      rw [hgone]
      split
      · exact fun token idempotency hp => hmarked _ _ (hpending _ _ _ hp)
      · exact .inr fun token idempotency hp => absurd (hpending _ _ _ hp) (hmarked _ _)
    | some idempotency =>
      cases idempotency with
      | none => exact absurd (hmarker.symm.trans hsending) hearly.marker
      | provider =>
        by_cases hstatus : result.status = .queued
        · exact hkept hstatus hsending (hresult (hmarker.symm.trans hsending) hstatus)
        · rw [hsending] at hmarked
          unfold Marked
          rw [if_neg (show (item.finished result).record.status ≠ .queued from hstatus)]
          exact .inr fun token idempotency hp => hmarked _ _ (hpending _ _ _ hp)
  · obtain ⟨hmarker, hfirst⟩ := hlate.current item hitem htoken
    by_cases hstatus : (afterSend d.runtime now claim email outcome).status = .queued
    · by_cases hcode : (afterSend d.runtime now claim email outcome).code = some .providerRejected
      · -- a rejection that may be retried: it was the only send, and it is no longer pending
        obtain ⟨rfl, hnot⟩ := afterSend_rejected hstatus hcode
        have hnone : claim.sending = Option.none := by
          cases hc : claim.sending with
          | none => rfl
          | some idempotency =>
            cases idempotency with
            | none => exact absurd hc hlate.marker
            | provider => exact absurd hc hnot
        have hrejected : Rejected s'.log d.id claim.token := by
          rw [hlog]
          exact ⟨List.mem_cons_of_mem _ hended, _, List.mem_cons_self .., hstatus, hcode⟩
        have hgone : (item.finished
            (afterSend d.runtime now claim email (.rejected true))).sending = Option.none := by
          simp [StoredNotification.finished, hcode]
        have hqueued' : (item.finished
            (afterSend d.runtime now claim email (.rejected true))).record.status = .queued := hstatus
        unfold Marked
        rw [if_pos hqueued', hgone]
        intro token idempotency hp
        obtain rfl := hfirst hnone token idempotency (hpending _ _ _ hp)
        exact h.not_pending hi hclaim hput hrejected idempotency hp
      · rcases hretry hstatus with hnone | hrejected | ⟨hsending, hunknown⟩
        · rw [hmarker] at hnone
          cases hnone
        · exact absurd hrejected hcode
        · exact hkept hstatus hsending hunknown
    · have hclosed : (item.finished
          (afterSend d.runtime now claim email outcome)).record.status ≠ .queued := hstatus
      unfold Marked
      rw [if_neg hclosed]
      rw [hmarker] at hmarked
      cases hidem : email.idempotency with
      | none =>
        rw [hidem] at hmarked
        obtain ⟨owner, -, hall⟩ := hmarked
        exact .inl ⟨owner, fun token idempotency hp => hall _ _ (hpending _ _ _ hp)⟩
      | provider =>
        rw [hidem] at hmarked
        exact .inr fun token idempotency hp => hmarked _ _ (hpending _ _ _ hp)

/-- The outcome is recorded under the token, and the marker goes with it unless an
    idempotent send is to be repeated. -/
theorem Inv.record (hlawful : store.Lawful) (h : Inv s) (hi : s.deliveries[i]? = some d)
    {claim : Acquired} {result : NotificationFinish} (hphase : d.phase = .finishing claim result)
    {answer : Answer} {s' : State} (hs' : store.resume s i d answer = some s') : Inv s' := by
  have hmem := List.mem_of_getElem? hi
  have hown := h.owns d hmem
  have hclaim : d.phase.claim? = some claim := by rw [hphase]; rfl
  unfold Owns at hown
  rw [hphase] at hown
  unfold NotificationStore.resume at hs'
  rw [hphase] at hs'
  simp only at hs'
  cases hitem : s.records d.id with
  | none =>
    rw [hitem] at hs'
    cases hs'
    exact h.finish hi
  | some item =>
    rw [hitem] at hs'
    simp only [Option.bind_some] at hs'
    cases hfinish : store.finish claim.token result item with
    | none =>
      rw [hfinish] at hs'
      cases hs'
      exact h.finish hi
    | some item' =>
      rw [hfinish] at hs'
      obtain ⟨htoken, hqueued, rfl, hretry⟩ := hlawful.finish _ _ _ _ hfinish
      have hput : s'.deliveries = s.deliveries.set i { d with phase := .done } := by
        cases hs'; rfl
      have hlog : s'.log = .recorded d.id claim.token result :: s.log := by
        cases hs'; rfl
      have hpending : ∀ id token idempotency, Pending s' id token idempotency →
          Pending s id token idempotency := by
        intro id token idempotency hp
        refine hp.of_put hput (fun _ _ _ => nofun) (fun id' token' idempotency' message hm => ?_)
          (hlog ▸ fun _ ha => List.mem_cons_of_mem _ ha)
        rw [hlog] at hm
        exact .inl ((List.mem_cons.mp hm).resolve_left nofun)
      have hmarked := h.marked_finished hi hphase hitem htoken hqueued hretry hput hlog hpending
      cases hs'
      refine h.store hi hitem hqueued rfl rfl (Nat.le_refl _) (.inr ⟨claim, result, hclaim, rfl⟩)
        trivial (fun _ => nofun) (fun _ => nofun)
        (fun id token idempotency hp => .inl (hpending _ _ _ hp)) hmarked
        (fun _ => .inr ⟨claim, hclaim, htoken⟩) fun hnone token message hm hm' => .inl ?_
      -- the send with an unknown outcome is the one that is recorded here
      have hsame : token = claim.token := by
        have hpend : Pending s d.id token .none := by
          refine .inr ⟨⟨message, hm⟩, fun hrejected => ?_⟩
          cases h.ended _ _ _ _ hm' hrejected.1
        have howner := h.marked d.id item hitem
        unfold Marked at howner
        rw [if_pos hqueued, hnone] at howner
        obtain ⟨owner, howner, hall⟩ := howner
        exact (hall _ _ hpend).trans (Option.some.inj (howner.symm.trans htoken))
      subst hsame
      rcases hown with ⟨hearly, -⟩ | ⟨email, outcome, now, hlate, rfl, hended, message', hsent⟩
      · exact absurd hm (hearly.uninvoked _ _ _)
      · obtain rfl := h.ended _ _ _ _ hm' hended
        exact afterSend_unknown d.runtime now claim (h.invoked _ _ _ _ _ _ hm hsent).symm

theorem Inv.resume (hlawful : store.Lawful) (h : Inv s) (hi : s.deliveries[i]? = some d)
    {answer : Answer} {s' : State} (hs' : store.resume s i d answer = some s') : Inv s' := by
  cases hphase : d.phase with
  | claiming stage options => exact h.claim hlawful hi hphase hs'
  | preferring claim => exact h.prefer hi hphase hs'
  | beginning claim email recipient now => exact h.begin hlawful hi hphase hs'
  | begun claim email recipient => exact h.invoke hi hphase hs'
  | sending claim email => exact h.conclude hi hphase hs'
  | finishing claim result => exact h.record hlawful hi hphase hs'
  | done =>
    unfold NotificationStore.resume at hs'
    rw [hphase] at hs'
    cases hs'

end step

/-! ## Section 6: The other events -/

section environment

variable {s s' : State}

/-- No delivery moves; new ones hold no claim yet. -/
theorem Inv.environment (h : Inv s) (hlog : s'.log = s.log) (huuids : s'.uuids = s.uuids)
    (extra : List Delivery) (hdeliveries : s'.deliveries = s.deliveries ++ extra)
    (hextra : ∀ d ∈ extra, ∃ stage options, d.phase = .claiming stage options)
    (hrecords : ∀ id item', s'.records id = some item' → s.records id = some item' ∨
      item'.token = Option.none ∧ Marked s id item')
    (hkeep : ∀ id item, s.records id = some item → ∃ item', s'.records id = some item' ∧
      (item.record.status = .queued ∨ item.record.status = .unknown → item' = item)) : Inv s' := by
  have hbegun : ∀ d ∈ extra, ∀ claim, d.phase.claim? ≠ some claim := by
    intro d hd claim hc
    obtain ⟨stage, options, hphase⟩ := hextra d hd
    rw [hphase] at hc
    cases hc
  have hmem : ∀ d ∈ s'.deliveries, ∀ claim, d.phase.claim? = some claim → d ∈ s.deliveries := by
    intro d hd claim hc
    rw [hdeliveries] at hd
    exact (List.mem_append.mp hd).resolve_right fun hnew => hbegun d hnew claim hc
  have hplace : ∀ (j : Nat) (d : Delivery) (claim : Acquired), s'.deliveries[j]? = some d →
      d.phase.claim? = some claim → s.deliveries[j]? = some d := by
    intro j d claim hj hc
    rw [hdeliveries] at hj
    by_cases hlt : j < s.deliveries.length
    · rwa [List.getElem?_append_left hlt] at hj
    · rw [List.getElem?_append_right (Nat.not_lt.mp hlt)] at hj
      exact absurd hc (hbegun d (List.mem_of_getElem? hj) claim)
  have hpending : ∀ id token idempotency, Pending s' id token idempotency →
      Pending s id token idempotency := by
    rintro id token idempotency (⟨d, hd, hid, claim, email, recipient, hphase, hclaim⟩ | hsent)
    · have hc : d.phase.claim? = some claim := by rw [hphase]; rfl
      exact .inl ⟨d, hmem d hd claim hc, hid, claim, email, recipient, hphase, hclaim⟩
    · rw [hlog] at hsent
      exact .inr hsent
  have hkeeps : ∀ id token, Keeps s s' id token := by
    intro id token
    refine ⟨hlog ▸ fun _ ha => ha, fun action ha => .inl (hlog ▸ ha), fun item' hitem' htoken => ?_,
      fun item hitem hstate => ?_⟩
    · rcases hrecords id item' hitem' with hold | ⟨hnone, -⟩
      · exact ⟨hold, hpending id⟩
      · rw [hnone] at htoken
        cases htoken
    · obtain ⟨item', hitem', hsame⟩ := hkeep id item hitem
      refine ⟨item', hitem', ?_⟩
      rcases hstate with ⟨htoken, hstatus, -⟩ | hunknown
      · obtain rfl := hsame (.inl hstatus)
        exact .inl ⟨htoken, hstatus⟩
      · obtain rfl := hsame (.inr hunknown)
        exact .inr hunknown
  refine ⟨fun d hd => ?_, fun d hd claim hc => ?_, fun j k d d' claim claim' hj hk hc hc' => ?_,
    fun action ha => ?_, fun id item' token hitem' htoken => ?_, fun id item' hitem' => ?_,
    fun id hnone token idempotency hp => ?_, hlog ▸ h.ended, hlog ▸ h.invoked, hlog ▸ h.sends,
    fun id token message hm hm' => ?_⟩
  · rw [hdeliveries] at hd
    rcases List.mem_append.mp hd with hold | hnew
    · exact (h.owns d hold).keep fun claim _ => hkeeps d.id claim.token
    · obtain ⟨stage, options, hphase⟩ := hextra d hnew
      unfold Owns
      rw [hphase]
      trivial
  · exact huuids ▸ h.tokens d (hmem d hd claim hc) claim hc
  · exact h.distinct j k d d' claim claim' (hplace j d claim hj hc) (hplace k d' claim' hk hc') hc hc'
  · exact huuids ▸ h.logged action (hlog ▸ ha)
  · rcases hrecords id item' hitem' with hold | ⟨hnone, -⟩
    · exact huuids ▸ h.stored id item' token hold htoken
    · rw [hnone] at htoken
      cases htoken
  · rcases hrecords id item' hitem' with hold | ⟨-, hmarked⟩
    · exact (h.marked id item' hold).mono (hpending id)
    · exact hmarked.mono (hpending id)
  · cases hitem : s.records id with
    | none => exact h.missing id hitem _ _ (hpending _ _ _ hp)
    | some item =>
      obtain ⟨item', hitem', -⟩ := hkeep id item hitem
      rw [hnone] at hitem'
      cases hitem'
  · rw [hlog] at hm hm'
    obtain ⟨item, hitem, hstate⟩ := h.uncertain id token message hm hm'
    obtain ⟨item', hitem', hsame⟩ := hkeep id item hitem
    have hstatus : item.record.status = .queued ∨ item.record.status = .unknown :=
      hstate.symm.imp_left And.left
    obtain rfl := hsame hstatus
    exact ⟨item', hitem', hstate⟩

theorem Inv.insert (h : Inv s) {id : String} (record : NotificationRecord)
    (hnone : s.records id = Option.none) : Inv (s.store id (some (inserted record))) := by
  refine h.environment rfl rfl [] (List.append_nil _).symm (fun _ hd => (nomatch hd))
    (fun id' item' hitem' => ?_) (fun id' item hitem => ?_)
  · change Function.update s.records id (some (inserted record)) id' = some item' at hitem'
    by_cases hid : id' = id
    · subst hid
      rw [Function.update_self] at hitem'
      cases hitem'
      refine .inr ⟨rfl, ?_⟩
      unfold Marked
      rw [if_pos (show (inserted record).record.status = .queued from rfl)]
      exact h.missing id' hnone
    · rw [Function.update_of_ne hid] at hitem'
      exact .inl hitem'
  · have hid : id' ≠ id := by
      rintro rfl
      rw [hnone] at hitem
      cases hitem
    exact ⟨item, (Function.update_of_ne hid ..).trans hitem, fun _ => rfl⟩

/-- The evidence of a delivery closes what the provider had accepted, and nothing
    that is queued or uncertain. -/
theorem Inv.recordDelivered (h : Inv s) (id messageId : String) :
    Inv (s.store id ((s.records id).map (delivered messageId s.clock))) := by
  refine h.environment rfl rfl [] (List.append_nil _).symm (fun _ hd => (nomatch hd))
    (fun id' item' hitem' => ?_) (fun id' item hitem => ?_)
  · change Function.update s.records id ((s.records id).map (delivered messageId s.clock)) id' =
      some item' at hitem'
    by_cases hid : id' = id
    · subst hid
      rw [Function.update_self] at hitem'
      obtain ⟨item, hitem, rfl⟩ := Option.map_eq_some_iff.mp hitem'
      unfold delivered
      by_cases hevidence : item.record.channel = .email ∧ item.record.status = .providerAccepted ∧
          item.record.messageId = some messageId
      · rw [if_pos hevidence]
        have hopen : item.record.status ≠ .queued := by
          rw [hevidence.2.1]
          exact nofun
        refine .inr ⟨?_, ?_⟩
        · cases htoken : item.token with
          | none => rfl
          | some token => exact absurd (h.stored id' item token hitem htoken).2 hopen
        · have hmarked := h.marked id' item hitem
          unfold Marked at hmarked ⊢
          rw [if_neg hopen] at hmarked
          rw [if_neg (show NotificationStatus.delivered ≠ .queued from nofun)]
          exact hmarked
      · rw [if_neg hevidence]
        exact .inl hitem
    · rw [Function.update_of_ne hid] at hitem'
      exact .inl hitem'
  · by_cases hid : id' = id
    · subst hid
      refine ⟨delivered messageId s.clock item, ?_, fun hstatus => ?_⟩
      · show Function.update s.records id' _ id' = _
        rw [Function.update_self, hitem]
        rfl
      · unfold delivered
        rw [if_neg]
        rintro ⟨-, haccepted, -⟩
        rw [haccepted] at hstatus
        rcases hstatus with hstatus | hstatus <;> cases hstatus
    · exact ⟨item, (Function.update_of_ne hid ..).trans hitem, fun _ => rfl⟩

theorem Inv.step {store : NotificationStore} (hlawful : store.Lawful) (h : Inv s) {event : Event}
    (hs' : step store s event = some s') : Inv s' := by
  cases event with
  | tick ms =>
    cases hs'
    exact h.environment rfl rfl [] (List.append_nil _).symm (fun _ hd => (nomatch hd))
      (fun _ _ hitem => .inl hitem) fun _ item hitem => ⟨item, hitem, fun _ => rfl⟩
  | insert id record =>
    unfold Notifications.step at hs'
    simp only at hs'
    cases hitem : s.records id with
    | none =>
      rw [hitem] at hs'
      cases hs'
      exact h.insert record hitem
    | some item =>
      rw [hitem] at hs'
      cases hs'
      exact h
  | recordDelivered id messageId =>
    cases hs'
    exact h.recordDelivered id messageId
  | deliver id runtime =>
    cases hs'
    refine h.environment rfl rfl _ rfl (fun d hd => ?_) (fun _ _ hitem => .inl hitem)
      fun _ item hitem => ⟨item, hitem, fun _ => rfl⟩
    rw [List.mem_singleton.mp hd]
    exact ⟨_, _, rfl⟩
  | resume i answer =>
    unfold Notifications.step at hs'
    simp only at hs'
    cases hi : s.deliveries[i]? with
    | none =>
      rw [hi] at hs'
      cases hs'
    | some d =>
      rw [hi] at hs'
      exact h.resume hlawful hi hs'
  | crash i =>
    obtain ⟨d, hi, rfl⟩ := Option.map_eq_some_iff.mp hs'
    exact h.finish hi

end environment

/-! ## Section 7: Runs -/

theorem inv_of_run {store : NotificationStore} (hlawful : store.Lawful) {s : State}
    (hrun : Run (step store) Free .initial s) : Inv s :=
  hrun.invariant Inv.initial fun _ _ _ h _ hs' => h.step hlawful hs'

theorem Inv.endsUncertain {store : NotificationStore} (hlawful : store.Lawful) {s : State}
    (h : Inv s) : EndsUncertain store s := by
  intro later earlier id token message hlog hsent
  have hended : .ended id token .unknown ∈ s.log := by
    rw [hlog]
    exact List.mem_append_right _ (List.mem_cons_self ..)
  have hsent' : .invoked id token .none message ∈ s.log := by
    rw [hlog]
    exact List.mem_append_right _ (List.mem_cons_of_mem _ hsent)
  constructor
  · -- a later invocation would need a rejection of the send that ended without one
    intro token' idempotency message' hlater
    obtain ⟨after, before, rfl⟩ := List.append_of_mem hlater
    have hsplit : s.log = after ++ .invoked id token' idempotency message' ::
        (before ++ .ended id token .unknown :: earlier) := by
      rw [hlog, List.append_assoc, List.cons_append]
    have hbefore : .invoked id token .none message ∈
        before ++ .ended id token .unknown :: earlier :=
      List.mem_append_right _ (List.mem_cons_of_mem _ hsent)
    have hrejected := h.sends _ _ _ _ _ _ hsplit _ _ _ hbefore (.inr rfl)
    have hrejected' : .ended id token (.rejected true) ∈ s.log := by
      rw [hsplit]
      exact List.mem_append_right _ (List.mem_cons_of_mem _ hrejected.1)
    cases h.ended _ _ _ _ hended hrejected'
  · obtain ⟨item, hitem, hstate⟩ := h.uncertain id token message hsent' hended
    refine ⟨item, hitem, hstate.imp_right fun ⟨hqueued, hmarker⟩ => ⟨hqueued, hmarker, ?_⟩⟩
    intro options uuid hexpired
    exact ⟨_, congrArg Prod.fst (hlawful.uncertain options uuid item hqueued hmarker hexpired), rfl⟩

/-- Whatever order deliveries, crashes and expiring leases come in, a provider
    that is not idempotent is invoked again only after a recorded rejection, and
    after an unknown outcome the notification ends as uncertain. -/
theorem notifications_not_sent_twice (store : NotificationStore)
    (hstore : store = memoryNotificationStore ∨ store = d1NotificationStore) (s : State)
    (hrun : Run (step store) Free .initial s) : Sends s.log ∧ EndsUncertain store s := by
  have hlawful : store.Lawful := by
    rcases hstore with rfl | rfl
    · exact memoryNotificationStore_lawful
    · exact d1NotificationStore_lawful
  have h := inv_of_run hlawful hrun
  exact ⟨h.sends, h.endsUncertain hlawful⟩

theorem oneSecond_lease : 1000 ≤ 1000 ∧ 1000 ≤ 86400000 := by decide

theorem three_attempts : 1 ≤ 3 ∧ 3 ≤ 100 := by decide

/-- A send is rejected, recorded and repeated; the delivery that repeated it
    crashes after an unknown outcome, and one more comes after the lease. -/
def rejectedThenUnknown : List Event :=
  let runtime : NotificationRuntime :=
    ⟨some ⟨.none, "from@example.test"⟩, 1000, 3, oneSecond_lease, three_attempts⟩
  let record : NotificationRecord :=
    ⟨"key", "welcome", .email, some "to@example.test", ⟨"Hi", "Hello", "<p>Hello</p>"⟩, .queued, 0, 0,
      Option.none, Option.none⟩
  [.insert "n" record,
    .deliver "n" runtime, .resume 0 ⟨Option.none, .unknown⟩, .resume 0 ⟨some true, .unknown⟩,
    .resume 0 ⟨Option.none, .unknown⟩, .resume 0 ⟨Option.none, .unknown⟩,
    .resume 0 ⟨Option.none, .rejected true⟩, .resume 0 ⟨Option.none, .unknown⟩,
    .deliver "n" runtime, .resume 1 ⟨Option.none, .unknown⟩, .resume 1 ⟨some true, .unknown⟩,
    .resume 1 ⟨Option.none, .unknown⟩, .resume 1 ⟨Option.none, .unknown⟩,
    .resume 1 ⟨Option.none, .unknown⟩, .crash 1, .tick 1000,
    .deliver "n" runtime, .resume 2 ⟨Option.none, .unknown⟩]

theorem rejected_then_unknown_not_sent_again :
    ∃ s, exec (step memoryNotificationStore) .initial rejectedThenUnknown = some s ∧
      (∃ item, s.records "n" = some item ∧ item.record.status = .unknown) ∧
      Sends s.log ∧ EndsUncertain memoryNotificationStore s := by
  have hexec : ∃ s, exec (step memoryNotificationStore) .initial rejectedThenUnknown = some s ∧
      ∃ item, s.records "n" = some item ∧ item.record.status = .unknown :=
    ⟨_, rfl, _, rfl, rfl⟩
  obtain ⟨s, hs, hitem⟩ := hexec
  exact ⟨s, hs, hitem,
    notifications_not_sent_twice _ (.inl rfl) s (run_of_exec hs (admits_free _ _))⟩

end Cossack.Core.Notifications
