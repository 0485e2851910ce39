import Mathlib.Data.List.Basic
import Mathlib.Logic.Function.Basic

/-! # Locks made of promises

    A map has the tail of a chain of promises for each key.  A caller takes the tail
    it finds, puts `previous.then(() => held)` there, and resolves `held` when it is
    over, also when it has left before its turn.  When a tail settles its caller takes
    it out of the map, unless another one is there by then.

    A caller whose turn has come comes after everyone with its key that was there
    before, and nothing stays in the map. -/

namespace PromiseChains

/-! ## Section 1: The map and the promises -/

variable {K : Type}

structure Ticket (K : Type) where
  key : K
  /-- The caller whose tail this one awaits; without one the promise is resolved. -/
  previous : Option Nat
  /-- `held` is resolved. -/
  released : Bool
  /-- The tail is settled. -/
  settled : Bool
  /-- What was to be done when the tail settles is done. -/
  swept : Bool

structure Chains (K : Type) where
  slots : K → Option Nat
  tickets : List (Ticket K)

namespace Chains

def start : Chains K := ⟨fun _ => none, []⟩

variable [DecidableEq K] (c : Chains K)

def take (key : K) : Chains K :=
  { slots := Function.update c.slots key (some c.tickets.length)
    tickets := c.tickets ++ [⟨key, c.slots key, false, false, false⟩] }

def resolved : Option Nat → Bool
  | none => true
  | some i => (c.tickets[i]?.map Ticket.settled).getD false

/-- The awaited tail is settled. -/
def free (i : Nat) : Bool := (c.tickets[i]?.map fun t => c.resolved t.previous).getD false

def release (i : Nat) : Chains K :=
  { c with tickets := c.tickets.modify i fun t => { t with released := true } }

def settle (i : Nat) : Option (Chains K) :=
  match c.tickets[i]? with
  | some t =>
      if t.released && c.resolved t.previous && !t.settled then
        some { c with tickets := c.tickets.modify i fun t => { t with settled := true } }
      else none
  | none => none

def sweep (i : Nat) : Option (Chains K) :=
  match c.tickets[i]? with
  | some t =>
      if t.settled && !t.swept then
        some
          { slots := if c.slots t.key = some i then Function.update c.slots t.key none else c.slots
            tickets := c.tickets.modify i fun t => { t with swept := true } }
      else none
  | none => none

end Chains

/-! ## Section 2: What the promises leave alone -/

section views

variable {c c' : Chains K} {i : Nat}

/-- Who has which key, and who is over. -/
def view (c : Chains K) (j : Nat) : Option (K × Bool) := c.tickets[j]?.map fun t => (t.key, t.released)

theorem view_take [DecidableEq K] (key : K) (j : Nat) :
    view (c.take key) j = if j = c.tickets.length then some (key, false) else view c j := by
  unfold view Chains.take
  rcases Nat.lt_trichotomy j c.tickets.length with hlt | rfl | hgt
  · rw [List.getElem?_append_left hlt, if_neg (by omega)]
  · simp
  · rw [List.getElem?_eq_none (by simp; omega), List.getElem?_eq_none (by omega), if_neg (by omega)]

theorem view_release (j : Nat) :
    view (c.release i) j = if j = i then (view c i).map fun t => (t.1, true) else view c j := by
  unfold view Chains.release
  rw [List.getElem?_modify]
  by_cases h : i = j
  · subst h
    cases c.tickets[i]? <;> simp
  · rw [if_neg (Ne.symm h)]
    simp [h]

theorem view_modify (change : Ticket K → Ticket K)
    (h : ∀ t, (change t).key = t.key ∧ (change t).released = t.released) (slots : K → Option Nat) (j : Nat) :
    view ⟨slots, c.tickets.modify i change⟩ j = view c j := by
  unfold view
  rw [List.getElem?_modify]
  cases c.tickets[j]? with
  | none => rfl
  | some t =>
    obtain ⟨hkey, hreleased⟩ := h t
    by_cases hij : i = j <;> simp [hij, hkey, hreleased]

theorem view_settle (h : c.settle i = some c') (j : Nat) : view c' j = view c j := by
  unfold Chains.settle at h
  split at h
  · simp only [Option.ite_none_right_eq_some] at h
    obtain rfl := Option.some.inj h.2
    exact view_modify (fun t => { t with settled := true }) (fun _ => ⟨rfl, rfl⟩) _ j
  · cases h

theorem view_sweep [DecidableEq K] (h : c.sweep i = some c') (j : Nat) : view c' j = view c j := by
  unfold Chains.sweep at h
  split at h
  · simp only [Option.ite_none_right_eq_some] at h
    obtain rfl := Option.some.inj h.2
    exact view_modify (fun t => { t with swept := true }) (fun _ => ⟨rfl, rfl⟩) _ j
  · cases h

end views

/-! ## Section 3: The order of the callers -/

/-- Everyone with the key who came before `i` is over. -/
def Before (c : Chains K) (i : Nat) (key : K) : Prop :=
  ∀ (j : Nat) (u : Ticket K), j < i → c.tickets[j]? = some u → u.key = key → u.settled = true

structure Chained (c : Chains K) : Prop where
  /-- The awaited caller is the last one before with the same key. -/
  previous : ∀ (i : Nat) (t : Ticket K) (j : Nat), c.tickets[i]? = some t → t.previous = some j →
    j < i ∧ (∃ u : Ticket K, c.tickets[j]? = some u ∧ u.key = t.key) ∧
      ∀ (m : Nat) (v : Ticket K), j < m → m < i → c.tickets[m]? = some v → v.key ≠ t.key
  first : ∀ (i : Nat) (t : Ticket K), c.tickets[i]? = some t → t.previous = none → Before c i t.key
  settled : ∀ (i : Nat) (t : Ticket K), c.tickets[i]? = some t → t.settled = true →
    t.released = true ∧ Before c i t.key
  swept : ∀ (i : Nat) (t : Ticket K), c.tickets[i]? = some t → t.swept = true → t.settled = true
  /-- What is in the map is the tail of the last caller with the key. -/
  slot : ∀ key i, c.slots key = some i →
    (∃ t : Ticket K, c.tickets[i]? = some t ∧ t.key = key ∧ t.swept = false) ∧
      ∀ (j : Nat) (u : Ticket K), i < j → c.tickets[j]? = some u → u.key ≠ key
  empty : ∀ key, c.slots key = none → Before c c.tickets.length key

variable {c c' : Chains K} {i : Nat}

theorem chained_start : Chained (Chains.start : Chains K) := by
  refine ⟨?_, ?_, ?_, ?_, ?_, ?_⟩ <;> intros <;> simp_all [Chains.start, Before]

/-- Changing one ticket. -/
theorem getElem?_change {tickets : List (Ticket K)} {change : Ticket K → Ticket K} {j : Nat}
    {u : Ticket K} (h : (tickets.modify i change)[j]? = some u) :
    ∃ old, tickets[j]? = some old ∧ u = if i = j then change old else old := by
  rw [List.getElem?_modify] at h
  obtain ⟨old, hold, rfl⟩ := Option.map_eq_some_iff.mp h
  refine ⟨old, hold, ?_⟩
  split <;> rfl

theorem getElem?_change_self {tickets : List (Ticket K)} {change : Ticket K → Ticket K} {t : Ticket K}
    (h : tickets[i]? = some t) : (tickets.modify i change)[i]? = some (change t) := by
  rw [List.getElem?_modify, h]
  simp

theorem getElem?_change_ne {tickets : List (Ticket K)} {change : Ticket K → Ticket K} {j : Nat}
    (h : i ≠ j) : (tickets.modify i change)[j]? = tickets[j]? := by
  rw [List.getElem?_modify]
  simp [h]

section take

variable [DecidableEq K]

@[simp] theorem take_slots (key : K) :
    (c.take key).slots = Function.update c.slots key (some c.tickets.length) := rfl

theorem take_old (key : K) {j : Nat} (h : j < c.tickets.length) :
    (c.take key).tickets[j]? = c.tickets[j]? := List.getElem?_append_left h

theorem take_cases {key : K} {j : Nat} {u : Ticket K} (h : (c.take key).tickets[j]? = some u) :
    (j < c.tickets.length ∧ c.tickets[j]? = some u) ∨
      (j = c.tickets.length ∧ u = ⟨key, c.slots key, false, false, false⟩) := by
  have hlt := (List.getElem?_eq_some_iff.mp h).1
  simp only [Chains.take, List.length_append, List.length_singleton] at hlt
  rcases Nat.lt_or_ge j c.tickets.length with hold | hge
  · exact .inl ⟨hold, by rwa [take_old key hold] at h⟩
  · obtain rfl : j = c.tickets.length := by omega
    refine .inr ⟨rfl, ?_⟩
    simpa [Chains.take, eq_comm] using h

theorem Chained.take (h : Chained c) (key : K) : Chained (c.take key) := by
  have hlength : (c.take key).tickets.length = c.tickets.length + 1 := by simp [Chains.take]
  have hbound : ∀ j u, c.tickets[j]? = some u → j < c.tickets.length :=
    fun j u hu => (List.getElem?_eq_some_iff.mp hu).1
  -- What came before someone who was there already is as it was.
  have hbefore : ∀ i k, i ≤ c.tickets.length → Before c i k → Before (c.take key) i k := by
    intro i k hi hold j u hlt hu hkey
    rcases take_cases hu with ⟨-, hu⟩ | ⟨rfl, -⟩
    · exact hold j u hlt hu hkey
    · omega
  refine ⟨?_, ?_, ?_, ?_, ?_, ?_⟩
  · intro i t j ht hprevious
    rcases take_cases ht with ⟨hlt, ht⟩ | ⟨rfl, rfl⟩
    · obtain ⟨hji, ⟨u, hu, hkey⟩, hlast⟩ := h.previous i t j ht hprevious
      refine ⟨hji, ⟨u, ?_, hkey⟩, fun m v hjm hmi hv => ?_⟩
      · rwa [take_old key (by omega)]
      · rw [take_old key (by omega)] at hv
        exact hlast m v hjm hmi hv
    · obtain ⟨⟨u, hu, hkey, -⟩, hlast⟩ := h.slot key j hprevious
      have hj := hbound j u hu
      refine ⟨hj, ⟨u, ?_, hkey⟩, fun m v hjm hmi hv => ?_⟩
      · rwa [take_old key hj]
      · rw [take_old key hmi] at hv
        exact hlast m v hjm hv
  · intro i t ht hprevious
    rcases take_cases ht with ⟨hlt, ht⟩ | ⟨rfl, rfl⟩
    · exact hbefore i _ (by omega) (h.first i t ht hprevious)
    · exact hbefore _ _ (Nat.le_refl _) (h.empty key hprevious)
  · intro i t ht hsettled
    rcases take_cases ht with ⟨hlt, ht⟩ | ⟨rfl, rfl⟩
    · obtain ⟨hreleased, hold⟩ := h.settled i t ht hsettled
      exact ⟨hreleased, hbefore i _ (by omega) hold⟩
    · cases hsettled
  · intro i t ht hswept
    rcases take_cases ht with ⟨hlt, ht⟩ | ⟨rfl, rfl⟩
    · exact h.swept i t ht hswept
    · cases hswept
  · intro k i hslot
    rw [take_slots] at hslot
    by_cases hk : k = key
    · subst hk
      rw [Function.update_self] at hslot
      obtain rfl := Option.some.inj hslot
      refine ⟨⟨⟨k, c.slots k, false, false, false⟩, by simp [Chains.take], rfl, rfl⟩, ?_⟩
      intro j u hlt hu
      have := (List.getElem?_eq_some_iff.mp hu).1
      omega
    · rw [Function.update_of_ne hk] at hslot
      obtain ⟨⟨t, ht, hkey, hswept⟩, hlast⟩ := h.slot k i hslot
      refine ⟨⟨t, by rwa [take_old key (hbound i t ht)], hkey, hswept⟩, fun j u hlt hu => ?_⟩
      rcases take_cases hu with ⟨-, hu⟩ | ⟨-, rfl⟩
      · exact hlast j u hlt hu
      · exact fun heq => hk heq.symm
  · intro k hslot
    rw [take_slots] at hslot
    by_cases hk : k = key
    · subst hk
      rw [Function.update_self] at hslot
      cases hslot
    · rw [Function.update_of_ne hk] at hslot
      intro j u hlt hu hkey
      rcases take_cases hu with ⟨hj, hu⟩ | ⟨-, rfl⟩
      · exact h.empty k hslot j u hj hu hkey
      · exact absurd hkey.symm hk

end take

/-! ## Section 4: Turns -/

/-- Nobody who was settled is unsettled again. -/
theorem Before.change {change : Ticket K → Ticket K} (hkey : ∀ t, (change t).key = t.key)
    (hsettled : ∀ t, t.settled = true → (change t).settled = true) {j : Nat} {key : K}
    {slots : K → Option Nat} (h : Before c j key) :
    Before ⟨slots, c.tickets.modify i change⟩ j key := by
  intro m u hlt hu hk
  obtain ⟨old, hold, rfl⟩ := getElem?_change hu
  by_cases him : i = m
  · rw [if_pos him] at hk ⊢
    exact hsettled old (h m old hlt hold (by rwa [hkey] at hk))
  · rw [if_neg him] at hk ⊢
    exact h m old hlt hold hk

/-- A ticket changes, and keeps its key and the caller it awaits. -/
theorem Chained.change (h : Chained c) (i : Nat) (change : Ticket K → Ticket K)
    (hkey : ∀ t, (change t).key = t.key) (hprevious : ∀ t, (change t).previous = t.previous)
    (hsettled : ∀ t, t.settled = true → (change t).settled = true)
    (hsound : ∀ t, c.tickets[i]? = some t →
      ((change t).settled = true → (change t).released = true ∧ Before c i t.key) ∧
      ((change t).swept = true → (change t).settled = true))
    {slots : K → Option Nat}
    (hslot : ∀ key j, slots key = some j → c.slots key = some j ∧
      ∀ t, j = i → c.tickets[i]? = some t → (change t).swept = false)
    (hempty : ∀ key, slots key = none → Before c c.tickets.length key) :
    Chained ⟨slots, c.tickets.modify i change⟩ := by
  have hkeys : ∀ j old, (if i = j then change old else old).key = old.key := by
    intro j old
    split
    · exact hkey old
    · rfl
  refine ⟨?_, ?_, ?_, ?_, ?_, ?_⟩
  · intro j t m ht hm
    obtain ⟨old, hold, rfl⟩ := getElem?_change ht
    have hm' : old.previous = some m := by
      split at hm
      · rwa [hprevious] at hm
      · exact hm
    obtain ⟨hlt, ⟨u, hu, hsame⟩, hlast⟩ := h.previous j old m hold hm'
    rw [hkeys]
    refine ⟨hlt, ?_, fun n v hmn hnj hv => ?_⟩
    · by_cases him : i = m
      · subst him
        exact ⟨change u, getElem?_change_self hu, by rw [hkey, hsame]⟩
      · exact ⟨u, by rwa [getElem?_change_ne him], hsame⟩
    · obtain ⟨w, hw, rfl⟩ := getElem?_change hv
      rw [hkeys]
      exact hlast n w hmn hnj hw
  · intro j t ht hnone
    obtain ⟨old, hold, rfl⟩ := getElem?_change ht
    have hnone' : old.previous = none := by
      split at hnone
      · rwa [hprevious] at hnone
      · exact hnone
    rw [hkeys]
    exact (h.first j old hold hnone').change hkey hsettled
  · intro j t ht hs
    obtain ⟨old, hold, rfl⟩ := getElem?_change ht
    rw [hkeys]
    by_cases hij : i = j
    · subst hij
      rw [if_pos rfl] at hs ⊢
      obtain ⟨hreleased, hbefore⟩ := (hsound old hold).1 hs
      exact ⟨hreleased, hbefore.change hkey hsettled⟩
    · rw [if_neg hij] at hs ⊢
      obtain ⟨hreleased, hbefore⟩ := h.settled j old hold hs
      exact ⟨hreleased, hbefore.change hkey hsettled⟩
  · intro j t ht hs
    obtain ⟨old, hold, rfl⟩ := getElem?_change ht
    by_cases hij : i = j
    · subst hij
      rw [if_pos rfl] at hs ⊢
      exact (hsound old hold).2 hs
    · rw [if_neg hij] at hs ⊢
      exact h.swept j old hold hs
  · intro key j hj
    obtain ⟨hold, hfresh⟩ := hslot key j hj
    obtain ⟨⟨t, ht, htkey, hswept⟩, hlast⟩ := h.slot key j hold
    refine ⟨?_, fun m u hlt hu => ?_⟩
    · by_cases hij : i = j
      · subst hij
        exact ⟨change t, getElem?_change_self ht, by rw [hkey, htkey], hfresh t rfl ht⟩
      · exact ⟨t, by rwa [getElem?_change_ne hij], htkey, hswept⟩
    · obtain ⟨w, hw, rfl⟩ := getElem?_change hu
      rw [hkeys]
      exact hlast m w hlt hw
  · intro key hnone
    have hlength : (c.tickets.modify i change).length = c.tickets.length := List.length_modify ..
    show Before _ (c.tickets.modify i change).length key
    rw [hlength]
    exact (hempty key hnone).change hkey hsettled

theorem Chained.release [DecidableEq K] (h : Chained c) (i : Nat) : Chained (c.release i) := by
  refine h.change i (fun t => { t with released := true }) (fun _ => rfl) (fun _ => rfl)
    (fun _ hs => hs) (fun t ht => ?_) (fun key j hj => ?_) h.empty
  · exact ⟨fun hs => ⟨rfl, (h.settled i t ht hs).2⟩, fun hs => h.swept i t ht hs⟩
  · refine ⟨hj, fun t hji ht => ?_⟩
    subst hji
    obtain ⟨⟨u, hu, -, hswept⟩, -⟩ := h.slot key j hj
    obtain rfl := Option.some.inj (ht.symm.trans hu)
    exact hswept

/-- The turn of a caller comes after those with its key that were there before. -/
theorem Chained.before_of_resolved [DecidableEq K] (h : Chained c) {t : Ticket K}
    (ht : c.tickets[i]? = some t) (hresolved : c.resolved t.previous = true) : Before c i t.key := by
  cases hprevious : t.previous with
  | none => exact h.first i t ht hprevious
  | some j =>
    obtain ⟨-, ⟨u, hu, hkey⟩, hlast⟩ := h.previous i t j ht hprevious
    have hsettled : u.settled = true := by
      rw [hprevious] at hresolved
      simpa [Chains.resolved, hu] using hresolved
    have hbefore := (h.settled j u hu hsettled).2
    intro m v hlt hv hvkey
    rcases Nat.lt_trichotomy m j with hmj | rfl | hjm
    · exact hbefore m v hmj hv (hvkey.trans hkey.symm)
    · obtain rfl := Option.some.inj (hv.symm.trans hu)
      exact hsettled
    · exact absurd hvkey (hlast m v hjm hlt hv)

theorem Chained.turn [DecidableEq K] (h : Chained c) (hfree : c.free i = true) {key : K} {ended ended' : Bool}
    (hi : view c i = some (key, ended)) {j : Nat} (hlt : j < i) (hj : view c j = some (key, ended')) :
    ended' = true := by
  obtain ⟨t, ht, hview⟩ := Option.map_eq_some_iff.mp hi
  obtain ⟨u, hu, hview'⟩ := Option.map_eq_some_iff.mp hj
  obtain ⟨rfl, -⟩ := Prod.mk.inj hview
  obtain ⟨hkey, rfl⟩ := Prod.mk.inj hview'
  have hresolved : c.resolved t.previous = true := by simpa [Chains.free, ht] using hfree
  exact (h.settled j u hu (h.before_of_resolved ht hresolved j u hlt hu hkey)).1

theorem Chained.settle [DecidableEq K] (h : Chained c) (hnext : c.settle i = some c') : Chained c' := by
  unfold Chains.settle at hnext
  cases ht : c.tickets[i]? with
  | none => simp [ht] at hnext
  | some t =>
    simp only [ht, Option.ite_none_right_eq_some, Bool.and_eq_true] at hnext
    obtain ⟨⟨⟨hreleased, hresolved⟩, -⟩, hnext⟩ := hnext
    obtain rfl := Option.some.inj hnext
    refine h.change i (fun t => { t with settled := true }) (fun _ => rfl) (fun _ => rfl)
      (fun _ _ => rfl) (fun u hu => ?_) (fun key j hj => ?_) h.empty
    · obtain rfl := Option.some.inj (hu.symm.trans ht)
      exact ⟨fun _ => ⟨hreleased, h.before_of_resolved ht hresolved⟩, fun _ => rfl⟩
    · refine ⟨hj, fun u hji hu => ?_⟩
      subst hji
      obtain ⟨⟨v, hv, -, hswept⟩, -⟩ := h.slot key j hj
      obtain rfl := Option.some.inj (hu.symm.trans hv)
      exact hswept

theorem Chained.sweep [DecidableEq K] (h : Chained c) (hnext : c.sweep i = some c') : Chained c' := by
  unfold Chains.sweep at hnext
  cases ht : c.tickets[i]? with
  | none => simp [ht] at hnext
  | some t =>
    simp only [ht, Option.ite_none_right_eq_some, Bool.and_eq_true] at hnext
    obtain ⟨⟨hsettled, -⟩, hnext⟩ := hnext
    obtain rfl := Option.some.inj hnext
    have hbefore := (h.settled i t ht hsettled).2
    refine h.change i (fun t => { t with swept := true }) (fun _ => rfl) (fun _ => rfl)
      (fun _ hs => hs) (fun u hu => ?_) (fun key j hj => ?_) (fun key hnone => ?_)
    · obtain rfl := Option.some.inj (hu.symm.trans ht)
      exact ⟨fun _ => h.settled i u hu hsettled, fun _ => hsettled⟩
    · -- What is left in the map is not the tail that has been taken out.
      have hother : c.slots key = some j ∧ j ≠ i := by
        split at hj
        · rename_i hown
          by_cases hkey : key = t.key
          · subst hkey
            rw [Function.update_self] at hj
            cases hj
          · rw [Function.update_of_ne hkey] at hj
            refine ⟨hj, fun heq => hkey ?_⟩
            subst heq
            obtain ⟨⟨u, hu, hukey, -⟩, -⟩ := h.slot key j hj
            obtain rfl := Option.some.inj (hu.symm.trans ht)
            exact hukey.symm
        · rename_i hother
          refine ⟨hj, fun heq => hother ?_⟩
          subst heq
          obtain ⟨⟨u, hu, hukey, -⟩, -⟩ := h.slot key j hj
          obtain rfl := Option.some.inj (hu.symm.trans ht)
          rwa [hukey]
      exact ⟨hother.1, fun _ heq => absurd heq hother.2⟩
    · split at hnone
      · rename_i hown
        by_cases hkey : key = t.key
        · subst hkey
          -- Its tail was the last one of the key.
          intro m u _ hu hukey
          rcases Nat.lt_trichotomy m i with hmi | rfl | him
          · exact hbefore m u hmi hu hukey
          · obtain rfl := Option.some.inj (hu.symm.trans ht)
            exact hsettled
          · exact absurd hukey ((h.slot t.key i hown).2 m u him hu)
        · rw [Function.update_of_ne hkey] at hnone
          exact h.empty key hnone
      · exact h.empty key hnone

/-- When everyone is over and nothing is left to run, the map is empty. -/
theorem Chained.idle [DecidableEq K] (h : Chained c)
    (hover : ∀ i key ended, view c i = some (key, ended) → ended = true)
    (hsettle : ∀ i, c.settle i = none) (hsweep : ∀ i, c.sweep i = none) (key : K) :
    c.slots key = none := by
  have hreleased : ∀ (i : Nat) (t : Ticket K), c.tickets[i]? = some t → t.released = true :=
    fun i t ht => hover i t.key t.released (by simp [view, ht])
  have hall : ∀ (i : Nat) (t : Ticket K), c.tickets[i]? = some t → t.settled = true := by
    intro i
    induction i using Nat.strongRecOn with
    | ind i ih =>
      intro t ht
      have hresolved : c.resolved t.previous = true := by
        cases hprevious : t.previous with
        | none => rfl
        | some j =>
          obtain ⟨hlt, ⟨u, hu, -⟩, -⟩ := h.previous i t j ht hprevious
          simp [Chains.resolved, hu, ih j hlt u hu]
      have hnone := hsettle i
      simp only [Chains.settle, ht, hreleased i t ht, hresolved, Bool.and_self, Bool.true_and] at hnone
      cases hs : t.settled with
      | true => rfl
      | false => simp [hs] at hnone
  cases hslot : c.slots key with
  | none => rfl
  | some i =>
    obtain ⟨⟨t, ht, -, hswept⟩, -⟩ := h.slot key i hslot
    have hnone := hsweep i
    simp [Chains.sweep, ht, hall i t ht, hswept] at hnone

end PromiseChains
