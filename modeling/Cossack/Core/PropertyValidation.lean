import Cossack.Lib.Runs
import Mathlib.Data.List.Basic

/-! # Validation of properties

    `validateProperty` and `validateAll` of one component, with edits of its values and
    the answers of asynchronous rules in any order.  `validateValue` is the function
    `check` of a property's rules; an answer is whether `customAsync` fulfilled with a
    truthy value. -/

namespace Cossack.Core.PropertyValidation

open Runs

/-! ## Section 1: Rules -/

variable {P V : Type}

inductive Trigger where
  | input
  | blur
  | submit
  deriving DecidableEq

inductive RunOn where
  | client
  | server
  | both

structure PropertyRules (V : Type) where
  /-- `validateValue`: the message, or the coerced value. -/
  check : V → Except String V
  customAsync : Bool
  /-- `rules.message`, or the default one for `customAsync`. -/
  asyncMessage : String
  /-- Without a trigger it is `all`. -/
  trigger : Option Trigger
  runOn : RunOn

/-- `message || 'Validation failed'` -/
def orFailed (message : String) : String := if message.isEmpty then "Validation failed" else message

/-- The message of `validateValueAsync`; `none` is a valid value. -/
def PropertyRules.verdict (r : PropertyRules V) (value : V) (answer : Bool) : Option String :=
  match r.check value with
  | .error message => some message
  | .ok _ => if r.customAsync && !answer then some r.asyncMessage else none

/-- Whether the rules run on this side. -/
def PropertyRules.runsOn (r : PropertyRules V) (isServer : Bool) : Bool :=
  match r.runOn with
  | .client => !isServer
  | .server => isServer
  | .both => true

/-! ## Section 2: The component -/

structure Call (P V : Type) where
  property : P
  trigger : Option Trigger
  /-- The value that it was started on. -/
  value : V
  /-- A call that has nothing to validate takes no id. -/
  requestId : Option Nat
  /-- What the asynchronous rule said. -/
  answer : Option Bool
  result : Option Bool

/-- The calls of one `validateAll`. -/
structure All where
  trigger : Option Trigger
  calls : List Nat

structure Component (P V : Type) where
  isServer : Bool
  names : List P
  rules : P → Option (PropertyRules V)
  values : P → V
  errors : P → Option String
  requestIds : P → Nat
  calls : List (Call P V)
  alls : List All

variable [DecidableEq P]

namespace Component

variable (c : Component P V)

def setError (p : P) (message : String) : Component P V :=
  { c with errors := fun q => if q = p then some (orFailed message) else c.errors q }

def clearError (p : P) : Component P V :=
  { c with errors := fun q => if q = p then none else c.errors q }

def bumpRequestId (p : P) : Component P V :=
  { c with requestIds := fun q => if q = p then c.requestIds q + 1 else c.requestIds q }

def push (call : Call P V) : Component P V := { c with calls := c.calls ++ [call] }

/-- A call that starts now. -/
def call (p : P) (trigger : Option Trigger) (requestId : Option Nat) (result : Option Bool) :
    Call P V :=
  { property := p, trigger, value := c.values p, requestId, answer := none, result }

/-- Whether a trigger hint leaves the property out. -/
def skips (r : PropertyRules V) (trigger : Option Trigger) : Bool :=
  trigger.isSome && r.trigger.isSome && trigger != r.trigger

/-- `validateProperty` up to its `await`, or to its end if there is none. -/
def validateProperty (p : P) (trigger : Option Trigger) : Component P V :=
  match c.rules p with
  | none => c.push (c.call p trigger none (some true))
  | some r =>
      if skips r trigger then c.push (c.call p trigger none (some true))
      else
        let c := c.bumpRequestId p
        let requestId := some (c.requestIds p)
        if r.runsOn c.isServer then
          if c.isServer then c.push (c.call p trigger requestId none)
          else match r.check (c.values p) with
            | .error message => (c.setError p message).push (c.call p trigger requestId (some false))
            | .ok _ =>
                if r.customAsync then c.push (c.call p trigger requestId none)
                else (c.clearError p).push (c.call p trigger requestId (some true))
        else (c.clearError p).push (c.call p trigger requestId (some true))

/-- Each property in turn, with no `await` in between. -/
def validateAll (trigger : Option Trigger) : Component P V :=
  let next := c.names.foldl (fun c p => c.validateProperty p trigger) c
  { next with alls := next.alls ++ [⟨trigger, List.range' c.calls.length c.names.length⟩] }

def settle (i : Nat) (answer result : Bool) : Component P V :=
  { c with calls := c.calls.modify i fun call =>
      { call with answer := some answer, result := some result } }

/-- After `await validateValueAsync`: a stale call still returns the `isValid` that it
    began with. -/
def finish (i : Nat) (call : Call P V) (r : PropertyRules V) (answer : Bool) : Component P V :=
  if call.requestId ≠ some (c.requestIds call.property) then c.settle i answer true
  else match r.verdict call.value answer with
    | some message => (c.setError call.property message).settle i answer false
    | none => (c.clearError call.property).settle i answer true

end Component

inductive Event (P V : Type) where
  | edit (p : P) (value : V)
  | validateProperty (p : P) (trigger : Option Trigger)
  | validateAll (trigger : Option Trigger)
  | finish (i : Nat) (answer : Bool)

def step (c : Component P V) : Event P V → Option (Component P V)
  | .edit p value => some { c with values := fun q => if q = p then value else c.values q }
  | .validateProperty p trigger => some (c.validateProperty p trigger)
  | .validateAll trigger => some (c.validateAll trigger)
  | .finish i answer =>
      match c.calls[i]? with
      | some call =>
          match call.result, c.rules call.property with
          | none, some r => some (c.finish i call r answer)
          | _, _ => none
      | none => none

/-- A component before its first validation. -/
def Component.start (isServer : Bool) (names : List P) (rules : P → Option (PropertyRules V))
    (values : P → V) : Component P V :=
  { isServer, names, rules, values, errors := fun _ => none, requestIds := fun _ => 0, calls := [],
    alls := [] }

/-! ## Section 3: What the calls promise -/

/-- The value passes all rules, with this answer of the asynchronous one. -/
def PropertyRules.Satisfied (r : PropertyRules V) (value : V) (answer : Option Bool) : Prop :=
  (∃ coerced, r.check value = .ok coerced) ∧ (r.customAsync = true → answer = some true)

namespace Component

variable (c : Component P V)

/-- A call without a trigger hint returns true only for a value that passes. -/
def SoundCall (call : Call P V) : Prop :=
  call.result = some true → call.trigger = none →
    ∀ r, c.rules call.property = some r → r.runsOn c.isServer = true →
      r.Satisfied call.value call.answer

/-- `validateAll` without a trigger hint returns true only if every value passes. -/
def SoundAll (all : All) : Prop :=
  (∀ i ∈ all.calls, ∃ call, c.calls[i]? = some call ∧ call.result = some true) → all.trigger = none →
    ∀ p ∈ c.names, ∀ r, c.rules p = some r → r.runsOn c.isServer = true →
      ∃ i ∈ all.calls, ∃ call, c.calls[i]? = some call ∧ call.property = p ∧
        r.Satisfied call.value call.answer

/-- The error that a validation leaves. -/
def shown (call : Call P V) : Option String :=
  match c.rules call.property with
  | none => none
  | some r =>
      if r.runsOn c.isServer then (r.verdict call.value (call.answer.getD false)).map orFailed
      else none

/-- The validation of a property that was started last, once it is over, is the one
    whose verdict is displayed. -/
def Shows : Prop :=
  ∀ before call after, c.calls = before ++ call :: after → call.requestId.isSome = true →
    (∀ later ∈ after, later.property = call.property → later.requestId = none) →
    call.result.isSome = true → c.errors call.property = c.shown call

structure Holds : Prop where
  calls : ∀ call ∈ c.calls, c.SoundCall call
  alls : ∀ all ∈ c.alls, c.SoundAll all
  shows : c.Shows

end Component

/-- A call that was overtaken while its asynchronous rule was running has a value that
    passes. -/
def Harmless (c : Component P V) : Event P V → Prop
  | .finish i answer =>
      ∀ call, c.calls[i]? = some call → call.trigger = none →
        call.requestId ≠ some (c.requestIds call.property) →
        ∀ r, c.rules call.property = some r → r.verdict call.value answer = none
  | _ => True

/-! ## Section 4: The invariant -/

namespace Component

/-- Properties and request ids, in the order of the calls. -/
def ids (c : Component P V) : List (P × Option Nat) :=
  c.calls.map fun call => (call.property, call.requestId)

end Component

structure Inv (c : Component P V) : Prop where
  running : ∀ call ∈ c.calls, call.result = none → ∃ r, c.rules call.property = some r ∧
    r.runsOn c.isServer = true ∧ (c.isServer = false → ∃ coerced, r.check call.value = .ok coerced)
  le : ∀ e ∈ c.ids, ∀ id, e.2 = some id → id ≤ c.requestIds e.1
  order : c.ids.Pairwise fun a b => a.1 = b.1 → ∀ x y, a.2 = some x → b.2 = some y → x < y
  latest : ∀ p, c.requestIds p = 0 ∨ (p, some (c.requestIds p)) ∈ c.ids
  shown : ∀ call ∈ c.calls, call.requestId = some (c.requestIds call.property) →
    call.result.isSome = true → c.errors call.property = c.shown call
  alls : ∀ all ∈ c.alls, ∀ p ∈ c.names, ∃ i ∈ all.calls, ∃ call, c.calls[i]? = some call ∧
    call.property = p ∧ call.trigger = all.trigger

section invariant
variable {c c' : Component P V} {p : P} {trigger : Option Trigger}

/-- What no event changes. -/
structure Same (c c' : Component P V) : Prop where
  isServer : c'.isServer = c.isServer
  names : c'.names = c.names
  rules : c'.rules = c.rules

omit [DecidableEq P] in
theorem Same.soundCall (h : Same c c') (call : Call P V) : c'.SoundCall call ↔ c.SoundCall call := by
  simp only [Component.SoundCall, h.rules, h.isServer]

omit [DecidableEq P] in
theorem Same.shown (h : Same c c') (call : Call P V) : c'.shown call = c.shown call := by
  simp only [Component.shown, h.rules, h.isServer]

omit [DecidableEq P] in
theorem getElem?_of_prefix {calls calls' : List (Call P V)} {i : Nat} {call : Call P V}
    (h : calls[i]? = some call) : (calls ++ calls')[i]? = some call := by
  rw [List.getElem?_append_left (List.getElem?_eq_some_iff.mp h).1, h]

omit [DecidableEq P] in
theorem inv_start (isServer : Bool) (names : List P) (rules : P → Option (PropertyRules V))
    (values : P → V) : Inv (Component.start isServer names rules values) :=
  ⟨nofun, nofun, .nil, fun _ => .inl rfl, nofun, nofun⟩

omit [DecidableEq P] in
/-- A call that takes no id. -/
theorem Inv.skipped (h : Inv c) (p : P) (trigger : Option Trigger) :
    Inv (c.push (c.call p trigger none (some true))) := by
  have hids : (c.push (c.call p trigger none (some true))).ids = c.ids ++ [(p, none)] := by
    simp [Component.ids, Component.push, Component.call]
  refine ⟨?_, ?_, ?_, ?_, ?_, ?_⟩
  · intro call hcall hresult
    rcases List.mem_append.mp hcall with hcall | hcall
    · exact h.running call hcall hresult
    · obtain rfl := List.mem_singleton.mp hcall
      cases hresult
  · intro e he id hid
    rw [hids] at he
    rcases List.mem_append.mp he with he | he
    · exact h.le e he id hid
    · obtain rfl := List.mem_singleton.mp he
      cases hid
  · rw [hids]
    refine List.pairwise_append.mpr ⟨h.order, List.pairwise_singleton _ _, ?_⟩
    intro a _ b hb _ x y _ hy
    obtain rfl := List.mem_singleton.mp hb
    cases hy
  · intro q
    rw [hids]
    exact (h.latest q).imp id fun hmem => List.mem_append_left _ hmem
  · intro call hcall hid hresult
    rcases List.mem_append.mp hcall with hcall | hcall
    · exact h.shown call hcall hid hresult
    · obtain rfl := List.mem_singleton.mp hcall
      cases hid
  · intro all hall q hq
    obtain ⟨i, hi, call, hcall, hrest⟩ := h.alls all hall q hq
    exact ⟨i, hi, call, getElem?_of_prefix hcall, hrest⟩

/-- A call that takes the next id of its property. -/
theorem Inv.started (h : Inv c) {result : Option Bool} (hsame : Same c c')
    (hcalls : c'.calls = c.calls ++ [c.call p trigger (some (c.requestIds p + 1)) result])
    (hids : c'.requestIds = (c.bumpRequestId p).requestIds) (halls : c'.alls = c.alls)
    (herrors : ∀ q, q ≠ p → c'.errors q = c.errors q)
    (hrunning : result = none → ∃ r, c.rules p = some r ∧ r.runsOn c.isServer = true ∧
      (c.isServer = false → ∃ coerced, r.check (c.values p) = .ok coerced))
    (hshown : result.isSome = true →
      c'.errors p = c.shown (c.call p trigger (some (c.requestIds p + 1)) result)) : Inv c' := by
  have hall : c'.ids = c.ids ++ [(p, some (c.requestIds p + 1))] := by
    simp [Component.ids, hcalls, Component.call]
  have hat : c'.requestIds p = c.requestIds p + 1 := by simp [hids, Component.bumpRequestId]
  have hne (q : P) (hq : q ≠ p) : c'.requestIds q = c.requestIds q := by
    simp [hids, Component.bumpRequestId, hq]
  have hmono (q : P) : c.requestIds q ≤ c'.requestIds q := by
    by_cases hq : q = p
    · subst hq
      rw [hat]
      exact Nat.le_succ _
    · exact Nat.le_of_eq (hne q hq).symm
  refine ⟨?_, ?_, ?_, ?_, ?_, ?_⟩
  · intro call hcall hresult
    rw [hsame.rules, hsame.isServer]
    rw [hcalls] at hcall
    rcases List.mem_append.mp hcall with hcall | hcall
    · exact h.running call hcall hresult
    · obtain rfl := List.mem_singleton.mp hcall
      exact hrunning hresult
  · intro e he id hid
    rw [hall] at he
    rcases List.mem_append.mp he with he | he
    · exact Nat.le_trans (h.le e he id hid) (hmono e.1)
    · obtain rfl := List.mem_singleton.mp he
      cases hid
      exact Nat.le_of_eq hat.symm
  · rw [hall]
    refine List.pairwise_append.mpr ⟨h.order, List.pairwise_singleton _ _, ?_⟩
    intro a ha b hb hab x y hx hy
    obtain rfl := List.mem_singleton.mp hb
    cases hy
    have hle := h.le a ha x hx
    rw [show a.1 = p from hab] at hle
    exact Nat.lt_succ_of_le hle
  · intro q
    by_cases hq : q = p
    · subst hq
      rw [hat, hall]
      exact .inr (List.mem_append_right _ (List.mem_singleton_self _))
    · rw [hne q hq, hall]
      exact (h.latest q).imp id fun hmem => List.mem_append_left _ hmem
  · intro call hcall hid hresult
    rw [hsame.shown]
    rw [hcalls] at hcall
    rcases List.mem_append.mp hcall with hold | hnew
    · have hle := h.le _ (List.mem_map_of_mem hold) _ hid
      have hq : call.property ≠ p := by
        intro hq
        rw [hq, hat] at hle
        exact absurd hle (Nat.not_succ_le_self _)
      rw [herrors _ hq]
      exact h.shown call hold (by rw [hid, hne _ hq]) hresult
    · obtain rfl := List.mem_singleton.mp hnew
      exact hshown hresult
  · intro all hall' q hq
    rw [halls] at hall'
    rw [hsame.names] at hq
    obtain ⟨i, hi, call, hcall, hrest⟩ := h.alls all hall' q hq
    exact ⟨i, hi, call, by rw [hcalls]; exact getElem?_of_prefix hcall, hrest⟩

/-- What `validateProperty` adds: one call, which is sound if it is over. -/
theorem Inv.validateProperty (h : Inv c) (p : P) (trigger : Option Trigger) :
    Inv (c.validateProperty p trigger) ∧ Same c (c.validateProperty p trigger) ∧
      (c.validateProperty p trigger).alls = c.alls ∧
      ∃ call, (c.validateProperty p trigger).calls = c.calls ++ [call] ∧ call.property = p ∧
        call.trigger = trigger ∧ c.SoundCall call := by
  unfold Component.validateProperty
  cases hrules : c.rules p with
  | none =>
    refine ⟨h.skipped p trigger, ⟨rfl, rfl, rfl⟩, rfl, _, rfl, rfl, rfl, ?_⟩
    intro _ _ r hr
    exact absurd (hrules.symm.trans hr) nofun
  | some r =>
    have hsound {call : Call P V} (hproperty : call.property = p)
        (hcall : call.result = some true → call.trigger = none → r.runsOn c.isServer = true →
          r.Satisfied call.value call.answer) : c.SoundCall call := by
      intro hresult htrigger r' hr' hruns
      rw [hproperty, hrules] at hr'
      obtain rfl := Option.some.inj hr'
      exact hcall hresult htrigger hruns
    have hshown (result : Option Bool) :
        c.shown (c.call p trigger (some (c.requestIds p + 1)) result) =
          if r.runsOn c.isServer then (r.verdict (c.values p) false).map orFailed else none := by
      simp only [Component.shown, Component.call, hrules, Option.getD_none]
    have hid : (c.bumpRequestId p).requestIds p = c.requestIds p + 1 := by
      simp [Component.bumpRequestId]
    dsimp only
    split
    · rename_i hskips
      refine ⟨h.skipped p trigger, ⟨rfl, rfl, rfl⟩, rfl, _, rfl, rfl, rfl, hsound rfl ?_⟩
      intro _ htrigger
      rw [show trigger = none from htrigger] at hskips
      exact absurd hskips nofun
    · rw [hid]
      have hruns' : (c.bumpRequestId p).isServer = c.isServer := rfl
      rw [hruns']
      cases hruns : r.runsOn c.isServer with
      | false =>
        rw [if_neg Bool.false_ne_true]
        refine ⟨h.started ⟨rfl, rfl, rfl⟩ rfl rfl rfl ?_ nofun ?_, ⟨rfl, rfl, rfl⟩, rfl, _, rfl, rfl, rfl,
          hsound rfl fun _ _ hr => absurd (hruns.symm.trans hr) nofun⟩
        · intro q hq
          exact if_neg hq
        · intro _
          rw [hshown, hruns]
          exact if_pos rfl
      | true =>
        rw [if_pos rfl]
        cases hserver : c.isServer with
        | true =>
          rw [if_pos rfl]
          refine ⟨h.started ⟨rfl, rfl, rfl⟩ rfl rfl rfl (fun _ _ => rfl) ?_ nofun, ⟨rfl, rfl, rfl⟩, rfl,
            _, rfl, rfl, rfl, hsound rfl nofun⟩
          intro _
          exact ⟨r, hrules, hruns, fun hclient => absurd (hserver.symm.trans hclient) nofun⟩
        | false =>
          rw [if_neg Bool.false_ne_true]
          have hvalues : (c.bumpRequestId p).values p = c.values p := rfl
          rw [hvalues]
          cases hcheck : r.check (c.values p) with
          | error message =>
            refine ⟨h.started ⟨rfl, rfl, rfl⟩ rfl rfl rfl ?_ nofun ?_, ⟨rfl, rfl, rfl⟩, rfl, _, rfl, rfl,
              rfl, hsound rfl nofun⟩
            · intro q hq
              exact if_neg hq
            · intro _
              rw [hshown, hruns]
              simp [Component.push, Component.setError, PropertyRules.verdict, hcheck]
          | ok coerced =>
            cases hasync : r.customAsync with
            | true =>
              refine ⟨h.started ⟨rfl, rfl, rfl⟩ rfl rfl rfl (fun _ _ => rfl) ?_ nofun, ⟨rfl, rfl, rfl⟩,
                rfl, _, rfl, rfl, rfl, hsound rfl nofun⟩
              exact fun _ => ⟨r, hrules, hruns, fun _ => ⟨coerced, hcheck⟩⟩
            | false =>
              refine ⟨h.started ⟨rfl, rfl, rfl⟩ rfl rfl rfl ?_ nofun ?_, ⟨rfl, rfl, rfl⟩, rfl, _, rfl,
                rfl, rfl, hsound rfl fun _ _ _ => ⟨⟨coerced, hcheck⟩, fun ha => ?_⟩⟩
              · intro q hq
                exact if_neg hq
              · intro _
                rw [hshown, hruns]
                simp [Component.push, Component.clearError, PropertyRules.verdict, hcheck, hasync]
              · exact absurd (hasync.symm.trans ha) nofun

/-- One call for each property, in their order. -/
theorem Inv.validateEach (names : List P) (trigger : Option Trigger) :
    ∀ c : Component P V, Inv c → ∀ c', c' = names.foldl (fun c p => c.validateProperty p trigger) c →
      Inv c' ∧ Same c c' ∧ c'.alls = c.alls ∧ ∃ calls, c'.calls = c.calls ++ calls ∧
        calls.map Call.property = names ∧
        ∀ call ∈ calls, call.trigger = trigger ∧ c.SoundCall call := by
  induction names with
  | nil =>
    rintro c h _ rfl
    exact ⟨h, ⟨rfl, rfl, rfl⟩, rfl, [], by simp, rfl, nofun⟩
  | cons p names ih =>
    rintro c h _ rfl
    obtain ⟨hnext, hsame, halls, call, hcalls, hproperty, htrigger, hsound⟩ := h.validateProperty p trigger
    obtain ⟨hlast, hsame', halls', calls, hcalls', hproperties, hall⟩ := ih _ hnext _ rfl
    refine ⟨hlast, ⟨hsame'.isServer.trans hsame.isServer, hsame'.names.trans hsame.names,
      hsame'.rules.trans hsame.rules⟩, halls'.trans halls, call :: calls, ?_, ?_, ?_⟩
    · rw [List.foldl_cons, hcalls', hcalls, List.append_assoc]
      rfl
    · rw [List.map_cons, hproperty, hproperties]
    · refine List.forall_mem_cons.mpr ⟨⟨htrigger, hsound⟩, fun later hlater => ?_⟩
      obtain ⟨ht, hs⟩ := hall later hlater
      exact ⟨ht, (hsame.soundCall later).mp hs⟩

theorem Inv.validateAll (h : Inv c) (trigger : Option Trigger) :
    Inv (c.validateAll trigger) ∧ Same c (c.validateAll trigger) ∧
      ∃ calls, (c.validateAll trigger).calls = c.calls ++ calls ∧ ∀ call ∈ calls, c.SoundCall call := by
  obtain ⟨hnext, hsame, halls, calls, hcalls, hproperties, hall⟩ :=
    h.validateEach c.names trigger c _ rfl
  refine ⟨⟨hnext.running, hnext.le, hnext.order, hnext.latest, hnext.shown, ?_⟩,
    ⟨hsame.isServer, hsame.names, hsame.rules⟩, calls, hcalls,
    fun call hcall => (hall call hcall).2⟩
  intro all hmem p hp
  rcases List.mem_append.mp hmem with hmem | hmem
  · exact hnext.alls all hmem p hp
  · obtain rfl := List.mem_singleton.mp hmem
    -- the call of the property stands at its place behind the older ones
    have hp : p ∈ calls.map Call.property := by
      rw [hproperties]
      exact hsame.names ▸ hp
    obtain ⟨k, hk⟩ := List.mem_iff_getElem?.mp hp
    rw [List.getElem?_map] at hk
    obtain ⟨call, hcall, hproperty⟩ := Option.map_eq_some_iff.mp hk
    have hlt : k < c.names.length := by
      have hlength : calls.length = c.names.length := by rw [← hproperties, List.length_map]
      have := (List.getElem?_eq_some_iff.mp hcall).1
      omega
    refine ⟨c.calls.length + k, List.mem_range'_1.mpr ⟨by omega, by omega⟩, call, ?_, hproperty,
      (hall call (List.mem_of_getElem? hcall)).1⟩
    show (c.names.foldl (fun c p => c.validateProperty p trigger) c).calls[_]? = _
    rw [hcalls, List.getElem?_append_right (by omega), Nat.add_sub_cancel_left, hcall]

/-- The call whose asynchronous rule has answered. -/
def answered (call : Call P V) (answer result : Bool) : Call P V :=
  { call with answer := some answer, result := some result }

theorem satisfied_iff (r : PropertyRules V) (value : V) (answer : Bool) :
    r.Satisfied value (some answer) ↔ r.verdict value answer = none := by
  unfold PropertyRules.Satisfied PropertyRules.verdict
  cases r.check value with
  | error message => simp
  | ok coerced => cases r.customAsync <;> cases answer <;> simp

omit [DecidableEq P] in
/-- The calls after one of them is over. -/
theorem mem_settle {i : Nat} {call : Call P V} (hi : c.calls[i]? = some call) (answer result : Bool)
    (x : Call P V) : x ∈ (c.settle i answer result).calls ↔
      x = answered call answer result ∨ ∃ k, k ≠ i ∧ c.calls[k]? = some x := by
  have hget (k : Nat) : (c.settle i answer result).calls[k]? =
      if i = k then some (answered call answer result) else c.calls[k]? := by
    simp only [Component.settle, List.getElem?_modify]
    by_cases hk : i = k
    · subst hk
      simp [hi, answered]
    · simp [hk]
  constructor
  · intro hx
    obtain ⟨k, hk⟩ := List.mem_iff_getElem?.mp hx
    rw [hget] at hk
    split at hk
    · exact .inl (Option.some.inj hk).symm
    · rename_i hne
      exact .inr ⟨k, Ne.symm hne, hk⟩
  · rintro (rfl | ⟨k, hne, hk⟩)
    · exact List.mem_of_getElem? (by rw [hget, if_pos rfl])
    · exact List.mem_of_getElem? (by rw [hget, if_neg (Ne.symm hne), hk])

omit [DecidableEq P] in
theorem ids_settle (i : Nat) (answer result : Bool) : (c.settle i answer result).ids = c.ids := by
  refine List.ext_getElem? fun k => ?_
  simp only [Component.ids, Component.settle, List.getElem?_map, List.getElem?_modify]
  cases c.calls[k]? with
  | none => rfl
  | some call => by_cases hk : i = k <;> simp [hk]

omit [DecidableEq P] in
/-- Two calls of one property have different ids. -/
theorem Inv.ids_inj (h : Inv c) {i k : Nat} {a b : Call P V} {id : Nat} (hi : c.calls[i]? = some a)
    (hk : c.calls[k]? = some b) (hab : a.property = b.property) (ha : a.requestId = some id)
    (hb : b.requestId = some id) : i = k := by
  have hget {j : Nat} {x : Call P V} (hx : c.calls[j]? = some x) :
      c.ids[j]? = some (x.property, x.requestId) := by simp [Component.ids, hx]
  obtain ⟨hil, hia⟩ := List.getElem?_eq_some_iff.mp (hget hi)
  obtain ⟨hkl, hkb⟩ := List.getElem?_eq_some_iff.mp (hget hk)
  have horder := List.pairwise_iff_getElem.mp h.order
  rcases Nat.lt_trichotomy i k with hlt | heq | hgt
  · have := horder i k hil hkl hlt
    rw [hia, hkb] at this
    exact absurd (this hab id id ha hb) (Nat.lt_irrefl id)
  · exact heq
  · have := horder k i hkl hil hgt
    rw [hia, hkb] at this
    exact absurd (this hab.symm id id hb ha) (Nat.lt_irrefl id)

/-- A call is over, with the error of its property as it says. -/
theorem Inv.settled (h : Inv c) {i : Nat} {call : Call P V} (hi : c.calls[i]? = some call)
    {answer result : Bool} {errors : P → Option String}
    (hothers : ∀ q, q ≠ call.property → errors q = c.errors q)
    (hstale : call.requestId ≠ some (c.requestIds call.property) →
      errors call.property = c.errors call.property)
    (hfresh : call.requestId = some (c.requestIds call.property) →
      errors call.property = c.shown (answered call answer result)) :
    Inv (Component.settle { c with errors } i answer result) := by
  have hmem := mem_settle (c := { c with errors }) hi answer result
  refine ⟨?_, ?_, ?_, ?_, ?_, ?_⟩
  · intro x hx hresult
    rcases (hmem x).mp hx with rfl | ⟨k, -, hk⟩
    · cases hresult
    · exact h.running x (List.mem_of_getElem? hk) hresult
  · rw [ids_settle]
    exact h.le
  · rw [ids_settle]
    exact h.order
  · rw [ids_settle]
    exact h.latest
  · intro x hx hid hresult
    show errors x.property = c.shown x
    rcases (hmem x).mp hx with rfl | ⟨k, hne, hk⟩
    · exact hfresh hid
    · have hold := h.shown x (List.mem_of_getElem? hk) hid hresult
      rw [← hold]
      by_cases hproperty : x.property = call.property
      · rw [hproperty]
        refine hstale fun hcall => hne ?_
        exact h.ids_inj hk hi hproperty hid (by rw [hcall, hproperty]; rfl)
      · exact hothers _ hproperty
  · intro all hall p hp
    obtain ⟨k, hk, x, hx, hproperty, htrigger⟩ := h.alls all hall p hp
    refine ⟨k, hk, if i = k then answered x answer result else x, ?_, ?_, ?_⟩
    · simp only [Component.settle, List.getElem?_modify, hx]
      by_cases hik : i = k <;> simp [hik, answered]
    · split <;> exact hproperty
    · split <;> exact htrigger

/-- The end of a call: it keeps the invariant, and it is sound unless it was overtaken
    and its value fails. -/
theorem Inv.finish (h : Inv c) {i : Nat} {call : Call P V} {r : PropertyRules V}
    (hi : c.calls[i]? = some call) (hrules : c.rules call.property = some r)
    (hruns : r.runsOn c.isServer = true) (answer : Bool) :
    Inv (c.finish i call r answer) ∧ Same c (c.finish i call r answer) ∧
      ∃ result, (∀ x, x ∈ (c.finish i call r answer).calls ↔
        x = answered call answer result ∨ ∃ k, k ≠ i ∧ c.calls[k]? = some x) ∧
        (c.SoundCall (answered call answer result) ↔ Harmless c (.finish i answer)) := by
  have hshown (result : Bool) :
      c.shown (answered call answer result) = (r.verdict call.value answer).map orFailed := by
    simp [Component.shown, answered, hrules, hruns]
  have hsound : c.SoundCall (answered call answer true) ↔
      (call.trigger = none → r.verdict call.value answer = none) := by
    constructor
    · intro hs htrigger
      exact (satisfied_iff r call.value answer).mp (hs rfl htrigger r hrules hruns)
    · intro hv _ htrigger r' hr' _
      obtain rfl := Option.some.inj (hrules.symm.trans hr')
      exact (satisfied_iff r call.value answer).mpr (hv htrigger)
  have hharmless (hid : call.requestId = some (c.requestIds call.property)) :
      Harmless c (.finish i answer) := by
    intro x hx _ hne
    obtain rfl := Option.some.inj (hi.symm.trans hx)
    exact absurd hid hne
  unfold Component.finish
  split
  · rename_i hstale
    refine ⟨h.settled hi (fun _ _ => rfl) (fun _ => rfl) fun hid => absurd hid hstale, ⟨rfl, rfl, rfl⟩,
      true, mem_settle hi answer true, hsound.trans ?_⟩
    constructor
    · intro hv x hx htrigger _ r' hr'
      obtain rfl := Option.some.inj (hi.symm.trans hx)
      obtain rfl := Option.some.inj (hrules.symm.trans hr')
      exact hv htrigger
    · exact fun hs htrigger => hs call hi htrigger hstale r hrules
  · rename_i hfresh
    have hid := not_ne_iff.mp hfresh
    cases hverdict : r.verdict call.value answer with
    | some message =>
      refine ⟨h.settled hi (fun q hq => if_neg hq) (fun hstale => absurd hid hstale) fun _ => ?_,
        ⟨rfl, rfl, rfl⟩, false, mem_settle hi answer false, fun _ => hharmless hid, fun _ => nofun⟩
      rw [hshown, hverdict]
      exact if_pos rfl
    | none =>
      refine ⟨h.settled hi (fun q hq => if_neg hq) (fun hstale => absurd hid hstale) fun _ => ?_,
        ⟨rfl, rfl, rfl⟩, true, mem_settle hi answer true, fun _ => hharmless hid,
        fun _ => hsound.mpr fun _ => hverdict⟩
      rw [hshown, hverdict]
      exact if_pos rfl

/-- What one event does to the invariant and to the soundness of the calls. -/
theorem Inv.step {e : Event P V} (h : Inv c) (hstep : step c e = some c') : Inv c' ∧
    ((∀ call ∈ c'.calls, c'.SoundCall call) ↔
      (∀ call ∈ c.calls, c.SoundCall call) ∧ Harmless c e) := by
  cases e with
  | edit p value =>
    obtain rfl := Option.some.inj hstep
    exact ⟨⟨h.running, h.le, h.order, h.latest, h.shown, h.alls⟩, fun hs => ⟨hs, trivial⟩, And.left⟩
  | validateProperty p trigger =>
    obtain rfl := Option.some.inj hstep
    obtain ⟨hinv, hsame, -, call, hcalls, -, -, hsound⟩ := h.validateProperty p trigger
    refine ⟨hinv, ?_⟩
    simp only [hsame.soundCall, hcalls]
    constructor
    · exact fun hs => ⟨fun x hx => hs x (List.mem_append_left _ hx), trivial⟩
    · rintro ⟨hs, -⟩ x hx
      rcases List.mem_append.mp hx with hx | hx
      · exact hs x hx
      · exact List.mem_singleton.mp hx ▸ hsound
  | validateAll trigger =>
    obtain rfl := Option.some.inj hstep
    obtain ⟨hinv, hsame, calls, hcalls, hsound⟩ := h.validateAll trigger
    refine ⟨hinv, ?_⟩
    simp only [hsame.soundCall, hcalls]
    constructor
    · exact fun hs => ⟨fun x hx => hs x (List.mem_append_left _ hx), trivial⟩
    · rintro ⟨hs, -⟩ x hx
      rcases List.mem_append.mp hx with hx | hx
      · exact hs x hx
      · exact hsound x hx
  | finish i answer =>
    simp only [PropertyValidation.step] at hstep
    split at hstep
    · rename_i call hi
      split at hstep
      · rename_i r hresult hrules
        obtain rfl := Option.some.inj hstep
        obtain ⟨r', hr', hruns, -⟩ := h.running call (List.mem_of_getElem? hi) hresult
        obtain rfl := Option.some.inj (hrules.symm.trans hr')
        obtain ⟨hinv, hsame, result, hcalls, hsound⟩ := h.finish hi hrules hruns answer
        refine ⟨hinv, ?_⟩
        simp only [hsame.soundCall, hcalls]
        constructor
        · intro hs
          refine ⟨fun x hx => ?_, hsound.mp (hs _ (.inl rfl))⟩
          obtain ⟨k, hk⟩ := List.mem_iff_getElem?.mp hx
          by_cases hki : k = i
          · -- the call itself was still running
            subst hki
            obtain rfl := Option.some.inj (hi.symm.trans hk)
            intro hx
            exact absurd (hresult.symm.trans hx) nofun
          · exact hs x (.inr ⟨k, hki, hk⟩)
        · rintro ⟨hs, hharmless⟩ x (rfl | ⟨k, -, hk⟩)
          · exact hsound.mpr hharmless
          · exact hs x (List.mem_of_getElem? hk)
      · cases hstep
    · cases hstep

/-- Over a run: the invariant, and soundness exactly when every step is harmless. -/
theorem Inv.exec {events : List (Event P V)} : ∀ {c : Component P V}, Inv c →
    Runs.exec PropertyValidation.step c events = some c' → Inv c' ∧ ((∀ call ∈ c'.calls, c'.SoundCall call) ↔
      (∀ call ∈ c.calls, c.SoundCall call) ∧
        Admits PropertyValidation.step Harmless c events) := by
  induction events with
  | nil =>
    intro c h hexec
    obtain rfl := Option.some.inj hexec
    exact ⟨h, fun hs => ⟨hs, trivial⟩, And.left⟩
  | cons e rest ih =>
    intro c h hexec
    obtain ⟨next, hstep, hrest⟩ := Option.bind_eq_some_iff.mp hexec
    obtain ⟨hnext, hsound⟩ := h.step hstep
    obtain ⟨hlast, hlater⟩ := ih hnext hrest
    refine ⟨hlast, hlater.trans ⟨?_, ?_⟩⟩
    · rintro ⟨hs, hadmits⟩
      obtain ⟨hs, hharmless⟩ := hsound.mp hs
      refine ⟨hs, hharmless, fun t ht => ?_⟩
      obtain rfl := Option.some.inj (hstep.symm.trans ht)
      exact hadmits
    · rintro ⟨hs, hharmless, hadmits⟩
      exact ⟨hsound.mpr ⟨hs, hharmless⟩, hadmits next hstep⟩

/-! ## Section 5: Displayed errors -/

omit [DecidableEq P] in
/-- The validation that was started last has the latest id. -/
theorem Inv.shows (h : Inv c) : c.Shows := by
  intro before call after hsplit hstarted hlast hover
  obtain ⟨id, hid⟩ := Option.isSome_iff_exists.mp hstarted
  have hmem : call ∈ c.calls := by simp [hsplit]
  have hle : id ≤ c.requestIds call.property := h.le _ (List.mem_map_of_mem hmem) id hid
  refine h.shown call hmem ?_ hover
  rcases h.latest call.property with hzero | hlatest
  · rw [hid]
    exact congrArg some (by omega)
  · obtain ⟨x, hx, heq⟩ := List.mem_map.mp hlatest
    obtain ⟨hproperty, hxid⟩ := Prod.mk.inj heq
    rw [hsplit] at hx
    rcases List.mem_append.mp hx with hx | hx
    · -- an earlier call has a smaller id
      have horder := h.order
      rw [Component.ids, hsplit, List.map_append, List.map_cons] at horder
      have hlt := (List.pairwise_append.mp horder).2.2 _ (List.mem_map_of_mem hx) _ List.mem_cons_self
        hproperty _ id hxid hid
      omega
    · rcases List.mem_cons.mp hx with rfl | hx
      · exact hxid
      · exact absurd ((hlast x hx hproperty).symm.trans hxid) nofun

omit [DecidableEq P] in
/-- `validateAll` has a call for every property. -/
theorem Inv.soundAll (h : Inv c) (hsound : ∀ call ∈ c.calls, c.SoundCall call) {all : All}
    (hall : all ∈ c.alls) : c.SoundAll all := by
  intro htrue htrigger p hp r hr hruns
  obtain ⟨i, hi, call, hcall, hproperty, ht⟩ := h.alls all hall p hp
  obtain ⟨call', hcall', hresult⟩ := htrue i hi
  obtain rfl := Option.some.inj (hcall.symm.trans hcall')
  exact ⟨i, hi, call, hcall, hproperty, hsound call (List.mem_of_getElem? hcall) hresult
    (ht.trans htrigger) r (hproperty ▸ hr) hruns⟩

end invariant

/-- The validations of a run are sound, and the errors are those of the validations
    started last, exactly when no overtaken validation without a trigger hint fails. -/
theorem validations_hold_iff (isServer : Bool) (names : List P) (rules : P → Option (PropertyRules V))
    (values : P → V) {events : List (Event P V)} {c : Component P V}
    (h : exec step (.start isServer names rules values) events = some c) :
    c.Holds ↔ Admits step Harmless (.start isServer names rules values) events := by
  obtain ⟨hinv, hiff⟩ := Inv.exec (inv_start isServer names rules values) h
  constructor
  · exact fun hholds => (hiff.mp hholds.calls).2
  · intro hadmits
    have hsound := hiff.mpr ⟨nofun, hadmits⟩
    exact ⟨hsound, fun all hall => hinv.soundAll hsound hall, hinv.shows⟩

/-- A name that must be free, which only an asynchronous rule can tell. -/
def freeName : String → Option (PropertyRules String) := fun p =>
  if p = "name" then some ⟨.ok, true, "Taken", none, .both⟩ else none

theorem validations_hold_in_order : ∃ c,
    exec step (.start false ["name"] freeName fun _ => "ann") [.validateProperty "name" none,
      .finish 0 true] = some c ∧ c.Holds := by
  obtain ⟨c, hexec⟩ : ∃ c, exec step (.start false ["name"] freeName fun _ => "ann")
      [.validateProperty "name" none, .finish 0 true] = some c := ⟨_, rfl⟩
  refine ⟨c, hexec, (validations_hold_iff false ["name"] freeName (fun _ => "ann") hexec).mpr ?_⟩
  refine ⟨trivial, fun c hc => ⟨fun call hcall _ hstale => ?_, fun _ _ => trivial⟩⟩
  obtain rfl := Option.some.inj hc
  obtain rfl := Option.some.inj hcall
  exact absurd rfl hstale

/-- The first validation is overtaken, its name turns out to be taken, and it returns
    true. -/
theorem overtaken_validation : ∃ c,
    exec step (.start false ["name"] freeName fun _ => "ann") [.validateProperty "name" none,
      .edit "name" "bob", .validateProperty "name" none, .finish 0 false] = some c ∧
    (∃ call ∈ c.calls, call.property = "name" ∧ call.trigger = none ∧ call.result = some true ∧
      call.answer = some false) ∧ ¬ c.Holds := by
  refine ⟨_, rfl, ⟨_, List.mem_cons_self, rfl, rfl, rfl, rfl⟩, fun hholds => ?_⟩
  have hcall := hholds.calls _ List.mem_cons_self rfl rfl ⟨.ok, true, "Taken", none, .both⟩ rfl rfl
  exact absurd (hcall.2 rfl) (by decide)

end Cossack.Core.PropertyValidation
