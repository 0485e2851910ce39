import Cossack.Core.OptimisticEvents
import Cossack.Core.RpcState

/-! # Frames applied field by field

    What a frame does to one field can be read off the state before it.  A
    frame that throws has applied the fields up to the one that fails. -/

namespace Cossack.Core

variable {N L : Type}

/-! ## Section 1: Effects on one field -/

/-- What one round of a loop over a frame does to its field. -/
structure Effect (N L : Type) where
  key : String
  fails : Bool
  /-- The base or the property of the field is another one afterwards. -/
  changes : Bool
  current : Bool
  /-- The property afterwards, and the base of its field. -/
  value : Value N L
  base : Option (Value N L)

/-- The effects up to the first that fails. -/
def attempted : List (Effect N L) → List (Effect N L)
  | [] => []
  | effect :: rest => if effect.fails then [effect] else effect :: attempted rest

def baseOf (c : Component N L) (key : String) : Option (Value N L) :=
  (owned c key).map OwnedField.base

/-- The base and the property under `key` are the same. -/
def SameAt (before after : Component N L) (key : String) : Prop :=
  after.target key = before.target key ∧ baseOf after key = baseOf before key

theorem SameAt.trans {a b c : Component N L} {key : String} (h : SameAt a b key)
    (h' : SameAt b c key) : SameAt a c key :=
  ⟨h'.1.trans h.1, h'.2.trans h.2⟩

theorem SameAt.symm {a b : Component N L} {key : String} (h : SameAt a b key) : SameAt b a key :=
  ⟨h.1.symm, h.2.symm⟩

/-! ## Section 2: Loops over effects -/

/-- One round: what it leaves alone, whether it fails and what it changes. -/
structure Round (before after : Component N L) (effect : Effect N L) (failed : Bool) : Prop where
  others : ∀ key, key ≠ effect.key → after.target key = before.target key ∧
    owned after key = owned before key
  pending : ∀ id, pendingCall after id = pendingCall before id
  failed_iff : failed = effect.fails
  same_iff : SameAt before after effect.key ↔ effect.changes = false
  done : effect.fails = false → after.target effect.key = effect.value ∧
    baseOf after effect.key = effect.base

/-- The rounds of a loop that stops at the first that fails. -/
structure Rounds (before after : Component N L) (effects : List (Effect N L)) (failed : Bool) :
    Prop where
  failed_iff : failed = true ↔ ∃ effect ∈ effects, effect.fails = true
  same_iff : ∀ key, SameAt before after key ↔
    ∀ effect ∈ attempted effects, effect.key = key → effect.changes = false
  done : failed = false → ∀ effect ∈ effects, after.target effect.key = effect.value ∧
    baseOf after effect.key = effect.base

theorem Rounds.nil (c : Component N L) : Rounds c c [] false :=
  ⟨by simp, fun _ => ⟨fun _ _ hmem => (nomatch hmem), fun _ => ⟨rfl, rfl⟩⟩,
    fun _ _ hmem => (nomatch hmem)⟩

theorem attempted_subset (effects : List (Effect N L)) : attempted effects ⊆ effects := by
  induction effects with
  | nil => exact fun _ h => h
  | cons effect rest ih =>
    unfold attempted
    intro other hmem
    split at hmem
    · exact List.mem_cons.mpr (.inl (List.mem_singleton.mp hmem))
    · rcases List.mem_cons.mp hmem with rfl | hmem
      · exact List.mem_cons_self
      · exact List.mem_cons_of_mem _ (ih hmem)

theorem Round.same_elsewhere {before after : Component N L} {effect : Effect N L} {failed : Bool}
    (h : Round before after effect failed) {key : String} (hne : key ≠ effect.key) :
    SameAt before after key :=
  ⟨(h.others key hne).1, congrArg _ (h.others key hne).2⟩

/-- A failing round ends the loop. -/
theorem Rounds.stop {before after : Component N L} {effect : Effect N L}
    {rest : List (Effect N L)} (h : Round before after effect true) :
    Rounds before after (effect :: rest) true := by
  have hfails : effect.fails = true := h.failed_iff.symm
  have hattempted : attempted (effect :: rest) = [effect] := by simp [attempted, hfails]
  refine ⟨?_, ?_, fun hfalse => (nomatch hfalse)⟩
  · exact ⟨fun _ => ⟨effect, List.mem_cons_self, hfails⟩, fun _ => rfl⟩
  · intro key
    rw [hattempted]
    by_cases hkey : effect.key = key
    · subst hkey
      simp [h.same_iff]
    · simp [hkey, h.same_elsewhere (Ne.symm hkey)]

theorem Rounds.cons {before mid after : Component N L} {effect : Effect N L}
    {rest : List (Effect N L)} {failed : Bool} (h : Round before mid effect false)
    (hrest : Rounds mid after rest failed) (hkeys : ∀ other ∈ rest, other.key ≠ effect.key) :
    Rounds before after (effect :: rest) failed := by
  have hfails : effect.fails = false := h.failed_iff.symm
  have hattempted : attempted (effect :: rest) = effect :: attempted rest := by
    simp [attempted, hfails]
  -- the rest of the loop leaves the field of this round alone
  have hmid : SameAt mid after effect.key := (hrest.same_iff effect.key).mpr
    fun other hmem hkey => absurd hkey (hkeys other (attempted_subset rest hmem))
  refine ⟨?_, ?_, ?_⟩
  · rw [hrest.failed_iff]
    simp [hfails]
  · intro key
    rw [hattempted]
    by_cases hkey : effect.key = key
    · subst hkey
      have hothers : ∀ other ∈ attempted rest, other.key ≠ effect.key :=
        fun other hmem => hkeys other (attempted_subset rest hmem)
      constructor
      · intro hsame other hmem heq
        rcases List.mem_cons.mp hmem with rfl | hmem
        · exact h.same_iff.mp (hsame.trans hmid.symm)
        · exact absurd heq (hothers other hmem)
      · intro hall
        exact (h.same_iff.mpr (hall effect List.mem_cons_self rfl)).trans hmid
    · have helse := h.same_elsewhere (Ne.symm hkey)
      have hiff : SameAt before after key ↔ SameAt mid after key :=
        ⟨fun hsame => helse.symm.trans hsame, fun hsame => helse.trans hsame⟩
      rw [hiff, hrest.same_iff key]
      simp [hkey]
  · intro hfailed other hmem
    rcases List.mem_cons.mp hmem with rfl | hmem
    · exact ⟨hmid.1.trans (h.done hfails).1, hmid.2.trans (h.done hfails).2⟩
    · exact hrest.done hfailed other hmem

/-! ## Section 3: Rounds of the appliers -/

theorem owned_of_ledger {c : Component N L} {ledger : Ledger N L} (h : c.ledger = some ledger)
    (key : String) : owned c key = Entries.get ledger.fields key := by
  rw [owned, h]
  rfl

theorem pendingCall_of_ledger {c : Component N L} {ledger : Ledger N L}
    (h : c.ledger = some ledger) (id : Nat) : pendingCall c id = findCall ledger id := by
  rw [pendingCall, h]
  rfl

theorem assign_same (target : String → Value N L) (key : String) :
    assign target key (target key) = target := by
  funext k
  unfold assign
  split
  · next heq => rw [heq]
  · rfl

/-- A round that does nothing. -/
theorem Round.idle (c : Component N L) {effect : Effect N L}
    (hchanges : effect.changes = false)
    (hdone : effect.fails = false → c.target effect.key = effect.value ∧
      baseOf c effect.key = effect.base) :
    Round c c effect effect.fails :=
  ⟨fun _ _ => ⟨rfl, rfl⟩, fun _ => rfl, rfl, ⟨fun _ => hchanges, fun _ => ⟨rfl, rfl⟩⟩, hdone⟩

/-- A round that replaces one field and its property. -/
theorem Round.set {c : Component N L} {ledger : Ledger N L} (hledger : c.ledger = some ledger)
    (effect : Effect N L) {field : OwnedField N L}
    (hget : Entries.get ledger.fields effect.key = some field) (clock : Nat) (value : Value N L)
    (field' : OwnedField N L)
    (hsame : value = c.target effect.key ∧ field'.base = field.base ↔ effect.changes = false)
    (hdone : effect.fails = false → value = effect.value ∧ some field'.base = effect.base) :
    Round c
      { c with
        target := assign c.target effect.key value
        ledger := some (setField { ledger with clock } effect.key field') }
      effect effect.fails := by
  have hset : owned
      { c with
        target := assign c.target effect.key value
        ledger := some (setField { ledger with clock } effect.key field') } effect.key =
      some field' := Entries.get_set_self _ _ _
  refine ⟨?_, ?_, rfl, ?_, ?_⟩
  · intro key hne
    rw [owned_of_ledger hledger]
    exact ⟨assign_of_ne _ _ hne, Entries.get_set_of_ne _ _ (Ne.symm hne)⟩
  · intro id
    exact (pendingCall_of_ledger hledger id).symm
  · rw [← hsame, SameAt, baseOf, baseOf, owned_of_ledger hledger, hget, hset]
    simp
  · intro hfails
    refine ⟨(assign_self _ _ _).trans (hdone hfails).1, ?_⟩
    rw [baseOf, hset]
    exact (hdone hfails).2

variable [JsNumber N] [DecidableEq N] [DecidableEq L]

/-- A field that shows what is left of its replay, or fails to. -/
def writeEffect (key : String) (current : Bool) (old : Value N L) (rebased : Bool)
    (field : OwnedField N L) : Effect N L :=
  match shown field with
  | .error _ => ⟨key, true, rebased, current, old, some field.base⟩
  | .ok value => ⟨key, false, rebased || decide (value ≠ old), current, value, some field.base⟩

def entryEffect (leafForm : LeafForm N L) (applier : Applier N) (client : Client N L) (key : String)
    (value : Value N L) : Effect N L :=
  let current := isCurrent leafForm client key
  let old := client.component.target key
  match owned client.component key, pendingCall client.component applier.call.id with
  | some field, some call =>
      match rebase field value (some call) (isEcho leafForm applier client key value) with
      | .error _ => ⟨key, true, false, current, old, some field.base⟩
      | .ok field' => writeEffect key current old (decide (field'.base ≠ field.base)) field'
  | _, _ =>
      let base := baseOf client.component key
      if current then ⟨key, false, decide (value ≠ old), current, value, base⟩
      else ⟨key, false, false, current, old, base⟩

/-- `current` is decided before the loop that confirms. -/
def confirmEffect (c : Component N L) (id : Nat) (current : String → Bool) (key : String) :
    Effect N L :=
  let old := c.target key
  match owned c key, pendingCall c id with
  | some field, some call =>
      if (findChange field call.sequence).isSome then
        writeEffect key (current key) old false (dropChange field call.sequence)
      else ⟨key, false, false, current key, old, some field.base⟩
  | _, _ => ⟨key, false, false, current key, old, baseOf c key⟩

/-- Every property was last written by its setter or by the ledger. -/
def Observed (c : Component N L) : Prop :=
  ∀ key field, owned c key = some field → c.target key = field.displayed

theorem write_error {current : Value N L} {field : OwnedField N L} {message : String}
    (h : shown field = .error message) : write current field = .error message := by
  unfold write
  rw [h]
  rfl

omit [JsNumber N] in
theorem localEdit_round (c : Component N L) (key : String) (value : Value N L) (current : Bool) :
    Round c (localEdit c key value)
      ⟨key, false, decide (value ≠ c.target key), current, value, baseOf c key⟩ false := by
  cases hledger : c.ledger with
  | none =>
    have hedit : localEdit c key value = { c with target := assign c.target key value } := by
      simp [localEdit, hledger]
    rw [hedit]
    refine ⟨?_, fun _ => rfl, rfl, ?_, fun _ => ⟨assign_self _ _ _, rfl⟩⟩
    · intro k hne
      exact ⟨assign_of_ne _ _ hne, rfl⟩
    · simp [SameAt, baseOf, owned]
  | some ledger =>
    cases hget : Entries.get ledger.fields key with
    | none =>
      have hedit : localEdit c key value = { c with target := assign c.target key value } := by
        simp [localEdit, noteOptimisticWrite, hledger, hget]
      rw [hedit]
      refine ⟨?_, fun _ => rfl, rfl, ?_, fun _ => ⟨assign_self _ _ _, rfl⟩⟩
      · intro k hne
        exact ⟨assign_of_ne _ _ hne, rfl⟩
      · simp [SameAt, baseOf, owned]
    | some field =>
      have hedit : localEdit c key value =
          { c with
            target := assign c.target key value
            ledger := some (setField { ledger with clock := ledger.clock + 1 } key
              { field with
                localEdit := some ⟨ledger.clock + 1, value, none⟩
                displayed := value }) } := by
        simp [localEdit, noteOptimisticWrite, hledger, hget]
      have hbase : baseOf c key = some field.base := by
        rw [baseOf, owned_of_ledger hledger, hget]
        rfl
      rw [hedit, hbase]
      exact Round.set hledger
        ⟨key, false, decide (value ≠ c.target key), current, value, some field.base⟩ hget _ value _
        (by simp) (fun _ => ⟨rfl, rfl⟩)

theorem applyOptimisticState_unowned {c : Component N L} {key : String} {value : Value N L}
    {id : Nat} {echo : Bool} (h : pendingCall c id = none ∨ owned c key = none) :
    applyOptimisticState c key value (some id) echo = (c, .ok false) := by
  unfold applyOptimisticState
  cases hledger : c.ledger with
  | none => rfl
  | some ledger =>
    rw [pendingCall_of_ledger hledger, owned_of_ledger hledger] at h
    cases hfind : findCall ledger id with
    | none => simp [hfind]
    | some call =>
      have hget : Entries.get ledger.fields key = none := by simpa [hfind] using h
      simp [hfind, hget]

theorem applyOptimisticState_owned {c : Component N L} {ledger : Ledger N L}
    (hledger : c.ledger = some ledger) {key : String} {field : OwnedField N L}
    (hget : Entries.get ledger.fields key = some field) (hobserved : c.target key = field.displayed)
    {id : Nat} {call : OptimisticCall} (hfind : findCall ledger id = some call) (value : Value N L)
    (echo : Bool) :
    applyOptimisticState c key value (some id) echo =
      match rebase field value (some call) echo with
      | .error message => (c, .error message)
      | .ok field' =>
          match shown field' with
          | .error message =>
              ({ c with ledger := some (setField ledger key field') }, .error message)
          | .ok shownValue =>
              ({ c with
                  target := assign c.target key shownValue
                  ledger := some (setField ledger key { field' with displayed := shownValue }) },
                .ok true) := by
  have hobserve : observeExternal c.target ledger key = ledger :=
    observeExternal_displayed fun f hf => by
      cases hget.symm.trans hf
      exact hobserved
  have hsame : { c with ledger := some ledger } = c := by rw [← hledger]
  unfold applyOptimisticState
  simp only [hledger, Option.bind_some, hfind, Option.isSome_some, Option.isNone_some,
    Bool.and_false, Bool.false_eq_true, if_false, hget, hobserve]
  cases hrebase : rebase field value (some call) echo with
  | error message => rw [hsame]
  | ok field' =>
    cases hshown : shown field' with
    | error message => simp only [write_error hshown, hshown]
    | ok shownValue => simp only [write_eq hshown, hshown]

def throws {α : Type} : Except String α → Bool
  | .ok _ => false
  | .error _ => true

/-- The three ways the write of a field ends, as a round. -/
theorem write_round {c : Component N L} {ledger : Ledger N L} (hledger : c.ledger = some ledger)
    {key : String} {field : OwnedField N L} (hget : Entries.get ledger.fields key = some field)
    (field' : OwnedField N L) (current : Bool) :
    (∀ message, shown field' = .error message →
      Round c { c with ledger := some (setField ledger key field') }
        (writeEffect key current (c.target key) (decide (field'.base ≠ field.base)) field') true) ∧
    ∀ value, shown field' = .ok value →
      Round c
        { c with
          target := assign c.target key value
          ledger := some (setField ledger key { field' with displayed := value }) }
        (writeEffect key current (c.target key) (decide (field'.base ≠ field.base)) field')
        false := by
  constructor
  · intro message hshown
    have heffect : writeEffect key current (c.target key) (decide (field'.base ≠ field.base)) field' =
        ⟨key, true, decide (field'.base ≠ field.base), current, c.target key, some field'.base⟩ := by
      simp only [writeEffect, hshown]
    rw [heffect]
    have hround : Round c
        { c with
          target := assign c.target key (c.target key)
          ledger := some (setField { ledger with clock := ledger.clock } key field') }
        ⟨key, true, decide (field'.base ≠ field.base), current, c.target key, some field'.base⟩ true :=
      Round.set hledger
        ⟨key, true, decide (field'.base ≠ field.base), current, c.target key, some field'.base⟩ hget _ _
        field' (by simp) (fun hfalse => (nomatch hfalse))
    rwa [assign_same] at hround
  · intro value hshown
    have heffect : writeEffect key current (c.target key) (decide (field'.base ≠ field.base)) field' =
        ⟨key, false, decide (field'.base ≠ field.base) || decide (value ≠ c.target key), current,
          value, some field'.base⟩ := by
      simp only [writeEffect, hshown]
    rw [heffect]
    exact Round.set hledger ⟨key, false, _, current, value, some field'.base⟩ hget ledger.clock value
      { field' with displayed := value } (by simp [and_comm]) (fun _ => ⟨rfl, rfl⟩)

/-- A round of the loop over a frame, with what it returns. -/
structure EntryRound (before : Client N L) (result : Client N L × Except String Bool)
    (effect : Effect N L) : Prop where
  round : Round before.component result.1.component effect (throws result.2)
  requestState : result.1.requestState = before.requestState
  current : ∀ current, result.2 = .ok current → current = effect.current

/-- A field that the call does not own is set, when it is current. -/
theorem applyEntry_unowned (leafForm : LeafForm N L) (applier : Applier N) {client : Client N L}
    {key : String} (value : Value N L)
    (h : pendingCall client.component applier.call.id = none ∨ owned client.component key = none) :
    EntryRound client (applyEntry leafForm applier client key value)
      (entryEffect leafForm applier client key value) := by
  have heffect : entryEffect leafForm applier client key value =
      if isCurrent leafForm client key then
        ⟨key, false, decide (value ≠ client.component.target key), isCurrent leafForm client key,
          value, baseOf client.component key⟩
      else ⟨key, false, false, isCurrent leafForm client key, client.component.target key,
        baseOf client.component key⟩ := by
    unfold entryEffect
    rcases h with hnone | hnone <;> simp [hnone]
  rw [heffect]
  unfold applyEntry
  simp only [applyOptimisticState_unowned h, Bool.not_false, Bool.true_and]
  cases hcurrent : isCurrent leafForm client key with
  | true => exact ⟨localEdit_round _ _ _ _, rfl, fun current h => (Except.ok.inj h).symm⟩
  | false =>
    exact ⟨Round.idle _ rfl (fun _ => ⟨rfl, rfl⟩), rfl, fun current h => (Except.ok.inj h).symm⟩

theorem writeEffect_current (key : String) (current : Bool) (old : Value N L) (rebased : Bool)
    (field : OwnedField N L) : (writeEffect key current old rebased field).current = current := by
  unfold writeEffect
  split <;> rfl

theorem applyEntry_round (leafForm : LeafForm N L) (applier : Applier N) {client : Client N L}
    (key : String) (value : Value N L)
    (hobserved : ∀ field, owned client.component key = some field →
      client.component.target key = field.displayed) :
    EntryRound client (applyEntry leafForm applier client key value)
      (entryEffect leafForm applier client key value) := by
  cases howned : owned client.component key with
  | none => exact applyEntry_unowned leafForm applier value (.inr howned)
  | some field =>
    cases hpending : pendingCall client.component applier.call.id with
    | none => exact applyEntry_unowned leafForm applier value (.inl hpending)
    | some call =>
      obtain ⟨ledger, hledger, hget⟩ := Option.bind_eq_some_iff.mp howned
      have hfind : findCall ledger applier.call.id = some call :=
        (pendingCall_of_ledger hledger _).symm.trans hpending
      unfold applyEntry
      simp only [applyOptimisticState_owned hledger hget (hobserved field howned) hfind, entryEffect,
        howned, hpending]
      cases hrebase : rebase field value (some call) (isEcho leafForm applier client key value) with
      | error message =>
        exact ⟨Round.idle _ rfl (fun hfalse => (nomatch hfalse)), rfl, fun _ h => (nomatch h)⟩
      | ok field' =>
        obtain ⟨herror, hok⟩ := write_round hledger hget field' (isCurrent leafForm client key)
        cases hshown : shown field' with
        | error message =>
          simp only [hshown]
          exact ⟨herror message hshown, rfl, fun _ h => (nomatch h)⟩
        | ok shownValue =>
          simp only [hshown, Bool.not_true, Bool.false_and]
          refine ⟨hok shownValue hshown, rfl, fun current h => ?_⟩
          rw [writeEffect_current]
          exact (Except.ok.inj h).symm

/-- Effects depend on the field, the property and the call alone. -/
theorem entryEffect_congr (leafForm : LeafForm N L) (applier : Applier N) {a b : Client N L}
    {key : String} (value : Value N L)
    (htarget : b.component.target key = a.component.target key)
    (howned : owned b.component key = owned a.component key)
    (hpending : pendingCall b.component applier.call.id = pendingCall a.component applier.call.id)
    (hrequest : b.requestState = a.requestState) :
    entryEffect leafForm applier b key value = entryEffect leafForm applier a key value := by
  have hcurrent : isCurrent leafForm b key = isCurrent leafForm a key := by
    unfold isCurrent
    rw [hrequest, htarget]
  have howns : ownsOptimisticField b.component key applier.call.id =
      ownsOptimisticField a.component key applier.call.id := by
    have hboth : ∀ c : Component N L, ownsOptimisticField c key applier.call.id =
        ((pendingCall c applier.call.id).isSome && (owned c key).isSome) := by
      intro c
      unfold ownsOptimisticField pendingCall owned
      cases c.ledger <;> rfl
    rw [hboth, hboth, howned, hpending]
  have hecho : isEcho leafForm applier b key value = isEcho leafForm applier a key value := by
    unfold isEcho
    rw [hrequest, howns]
  unfold entryEffect
  rw [hcurrent, hecho, baseOf, baseOf, howned, hpending, htarget]

theorem writeEffect_key (key : String) (current : Bool) (old : Value N L) (rebased : Bool)
    (field : OwnedField N L) : (writeEffect key current old rebased field).key = key := by
  unfold writeEffect
  split <;> rfl

theorem entryEffect_key (leafForm : LeafForm N L) (applier : Applier N) (client : Client N L)
    (key : String) (value : Value N L) :
    (entryEffect leafForm applier client key value).key = key := by
  unfold entryEffect
  split
  · split
    · rfl
    · exact writeEffect_key _ _ _ _ _
  · simp only
    split <;> rfl

/-- The state keys of a frame. -/
def stateEntries (state : List (String × Value N L)) : List (String × Value N L) :=
  state.filter fun entry => isStateKey entry.1

theorem applyEntries_rounds (leafForm : LeafForm N L) (applier : Applier N)
    {entries : List (String × Value N L)} (hkeys : (entries.map Prod.fst).Nodup)
    {client : Client N L} (applicable : List String)
    (hobserved : ∀ key ∈ entries.map Prod.fst, ∀ field, owned client.component key = some field →
      client.component.target key = field.displayed) :
    Rounds client.component (applyEntries leafForm applier entries client applicable).1.component
        ((stateEntries entries).map fun entry => entryEffect leafForm applier client entry.1 entry.2)
        (throws (applyEntries leafForm applier entries client applicable).2) ∧
      (applyEntries leafForm applier entries client applicable).1.requestState =
        client.requestState ∧
      ∀ keys, (applyEntries leafForm applier entries client applicable).2 = .ok keys →
        keys = applicable ++
          (((stateEntries entries).map fun entry =>
            entryEffect leafForm applier client entry.1 entry.2).filter Effect.current).map
              Effect.key := by
  induction entries generalizing client applicable with
  | nil =>
    refine ⟨Rounds.nil _, rfl, fun keys h => ?_⟩
    rw [← Except.ok.inj h]
    simp [stateEntries]
  | cons entry rest ih =>
    obtain ⟨key, value⟩ := entry
    rw [List.map_cons, List.nodup_cons] at hkeys
    have hobservedRest : ∀ k ∈ rest.map Prod.fst, ∀ field, owned client.component k = some field →
        client.component.target k = field.displayed :=
      fun k hk => hobserved k (List.mem_cons_of_mem _ hk)
    unfold applyEntries
    by_cases hstate : isStateKey key = true
    · have hentries : stateEntries ((key, value) :: rest) = (key, value) :: stateEntries rest := by
        simp [stateEntries, hstate]
      have hentry := applyEntry_round leafForm applier key value (hobserved key List.mem_cons_self)
      have heffectKey := entryEffect_key leafForm applier client key value
      rw [if_pos hstate, hentries, List.map_cons]
      generalize applyEntry leafForm applier client key value = applied at hentry ⊢
      cases hresult : applied.2 with
      | error message =>
        have hround := hentry.round
        rw [hresult] at hround
        simp only [hresult]
        exact ⟨Rounds.stop hround, hentry.requestState, fun keys h => (nomatch h)⟩
      | ok current =>
        have hround := hentry.round
        rw [hresult] at hround
        simp only [hresult]
        -- the fields of the other entries are as they were
        have hothers : ∀ k ∈ rest.map Prod.fst,
            applied.1.component.target k = client.component.target k ∧
              owned applied.1.component k = owned client.component k := by
          intro k hk
          apply hround.others k
          rw [heffectKey]
          exact fun heq => hkeys.1 (heq ▸ hk)
        have heffects : (stateEntries rest).map (fun entry =>
              entryEffect leafForm applier applied.1 entry.1 entry.2) =
            (stateEntries rest).map fun entry =>
              entryEffect leafForm applier client entry.1 entry.2 := by
          apply List.map_congr_left
          intro entry hentryMem
          obtain ⟨htarget, howned⟩ :=
            hothers entry.1 (List.mem_map.mpr ⟨entry, List.mem_of_mem_filter hentryMem, rfl⟩)
          exact entryEffect_congr leafForm applier entry.2 htarget howned (hround.pending _)
            hentry.requestState
        have hobservedAfter : ∀ k ∈ rest.map Prod.fst, ∀ field,
            owned applied.1.component k = some field →
              applied.1.component.target k = field.displayed := by
          intro k hk field howned
          obtain ⟨htarget, hsame⟩ := hothers k hk
          rw [htarget]
          exact hobservedRest k hk field (hsame.symm.trans howned)
        obtain ⟨hrounds, hrequest, happlicable⟩ := ih hkeys.2
          (if current then applicable ++ [key] else applicable) hobservedAfter
        rw [heffects] at hrounds happlicable
        refine ⟨Rounds.cons hround hrounds ?_, hrequest.trans hentry.requestState, ?_⟩
        · intro other hother
          obtain ⟨entry, hentryMem, rfl⟩ := List.mem_map.mp hother
          rw [entryEffect_key, heffectKey]
          intro heq
          exact hkeys.1 (List.mem_map.mpr ⟨entry, List.mem_of_mem_filter hentryMem, heq⟩)
        · intro keys hok
          rw [happlicable keys hok, List.filter_cons, ← hentry.current current hresult]
          cases current <;> simp [heffectKey]
    · have hentries : stateEntries ((key, value) :: rest) = stateEntries rest := by
        simp [stateEntries, hstate]
      rw [if_neg hstate, hentries]
      exact ih hkeys.2 applicable hobservedRest

/-! ## Section 4: Rounds of a confirmation -/

omit [JsNumber N] [DecidableEq N] [DecidableEq L] in
theorem Rounds.idle (c : Component N L) {effects : List (Effect N L)}
    (h : ∀ effect ∈ effects, effect.fails = false ∧ effect.changes = false ∧
      effect.value = c.target effect.key ∧ effect.base = baseOf c effect.key) :
    Rounds c c effects false := by
  refine ⟨?_, ?_, ?_⟩
  · constructor
    · intro hfalse
      exact nomatch hfalse
    · rintro ⟨effect, hmem, hfails⟩
      rw [(h effect hmem).1] at hfails
      exact nomatch hfails
  · intro key
    constructor
    · intro _ effect hmem _
      exact (h effect (attempted_subset effects hmem)).2.1
    · intro _
      exact ⟨rfl, rfl⟩
  · intro _ effect hmem
    exact ⟨(h effect hmem).2.2.1.symm, (h effect hmem).2.2.2.symm⟩

theorem confirmEffect_key (c : Component N L) (id : Nat) (current : String → Bool) (key : String) :
    (confirmEffect c id current key).key = key := by
  unfold confirmEffect
  split
  · simp only
    split
    · exact writeEffect_key _ _ _ _ _
    · rfl
  · rfl

theorem confirmEffect_current (c : Component N L) (id : Nat) (current : String → Bool)
    (key : String) : (confirmEffect c id current key).current = current key := by
  unfold confirmEffect
  split
  · simp only
    split
    · exact writeEffect_current _ _ _ _ _
    · rfl
  · rfl

/-- A field without a contribution of the call is left alone. -/
theorem confirmEffect_idle {c : Component N L} {id : Nat} (current : String → Bool) {key : String}
    (h : ∀ field call, owned c key = some field → pendingCall c id = some call →
      (findChange field call.sequence).isSome = false) :
    confirmEffect c id current key =
      ⟨key, false, false, current key, c.target key, baseOf c key⟩ := by
  unfold confirmEffect
  cases howned : owned c key with
  | none => rfl
  | some field =>
    cases hpending : pendingCall c id with
    | none => rfl
    | some call => simp [h field call howned hpending, baseOf, howned]

theorem confirmEffect_congr {a b : Component N L} {id : Nat} (current : String → Bool)
    {key : String} (htarget : b.target key = a.target key) (howned : owned b key = owned a key)
    (hpending : pendingCall b id = pendingCall a id) :
    confirmEffect b id current key = confirmEffect a id current key := by
  unfold confirmEffect baseOf
  rw [htarget, howned, hpending]

omit [JsNumber N] in
/-- A round of `eachField` that throws. -/
theorem eachField_stop {update : FieldUpdate N L} {key : String} {rest : List String}
    {target : String → Value N L} {ledger : Ledger N L} {field : OwnedField N L} {message : String}
    (hget : Entries.get ledger.fields key = some field) (hobserved : target key = field.displayed)
    (hthrows : (update (target key) field).2.2 = some message) :
    eachField true update (key :: rest) target ledger =
      (assign target key (update (target key) field).1,
        setField ledger key (update (target key) field).2.1, some message) := by
  have hobserve : observeExternal target ledger key = ledger := by
    apply observeExternal_displayed
    intro f hf
    rw [Option.some.inj (hf.symm.trans hget)]
    exact hobserved
  simp only [eachField, if_true, hobserve, hget, hthrows]

theorem withdraw_rounds {c : Component N L} {ledger : Ledger N L} (hledger : c.ledger = some ledger)
    {id : Nat} {call : OptimisticCall} (hfind : findCall ledger id = some call)
    (current : String → Bool) {keys : List String} (hkeys : keys.Nodup)
    (hobserved : ∀ key ∈ keys, ∀ field, owned c key = some field →
      c.target key = field.displayed) :
    Rounds c
      { c with
        target := (eachField true (withdrawChange call.sequence)
          (keys.filter (hasChange ledger call)) c.target ledger).1
        ledger := some (eachField true (withdrawChange call.sequence)
          (keys.filter (hasChange ledger call)) c.target ledger).2.1 }
      (keys.map (confirmEffect c id current))
      (eachField true (withdrawChange call.sequence)
        (keys.filter (hasChange ledger call)) c.target ledger).2.2.isSome := by
  induction keys generalizing c ledger with
  | nil =>
    have hsame : { c with ledger := some ledger } = c := by rw [← hledger]
    show Rounds c { c with ledger := some ledger } [] false
    rw [hsame]
    exact Rounds.nil c
  | cons key rest ih =>
    rw [List.nodup_cons] at hkeys
    have hrest : ∀ k ∈ rest, k ≠ key := fun k hk heq => hkeys.1 (heq ▸ hk)
    have hdistinct : ∀ effect ∈ rest.map (confirmEffect c id current),
        effect.key ≠ (confirmEffect c id current key).key := by
      intro effect hmem
      obtain ⟨k, hk, rfl⟩ := List.mem_map.mp hmem
      rw [confirmEffect_key, confirmEffect_key]
      exact hrest k hk
    have hobservedRest : ∀ k ∈ rest, ∀ field, owned c k = some field →
        c.target k = field.displayed := fun k hk => hobserved k (List.mem_cons_of_mem _ hk)
    have hpending : pendingCall c id = some call :=
      (pendingCall_of_ledger hledger id).trans hfind
    rw [List.map_cons]
    by_cases hhas : hasChange ledger call key = true
    · rw [List.filter_cons_of_pos hhas]
      obtain ⟨field, hget, hchange⟩ : ∃ field, Entries.get ledger.fields key = some field ∧
          (findChange field call.sequence).isSome = true := by
        unfold hasChange at hhas
        cases hget : Entries.get ledger.fields key with
        | none => simp [hget] at hhas
        | some field => exact ⟨field, rfl, by simpa [hget] using hhas⟩
      have howned : owned c key = some field := (owned_of_ledger hledger key).trans hget
      have hdisplayed := hobserved key List.mem_cons_self field howned
      have heffect : confirmEffect c id current key =
          writeEffect key (current key) (c.target key)
            (decide ((dropChange field call.sequence).base ≠ field.base))
            (dropChange field call.sequence) := by
        have hbase : decide ((dropChange field call.sequence).base ≠ field.base) = false := by
          simp [dropChange]
        simp [confirmEffect, howned, hpending, hchange, hbase]
      obtain ⟨herror, hok⟩ :=
        write_round hledger hget (dropChange field call.sequence) (current key)
      rw [← heffect] at herror hok
      cases hshown : shown (dropChange field call.sequence) with
      | error message =>
        have hupdate : withdrawChange call.sequence (c.target key) field =
            (c.target key, dropChange field call.sequence, some message) := by
          simp [withdrawChange, write_error hshown]
        rw [eachField_stop hget hdisplayed (by rw [hupdate]), hupdate, assign_same]
        exact Rounds.stop (herror message hshown)
      | ok value =>
        have hupdate : withdrawChange call.sequence (c.target key) field =
            (value, { dropChange field call.sequence with displayed := value }, none) := by
          simp [withdrawChange, write_eq hshown]
        rw [eachField_cons hget (fun _ => hdisplayed) (by rw [hupdate]), hupdate]
        have hround := hok value hshown
        generalize hfield : { dropChange field call.sequence with displayed := value } = field' at hround ⊢
        have hothers : ∀ k ∈ rest, assign c.target key value k = c.target k ∧
            Entries.get (setField ledger key field').fields k = Entries.get ledger.fields k :=
          fun k hk => ⟨assign_of_ne _ _ (hrest k hk), Entries.get_set_of_ne _ _ (Ne.symm (hrest k hk))⟩
        have hmid := @ih
          { c with target := assign c.target key value, ledger := some (setField ledger key field') }
          (setField ledger key field') rfl hfind hkeys.2 (by
            intro k hk f hf
            obtain ⟨htarget, hsame⟩ := hothers k hk
            show assign c.target key value k = f.displayed
            rw [htarget]
            exact hobservedRest k hk f ((owned_of_ledger hledger k).trans (hsame.symm.trans hf)))
        have hfilter : rest.filter (hasChange (setField ledger key field') call) =
            rest.filter (hasChange ledger call) := by
          apply List.filter_congr
          intro k hk
          unfold hasChange
          rw [(hothers k hk).2]
        have heffects : rest.map (confirmEffect
              { c with target := assign c.target key value, ledger := some (setField ledger key field') }
              id current) = rest.map (confirmEffect c id current) := by
          apply List.map_congr_left
          intro k hk
          apply confirmEffect_congr current (hothers k hk).1 _ (hround.pending id)
          exact (hothers k hk).2.trans (owned_of_ledger hledger k).symm
        rw [hfilter, heffects] at hmid
        exact Rounds.cons hround hmid hdistinct
    · rw [List.filter_cons_of_neg hhas]
      have hidle : confirmEffect c id current key =
          ⟨key, false, false, current key, c.target key, baseOf c key⟩ := by
        apply confirmEffect_idle
        intro field call' howned hcall
        cases hpending.symm.trans hcall
        unfold hasChange at hhas
        rw [(owned_of_ledger hledger key).symm.trans howned] at hhas
        simpa using hhas
      refine Rounds.cons ?_ (ih hledger hfind hkeys.2 hobservedRest) hdistinct
      rw [hidle]
      exact Round.idle c rfl (fun _ => ⟨rfl, rfl⟩)

/-- The rounds of `confirmOptimisticFields`. -/
theorem confirm_rounds {c : Component N L} (id : Nat) (current : String → Bool)
    {keys : List String} (hkeys : keys.Nodup)
    (hobserved : ∀ key ∈ keys, ∀ field, owned c key = some field →
      c.target key = field.displayed) :
    Rounds c (confirmOptimisticFields c id keys).1 (keys.map (confirmEffect c id current))
      (confirmOptimisticFields c id keys).2.isSome := by
  have hidle : pendingCall c id = none →
      Rounds c c (keys.map (confirmEffect c id current)) false := by
    intro hnone
    apply Rounds.idle
    intro effect hmem
    obtain ⟨key, -, rfl⟩ := List.mem_map.mp hmem
    rw [confirmEffect_idle current (by simp [hnone])]
    exact ⟨rfl, rfl, rfl, rfl⟩
  unfold confirmOptimisticFields
  cases hledger : c.ledger with
  | none => exact hidle (by simp [pendingCall, hledger])
  | some ledger =>
    cases hfind : findCall ledger id with
    | none =>
      simp only [hfind]
      exact hidle ((pendingCall_of_ledger hledger id).trans hfind)
    | some call =>
      simp only [hfind]
      exact withdraw_rounds hledger hfind current hkeys hobserved

/-! ## Section 5: All or nothing -/

/-- The effects of a frame on the state it meets, `newer` or not. -/
def frameEffects (leafForm : LeafForm N L) (applier : Applier N) (client : Client N L)
    (state : Frame N L) (newer : Bool) : List (Effect N L) :=
  if newer then
    (stateEntries state.1).map fun entry => entryEffect leafForm applier client entry.1 entry.2
  else
    (stateEntries state.1).map fun entry =>
      confirmEffect client.component applier.call.id (isCurrent leafForm client) entry.1

/-- The loop of a frame: `applyEntries` or `confirmEntries`. -/
def frameLoop (leafForm : LeafForm N L) (applier : Applier N) (client : Client N L)
    (state : Frame N L) (newer : Bool) : Client N L × Except String (List String) :=
  if newer then applyEntries leafForm applier state.1 client []
  else confirmEntries leafForm applier state.1 client

theorem frameLoop_rounds (leafForm : LeafForm N L) (applier : Applier N) {client : Client N L}
    (state : Frame N L) (newer : Bool) (hobserved : Observed client.component) :
    Rounds client.component (frameLoop leafForm applier client state newer).1.component
        (frameEffects leafForm applier client state newer)
        (throws (frameLoop leafForm applier client state newer).2) ∧
      ∀ keys, (frameLoop leafForm applier client state newer).2 = .ok keys →
        keys = ((frameEffects leafForm applier client state newer).filter Effect.current).map
          Effect.key := by
  cases newer with
  | true =>
    obtain ⟨hrounds, -, happlicable⟩ := applyEntries_rounds leafForm applier state.2 []
      (fun key _ => hobserved key)
    exact ⟨hrounds, fun keys hok => happlicable keys hok⟩
  | false =>
    have hkeys : ((state.1.map Prod.fst).filter isStateKey).Nodup := state.2.filter _
    have hrounds := confirm_rounds applier.call.id (isCurrent leafForm client) hkeys
      (fun key _ => hobserved key)
    have hmap : (state.1.map Prod.fst).filter isStateKey = (stateEntries state.1).map Prod.fst := by
      unfold stateEntries
      rw [List.filter_map]
      rfl
    show Rounds client.component (confirmEntries leafForm applier state.1 client).1.component
        ((stateEntries state.1).map fun entry =>
          confirmEffect client.component applier.call.id (isCurrent leafForm client) entry.1)
        (throws (confirmEntries leafForm applier state.1 client).2) ∧ ∀ keys,
      (confirmEntries leafForm applier state.1 client).2 = .ok keys → keys =
        (((stateEntries state.1).map fun entry => confirmEffect client.component applier.call.id
          (isCurrent leafForm client) entry.1).filter Effect.current).map Effect.key
    unfold confirmEntries
    simp only
    rw [hmap] at hrounds ⊢
    rw [List.map_map] at hrounds
    constructor
    · cases hresult : (confirmOptimisticFields client.component applier.call.id
        ((stateEntries state.1).map Prod.fst)).2 with
      | none =>
        rw [hresult] at hrounds
        exact hrounds
      | some message =>
        rw [hresult] at hrounds
        exact hrounds
    · intro keys hok
      have hkeys : keys = ((stateEntries state.1).map Prod.fst).filter (isCurrent leafForm client) := by
        split at hok
        · exact nomatch hok
        · exact (Except.ok.inj hok).symm
      rw [hkeys, List.filter_map, List.filter_map, List.map_map]
      have hcurrent : (Effect.current ∘ fun entry : String × Value N L =>
          confirmEffect client.component applier.call.id (isCurrent leafForm client) entry.1) =
          isCurrent leafForm client ∘ Prod.fst := by
        funext entry
        exact confirmEffect_current _ _ _ _
      rw [hcurrent]
      apply List.map_congr_left
      intro entry _
      exact (confirmEffect_key _ _ _ _).symm

omit [DecidableEq L] in
theorem advancePublished_component (leafForm : LeafForm N L) (applier : Applier N)
    (keys : List String) (client : Client N L) :
    (advancePublished leafForm applier client keys).component = client.component := by
  induction keys generalizing client with
  | nil => rfl
  | cons key rest ih =>
    unfold advancePublished
    simp only
    split
    · rw [ih]
      unfold advance
      split <;> rfl
    · exact ih client

omit [DecidableEq N] [DecidableEq L] in
theorem acceptSseCursor_component (client : Client N L) (state : List (String × Value N L)) :
    (acceptSseCursor client state).1.component = client.component := by
  unfold acceptSseCursor
  split
  · rfl
  · simp only
    split
    · rfl
    · split <;> rfl

omit [DecidableEq N] [DecidableEq L] in
/-- Advancing changes no field, and fails for a value that cannot cross. -/
theorem advanceAll_spec (leafForm : LeafForm N L) (keys : List String) (client : Client N L) :
    (advanceAll leafForm keys client).1.component = client.component ∧
      ((advanceAll leafForm keys client).2 = none ↔ ∀ key ∈ keys, ∃ form,
        snapshotTransportState leafForm key (client.component.target key) = .ok form) := by
  induction keys generalizing client with
  | nil => exact ⟨rfl, fun _ _ hmem => (nomatch hmem), fun _ => rfl⟩
  | cons key rest ih =>
    unfold advanceAll advance
    cases hform : snapshotTransportState leafForm key (client.component.target key) with
    | error error =>
      refine ⟨rfl, fun h => (nomatch h), fun h => ?_⟩
      obtain ⟨form, hok⟩ := h key List.mem_cons_self
      rw [hform] at hok
      exact nomatch hok
    | ok form =>
      obtain ⟨hcomponent, hiff⟩ := ih { client with
        requestState := Entries.set client.requestState key form }
      refine ⟨hcomponent, hiff.trans ?_⟩
      constructor
      · intro h k hk
        rcases List.mem_cons.mp hk with rfl | hk
        · exact ⟨form, hform⟩
        · exact h k hk
      · intro h k hk
        exact h k (List.mem_cons_of_mem _ hk)

/-- The state in which the loop of a frame starts, and whether the frame is
    newer than the last snapshot. -/
def meets (leafForm : LeafForm N L) (applier : Applier N) (client : Client N L)
    (state : Frame N L) : Client N L × Except RpcError Bool :=
  acceptSseCursor (advancePublished leafForm applier client (state.1.map Prod.fst)) state.1

/-- The frame's value is the base of an owned field that it is not older than
    and does not echo, and the value of another field that is current. -/
def Updated (leafForm : LeafForm N L) (applier : Applier N) (before : Client N L)
    (after : Component N L) (key : String) (value : Value N L) : Prop :=
  (∀ field call, owned before.component key = some field →
      pendingCall before.component applier.call.id = some call →
      isEcho leafForm applier before key value = false → field.sequence ≤ call.sequence →
        baseOf after key = some value) ∧
    (owned before.component key = none ∨
        pendingCall before.component applier.call.id = none →
      isCurrent leafForm before key = true → after.target key = value)

/-- Every accepted field is updated, or the frame throws and no base and no
    property is another one. -/
def AllOrNothing (leafForm : LeafForm N L) (applier : Applier N) (client : Client N L)
    (state : Frame N L) : Prop :=
  match (applyState leafForm applier client state).2 with
  | none => (meets leafForm applier client state).2 = .ok true →
      ∀ key value, (key, value) ∈ state.1 → isStateKey key = true →
        Updated leafForm applier (meets leafForm applier client state).1
          (applyState leafForm applier client state).1.component key value
  | some _ => ∀ key,
      SameAt client.component (applyState leafForm applier client state).1.component key

/-- No field fails and every value left can cross the transport, or nothing
    changes up to the first field that fails. -/
def Atomic (leafForm : LeafForm N L) (applier : Applier N) (client : Client N L)
    (state : Frame N L) : Prop :=
  ∀ newer, (meets leafForm applier client state).2 = .ok newer →
    let effects := frameEffects leafForm applier (meets leafForm applier client state).1 state newer
    (∀ effect ∈ effects, effect.fails = false ∧ (effect.current = true →
        ∃ form, snapshotTransportState leafForm effect.key effect.value = .ok form)) ∨
      ∀ effect ∈ attempted effects, effect.changes = false

/-- A round of a newer frame that does not fail updates its field. -/
theorem updated_of_effect (leafForm : LeafForm N L) (applier : Applier N) {before : Client N L}
    {after : Component N L} {key : String} {value : Value N L}
    (hfails : (entryEffect leafForm applier before key value).fails = false)
    (htarget : after.target key = (entryEffect leafForm applier before key value).value)
    (hbase : baseOf after key = (entryEffect leafForm applier before key value).base) :
    Updated leafForm applier before after key value := by
  constructor
  · intro field call howned hpending hecho hle
    rw [hbase]
    have hskip : (isEcho leafForm applier before key value ||
        decide (call.sequence < field.sequence)) = false := by
      simp [hecho, hle]
    unfold entryEffect at hfails ⊢
    simp only [howned, hpending] at hfails ⊢
    cases hrebase : rebase field value (some call) (isEcho leafForm applier before key value) with
    | error message => simp [hrebase] at hfails
    | ok field' =>
      have hvalue : field'.base = value := by
        unfold rebase at hrebase
        simp only [hskip] at hrebase
        obtain ⟨base, hcopy, rfl⟩ := Outcome.map_eq_ok.mp hrebase
        exact copy_eq hcopy
      simp only
      unfold writeEffect
      split <;> simp [hvalue]
  · intro hunowned hcurrent
    rw [htarget]
    unfold entryEffect
    rcases hunowned with hnone | hnone
    · simp [hnone, hcurrent]
    · simp [hnone, hcurrent]

theorem applyState_eq (leafForm : LeafForm N L) (applier : Applier N) (client : Client N L)
    (state : Frame N L) :
    applyState leafForm applier client state =
      match (meets leafForm applier client state).2 with
      | .error error => ((meets leafForm applier client state).1, some (.rpc error))
      | .ok newer =>
          let loop := frameLoop leafForm applier (meets leafForm applier client state).1 state newer
          match loop.2 with
          | .error message => (loop.1, some (.edit message))
          | .ok applicable =>
              match advanceAll leafForm applicable loop.1 with
              | (client, none) => (client, none)
              | (client, some error) => (client, some (.rpc error)) := rfl

/-- Frames of plain data. -/
def plainData : LeafForm Int Empty := fun leaf => nomatch leaf

def overlappingClient : Client Int Empty where
  component :=
    let keys : Keys := ⟨["a", "b"], by decide⟩
    let first := act keys (fresh fun _ => .num 0) (.beginCall none)
    act keys first (.beginCall (some ⟨[.record "b" (.increment 1) false], false⟩))
  requestState := [("a", some (.num 0)), ("b", some (.num 0))]
  cursor := none

/-- The reply of the first call. -/
def firstReply : Applier Int := ⟨⟨0, 1, []⟩, []⟩

theorem overlapping_observed : Observed overlappingClient.component := by
  intro key field howned
  by_cases hkey : key = "b"
  · subst hkey
    have hb : owned overlappingClient.component "b" =
        some ⟨.num 0, 0, [⟨2, .num 1, some [.increment 1]⟩], .num 1, none⟩ := rfl
    cases hb.symm.trans howned
    rfl
  · have hnone : owned overlappingClient.component key = none :=
      Entries.get_set_of_ne [] _ (Ne.symm hkey)
    rw [hnone] at howned
    exact nomatch howned

end Cossack.Core
