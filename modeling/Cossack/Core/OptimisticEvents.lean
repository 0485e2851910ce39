import Cossack.Core.OptimisticReplay
import Cossack.Lib.Runs
import Mathlib

/-! # Calls, frames and edits in any order

    The events of one component, what one event does to a field, and that every
    field shows its replay as long as replays are defined. -/

namespace Cossack.Core

open Sequences

variable {N L : Type} [JsNumber N] [DecidableEq N] [DecidableEq L]

/-! ## Section 1: Events -/

/-- Keys of an object, which are distinct. -/
abbrev Keys : Type := { keys : List String // keys.Nodup }

inductive Event (N L : Type) where
  | beginCall (handler : Option (Handler N L))
  | finishCall (id : Nat) (success : Bool)
  /-- A response or stream state of `call`, or a broadcast. -/
  | frame (key : String) (value : Value N L) (call : Option Nat) (echo : Bool)
  | edit (key : String) (value : Value N L)
  /-- A snapshot of a call that is older than what the component has. -/
  | confirm (id : Nat) (keys : Keys)

/-- The component after an event; a ledger without calls is still there. -/
def act (keys : Keys) (c : Component N L) : Event N L → Component N L
  | .beginCall handler => (beginOptimisticCall c handler keys.1).1
  | .finishCall id success => settleCall c id success
  | .frame key value call echo => (applyOptimisticState c key value call echo).1
  | .edit key value => localEdit c key value
  | .confirm id keys => (confirmOptimisticFields c id keys.1).1

def step (keys : Keys) (c : Component N L) : Event N L → Option (Component N L)
  | .finishCall id success => some (finishOptimisticCall c id success)
  | event => some (act keys c event)

def fresh (start : String → Value N L) : Component N L :=
  { target := start, ledger := none, begun := 0 }

def owned (c : Component N L) (key : String) : Option (OwnedField N L) :=
  c.ledger.bind fun ledger => Entries.get ledger.fields key

def pendingCall (c : Component N L) (id : Nat) : Option OptimisticCall :=
  c.ledger.bind fun ledger => findCall ledger id

/-- The retained operations apply to the values before them. -/
def Defined (field : OwnedField N L) : Prop :=
  ∃ value, (newer field).foldlM applyChange field.base = .ok value

/-- The replay stays defined without what the event takes from the field, or
    on the base it puts there. -/
def Replays (c : Component N L) : Event N L → Prop
  | .beginCall _ => True
  | .finishCall id false => ∀ call, pendingCall c id = some call → ∀ key ∈ call.fields,
      ∀ field, owned c key = some field → Defined (dropChange field call.sequence)
  | .finishCall id true => ∀ call, pendingCall c id = some call → ∀ key ∈ call.fields,
      ∀ field, owned c key = some field → findChange field call.sequence = none →
        Defined (releaseEdit field call.sequence)
  | .frame key value call echo => ∀ field, owned c key = some field →
      (∀ id, call = some id → (pendingCall c id).isSome = true) →
        ∀ field', rebase field value (call.bind (pendingCall c)) echo = .ok field' → Defined field'
  | .edit key _ => ∀ field, owned c key = some field → Defined { field with localEdit := none }
  | .confirm id keys => ∀ call, pendingCall c id = some call → ∀ key ∈ keys.1,
      ∀ field, owned c key = some field → Defined (dropChange field call.sequence)

/-! ## Section 2: What an event does to a field -/

/-- How an event changes a field of the ledger; every case leaves what the
    field displays open. -/
inductive FieldStep (ledger : Ledger N L) (key : String) (field : OwnedField N L) :
    Event N L → OwnedField N L → Prop
  | kept (event : Event N L) (displayed : Value N L) :
      FieldStep ledger key field event { field with displayed }
  | joined (handler : Option (Handler N L)) (change : Change N L) (displayed : Value N L) :
      ledger.clock < change.sequence →
      FieldStep ledger key field (.beginCall handler)
        { field with changes := field.changes ++ [change], displayed }
  | withdrawn (call : OptimisticCall) (displayed : Value N L) :
      findCall ledger call.id = some call →
      FieldStep ledger key field (.finishCall call.id false)
        { dropChange field call.sequence with displayed }
  | committed (call : OptimisticCall) (change : Change N L) (displayed : Value N L) :
      findCall ledger call.id = some call → key ∈ call.fields →
      findChange field call.sequence = some change → change.operations = none →
      field.sequence < call.sequence →
      FieldStep ledger key field (.finishCall call.id true)
        { committedField field change with displayed }
  /-- A newer state was applied, or the contribution was confirmed before. -/
  | settled (call : OptimisticCall) (displayed : Value N L) :
      findCall ledger call.id = some call → key ∈ call.fields →
      (∀ change, findChange field call.sequence = some change →
        change.operations = none ∧ call.sequence ≤ field.sequence) →
      FieldStep ledger key field (.finishCall call.id true)
        { dropChange (releaseEdit field call.sequence) call.sequence with displayed }
  | broadcast (value displayed : Value N L) :
      FieldStep ledger key field (.frame key value none false) { field with base := value, displayed }
  | responded (call : OptimisticCall) (value displayed : Value N L) :
      findCall ledger call.id = some call → field.sequence ≤ call.sequence →
      FieldStep ledger key field (.frame key value (some call.id) false)
        { releaseEdit { field with base := value, sequence := call.sequence } call.sequence with
          displayed }
  | edited (value : Value N L) :
      FieldStep ledger key field (.edit key value)
        { field with
          localEdit := some { sequence := ledger.clock + 1, value, operations := none }
          displayed := value }
  | confirmed (call : OptimisticCall) (keys : Keys) (displayed : Value N L) :
      findCall ledger call.id = some call → key ∈ keys.1 →
      FieldStep ledger key field (.confirm call.id keys)
        { dropChange field call.sequence with displayed }

/-- The ledger of a component whose fields show their replays. -/
structure Consistent (keys : Keys) (target : String → Value N L) (ledger : Ledger N L) : Prop where
  calls : ∀ call ∈ ledger.calls, call.sequence ≤ ledger.clock ∧ call.fields.Nodup
  reactive : ∀ key field, Entries.get ledger.fields key = some field → key ∈ keys.1
  fields : ∀ key field, Entries.get ledger.fields key = some field →
    Shows ledger.clock (target key) field

/-- The fields of a ledger after `event`. -/
def StepsTo (before after : Ledger N L) (event : Event N L) : Prop :=
  ∀ key field, Entries.get before.fields key = some field →
    ∃ field', Entries.get after.fields key = some field' ∧
      FieldStep before key field event field'

omit [JsNumber N] [DecidableEq N] [DecidableEq L] in
theorem stepsTo_refl (ledger : Ledger N L) (event : Event N L) : StepsTo ledger ledger event :=
  fun _ field hget => ⟨field, hget, .kept event field.displayed⟩

theorem Consistent.displayed {keys : Keys} {target : String → Value N L} {ledger : Ledger N L}
    (h : Consistent keys target ledger) {key : String} {field : OwnedField N L}
    (hget : Entries.get ledger.fields key = some field) : target key = field.displayed :=
  (h.fields key field hget).displayed.symm

omit [JsNumber N] [DecidableEq N] [DecidableEq L] in
theorem findCall_mem {ledger : Ledger N L} {id : Nat} {call : OptimisticCall}
    (h : findCall ledger id = some call) : call ∈ ledger.calls ∧ call.id = id :=
  ⟨List.mem_of_find?_eq_some h, by simpa using List.find?_some h⟩

/-- Updates that keep every field consistent. -/
theorem eachField_consistent {keys : Keys} {target : String → Value N L} {ledger : Ledger N L}
    (h : Consistent keys target ledger) {update : FieldUpdate N L} {ks : List String}
    (hks : ks.Nodup) {R : String → OwnedField N L → OwnedField N L → Prop}
    (hkept : ∀ key field, R key field field)
    (hupdate : ∀ key ∈ ks, ∀ field, Entries.get ledger.fields key = some field →
      ∃ value field', update (target key) field = (value, field', none) ∧
        Shows ledger.clock value field' ∧ R key field field') :
    Consistent keys (eachField true update ks target ledger).1
        (eachField true update ks target ledger).2.1 ∧
      (eachField true update ks target ledger).2.1.clock = ledger.clock ∧
      (eachField true update ks target ledger).2.1.calls = ledger.calls ∧
      ∀ key field, Entries.get ledger.fields key = some field →
        ∃ field', Entries.get (eachField true update ks target ledger).2.1.fields key = some field' ∧
          R key field field' := by
  have hspec : UpdatedAt update ks target ledger (eachField true update ks target ledger) := by
    apply eachField_spec hks
    · intro _ key _ field hget
      exact h.displayed hget
    · intro key hkey field hget
      obtain ⟨value, field', heq, -, -⟩ := hupdate key hkey field hget
      rw [heq]
  generalize eachField true update ks target ledger = result at hspec
  -- what becomes of one owned field, updated or not
  have hfield : ∀ key field, Entries.get ledger.fields key = some field →
      ∃ field', Entries.get result.2.1.fields key = some field' ∧
        Shows ledger.clock (result.1 key) field' ∧ R key field field' := by
    intro key field hget
    by_cases hkey : key ∈ ks
    · obtain ⟨value, field', heq, hshows, hR⟩ := hupdate key hkey field hget
      obtain ⟨htarget, hresult⟩ := hspec.owned key field hget hkey
      rw [heq] at htarget hresult
      exact ⟨field', hresult, htarget ▸ hshows, hR⟩
    · obtain ⟨htarget, hresult⟩ := hspec.elsewhere key hkey
      exact ⟨field, hresult.trans hget, htarget ▸ h.fields key field hget, hkept key field⟩
  have hback : ∀ key field', Entries.get result.2.1.fields key = some field' →
      ∃ field, Entries.get ledger.fields key = some field := by
    intro key field' hget'
    cases hget : Entries.get ledger.fields key with
    | some field => exact ⟨field, rfl⟩
    | none =>
      rw [(hspec.unowned key hget).2] at hget'
      exact nomatch hget'
  refine ⟨⟨?_, ?_, ?_⟩, hspec.clock, hspec.calls, ?_⟩
  · rw [hspec.calls, hspec.clock]
    exact h.calls
  · intro key field' hget'
    obtain ⟨field, hget⟩ := hback key field' hget'
    exact h.reactive key field hget
  · intro key field' hget'
    obtain ⟨field, hget⟩ := hback key field' hget'
    obtain ⟨field'', hfield'', hshows, -⟩ := hfield key field hget
    cases hget'.symm.trans hfield''
    rw [hspec.clock]
    exact hshows
  · intro key field hget
    obtain ⟨field', hget', -, hR⟩ := hfield key field hget
    exact ⟨field', hget', hR⟩

/-! ## Section 3: Settlement -/

/-- A write of a field in order whose replay is defined. -/
theorem write_shows {clock : Nat} {field : OwnedField N L} (h : Ordered clock field)
    (hdefined : Defined field) (current : Value N L) :
    ∃ value, write current field = .ok (value, { field with displayed := value }) ∧
      Shows clock value { field with displayed := value } := by
  obtain ⟨value, hvalue⟩ := hdefined
  have hshown : shown field = .ok value := (shown_eq field).trans hvalue
  exact ⟨value, write_eq hshown, { h with displayed := rfl, shown := hshown }⟩

theorem Shows.defined {clock : Nat} {value : Value N L} {field : OwnedField N L}
    (h : Shows clock value field) : Defined field :=
  ⟨value, (shown_eq field).symm.trans h.shown⟩

/-- The bookkeeping of `finishOptimisticCall` never throws, and its replay is
    defined unless the call takes operations or an edit away from others. -/
theorem settledField_spec {ledger : Ledger N L} {key : String} {field : OwnedField N L}
    {current : Value N L} {call : OptimisticCall} {success : Bool}
    (h : Shows ledger.clock current field) (hcall : findCall ledger call.id = some call)
    (hkey : key ∈ call.fields) (hle : call.sequence ≤ ledger.clock)
    (hdrop : success = false → Defined (dropChange field call.sequence))
    (hrelease : success = true → findChange field call.sequence = none →
      Defined (releaseEdit field call.sequence)) :
    ∃ field', settledField call success field = .ok field' ∧ Ordered ledger.clock field' ∧
      Defined field' ∧ ∀ displayed,
        FieldStep ledger key field (.finishCall call.id success) { field' with displayed } := by
  have hreleased := dropChange_ordered (releaseEdit_ordered h.toOrdered call.sequence) call.sequence
  cases success with
  | false =>
    exact ⟨_, rfl, dropChange_ordered h.toOrdered _, hdrop rfl,
      fun displayed => .withdrawn call displayed hcall⟩
  | true =>
    cases hfind : findChange field call.sequence with
    | none =>
      -- a snapshot has confirmed the contribution before
      have hsame : dropChange (releaseEdit field call.sequence) call.sequence =
          releaseEdit field call.sequence := by
        have hkept : (releaseEdit field call.sequence).changes.filter (·.sequence != call.sequence) =
            (releaseEdit field call.sequence).changes := by
          rw [List.filter_eq_self]
          intro change hmem
          have := List.find?_eq_none.mp hfind change hmem
          simpa using this
        unfold dropChange
        rw [hkept]
      refine ⟨dropChange (releaseEdit field call.sequence) call.sequence, ?_, hreleased, ?_, ?_⟩
      · simp [settledField, commitDirect, hfind]
      · rw [hsame]
        exact hrelease rfl hfind
      · intro displayed
        apply FieldStep.settled call displayed hcall hkey
        intro change hsome
        rw [hfind] at hsome
        exact nomatch hsome
    | some change =>
      obtain ⟨hmem, hseq⟩ := (findChange_eq_some h.toOrdered).mp hfind
      cases hops : change.operations with
      | some operations =>
        -- committed operations stay until the last call settles
        refine ⟨field, ?_, h.toOrdered, h.defined, fun displayed => .kept _ displayed⟩
        simp [settledField, commitDirect, hfind, hops]
      | none =>
        by_cases hlt : field.sequence < call.sequence
        · refine ⟨committedField field change, ?_, ?_, ?_, ?_⟩
          · simp [settledField, commitDirect, hfind, hops, hlt, h.copied change hmem hops,
              committedField, hseq, Except.map]
          · rw [← hseq] at hle
            exact dropChange_ordered (rebased_ordered h.toOrdered change.value hle) _
          · rw [← hseq] at hlt
            exact ⟨current, (shown_eq _).symm.trans
              (shown_committed h.toOrdered hmem hops hlt h.shown)⟩
          · exact fun displayed => .committed call change displayed hcall hkey hfind hops hlt
        · refine ⟨dropChange (releaseEdit field call.sequence) call.sequence, ?_, hreleased, ?_, ?_⟩
          · simp [settledField, commitDirect, hfind, hops, hlt]
          · exact ⟨current, (shown_eq _).symm.trans
              ((shown_outdated h.toOrdered (Nat.le_of_not_lt hlt)).trans h.shown)⟩
          · intro displayed
            apply FieldStep.settled call displayed hcall hkey
            intro other hother
            cases hfind.symm.trans hother
            exact ⟨hops, Nat.le_of_not_lt hlt⟩

theorem settleField_spec {ledger : Ledger N L} {key : String} {field : OwnedField N L}
    {current : Value N L} {call : OptimisticCall} {success : Bool}
    (h : Shows ledger.clock current field) (hcall : findCall ledger call.id = some call)
    (hkey : key ∈ call.fields) (hle : call.sequence ≤ ledger.clock)
    (hdrop : success = false → Defined (dropChange field call.sequence))
    (hrelease : success = true → findChange field call.sequence = none →
      Defined (releaseEdit field call.sequence)) :
    ∃ value field', settleField call success current field = (value, field', none) ∧
      Shows ledger.clock value field' ∧
      FieldStep ledger key field (.finishCall call.id success) field' := by
  obtain ⟨field', hsettled, hordered, hdefined, hstep⟩ :=
    settledField_spec h hcall hkey hle hdrop hrelease
  obtain ⟨value, hwrite, hshows⟩ := write_shows hordered hdefined current
  refine ⟨value, { field' with displayed := value }, ?_, hshows, hstep value⟩
  unfold settleField
  rw [hsettled]
  simp only [hwrite]

/-! ## Section 4: Frames and edits -/

/-- One field of the ledger is replaced, and its property assigned. -/
theorem setField_consistent {keys : Keys} {target : String → Value N L} {ledger : Ledger N L}
    (h : Consistent keys target ledger) {key : String} {field field' : OwnedField N L}
    (hget : Entries.get ledger.fields key = some field) {clock : Nat} (hclock : ledger.clock ≤ clock)
    {value : Value N L} (hshows : Shows clock value field') :
    Consistent keys (assign target key value) (setField { ledger with clock } key field') := by
  refine ⟨?_, ?_, ?_⟩
  · intro call hmem
    exact ⟨Nat.le_trans (h.calls call hmem).1 hclock, (h.calls call hmem).2⟩
  · intro k f hf
    by_cases hk : k = key
    · exact hk ▸ h.reactive key field hget
    · exact h.reactive k f ((Entries.get_set_of_ne _ _ (Ne.symm hk)).symm.trans hf)
  · intro k f hf
    by_cases hk : k = key
    · subst hk
      rw [assign_self]
      cases (Entries.get_set_self _ _ _).symm.trans hf
      exact hshows
    · rw [assign_of_ne _ _ hk]
      exact (h.fields k f ((Entries.get_set_of_ne _ _ (Ne.symm hk)).symm.trans hf)).mono hclock

omit [JsNumber N] [DecidableEq N] [DecidableEq L] in
theorem setField_stepsTo {ledger : Ledger N L} {event : Event N L} {key : String}
    {field field' : OwnedField N L} (hget : Entries.get ledger.fields key = some field)
    (clock : Nat) (hstep : FieldStep ledger key field event field') :
    StepsTo ledger (setField { ledger with clock } key field') event := by
  intro k f hf
  by_cases hk : k = key
  · subst hk
    cases hget.symm.trans hf
    exact ⟨field', Entries.get_set_self _ _ _, hstep⟩
  · exact ⟨f, (Entries.get_set_of_ne _ _ (Ne.symm hk)).trans hf, .kept event f.displayed⟩

/-- What an event leaves of a component with a ledger. -/
def Reaches (keys : Keys) (ledger : Ledger N L) (event : Event N L) (c : Component N L) : Prop :=
  ∃ ledger', c.ledger = some ledger' ∧ Consistent keys c.target ledger' ∧ StepsTo ledger ledger' event

omit [JsNumber N] [DecidableEq N] [DecidableEq L] in
theorem rebase_spec {ledger : Ledger N L} {key : String} {field field' : OwnedField N L}
    (h : Ordered ledger.clock field) {value : Value N L} {call : Option Nat} {echo : Bool}
    (hactive : ∀ id, call = some id → (findCall ledger id).isSome = true)
    (hcalls : ∀ call ∈ ledger.calls, call.sequence ≤ ledger.clock)
    (hrebase : rebase field value (call.bind (findCall ledger)) echo = .ok field') :
    Ordered ledger.clock field' ∧ ∀ displayed,
      FieldStep ledger key field (.frame key value call echo) { field' with displayed } := by
  cases call with
  | none =>
    cases echo with
    | true =>
      cases hrebase
      exact ⟨h, fun displayed => .kept _ displayed⟩
    | false =>
      obtain ⟨base, hcopy, rfl⟩ := Outcome.map_eq_ok.mp hrebase
      rw [copy_eq hcopy]
      exact ⟨{ h with }, fun displayed => .broadcast value displayed⟩
  | some id =>
    obtain ⟨call, hfind⟩ := Option.isSome_iff_exists.mp (hactive id rfl)
    obtain ⟨hmem, rfl⟩ := findCall_mem hfind
    rw [Option.bind_some, hfind] at hrebase
    unfold rebase at hrebase
    by_cases hskip : (echo || decide (call.sequence < field.sequence)) = true
    · -- an echo, or the state of an older call
      simp only [hskip, if_true] at hrebase
      cases hrebase
      exact ⟨h, fun displayed => .kept _ displayed⟩
    · simp only [hskip] at hrebase
      obtain ⟨base, hcopy, rfl⟩ := Outcome.map_eq_ok.mp hrebase
      rw [copy_eq hcopy]
      obtain ⟨hecho, hle⟩ : echo = false ∧ field.sequence ≤ call.sequence := by
        simpa using hskip
      subst hecho
      exact ⟨rebased_ordered h value (hcalls call hmem),
        fun displayed => .responded call value displayed hfind hle⟩

theorem frame_spec {keys : Keys} {c : Component N L} {ledger : Ledger N L}
    (hledger : c.ledger = some ledger) (h : Consistent keys c.target ledger) {key : String}
    {value : Value N L} {call : Option Nat} {echo : Bool}
    (hreplays : Replays c (.frame key value call echo)) :
    Reaches keys ledger (.frame key value call echo) (act keys c (.frame key value call echo)) := by
  have hsame : Reaches keys ledger (.frame key value call echo) c :=
    ⟨ledger, hledger, h, stepsTo_refl ledger _⟩
  show Reaches keys ledger _ (applyOptimisticState c key value call echo).1
  unfold applyOptimisticState
  simp only [hledger]
  by_cases hgone : (call.isSome && (call.bind (findCall ledger)).isNone) = true
  · -- the call has settled
    rw [if_pos hgone]
    exact hsame
  · rw [if_neg hgone]
    cases hget : Entries.get ledger.fields key with
    | none => exact hsame
    | some field =>
      have hobserve : observeExternal c.target ledger key = ledger :=
        observeExternal_displayed fun f hf => h.displayed hf
      simp only [hobserve, hget]
      have hactive : ∀ id, call = some id → (findCall ledger id).isSome = true := by
        rintro id rfl
        simpa [Option.isSome_iff_ne_none] using hgone
      cases hrebase : rebase field value (call.bind (findCall ledger)) echo with
      | error message => exact ⟨ledger, rfl, h, stepsTo_refl ledger _⟩
      | ok field' =>
        obtain ⟨hordered, hstep⟩ := rebase_spec (h.fields key field hget).toOrdered hactive
          (fun call hmem => (h.calls call hmem).1) hrebase
        have hdefined : Defined field' := by
          apply hreplays field
          · rw [owned, hledger]
            exact hget
          · intro id hid
            rw [pendingCall, hledger]
            exact hactive id hid
          · have hpending : pendingCall c = findCall ledger := by
              funext id
              rw [pendingCall, hledger]
              rfl
            rw [hpending]
            exact hrebase
        obtain ⟨shownValue, hwrite, hshows⟩ := write_shows hordered hdefined (c.target key)
        simp only [hwrite]
        exact ⟨_, rfl, setField_consistent h hget (Nat.le_refl _) hshows,
          setField_stepsTo hget _ (hstep shownValue)⟩

theorem edit_spec {keys : Keys} {c : Component N L} {ledger : Ledger N L}
    (hledger : c.ledger = some ledger) (h : Consistent keys c.target ledger) {key : String}
    {value : Value N L} (hreplays : Replays c (.edit key value)) :
    Reaches keys ledger (.edit key value) (act keys c (.edit key value)) := by
  show Reaches keys ledger _ (localEdit c key value)
  unfold localEdit
  simp only [hledger, Option.map_some]
  cases hget : Entries.get ledger.fields key with
  | none =>
    have hnote : noteOptimisticWrite (assign c.target key value) ledger key = ledger := by
      simp [noteOptimisticWrite, hget]
    rw [hnote]
    refine ⟨ledger, rfl, ⟨h.calls, h.reactive, ?_⟩, stepsTo_refl ledger _⟩
    intro k f hf
    have hk : k ≠ key := fun heq => by
      rw [heq, hget] at hf
      cases hf
    show Shows ledger.clock (assign c.target key value k) f
    rw [assign_of_ne _ _ hk]
    exact h.fields k f hf
  | some field =>
    have hfield := h.fields key field hget
    have howned : owned c key = some field := by
      rw [owned, hledger]
      exact hget
    obtain ⟨old, hold⟩ := hreplays field howned
    let edit : Change N L := ⟨ledger.clock + 1, value, none⟩
    have hnew : ledger.clock < edit.sequence := Nat.lt_succ_self _
    have hshows : Shows (ledger.clock + 1) value
        { field with localEdit := some edit, displayed := value } :=
      { edited_ordered hfield.toOrdered hnew rfl with
        displayed := rfl
        shown := shown_edit hfield.toOrdered hnew rfl ((shown_eq _).trans hold) }
    have hnote : noteOptimisticWrite (assign c.target key value) ledger key =
        setField { ledger with clock := ledger.clock + 1 } key
          { field with localEdit := some edit, displayed := value } := by
      simp [noteOptimisticWrite, hget, edit]
    rw [hnote]
    exact ⟨_, rfl, setField_consistent h hget (Nat.le_succ _) hshows,
      setField_stepsTo hget _ (.edited value)⟩

theorem finish_spec {keys : Keys} {c : Component N L} {ledger : Ledger N L}
    (hledger : c.ledger = some ledger) (h : Consistent keys c.target ledger) {id : Nat}
    {success : Bool} (hreplays : Replays c (.finishCall id success)) :
    Reaches keys ledger (.finishCall id success) (act keys c (.finishCall id success)) := by
  show Reaches keys ledger _ (settleCall c id success)
  unfold settleCall
  simp only [hledger]
  cases hfind : findCall ledger id with
  | none => exact ⟨ledger, hledger, h, stepsTo_refl ledger _⟩
  | some call =>
    obtain ⟨hmem, rfl⟩ := findCall_mem hfind
    have hpending : pendingCall c call.id = some call := by
      rw [pendingCall, hledger]
      exact hfind
    have howned : ∀ key, owned c key = Entries.get ledger.fields key := by
      intro key
      rw [owned, hledger]
      rfl
    have hremaining : Consistent keys c.target
        { ledger with calls := ledger.calls.filter (·.id != call.id) } :=
      ⟨fun other hother => h.calls other (List.mem_of_mem_filter hother), h.reactive, h.fields⟩
    have hkept : ∀ key field, FieldStep ledger key field (.finishCall call.id success) field :=
      fun _ field => .kept _ field.displayed
    have hupdate : ∀ key ∈ call.fields, ∀ field, Entries.get ledger.fields key = some field →
        ∃ value field', settleField call success (c.target key) field = (value, field', none) ∧
          Shows ledger.clock value field' ∧
          FieldStep ledger key field (.finishCall call.id success) field' := by
      intro key hkey field hget
      apply settleField_spec (h.fields key field hget) hfind hkey (h.calls call hmem).1
      · rintro rfl
        exact hreplays call hpending key hkey field ((howned key).trans hget)
      · rintro rfl
        exact hreplays call hpending key hkey field ((howned key).trans hget)
    obtain ⟨hconsistent, -, -, hsteps⟩ :=
      eachField_consistent hremaining (h.calls call hmem).2 hkept hupdate
    exact ⟨_, rfl, hconsistent, hsteps⟩

theorem confirm_spec {keys : Keys} {c : Component N L} {ledger : Ledger N L}
    (hledger : c.ledger = some ledger) (h : Consistent keys c.target ledger) {id : Nat}
    {confirmed : Keys} (hreplays : Replays c (.confirm id confirmed)) :
    Reaches keys ledger (.confirm id confirmed) (act keys c (.confirm id confirmed)) := by
  show Reaches keys ledger _ (confirmOptimisticFields c id confirmed.1).1
  unfold confirmOptimisticFields
  simp only [hledger]
  cases hfind : findCall ledger id with
  | none => exact ⟨ledger, hledger, h, stepsTo_refl ledger _⟩
  | some call =>
    obtain ⟨hmem, rfl⟩ := findCall_mem hfind
    have hpending : pendingCall c call.id = some call := by
      rw [pendingCall, hledger]
      exact hfind
    have hkept : ∀ key field, FieldStep ledger key field (.confirm call.id confirmed) field :=
      fun _ field => .kept _ field.displayed
    have hupdate : ∀ key ∈ confirmed.1.filter (hasChange ledger call), ∀ field,
        Entries.get ledger.fields key = some field →
        ∃ value field', withdrawChange call.sequence (c.target key) field = (value, field', none) ∧
          Shows ledger.clock value field' ∧
          FieldStep ledger key field (.confirm call.id confirmed) field' := by
      intro key hkey field hget
      have hkey' : key ∈ confirmed.1 := List.mem_of_mem_filter hkey
      have hdefined : Defined (dropChange field call.sequence) := by
        apply hreplays call hpending key hkey' field
        rw [owned, hledger]
        exact hget
      obtain ⟨value, hwrite, hshows⟩ := write_shows
        (dropChange_ordered (h.fields key field hget).toOrdered call.sequence) hdefined
        (c.target key)
      refine ⟨value, _, ?_, hshows, .confirmed call confirmed value hfind hkey'⟩
      unfold withdrawChange
      simp only [hwrite]
    obtain ⟨hconsistent, -, -, hsteps⟩ :=
      eachField_consistent h (confirmed.2.filter _) hkept hupdate
    exact ⟨_, rfl, hconsistent, hsteps⟩

/-! ## Section 5: Handlers -/

theorem captureField_ok {capture : Capture N L} {key : String} {start next : Value N L}
    (h : capturedValue key start (capture.target key) (Entries.get capture.operations key) =
      .ok next) (sequence : Nat) (own : Option (OwnedField N L)) :
    captureField sequence capture key start own =
      ({ own.getD (newField start) with
          changes := (own.getD (newField start)).changes ++
            [⟨sequence, next, Entries.get capture.operations key⟩]
          displayed := next }, false) := by
  simp only [captureField, h]

theorem captureField_error {capture : Capture N L} {key : String} {start : Value N L}
    {message : String}
    (h : capturedValue key start (capture.target key) (Entries.get capture.operations key) =
      .error message) (sequence : Nat) (own : Option (OwnedField N L)) :
    captureField sequence capture key start own = (own.getD (newField start), true) := by
  simp only [captureField, h]

/-- A captured value is the value of the property, and what the recorded
    operations give. -/
theorem capturedValue_ok {key : String} {start current next : Value N L}
    {operations : Option (List (OptimisticOperation N L))}
    (h : capturedValue key start current operations = .ok next) (sequence : Nat) :
    next = current ∧ copy next = .ok next ∧
      applyChange start ⟨sequence, next, operations⟩ = .ok next := by
  obtain ⟨copied, hcopy, hchecked⟩ := Outcome.bind_eq_ok.mp h
  have hcopied : copied = current := copy_eq hcopy
  subst hcopied
  cases operations with
  | none =>
    cases hchecked
    exact ⟨rfl, hcopy, rfl⟩
  | some operations =>
    obtain ⟨replayed, hreplayed, hchecked⟩ := Outcome.bind_eq_ok.mp hchecked
    by_cases hmixed : copied ≠ replayed
    · rw [if_pos hmixed] at hchecked
      exact nomatch hchecked
    · rw [if_neg hmixed] at hchecked
      cases hchecked
      refine ⟨rfl, hcopy, ?_⟩
      rw [applyChange_operations rfl, hreplayed, not_ne_iff.mp hmixed]

/-- The contribution of a call whose value was accepted. -/
theorem captureField_accepted {sequence : Nat} {capture : Capture N L} {key : String}
    {start : Value N L} {own : Option (OwnedField N L)}
    (h : (captureField sequence capture key start own).2 = false) :
    ∃ change : Change N L, change.sequence = sequence ∧
      change.operations = Entries.get capture.operations key ∧
      copy change.value = .ok change.value ∧
      applyChange start change = .ok (capture.target key) ∧
      (captureField sequence capture key start own).1 =
        { own.getD (newField start) with
          changes := (own.getD (newField start)).changes ++ [change]
          displayed := capture.target key } := by
  cases hvalue : capturedValue key start (capture.target key)
      (Entries.get capture.operations key) with
  | error message =>
    rw [captureField_error hvalue] at h
    exact nomatch h
  | ok next =>
    obtain ⟨rfl, hcopied, happly⟩ := capturedValue_ok hvalue sequence
    refine ⟨⟨sequence, capture.target key, Entries.get capture.operations key⟩, rfl, rfl, hcopied,
      happly, ?_⟩
    rw [captureField_ok hvalue]

theorem captureField_rejected {sequence : Nat} {capture : Capture N L} {key : String}
    {start : Value N L} {own : Option (OwnedField N L)}
    (h : (captureField sequence capture key start own).2 = true) :
    (captureField sequence capture key start own).1 = own.getD (newField start) := by
  cases hvalue : capturedValue key start (capture.target key)
      (Entries.get capture.operations key) with
  | error message => rw [captureField_error hvalue]
  | ok next =>
    rw [captureField_ok hvalue] at h
    exact nomatch h

theorem newField_shows (clock : Nat) (start : Value N L) : Shows clock start (newField start) where
  distinct := List.nodup_nil
  bounded := fun _ hmem => (nomatch hmem)
  base_bounded := Nat.zero_le _
  copied := fun _ hmem => (nomatch hmem)
  edit_direct := fun _ heq => (nomatch heq)
  edit_newer := fun _ heq => (nomatch heq)
  displayed := rfl
  shown := rfl

/-- The field a handler starts from. -/
theorem startField_shows {keys : Keys} {target : String → Value N L} {ledger : Ledger N L}
    (h : Consistent keys target ledger) (key : String) :
    Shows ledger.clock (target key)
      ((Entries.get ledger.fields key).getD (newField (target key))) := by
  cases hget : Entries.get ledger.fields key with
  | none => exact newField_shows _ _
  | some field => exact h.fields key field hget

theorem captureField_shows {clock : Nat} {capture : Capture N L} {key : String}
    {start : Value N L} {own : Option (OwnedField N L)}
    (h : Shows clock start (own.getD (newField start)))
    (haccepted : (captureField (clock + 1) capture key start own).2 = false) :
    Shows (clock + 1) (capture.target key) (captureField (clock + 1) capture key start own).1 := by
  obtain ⟨change, hseq, -, hcopied, happly, heq⟩ := captureField_accepted haccepted
  have hnew : clock < change.sequence := hseq ▸ Nat.lt_succ_self clock
  have hordered := appended_ordered h.toOrdered hnew (fun _ => hcopied)
  rw [hseq] at hordered
  rw [heq]
  exact { hordered with
    displayed := rfl
    shown := (shown_append h.toOrdered hnew h.shown).trans happly }

/-- The withdrawal of a failed handler gives the property back its value. -/
theorem withdraw_captured {clock : Nat} {capture : Capture N L} {key : String}
    {start : Value N L} {own : Option (OwnedField N L)}
    (h : Shows clock start (own.getD (newField start))) (current : Value N L) :
    withdrawChange (clock + 1) current (captureField (clock + 1) capture key start own).1 =
      (start, { own.getD (newField start) with displayed := start }, none) := by
  have hdropped : ∃ displayed, dropChange (captureField (clock + 1) capture key start own).1
      (clock + 1) = { own.getD (newField start) with displayed } := by
    cases hfailed : (captureField (clock + 1) capture key start own).2 with
    | false =>
      obtain ⟨change, hseq, -, -, -, heq⟩ := captureField_accepted hfailed
      have hnew : clock < change.sequence := hseq ▸ Nat.lt_succ_self clock
      have hordered : Ordered clock
          { own.getD (newField start) with displayed := capture.target key } :=
        { h.toOrdered with }
      rw [heq, ← hseq]
      exact ⟨_, dropChange_append hordered hnew⟩
    | true =>
      rw [captureField_rejected hfailed, dropChange_newer h.toOrdered (Nat.lt_succ_self clock)]
      exact ⟨_, rfl⟩
  obtain ⟨displayed, heq⟩ := hdropped
  have hshown : shown { own.getD (newField start) with displayed } = .ok start := h.shown
  unfold withdrawChange
  simp only [heq, write_eq hshown]

section Begin

variable {keys : Keys} {target : String → Value N L} {ledger : Ledger N L}
  {capture : Capture N L} {captured : Captured N L} {ran : Bool}

/-- A call of the ledger after `ledger` has begun one more. -/
theorem begun_calls (h : Consistent keys target ledger) (id : Nat) {fields : List String}
    (hfields : fields.Nodup) :
    ∀ call ∈ ledger.calls ++ [⟨id, ledger.clock + 1, fields⟩],
      call.sequence ≤ ledger.clock + 1 ∧ call.fields.Nodup := by
  intro call hmem
  rcases List.mem_append.mp hmem with hmem | hmem
  · exact ⟨Nat.le_succ_of_le (h.calls call hmem).1, (h.calls call hmem).2⟩
  · cases List.mem_singleton.mp hmem
    exact ⟨Nat.le_refl _, hfields⟩

omit [JsNumber N] in
theorem not_touched {key : String} {start : Value N L} (h : ¬ touches capture key start = true) :
    capture.target key = start ∧ Entries.get capture.operations key = none := by
  unfold touches at h
  simp only [Bool.not_eq_true, Bool.not_eq_false', Bool.and_eq_true, decide_eq_true_eq,
    Option.isNone_iff_eq_none] at h
  exact ⟨h.2.symm, h.1⟩

/-- A field after the loop over the snapshot, by the key it is under. -/
theorem captured_cases (h : Consistent keys target ledger)
    (hspec : CapturedAt (ledger.clock + 1) capture keys.1 target
      ⟨ledger.fields, [], ran⟩ captured) {key : String} {field : OwnedField N L}
    (hget : Entries.get captured.fields key = some field) :
    key ∈ keys.1 ∧
      (touches capture key (target key) = true ∧
          field = (captureField (ledger.clock + 1) capture key (target key)
            (Entries.get ledger.fields key)).1 ∨
        ¬ touches capture key (target key) = true ∧ Entries.get ledger.fields key = some field) := by
  rw [hspec.fields key] at hget
  by_cases hkey : key ∈ keys.1 ∧ touches capture key (target key) = true
  · rw [if_pos hkey] at hget
    exact ⟨hkey.1, .inl ⟨hkey.2, (Option.some.inj hget).symm⟩⟩
  · rw [if_neg hkey] at hget
    have hreactive := h.reactive key field hget
    exact ⟨hreactive, .inr ⟨fun htouch => hkey ⟨hreactive, htouch⟩, hget⟩⟩

theorem captured_consistent (h : Consistent keys target ledger)
    (hspec : CapturedAt (ledger.clock + 1) capture keys.1 target
      ⟨ledger.fields, [], ran⟩ captured) (haccepted : captured.failed = false) (id : Nat) :
    Consistent keys capture.target
      ⟨ledger.clock + 1, ledger.calls ++ [⟨id, ledger.clock + 1, captured.touched⟩],
        captured.fields⟩ := by
  have htouched : captured.touched.Nodup := by
    rw [hspec.touched]
    exact keys.2.filter _
  have hfield : ∀ key ∈ keys.1, touches capture key (target key) = true →
      (captureField (ledger.clock + 1) capture key (target key)
        (Entries.get ledger.fields key)).2 = false := by
    intro key hkey htouch
    by_contra hfails
    have := hspec.failed.mpr (.inr ⟨key, hkey, htouch, by simpa using hfails⟩)
    rw [haccepted] at this
    cases this
  refine ⟨begun_calls h id htouched, fun key field hget => (captured_cases h hspec hget).1, ?_⟩
  intro key field hget
  obtain ⟨hkey, ⟨htouch, rfl⟩ | ⟨hkept, hget⟩⟩ := captured_cases h hspec hget
  · exact captureField_shows (startField_shows h key) (hfield key hkey htouch)
  · show Shows (ledger.clock + 1) (capture.target key) field
    rw [(not_touched hkept).1]
    exact (h.fields key field hget).mono (Nat.le_succ _)

theorem captured_stepsTo (h : Consistent keys target ledger)
    (hspec : CapturedAt (ledger.clock + 1) capture keys.1 target
      ⟨ledger.fields, [], ran⟩ captured) (calls : List OptimisticCall)
    (handler : Option (Handler N L)) :
    StepsTo ledger ⟨ledger.clock + 1, calls, captured.fields⟩ (.beginCall handler) := by
  intro key field hget
  by_cases htouch : touches capture key (target key) = true
  · refine ⟨_, (hspec.fields key).trans (if_pos ⟨h.reactive key field hget, htouch⟩), ?_⟩
    show FieldStep ledger key field _ (captureField _ capture key _ (Entries.get ledger.fields key)).1
    rw [hget]
    cases hfails : (captureField (ledger.clock + 1) capture key (target key) (some field)).2 with
    | false =>
      obtain ⟨change, hseq, -, -, -, heq⟩ := captureField_accepted hfails
      rw [heq]
      exact .joined handler change _ (hseq ▸ Nat.lt_succ_self _)
    | true =>
      rw [captureField_rejected hfails]
      exact .kept _ field.displayed
  · refine ⟨field, ?_, .kept _ field.displayed⟩
    exact (hspec.fields key).trans ((if_neg fun hboth => htouch hboth.2).trans hget)

/-- What the withdrawal of a failed handler leaves: the fields and properties it
    started from. -/
structure WithdrawnAt (keys : Keys) (target : String → Value N L) (ledger : Ledger N L)
    (capture : Capture N L) (withdrawn : (String → Value N L) × Ledger N L × Option String) :
    Prop where
  done : withdrawn.2.2 = none
  clock : withdrawn.2.1.clock = ledger.clock + 1
  fields : ∀ key field', Entries.get withdrawn.2.1.fields key = some field' → key ∈ keys.1 ∧
    field' = { (Entries.get ledger.fields key).getD (newField (target key)) with
      displayed := target key }
  owned : ∀ key field, Entries.get ledger.fields key = some field →
    ∃ field', Entries.get withdrawn.2.1.fields key = some field'
  target : ∀ key ∈ keys.1, withdrawn.1 key = target key
  elsewhere : ∀ key, key ∉ keys.1 → withdrawn.1 key = capture.target key

theorem withdrawn_spec (h : Consistent keys target ledger)
    (hspec : CapturedAt (ledger.clock + 1) capture keys.1 target
      ⟨ledger.fields, [], ran⟩ captured) (calls : List OptimisticCall)
    {withdrawn : (String → Value N L) × Ledger N L × Option String}
    (hwithdrawn : eachField false (withdrawChange (ledger.clock + 1)) captured.touched
      capture.target ⟨ledger.clock + 1, calls, captured.fields⟩ = withdrawn) :
    WithdrawnAt keys target ledger capture withdrawn := by
  have htouched : captured.touched = keys.1.filter fun key => touches capture key (target key) := by
    rw [hspec.touched]
    rfl
  -- a touched key has a field, and withdrawing gives it back the value it had
  have hkey : ∀ key ∈ captured.touched, ∀ field, Entries.get captured.fields key = some field →
      withdrawChange (ledger.clock + 1) (capture.target key) field =
        (target key, { (Entries.get ledger.fields key).getD (newField (target key)) with
          displayed := target key }, none) := by
    intro key hmem field hget
    rw [htouched, List.mem_filter] at hmem
    obtain ⟨-, ⟨-, rfl⟩ | ⟨hkept, -⟩⟩ := captured_cases h hspec hget
    · exact withdraw_captured (startField_shows h key) _
    · exact absurd hmem.2 hkept
  have hupdated : UpdatedAt (withdrawChange (ledger.clock + 1)) captured.touched capture.target
      ⟨ledger.clock + 1, calls, captured.fields⟩ withdrawn := by
    rw [← hwithdrawn]
    apply eachField_spec
    · rw [htouched]
      exact keys.2.filter _
    · intro hobserve
      exact nomatch hobserve
    · intro key hmem field hget
      rw [hkey key hmem field hget]
  have hcaptured : ∀ key ∈ captured.touched, ∃ field,
      Entries.get captured.fields key = some field := by
    intro key hmem
    rw [htouched, List.mem_filter] at hmem
    exact ⟨_, (hspec.fields key).trans (if_pos hmem)⟩
  have hback : ∀ key field', Entries.get withdrawn.2.1.fields key = some field' →
      ∃ field, Entries.get captured.fields key = some field := by
    intro key field' hget'
    cases hget : Entries.get captured.fields key with
    | some field => exact ⟨field, rfl⟩
    | none =>
      rw [(hupdated.unowned key hget).2] at hget'
      exact nomatch hget'
  refine ⟨hupdated.done, hupdated.clock, ?_, ?_, ?_, ?_⟩
  · intro key field' hget'
    obtain ⟨field, hget⟩ := hback key field' hget'
    by_cases hmem : key ∈ captured.touched
    · have hfield := (hupdated.owned key field hget hmem).2
      rw [hkey key hmem field hget] at hfield
      exact ⟨(captured_cases h hspec hget).1, Option.some.inj (hget'.symm.trans hfield)⟩
    · have hfield := (hupdated.elsewhere key hmem).2
      obtain ⟨hreactive, ⟨htouch, -⟩ | ⟨-, hown⟩⟩ := captured_cases h hspec hget
      · rw [htouched, List.mem_filter] at hmem
        exact absurd ⟨hreactive, htouch⟩ hmem
      · refine ⟨hreactive, ?_⟩
        rw [hown, ← (h.fields key field hown).displayed]
        exact Option.some.inj ((hget'.symm.trans hfield).trans hget)
  · intro key field hget
    have hcaptured' : ∃ field', Entries.get captured.fields key = some field' := by
      rw [hspec.fields key]
      split
      · exact ⟨_, rfl⟩
      · exact ⟨field, hget⟩
    obtain ⟨field', hget'⟩ := hcaptured'
    by_cases hmem : key ∈ captured.touched
    · exact ⟨_, (hupdated.owned key field' hget' hmem).2⟩
    · exact ⟨field', (hupdated.elsewhere key hmem).2.trans hget'⟩
  · intro key hreactive
    by_cases hmem : key ∈ captured.touched
    · obtain ⟨field, hget⟩ := hcaptured key hmem
      rw [(hupdated.owned key field hget hmem).1, hkey key hmem field hget]
    · have hkept : ¬ touches capture key (target key) = true := by
        rw [htouched, List.mem_filter] at hmem
        exact fun htouch => hmem ⟨hreactive, htouch⟩
      exact (hupdated.elsewhere key hmem).1.trans (not_touched hkept).1
  · intro key hkey'
    apply (hupdated.elsewhere key _).1
    rw [htouched, List.mem_filter]
    exact fun hmem => hkey' hmem.1

theorem withdrawn_consistent (h : Consistent keys target ledger)
    {withdrawn : (String → Value N L) × Ledger N L × Option String}
    (hwithdrawn : WithdrawnAt keys target ledger capture withdrawn) (id : Nat)
    (handler : Option (Handler N L)) :
    Consistent keys withdrawn.1
        { withdrawn.2.1 with calls := ledger.calls ++ [⟨id, ledger.clock + 1, []⟩] } ∧
      StepsTo ledger
        { withdrawn.2.1 with calls := ledger.calls ++ [⟨id, ledger.clock + 1, []⟩] }
        (.beginCall handler) := by
  refine ⟨⟨?_, fun key field hget => (hwithdrawn.fields key field hget).1, ?_⟩, ?_⟩
  · show ∀ call ∈ (_ : List OptimisticCall), call.sequence ≤ withdrawn.2.1.clock ∧ _
    rw [hwithdrawn.clock]
    exact begun_calls h id List.nodup_nil
  · intro key field' hget'
    obtain ⟨hreactive, heq⟩ := hwithdrawn.fields key field' hget'
    show Shows withdrawn.2.1.clock (withdrawn.1 key) _
    rw [heq, hwithdrawn.clock, hwithdrawn.target key hreactive]
    have hstart := (startField_shows h key).mono (Nat.le_succ _)
    exact { hstart with displayed := rfl, shown := hstart.shown }
  · intro key field hget
    obtain ⟨field', hget'⟩ := hwithdrawn.owned key field hget
    have heq := (hwithdrawn.fields key field' hget').2
    rw [hget] at heq
    exact ⟨field', hget', heq ▸ .kept _ (target key)⟩

end Begin

theorem begin_spec {keys : Keys} {c : Component N L} {ledger : Ledger N L}
    (hledger : c.ledger.getD { clock := 0, calls := [], fields := [] } = ledger)
    (h : Consistent keys c.target ledger) (handler : Option (Handler N L)) :
    Reaches keys ledger (.beginCall handler) (act keys c (.beginCall handler)) ∧
      (beginOptimisticCall c handler keys.1).2 = none := by
  have hobserve : observeAll c.target ledger = ledger :=
    observeAll_displayed fun key field hget => h.displayed hget
  have hplain : Consistent keys c.target
      ⟨ledger.clock + 1, ledger.calls ++ [⟨c.begun, ledger.clock + 1, []⟩], ledger.fields⟩ :=
    ⟨begun_calls h c.begun List.nodup_nil, h.reactive,
      fun key field hget => (h.fields key field hget).mono (Nat.le_succ _)⟩
  have hplainSteps : StepsTo ledger
      ⟨ledger.clock + 1, ledger.calls ++ [⟨c.begun, ledger.clock + 1, []⟩], ledger.fields⟩
      (.beginCall handler) := fun key field hget => ⟨field, hget, .kept _ field.displayed⟩
  show Reaches keys ledger _ (beginOptimisticCall c handler keys.1).1 ∧ _
  unfold beginOptimisticCall
  simp only [hledger, hobserve]
  cases handler with
  | none => exact ⟨⟨_, rfl, hplain, hplainSteps⟩, rfl⟩
  | some handler =>
    cases hsnapshot : snapshotFields c.target keys.1 with
    | error message => exact ⟨⟨_, rfl, hplain, hplainSteps⟩, rfl⟩
    | ok before =>
      rw [snapshotFields_eq hsnapshot]
      simp only
      generalize runActions _ handler.actions _ = ran
      have hspec := captureFields_spec (ledger.clock + 1) ran.1 keys.2 c.target
        ⟨ledger.fields, [], ran.2 || handler.throws⟩
      generalize captureFields (ledger.clock + 1) ran.1 _ _ = captured at hspec ⊢
      cases hfailed : captured.failed with
      | false =>
        exact ⟨⟨_, rfl, captured_consistent h hspec hfailed c.begun,
          captured_stepsTo h hspec _ (some handler)⟩, rfl⟩
      | true =>
        simp only [if_true]
        generalize hwithdrawn : eachField false _ captured.touched ran.1.target _ = withdrawn
        have hspecified := withdrawn_spec h hspec _ hwithdrawn
        obtain ⟨hconsistent, hsteps⟩ :=
          withdrawn_consistent h hspecified c.begun (some handler)
        simp only [hspecified.done, Option.isSome_none]
        exact ⟨⟨_, rfl, hconsistent, hsteps⟩, trivial⟩

end Cossack.Core
