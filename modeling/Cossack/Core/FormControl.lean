import Cossack.Lib.Runs
import Mathlib

/-! # The form controller

    Edits, `reset`, `validate` and `submit`, with the completions of the schema's
    `parse` and of the submit handler.  Values are opaque, and `parses values data`
    says that `parse` may fulfil with `data`; its rejections carry the flattened
    field errors, if they have any.  Listeners run inside `notify`; after the first
    one of `submit` they may have called the controller. -/

namespace Cossack.Core.FormControl

open Runs

/-! ## Section 1: The controller -/

variable {V D : Type}

abbrev Errors := List (String × String)

/-- What `validate` returns or throws. -/
inductive Validity (D : Type) where
  | valid (data : D)
  | invalid
  | stale
  | threw

structure Validation (V D : Type) where
  /-- The values that `parse` was called with. -/
  values : V
  revision : Nat
  aborted : Bool
  result : Option (Validity D)

inductive SubmitPhase where
  /-- In the first `notify`. -/
  | notifying
  | validating (validation revision : Nat)
  | handling (revision : Nat)
  | settled
  deriving DecidableEq

/-- A call whose results may be written. -/
inductive Caller where
  | validation (j : Nat)
  | submit (i : Nat)

/-- What happened, in order. -/
inductive Entry (V D : Type) where
  /-- An edit or a reset. -/
  | changed
  /-- The call has read the revision. -/
  | started (caller : Caller)
  /-- Results of the call were written to the errors or the status. -/
  | wrote (caller : Caller)
  /-- The handler of a submit was called; `values` are those of the form. -/
  | invoked (submit : Nat) (data : D) (values : V)
  | returned (submit : Nat)

structure FormController (V D : Type) where
  initial : V
  current : V
  errorState : Errors
  revision : Nat
  validationController : Option Nat
  submittingState : Bool
  submittedState : Bool
  validations : List (Validation V D)
  submits : List SubmitPhase
  history : List (Entry V D)

namespace FormController

def start (values : V) : FormController V D :=
  { initial := values, current := values, errorState := [], revision := 0,
    validationController := none, submittingState := false, submittedState := false,
    validations := [], submits := [], history := [] }

variable (c : FormController V D)

/-- `this.validationController?.abort()` -/
def abort : FormController V D :=
  match c.validationController with
  | none => c
  | some j => { c with validations := c.validations.modify j fun v => { v with aborted := true } }

/-- `clearErrors`: those of a path and below it, or all. -/
def clearErrors (path : Option String) : FormController V D :=
  match path with
  | none => { c with errorState := [] }
  | some path =>
      { c with errorState := c.errorState.filter fun e =>
          !(e.1 == path || (path ++ ".").isPrefixOf e.1) }

/-- `changed`, with the values that were set before. -/
def changed (current : V) (path : Option String) : FormController V D :=
  let c : FormController V D := { c with current, revision := c.revision + 1 }.abort
  let c : FormController V D := { c with
    validationController := none
    submittedState := false
    history := c.history ++ [.changed] }
  c.clearErrors path

def reset (initialValues : Option V) : FormController V D :=
  let initial := initialValues.getD c.initial
  let c : FormController V D := { c with initial, errorState := [], submittedState := false }
  c.changed initial none

/-- `validate` up to its `await`. -/
def validate : FormController V D :=
  let c : FormController V D := c.abort
  { c with
    validationController := some c.validations.length
    validations := c.validations ++ [⟨c.current, c.revision, false, none⟩]
    history := c.history ++ [.started (.validation c.validations.length)] }

/-- The end of `validate`, with its `finally`. -/
def validated (j : Nat) (result : Validity D) : FormController V D :=
  { c with
    validations := c.validations.modify j fun v => { v with result := some result }
    validationController := if c.validationController = some j then none else c.validationController }

/-- Results of a call are written. -/
def write (caller : Caller) (errors : Errors) (submitted : Bool) : FormController V D :=
  { c with errorState := errors, submittedState := submitted, history := c.history ++ [.wrote caller] }

/-- `parse` has fulfilled, or rejected with the field errors. -/
def parsed (j : Nat) (v : Validation V D) (outcome : Except (Option Errors) D) : FormController V D :=
  match outcome with
  | .ok data =>
      if v.revision ≠ c.revision then c.validated j .stale
      else (c.write (.validation j) [] c.submittedState).validated j (.valid data)
  | .error flattened =>
      if v.revision ≠ c.revision ∨ v.aborted = true then c.validated j .stale
      else match flattened with
        | some errors => (c.write (.validation j) errors c.submittedState).validated j .invalid
        | none => c.validated j .threw

def setSubmit (i : Nat) (phase : SubmitPhase) : FormController V D :=
  { c with submits := c.submits.set i phase }

/-- `finally` of `submit`. -/
def settle (i : Nat) : FormController V D :=
  let c : FormController V D := c.setSubmit i .settled
  { c with submittingState := false }

/-- `submit` up to its first `notify`; a second one is busy. -/
def submit : FormController V D :=
  if c.submittingState then c
  else { c with
    submittingState := true
    submittedState := false
    submits := c.submits ++ [.notifying] }

/-- After the first `notify`: the revision is read and the validation begins. -/
def proceed (i : Nat) : FormController V D :=
  let started : FormController V D :=
    c.validate.setSubmit i (.validating c.validations.length c.revision)
  { started with history := started.history ++ [.started (.submit i)] }

/-- After `await this.validate()`. -/
def resume (i revision : Nat) (validation : Validity D) : FormController V D :=
  match validation with
  | .valid data =>
      if revision ≠ c.revision then c.settle i
      else
        let c : FormController V D := c.setSubmit i (.handling revision)
        { c with history := c.history ++ [.invoked i data c.current] }
  | _ => c.settle i

/-- The handler has fulfilled, or rejected with the field errors. -/
def handled (i revision : Nat) (outcome : Except (Option Errors) Unit) : FormController V D :=
  let c : FormController V D := { c with history := c.history ++ [.returned i] }
  if revision ≠ c.revision then c.settle i
  else match outcome with
    | .ok () => (c.write (.submit i) c.errorState true).settle i
    | .error (some errors) => (c.write (.submit i) errors c.submittedState).settle i
    | .error none => c.settle i

end FormController

inductive Event (V D : Type) where
  /-- `setFieldValue` with a new value, or `setValues`. -/
  | edit (current : V) (path : Option String)
  | reset (initialValues : Option V)
  /-- `setFieldError`, `setFormError`, `clearErrors` and `applyServerError` by the user. -/
  | setErrors (errors : Errors)
  | validate
  | parsed (j : Nat) (outcome : Except (Option Errors) D)
  | submit
  | proceed (i : Nat)
  | resume (i : Nat)
  | handled (i : Nat) (outcome : Except (Option Errors) Unit)

def step (c : FormController V D) : Event V D → Option (FormController V D)
  | .edit current path => some (c.changed current path)
  | .reset initialValues => some (c.reset initialValues)
  | .setErrors errors => some { c with errorState := errors }
  | .validate => some c.validate
  | .parsed j outcome =>
      match c.validations[j]? with
      | some v => if v.result.isNone then some (c.parsed j v outcome) else none
      | none => none
  | .submit => some c.submit
  | .proceed i => if c.submits[i]? = some .notifying then some (c.proceed i) else none
  | .resume i =>
      match c.submits[i]? with
      | some (.validating j revision) =>
          ((c.validations[j]?).bind Validation.result).map (c.resume i revision)
      | _ => none
  | .handled i outcome =>
      match c.submits[i]? with
      | some (.handling revision) => some (c.handled i revision outcome)
      | _ => none

/-- The data that `parse` fulfils with are parsed from the values it was called with. -/
def Parsing (parses : V → D → Prop) (c : FormController V D) : Event V D → Prop
  | .parsed j (.ok data) => ∀ v, c.validations[j]? = some v → parses v.values data
  | _ => True

/-! ## Section 2: The history -/

/-- No edit or reset since the call has read the revision. -/
def Unedited (history : List (Entry V D)) (caller : Caller) : Prop :=
  ∀ before after, history = before ++ .started caller :: after → .changed ∉ after

/-- Results of a call that started before an edit or a reset are not written after it. -/
def Untouched (history : List (Entry V D)) : Prop :=
  ∀ before after caller, history = before ++ .changed :: after →
    .started caller ∈ before → .wrote caller ∉ after

/-- A handler that was called and has not returned. -/
def OpenCall (history : List (Entry V D)) (i : Nat) : Prop :=
  ∃ before data values after, history = before ++ .invoked i data values :: after ∧
    .returned i ∉ after

/-- A handler is called only when every handler before it has returned. -/
def Exclusive (history : List (Entry V D)) : Prop :=
  ∀ before i data values between j data' values' after,
    history = before ++ .invoked i data values :: (between ++ .invoked j data' values' :: after) →
      .returned i ∈ between

/-- A handler is called with data parsed from the values of that moment. -/
def FromValues (parses : V → D → Prop) (history : List (Entry V D)) : Prop :=
  ∀ i data values, .invoked i data values ∈ history → parses values data

section history
variable {history : List (Entry V D)} {entry : Entry V D} {caller : Caller}

/-- A split of a list with one more element ends in this element or is one of the list. -/
theorem split_append {α : Type} {l before after : List α} {x y : α}
    (h : l ++ [y] = before ++ x :: after) :
    (after = [] ∧ x = y ∧ l = before) ∨ ∃ rest, after = rest ++ [y] ∧ l = before ++ x :: rest := by
  rcases List.eq_nil_or_concat after with rfl | ⟨rest, last, rfl⟩
  · obtain ⟨hinit, hlast⟩ := List.append_inj' h rfl
    exact .inl ⟨rfl, (List.cons.inj hlast).1.symm, hinit⟩
  · rw [List.concat_eq_append, ← List.cons_append, ← List.append_assoc] at h
    obtain ⟨hinit, hlast⟩ := List.append_inj' h rfl
    refine .inr ⟨rest, ?_, hinit⟩
    rw [List.concat_eq_append, (List.cons.inj hlast).1]

theorem Unedited.append (h : Unedited history caller) (hentry : entry ≠ .changed) :
    Unedited (history ++ [entry]) caller := by
  intro before after hsplit
  rcases split_append hsplit with ⟨rfl, -, -⟩ | ⟨rest, rfl, hold⟩
  · exact List.not_mem_nil
  · simpa [hentry.symm] using h before rest hold

theorem unedited_of_not_started (h : .started caller ∉ history) : Unedited history caller := by
  rintro before after rfl
  exact absurd (List.mem_append_right _ List.mem_cons_self) h

theorem Untouched.append (h : Untouched history)
    (hentry : ∀ caller, entry = .wrote caller → Unedited history caller) :
    Untouched (history ++ [entry]) := by
  intro before after caller hsplit hstarted
  rcases split_append hsplit with ⟨rfl, -, -⟩ | ⟨rest, rfl, hold⟩
  · exact List.not_mem_nil
  · intro hmem
    rcases List.mem_append.mp hmem with hmem | hmem
    · exact h before rest caller hold hstarted hmem
    · -- the entry is the write, and the edit stands behind the start
      obtain ⟨a, b, rfl⟩ := List.append_of_mem hstarted
      have hno := hentry caller (List.mem_singleton.mp hmem).symm a (b ++ .changed :: rest)
        (by rw [hold, List.append_assoc, List.cons_append])
      exact hno (List.mem_append_right _ List.mem_cons_self)

theorem openCall_append {i : Nat} (h : OpenCall (history ++ [entry]) i) :
    (∃ data values, entry = .invoked i data values) ∨ OpenCall history i ∧ entry ≠ .returned i := by
  obtain ⟨before, data, values, after, hsplit, hno⟩ := h
  rcases split_append hsplit with ⟨-, hentry, -⟩ | ⟨rest, rfl, hold⟩
  · exact .inl ⟨data, values, hentry.symm⟩
  · obtain ⟨hrest, hlast⟩ := not_or.mp (List.mem_append.not.mp hno)
    exact .inr ⟨⟨before, data, values, rest, hold, hrest⟩, fun heq => hlast (by simp [heq])⟩

theorem Exclusive.append (h : Exclusive history)
    (hentry : ∀ j data values, entry = .invoked j data values → ∀ i, ¬ OpenCall history i) :
    Exclusive (history ++ [entry]) := by
  intro before i data values between j data' values' after hsplit
  have hsplit' : history ++ [entry] =
      (before ++ .invoked i data values :: between) ++ .invoked j data' values' :: after := by
    rw [hsplit, List.append_assoc, List.cons_append]
  rcases split_append hsplit' with ⟨-, hlast, hold⟩ | ⟨rest, -, hold⟩
  · by_contra hno
    exact hentry j data' values' hlast.symm i ⟨before, data, values, between, hold, hno⟩
  · refine h before i data values between j data' values' rest ?_
    rw [hold, List.append_assoc, List.cons_append]

theorem FromValues.append {parses : V → D → Prop} (h : FromValues parses history)
    (hentry : ∀ i data values, entry = .invoked i data values → parses values data) :
    FromValues parses (history ++ [entry]) := by
  intro i data values hmem
  rcases List.mem_append.mp hmem with hmem | hmem
  · exact h i data values hmem
  · exact hentry i data values (List.mem_singleton.mp hmem).symm

end history

/-! ## Section 3: The invariant -/

/-- A validation of the current revision was given the current values. -/
structure Validation.Fits (parses : V → D → Prop) (c : FormController V D) (j : Nat)
    (v : Validation V D) : Prop where
  le : v.revision ≤ c.revision
  values : v.revision = c.revision → v.values = c.current
  unedited : v.revision = c.revision → Unedited c.history (.validation j)
  data : ∀ data, v.result = some (.valid data) → parses v.values data

/-- What the phase of a submit says of its revision. -/
def SubmitPhase.Fits (c : FormController V D) (i : Nat) : SubmitPhase → Prop
  | .notifying => .started (.submit i) ∉ c.history
  | .validating j revision =>
      (∃ v, c.validations[j]? = some v ∧ v.revision = revision) ∧
        (revision = c.revision → Unedited c.history (.submit i))
  | .handling revision =>
      revision ≤ c.revision ∧ (revision = c.revision → Unedited c.history (.submit i))
  | .settled => True

def FormController.Unsettled (c : FormController V D) (i : Nat) : Prop :=
  ∃ phase, c.submits[i]? = some phase ∧ phase ≠ .settled

structure Inv (parses : V → D → Prop) (c : FormController V D) : Prop where
  validations : ∀ (j : Nat) (v : Validation V D), c.validations[j]? = some v → v.Fits parses c j
  submits : ∀ (i : Nat) (phase : SubmitPhase), c.submits[i]? = some phase → phase.Fits c i
  validationStarted : ∀ j, .started (.validation j) ∈ c.history → j < c.validations.length
  submitStarted : ∀ i, .started (.submit i) ∈ c.history → i < c.submits.length
  one : ∀ i j, c.Unsettled i → c.Unsettled j → i = j
  submitting : c.submittingState = true ↔ ∃ i, c.Unsettled i
  handling : ∀ i, OpenCall c.history i → ∃ revision, c.submits[i]? = some (.handling revision)
  untouched : Untouched c.history
  exclusive : Exclusive c.history
  fromValues : FromValues parses c.history

section invariant
variable {parses : V → D → Prop} {c : FormController V D}

theorem inv_start (values : V) : Inv parses (.start values) where
  validations := fun j v h => by simp [FormController.start] at h
  submits := fun i phase h => by simp [FormController.start] at h
  validationStarted := fun j h => by simp [FormController.start] at h
  submitStarted := fun i h => by simp [FormController.start] at h
  one := fun i j ⟨phase, h, _⟩ => by simp [FormController.start] at h
  submitting := by simp [FormController.start, FormController.Unsettled]
  handling := fun i ⟨before, data, values, after, h, _⟩ => by simp [FormController.start] at h
  untouched := fun before after caller h => by simp [FormController.start] at h
  exclusive := fun before i data values between j data' values' after h => by
    simp [FormController.start] at h
  fromValues := fun i data values h => by simp [FormController.start] at h

/-- The parts of a controller that the invariant is about; signals are not. -/
structure Alike (c c' : FormController V D) : Prop where
  revision : c'.revision = c.revision
  current : c'.current = c.current
  history : c'.history = c.history
  submits : c'.submits = c.submits
  submitting : c'.submittingState = c.submittingState
  validations : ∀ j : Nat, ∃ f : Validation V D → Validation V D,
    (∀ v, (f v).values = v.values ∧ (f v).revision = v.revision ∧ (f v).result = v.result) ∧
      c'.validations[j]? = (c.validations[j]?).map f
  length : c'.validations.length = c.validations.length

theorem alike_of_eq {c' : FormController V D} (hrevision : c'.revision = c.revision)
    (hcurrent : c'.current = c.current) (hhistory : c'.history = c.history)
    (hsubmits : c'.submits = c.submits) (hsubmitting : c'.submittingState = c.submittingState)
    (hvalidations : c'.validations = c.validations) : Alike c c' :=
  ⟨hrevision, hcurrent, hhistory, hsubmits, hsubmitting,
    fun j => ⟨id, fun _ => ⟨rfl, rfl, rfl⟩, by simp [hvalidations]⟩, by rw [hvalidations]⟩

theorem alike_abort (c : FormController V D) : Alike c c.abort := by
  unfold FormController.abort
  cases c.validationController with
  | none => exact alike_of_eq rfl rfl rfl rfl rfl rfl
  | some k =>
    refine ⟨rfl, rfl, rfl, rfl, rfl, fun j => ?_, by simp⟩
    refine ⟨fun v => if k = j then { v with aborted := true } else v, fun v => ?_, ?_⟩
    · split <;> exact ⟨rfl, rfl, rfl⟩
    · rw [List.getElem?_modify]
      rfl

theorem Inv.alike {c' : FormController V D} (h : Inv parses c) (halike : Alike c c') : Inv parses c' := by
  obtain ⟨hrevision, hcurrent, hhistory, hsubmits, hsubmitting, hvalidations, hlength⟩ := halike
  have hunsettled (i : Nat) : c'.Unsettled i ↔ c.Unsettled i := by
    simp only [FormController.Unsettled, hsubmits]
  refine ⟨?_, ?_, ?_, ?_, ?_, ?_, ?_, ?_, ?_, ?_⟩
  · intro j v hv
    obtain ⟨f, hf, hj⟩ := hvalidations j
    rw [hj] at hv
    obtain ⟨w, hw, rfl⟩ := Option.map_eq_some_iff.mp hv
    obtain ⟨hle, hvalues, hunedited, hdata⟩ := h.validations j w hw
    obtain ⟨hfvalues, hfrevision, hfresult⟩ := hf w
    refine ⟨?_, ?_, ?_, ?_⟩
    · rwa [hfrevision, hrevision]
    · rwa [hfrevision, hrevision, hfvalues, hcurrent]
    · rwa [hfrevision, hrevision, hhistory]
    · rwa [hfresult, hfvalues]
  · intro i phase hphase
    rw [hsubmits] at hphase
    have hfits := h.submits i phase hphase
    cases phase with
    | notifying => simpa only [SubmitPhase.Fits, hhistory] using hfits
    | validating j revision =>
      obtain ⟨⟨v, hv, hrev⟩, hunedited⟩ := hfits
      obtain ⟨f, hf, hj⟩ := hvalidations j
      refine ⟨⟨f v, by rw [hj, hv]; rfl, (hf v).2.1.trans hrev⟩, ?_⟩
      rwa [hrevision, hhistory]
    | handling revision => simpa only [SubmitPhase.Fits, hhistory, hrevision] using hfits
    | settled => trivial
  · rw [hhistory, hlength]
    exact h.validationStarted
  · rw [hhistory, hsubmits]
    exact h.submitStarted
  · simp only [hunsettled]
    exact h.one
  · simp only [hunsettled, hsubmitting]
    exact h.submitting
  · rw [hhistory, hsubmits]
    exact h.handling
  · rw [hhistory]
    exact h.untouched
  · rw [hhistory]
    exact h.exclusive
  · rw [hhistory]
    exact h.fromValues

/-- One more entry of the history, which is no edit. -/
theorem Inv.record (h : Inv parses c) {entry : Entry V D} (hentry : entry ≠ .changed)
    (hvalidation : ∀ j, entry = .started (.validation j) → j < c.validations.length)
    (hsubmit : ∀ i, entry = .started (.submit i) →
      i < c.submits.length ∧ c.submits[i]? ≠ some .notifying)
    (hwrote : ∀ caller, entry = .wrote caller → Unedited c.history caller)
    (hinvoked : ∀ i data values, entry = .invoked i data values → parses values data ∧
      (∃ revision, c.submits[i]? = some (.handling revision)) ∧ ∀ k, ¬ OpenCall c.history k) :
    Inv parses { c with history := c.history ++ [entry] } := by
  refine ⟨?_, ?_, ?_, ?_, h.one, h.submitting, ?_, ?_, ?_, ?_⟩
  · intro j v hv
    obtain ⟨hle, hvalues, hunedited, hdata⟩ := h.validations j v hv
    exact ⟨hle, hvalues, fun hrev => (hunedited hrev).append hentry, hdata⟩
  · intro i phase hphase
    have hfits := h.submits i phase hphase
    cases phase with
    | notifying =>
      intro hmem
      rcases List.mem_append.mp hmem with hmem | hmem
      · exact hfits hmem
      · exact (hsubmit i (List.mem_singleton.mp hmem).symm).2 hphase
    | validating j revision => exact ⟨hfits.1, fun hrev => (hfits.2 hrev).append hentry⟩
    | handling revision => exact ⟨hfits.1, fun hrev => (hfits.2 hrev).append hentry⟩
    | settled => trivial
  · intro j hmem
    rcases List.mem_append.mp hmem with hmem | hmem
    · exact h.validationStarted j hmem
    · exact hvalidation j (List.mem_singleton.mp hmem).symm
  · intro i hmem
    rcases List.mem_append.mp hmem with hmem | hmem
    · exact h.submitStarted i hmem
    · exact (hsubmit i (List.mem_singleton.mp hmem).symm).1
  · intro i hopen
    rcases openCall_append hopen with ⟨data, values, heq⟩ | ⟨hopen, -⟩
    · exact (hinvoked i data values heq).2.1
    · exact h.handling i hopen
  · exact h.untouched.append hwrote
  · exact h.exclusive.append fun j data values heq => (hinvoked j data values heq).2.2
  · exact h.fromValues.append fun i data values heq => (hinvoked i data values heq).1

theorem Inv.edited (h : Inv parses c) (current : V) :
    Inv parses { c with current, revision := c.revision + 1, history := c.history ++ [.changed] } := by
  refine ⟨?_, ?_, ?_, ?_, h.one, h.submitting, ?_, ?_, ?_, ?_⟩
  · intro j v hv
    obtain ⟨hle, -, -, hdata⟩ := h.validations j v hv
    have hne : v.revision ≠ c.revision + 1 := by omega
    exact ⟨Nat.le_succ_of_le hle, fun hrev => absurd hrev hne, fun hrev => absurd hrev hne, hdata⟩
  · intro i phase hphase
    have hfits := h.submits i phase hphase
    cases phase with
    | notifying => simpa [SubmitPhase.Fits] using hfits
    | validating j revision =>
      obtain ⟨⟨v, hv, rfl⟩, -⟩ := hfits
      have hle := (h.validations j v hv).le
      exact ⟨⟨v, hv, rfl⟩, fun hrev => absurd hrev (Nat.ne_of_lt (Nat.lt_succ_of_le hle))⟩
    | handling revision =>
      obtain ⟨hle, -⟩ := hfits
      exact ⟨Nat.le_succ_of_le hle,
        fun hrev => absurd hrev (Nat.ne_of_lt (Nat.lt_succ_of_le hle))⟩
    | settled => trivial
  · intro j hmem
    exact h.validationStarted j (by simpa using hmem)
  · intro i hmem
    exact h.submitStarted i (by simpa using hmem)
  · intro i hopen
    rcases openCall_append hopen with ⟨data, values, heq⟩ | ⟨hopen, -⟩
    · cases heq
    · exact h.handling i hopen
  · exact h.untouched.append nofun
  · exact h.exclusive.append nofun
  · exact h.fromValues.append nofun

/-- The errors, the status and the controller of the last validation. -/
theorem Inv.quiet (h : Inv parses c) (errors : Errors) (submitted : Bool) (initial : V)
    (controller : Option Nat) :
    Inv parses { c with
      initial, errorState := errors, submittedState := submitted
      validationController := controller } :=
  h.alike (alike_of_eq rfl rfl rfl rfl rfl rfl)

theorem Inv.changed (h : Inv parses c) (current : V) (path : Option String) :
    Inv parses (c.changed current path) := by
  obtain ⟨hrevision, hcurrent, hhistory, hsubmits, hsubmitting, hvalidations, hlength⟩ :=
    alike_abort { c with current, revision := c.revision + 1 }
  refine (h.edited current).alike ?_
  cases path with
  | none =>
    exact ⟨hrevision, hcurrent, congrArg (fun l => l ++ [Entry.changed]) hhistory, hsubmits, hsubmitting,
      hvalidations, hlength⟩
  | some path =>
    exact ⟨hrevision, hcurrent, congrArg (fun l => l ++ [Entry.changed]) hhistory, hsubmits, hsubmitting,
      hvalidations, hlength⟩

theorem Inv.reset (h : Inv parses c) (initialValues : Option V) : Inv parses (c.reset initialValues) :=
  (h.quiet [] false _ c.validationController).changed _ none

theorem Inv.validate (h : Inv parses c) : Inv parses c.validate := by
  have habort := h.alike (alike_abort c)
  have hlength := (alike_abort c).length
  -- the new validation, before its start is noted
  have hnew : Inv parses { c.abort with
      validationController := some c.abort.validations.length
      validations := c.abort.validations ++ [⟨c.abort.current, c.abort.revision, false, none⟩] } := by
    refine ⟨?_, ?_, ?_, habort.submitStarted, habort.one, habort.submitting, habort.handling,
      habort.untouched, habort.exclusive, habort.fromValues⟩
    · intro j v hv
      rcases Nat.lt_or_ge j c.abort.validations.length with hlt | hge
      · obtain ⟨hle, hvalues, hunedited, hdata⟩ := habort.validations j v
          (by simpa [List.getElem?_append_left hlt] using hv)
        exact ⟨hle, hvalues, hunedited, hdata⟩
      · obtain rfl : j = c.abort.validations.length := by
          have := (List.getElem?_eq_some_iff.mp hv).1
          simp at this
          omega
        obtain rfl : ⟨c.abort.current, c.abort.revision, false, none⟩ = v := by simpa using hv
        refine ⟨Nat.le_refl _, fun _ => rfl, fun _ => ?_, nofun⟩
        exact unedited_of_not_started fun hmem =>
          Nat.lt_irrefl _ (habort.validationStarted _ hmem)
    · intro i phase hphase
      have hfits := habort.submits i phase hphase
      cases phase with
      | notifying => exact hfits
      | validating j revision =>
        obtain ⟨⟨v, hv, hrev⟩, hunedited⟩ := hfits
        refine ⟨⟨v, ?_, hrev⟩, hunedited⟩
        simpa [List.getElem?_append_left (List.getElem?_eq_some_iff.mp hv).1] using hv
      | handling revision => exact hfits
      | settled => trivial
    · intro j hmem
      have hlt := habort.validationStarted j hmem
      simp only [List.length_append, List.length_singleton]
      omega
  refine hnew.record nofun ?_ nofun nofun nofun
  intro j hentry
  cases hentry
  simp

/-- The result of a validation. -/
theorem Inv.validated (h : Inv parses c) {j : Nat} {result : Validity D}
    (hdata : ∀ data v, result = .valid data → c.validations[j]? = some v → parses v.values data) :
    Inv parses (c.validated j result) := by
  have hget (k : Nat) : (c.validated j result).validations[k]? =
      (c.validations[k]?).map fun v => if j = k then { v with result := some result } else v := by
    simp only [FormController.validated, List.getElem?_modify]
    rfl
  refine ⟨?_, ?_, ?_, h.submitStarted, h.one, h.submitting, h.handling, h.untouched, h.exclusive,
    h.fromValues⟩
  · intro k v hv
    rw [hget] at hv
    obtain ⟨w, hw, rfl⟩ := Option.map_eq_some_iff.mp hv
    obtain ⟨hle, hvalues, hunedited, hold⟩ := h.validations k w hw
    by_cases hk : j = k
    · subst hk
      simp only [if_true]
      exact ⟨hle, hvalues, hunedited, fun data heq => hdata data w (Option.some.inj heq) hw⟩
    · simp only [hk, if_false]
      exact ⟨hle, hvalues, hunedited, hold⟩
  · intro i phase hphase
    have hfits := h.submits i phase hphase
    cases phase with
    | notifying => exact hfits
    | validating k revision =>
      obtain ⟨⟨v, hv, hrev⟩, hunedited⟩ := hfits
      refine ⟨⟨_, by rw [hget, hv]; rfl, ?_⟩, hunedited⟩
      split <;> exact hrev
    | handling revision => exact hfits
    | settled => trivial
  · intro k hmem
    have hlt := h.validationStarted k hmem
    simpa [FormController.validated] using hlt

theorem Inv.write (h : Inv parses c) {caller : Caller} (hunedited : Unedited c.history caller)
    (errors : Errors) (submitted : Bool) : Inv parses (c.write caller errors submitted) := by
  refine (h.quiet errors submitted c.initial c.validationController).record nofun nofun nofun ?_ nofun
  intro caller' heq
  cases heq
  exact hunedited

theorem Inv.parsed (h : Inv parses c) {j : Nat} {v : Validation V D} (hv : c.validations[j]? = some v)
    {outcome : Except (Option Errors) D} (hparses : ∀ data, outcome = .ok data → parses v.values data) :
    Inv parses (c.parsed j v outcome) := by
  have hfits := h.validations j v hv
  cases outcome with
  | ok data =>
    simp only [FormController.parsed]
    split
    · exact h.validated nofun
    · rename_i hrev
      refine (h.write (hfits.unedited (not_ne_iff.mp hrev)) _ _).validated ?_
      intro data' w heq hw
      cases heq
      obtain rfl := Option.some.inj (hv.symm.trans hw)
      exact hparses data rfl
  | error flattened =>
    simp only [FormController.parsed]
    split
    · exact h.validated nofun
    · rename_i hcond
      have hrev := not_ne_iff.mp (not_or.mp hcond).1
      cases flattened with
      | some errors => exact (h.write (hfits.unedited hrev) _ _).validated nofun
      | none => exact h.validated nofun

theorem Validation.Fits.keep {c' : FormController V D} {j : Nat} {v : Validation V D}
    (h : v.Fits parses c j) (hrevision : c'.revision = c.revision) (hcurrent : c'.current = c.current)
    (hhistory : c'.history = c.history) : v.Fits parses c' j := by
  obtain ⟨hle, hvalues, hunedited, hdata⟩ := h
  refine ⟨?_, ?_, ?_, hdata⟩
  · rwa [hrevision]
  · rwa [hrevision, hcurrent]
  · rwa [hrevision, hhistory]

/-- A submit that is under way goes to its next phase. -/
theorem Inv.phase (h : Inv parses c) {i : Nat} (hunsettled : c.Unsettled i) {phase : SubmitPhase}
    (hfits : phase.Fits c i) (hphase : phase ≠ .settled) (hopen : ¬ OpenCall c.history i) :
    Inv parses (c.setSubmit i phase) := by
  obtain ⟨old, hold, hne⟩ := hunsettled
  have hlt := (List.getElem?_eq_some_iff.mp hold).1
  have hget (k : Nat) : (c.setSubmit i phase).submits[k]? =
      if i = k then some phase else c.submits[k]? := by
    rw [FormController.setSubmit, List.getElem?_set]
    split <;> simp
  have hunsettled' (k : Nat) : (c.setSubmit i phase).Unsettled k ↔ c.Unsettled k := by
    unfold FormController.Unsettled
    rw [hget]
    split
    · rename_i hk
      subst hk
      exact ⟨fun _ => ⟨old, hold, hne⟩, fun _ => ⟨phase, rfl, hphase⟩⟩
    · rfl
  refine ⟨fun j v hv => (h.validations j v hv).keep rfl rfl rfl, ?_, h.validationStarted, ?_, ?_, ?_, ?_, h.untouched, h.exclusive, h.fromValues⟩
  · intro k next hnext
    rw [hget] at hnext
    split at hnext
    · rename_i hk
      subst hk
      obtain rfl := Option.some.inj hnext
      exact hfits
    · exact h.submits k next hnext
  · intro k hmem
    have hk := h.submitStarted k hmem
    simpa [FormController.setSubmit] using hk
  · simp only [hunsettled']
    exact h.one
  · simp only [hunsettled']
    exact h.submitting
  · intro k hk
    obtain ⟨revision, hhandling⟩ := h.handling k hk
    have hne : i ≠ k := fun heq => hopen (heq ▸ hk)
    exact ⟨revision, by rw [hget, if_neg hne, hhandling]⟩

/-- The submit under way is over. -/
theorem Inv.settle (h : Inv parses c) {i : Nat} (hunsettled : c.Unsettled i)
    (hopen : ¬ OpenCall c.history i) : Inv parses (c.settle i) := by
  have hget (k : Nat) : (c.settle i).submits[k]? = some .settled ∨
      i ≠ k ∧ (c.settle i).submits[k]? = c.submits[k]? := by
    obtain ⟨old, hold, -⟩ := hunsettled
    have hlt := (List.getElem?_eq_some_iff.mp hold).1
    show (c.submits.set i .settled)[k]? = _ ∨ _ ∧ (c.submits.set i .settled)[k]? = _
    rw [List.getElem?_set]
    by_cases hk : i = k
    · simp [hk, hk ▸ hlt]
    · simp [hk]
  have hnone (k : Nat) : ¬ (c.settle i).Unsettled k := by
    rintro ⟨phase, hphase, hne⟩
    rcases hget k with hsettled | ⟨hk, hsame⟩
    · rw [hsettled] at hphase
      exact hne (Option.some.inj hphase).symm
    · exact hk (h.one i k hunsettled ⟨phase, hsame ▸ hphase, hne⟩)
  refine ⟨fun j v hv => (h.validations j v hv).keep rfl rfl rfl, ?_, h.validationStarted, ?_, fun k l hk => absurd hk (hnone k), ?_, ?_,
    h.untouched, h.exclusive, h.fromValues⟩
  · intro k phase hphase
    rcases hget k with hsettled | ⟨-, hsame⟩
    · rw [hsettled] at hphase
      obtain rfl := Option.some.inj hphase
      trivial
    · exact h.submits k phase (hsame ▸ hphase)
  · intro k hmem
    have hk := h.submitStarted k hmem
    simpa [FormController.settle, FormController.setSubmit] using hk
  · exact ⟨nofun, fun ⟨k, hk⟩ => absurd hk (hnone k)⟩
  · intro k hk
    obtain ⟨revision, hhandling⟩ := h.handling k hk
    rcases hget k with hsettled | ⟨-, hsame⟩
    · have hki := h.one i k hunsettled ⟨_, hhandling, nofun⟩
      exact absurd (hki ▸ hk) hopen
    · exact ⟨revision, hsame.trans hhandling⟩

/-- While a submit has not called its handler, no handler is running. -/
theorem Inv.no_open (h : Inv parses c) {i : Nat} {phase : SubmitPhase}
    (hphase : c.submits[i]? = some phase) (hne : phase ≠ .settled)
    (hno : ∀ revision, phase ≠ .handling revision) (k : Nat) : ¬ OpenCall c.history k := by
  intro hopen
  obtain ⟨revision, hhandling⟩ := h.handling k hopen
  obtain rfl := h.one i k ⟨phase, hphase, hne⟩ ⟨_, hhandling, nofun⟩
  exact hno revision (Option.some.inj (hphase.symm.trans hhandling))

theorem Inv.submit (h : Inv parses c) : Inv parses c.submit := by
  unfold FormController.submit
  split
  · exact h
  · rename_i hfree
    have hnone (k : Nat) : ¬ c.Unsettled k := fun hk => hfree (h.submitting.mpr ⟨k, hk⟩)
    have hquiet := h.quiet c.errorState false c.initial c.validationController
    have hget (k : Nat) : (c.submits ++ [SubmitPhase.notifying])[k]? = some .notifying ∧
        k = c.submits.length ∨ (c.submits ++ [SubmitPhase.notifying])[k]? = c.submits[k]? ∧
          k ≠ c.submits.length := by
      rcases Nat.lt_trichotomy k c.submits.length with hlt | heq | hgt
      · exact .inr ⟨List.getElem?_append_left hlt, Nat.ne_of_lt hlt⟩
      · exact .inl ⟨by simp [heq], heq⟩
      · refine .inr ⟨?_, Nat.ne_of_gt hgt⟩
        rw [List.getElem?_eq_none (by simp; omega), List.getElem?_eq_none (Nat.le_of_lt hgt)]
    have hlast (k : Nat) {phase : SubmitPhase} (hne : phase ≠ .settled)
        (hphase : (c.submits ++ [SubmitPhase.notifying])[k]? = some phase) : k = c.submits.length := by
      rcases hget k with ⟨-, heq⟩ | ⟨hsame, -⟩
      · exact heq
      · exact absurd ⟨phase, hsame ▸ hphase, hne⟩ (hnone k)
    refine ⟨fun j v hv => (hquiet.validations j v hv).keep rfl rfl rfl, ?_, h.validationStarted, ?_, ?_, ?_, ?_, h.untouched, h.exclusive,
      h.fromValues⟩
    · intro k phase hphase
      rcases hget k with ⟨hnew, heq⟩ | ⟨hsame, -⟩
      · obtain rfl := Option.some.inj (hnew.symm.trans hphase)
        subst heq
        exact fun hmem => Nat.lt_irrefl _ (h.submitStarted _ hmem)
      · exact hquiet.submits k phase (hsame ▸ hphase)
    · intro k hmem
      have hk := h.submitStarted k hmem
      simp only [List.length_append, List.length_singleton]
      omega
    · rintro k l ⟨phase, hphase, hne⟩ ⟨phase', hphase', hne'⟩
      exact (hlast k hne hphase).trans (hlast l hne' hphase').symm
    · exact ⟨fun _ => ⟨c.submits.length, .notifying, by simp, nofun⟩, fun _ => rfl⟩
    · intro k hk
      obtain ⟨revision, hhandling⟩ := h.handling k hk
      exact absurd ⟨_, hhandling, nofun⟩ (hnone k)

theorem Inv.proceed (h : Inv parses c) {i : Nat} (hi : c.submits[i]? = some .notifying) :
    Inv parses (c.proceed i) := by
  have hvalidate := h.validate
  have hsame : c.validate.submits = c.submits := (alike_abort c).submits
  have hlength := (alike_abort c).length
  have hi' : c.validate.submits[i]? = some .notifying := hsame ▸ hi
  have hno := hvalidate.no_open hi' nofun nofun
  have hnew : c.validate.validations[c.validations.length]? =
      some ⟨c.abort.current, c.abort.revision, false, none⟩ := by
    rw [← hlength]
    simp [FormController.validate]
  have hfits : SubmitPhase.Fits c.validate i (.validating c.validations.length c.revision) := by
    refine ⟨⟨_, hnew, (alike_abort c).revision⟩, fun _ => ?_⟩
    exact unedited_of_not_started (hvalidate.submits i .notifying hi')
  have hphase := hvalidate.phase ⟨_, hi', nofun⟩ hfits nofun (hno i)
  refine hphase.record nofun nofun ?_ nofun nofun
  intro k heq
  cases heq
  have hlt : i < c.validate.submits.length := (List.getElem?_eq_some_iff.mp hi').1
  refine ⟨by simpa [FormController.setSubmit] using hlt, ?_⟩
  simp [FormController.setSubmit, hlt]

theorem Inv.resume (h : Inv parses c) {i j revision : Nat} {v : Validation V D} {validation : Validity D}
    (hi : c.submits[i]? = some (.validating j revision)) (hv : c.validations[j]? = some v)
    (hresult : v.result = some validation) : Inv parses (c.resume i revision validation) := by
  have hno := h.no_open hi nofun nofun
  have hsettle : Inv parses (c.settle i) := h.settle ⟨_, hi, nofun⟩ (hno i)
  cases validation with
  | valid data =>
    simp only [FormController.resume]
    split
    · exact hsettle
    · rename_i hrev
      have hrev := not_ne_iff.mp hrev
      obtain ⟨⟨w, hw, hwrev⟩, hunedited⟩ := h.submits i _ hi
      obtain rfl := Option.some.inj (hv.symm.trans hw)
      have hfits := h.validations j v hv
      have hlt := (List.getElem?_eq_some_iff.mp hi).1
      have hphase : Inv parses (c.setSubmit i (.handling revision)) :=
        h.phase ⟨_, hi, nofun⟩ ⟨Nat.le_of_eq hrev, hunedited⟩ nofun (hno i)
      refine hphase.record nofun nofun nofun nofun ?_
      intro k data' values heq
      cases heq
      refine ⟨?_, ⟨revision, by simp [FormController.setSubmit, hlt]⟩, hno⟩
      show parses c.current data
      rw [← hfits.values (hwrev.trans hrev)]
      exact hfits.data data hresult
  | invalid => exact hsettle
  | stale => exact hsettle
  | threw => exact hsettle

theorem Inv.handled (h : Inv parses c) {i revision : Nat}
    (hi : c.submits[i]? = some (.handling revision)) (outcome : Except (Option Errors) Unit) :
    Inv parses (c.handled i revision outcome) := by
  have hreturned : Inv parses { c with history := c.history ++ [.returned i] } :=
    h.record nofun nofun nofun nofun nofun
  have hopen : ¬ OpenCall (c.history ++ [.returned i]) i := by
    intro hopen
    rcases openCall_append hopen with ⟨data, values, heq⟩ | ⟨-, hne⟩
    · cases heq
    · exact hne rfl
  have hsettle : Inv parses ({ c with history := c.history ++ [Entry.returned i] }.settle i) :=
    hreturned.settle ⟨_, hi, nofun⟩ hopen
  have hwritten (hrev : revision = c.revision) (errors : Errors) (submitted : Bool) :
      Inv parses (({ c with history := c.history ++ [Entry.returned i] }.write (.submit i) errors
        submitted).settle i) := by
    have hunedited := (hreturned.submits i _ hi).2 hrev
    refine (hreturned.write hunedited errors submitted).settle ⟨_, hi, nofun⟩ ?_
    intro hwrote
    rcases openCall_append hwrote with ⟨data, values, heq⟩ | ⟨hold, -⟩
    · cases heq
    · exact hopen hold
  unfold FormController.handled
  dsimp only
  split
  · exact hsettle
  · rename_i hrev
    have hrev := not_ne_iff.mp hrev
    cases outcome with
    | ok => exact hwritten hrev _ _
    | error flattened =>
      cases flattened with
      | some errors => exact hwritten hrev _ _
      | none => exact hsettle

theorem Inv.step {c' : FormController V D} {e : Event V D} (h : Inv parses c)
    (hallowed : Parsing parses c e) (hstep : step c e = some c') : Inv parses c' := by
  cases e with
  | edit current path =>
    obtain rfl := Option.some.inj hstep
    exact h.changed current path
  | reset initialValues =>
    obtain rfl := Option.some.inj hstep
    exact h.reset initialValues
  | setErrors errors =>
    obtain rfl := Option.some.inj hstep
    exact h.quiet errors c.submittedState c.initial c.validationController
  | validate =>
    obtain rfl := Option.some.inj hstep
    exact h.validate
  | parsed j outcome =>
    simp only [FormControl.step] at hstep
    split at hstep
    · rename_i v hv
      split at hstep
      · obtain rfl := Option.some.inj hstep
        refine h.parsed hv fun data hdata => ?_
        subst hdata
        exact hallowed v hv
      · cases hstep
    · cases hstep
  | submit =>
    obtain rfl := Option.some.inj hstep
    exact h.submit
  | proceed i =>
    simp only [FormControl.step, Option.ite_none_right_eq_some, Option.some.injEq] at hstep
    obtain ⟨hi, rfl⟩ := hstep
    exact h.proceed hi
  | resume i =>
    simp only [FormControl.step] at hstep
    split at hstep
    · rename_i j revision hi
      obtain ⟨validation, hresult, rfl⟩ := Option.map_eq_some_iff.mp hstep
      obtain ⟨v, hv, hresult⟩ := Option.bind_eq_some_iff.mp hresult
      exact h.resume hi hv hresult
    · cases hstep
  | handled i outcome =>
    simp only [FormControl.step] at hstep
    split at hstep
    · rename_i revision hi
      obtain rfl := Option.some.inj hstep
      exact h.handled hi outcome
    · cases hstep

end invariant

/-- No stale result is written, one handler runs at a time, with data of the values at
    that moment, and a form without a submit under way is not submitting. -/
theorem form_fresh (parses : V → D → Prop) (values : V) {c : FormController V D}
    (h : Run step (Parsing parses) (.start values) c) :
    Untouched c.history ∧ Exclusive c.history ∧ FromValues parses c.history ∧
      (c.submittingState = true ↔ ∃ i, c.Unsettled i) := by
  have hinv : Inv parses c := by
    induction h with
    | refl => exact inv_start values
    | tail _ hallowed hstep ih => exact ih.step hallowed hstep
  exact ⟨hinv.untouched, hinv.exclusive, hinv.fromValues, hinv.submitting⟩

/-- An edit while the handler of a submit is running. -/
def editedMeanwhile : List (Event Nat Nat) :=
  [.submit, .proceed 0, .parsed 0 (.ok 5), .resume 0, .edit 6 (some "age"), .handled 0 (.ok ())]

theorem form_fresh_edited : ∃ c, exec step (.start 5) editedMeanwhile = some c ∧
    Untouched c.history ∧ c.submittedState = false ∧ c.submittingState = false := by
  obtain ⟨c, hexec⟩ : ∃ c, exec step (.start 5) editedMeanwhile = some c := ⟨_, rfl⟩
  have hadmits : Admits step (Parsing fun values data => values = data) (.start 5) editedMeanwhile := by
    refine ⟨trivial, fun _ h => ?_⟩
    obtain rfl := Option.some.inj h
    refine ⟨trivial, fun _ h => ?_⟩
    obtain rfl := Option.some.inj h
    refine ⟨fun v hv => ?_, fun _ _ => ⟨trivial, fun _ _ => ⟨trivial, fun _ _ => ⟨trivial, fun _ _ =>
      trivial⟩⟩⟩⟩
    obtain rfl := Option.some.inj hv
    rfl
  have h := form_fresh _ 5 (run_of_exec hexec hadmits)
  refine ⟨c, hexec, h.1, ?_⟩
  obtain rfl := Option.some.inj hexec
  exact ⟨rfl, rfl⟩

end Cossack.Core.FormControl
