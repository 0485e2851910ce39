import Cossack.Core.OptimisticEvents
import Mathlib

/-! # Calls that record operations

    What a set of optimistic calls is for: every field is the fold of the
    operations of the calls begun and not failed so far, in the order they
    began.  The ledger keeps a base, confirmed operations and pending ones, and
    is deleted with its last call. -/

namespace Cossack.Core

open Sequences Runs

variable {N L : Type}

/-! ## Section 1: The calls and their fold -/

/-- A call: the operations it contributed, and its outcome once it finished. -/
structure BegunCall (N L : Type) where
  id : Nat
  operations : List (String × OptimisticOperation N L)
  outcome : Option Bool

def operationsOn (key : String) (operations : List (String × OptimisticOperation N L)) :
    List (OptimisticOperation N L) :=
  operations.filterMap fun entry => if entry.1 = key then some entry.2 else none

/-- The operations on `key` of the calls that have not failed. -/
def retained (key : String) (calls : List (BegunCall N L)) : List (OptimisticOperation N L) :=
  calls.flatMap fun call =>
    if call.outcome = some false then [] else operationsOn key call.operations

/-- The operations on `key` of the calls that have succeeded. -/
def succeeded (key : String) (calls : List (BegunCall N L)) : List (OptimisticOperation N L) :=
  calls.flatMap fun call =>
    if call.outcome = some true then operationsOn key call.operations else []

def finishBegun (id : Nat) (success : Bool) (call : BegunCall N L) : BegunCall N L :=
  if call.id = id ∧ call.outcome = none then { call with outcome := some success } else call

section Ledger

variable [JsNumber N] [DecidableEq N] [DecidableEq L]

inductive CallEvent (N L : Type) where
  | beginCall (operations : List (String × OptimisticOperation N L))
  | finishCall (id : Nat) (success : Bool)

/-- A handler that records the operations one after the other. -/
def recordingHandler (operations : List (String × OptimisticOperation N L)) : Handler N L where
  actions := operations.map fun entry => .record entry.1 entry.2 false
  throws := false

/-- All operations are recorded: the fields can be copied before and after, and
    every operation is checked and applies. -/
def accepts (keys : Keys) (target : String → Value N L)
    (operations : List (String × OptimisticOperation N L)) : Bool :=
  (snapshotFields target keys.1).toBool &&
    (operations.all fun entry =>
      keys.1.contains entry.1 && (checkedOperation entry.2).toBool) &&
    keys.1.all fun key =>
      (applyOperations (target key) (operationsOn key operations) >>= copy).toBool

/-- A component, and what its calls are to amount to. -/
structure Tracked (N L : Type) where
  component : Component N L
  calls : List (BegunCall N L)

/-- A call whose operations are not accepted contributes none. -/
def trackedStep (keys : Keys) (s : Tracked N L) : CallEvent N L → Option (Tracked N L)
  | .beginCall operations => some {
      component := (beginOptimisticCall s.component (some (recordingHandler operations)) keys.1).1
      calls := s.calls ++ [{
        id := s.component.begun
        operations := if accepts keys s.component.target operations then operations else []
        outcome := none }] }
  | .finishCall id success => some {
      component := finishOptimisticCall s.component id success
      calls := s.calls.map (finishBegun id success) }

/-- The value the calls give the field. -/
def foldOf (start : String → Value N L) (calls : List (BegunCall N L)) (key : String) :
    Except String (Value N L) :=
  applyOperations (start key) (retained key calls)

/-- Where a handler is refused, the fields are defined. -/
def Steady (keys : Keys) (start : String → Value N L) (s : Tracked N L) : CallEvent N L → Prop
  | .beginCall operations => accepts keys s.component.target operations = true ∨
      ∀ key, ∃ value, foldOf start s.calls key = .ok value
  | .finishCall _ _ => True

/-! ## Section 2: Runs of a recording handler -/

theorem applyOperations_append (value : Value N L) (first second : List (OptimisticOperation N L)) :
    applyOperations value (first ++ second) =
      applyOperations value first >>= fun middle => applyOperations middle second :=
  List.foldlM_append

omit [DecidableEq N] [DecidableEq L] in
theorem operationItems_eq {items items' : List (Value N L)} {depth : Nat}
    (ih : ∀ t ∈ items, ∀ depth w, operationValueAt depth t = .ok w → w = t)
    (h : operationItems depth items = .ok items') : items' = items := by
  induction items generalizing items' with
  | nil => exact (Except.ok.inj h).symm
  | cons t rest ihrest =>
    obtain ⟨t', ht, h⟩ := Outcome.bind_eq_ok.mp h
    obtain ⟨rest', hrest, h⟩ := Outcome.bind_eq_ok.mp h
    rw [← Outcome.pure_eq_ok.mp h, ih t List.mem_cons_self _ _ ht,
      ihrest (fun u hu => ih u (List.mem_cons_of_mem _ hu)) hrest]

omit [DecidableEq N] [DecidableEq L] in
theorem operationEntries_eq {entries entries' : List (String × Value N L)} {depth : Nat}
    (ih : ∀ e ∈ entries, ∀ depth w, operationValueAt depth e.2 = .ok w → w = e.2)
    (h : operationEntries depth entries = .ok entries') : entries' = entries := by
  induction entries generalizing entries' with
  | nil => exact (Except.ok.inj h).symm
  | cons e rest ihrest =>
    obtain ⟨t', ht, h⟩ := Outcome.bind_eq_ok.mp h
    obtain ⟨rest', hrest, h⟩ := Outcome.bind_eq_ok.mp h
    rw [← Outcome.pure_eq_ok.mp h, ih e List.mem_cons_self _ _ ht,
      ihrest (fun u hu => ih u (List.mem_cons_of_mem _ hu)) hrest]

omit [DecidableEq N] [DecidableEq L] in
theorem operationValueAt_eq {value w : Value N L} {depth : Nat}
    (h : operationValueAt depth value = .ok w) : w = value := by
  induction value using JsonTree.ind generalizing depth w with
  | null | bool | str => exact (Except.ok.inj h).symm
  | leaf => exact nomatch h
  | num n =>
    unfold operationValueAt at h
    split at h
    · exact (Except.ok.inj h).symm
    · exact nomatch h
  | arr items ih =>
    unfold operationValueAt at h
    split at h
    · exact nomatch h
    · obtain ⟨items', hitems, rfl⟩ := Outcome.map_eq_ok.mp h
      rw [operationItems_eq (fun t ht _ _ => ih t ht) hitems]
  | obj entries ih =>
    unfold operationValueAt at h
    split at h
    · exact nomatch h
    · obtain ⟨entries', hentries, rfl⟩ := Outcome.map_eq_ok.mp h
      rw [operationEntries_eq (fun e he _ _ => ih e he) hentries]

omit [DecidableEq N] [DecidableEq L] in
/-- A checked operation is recorded as it is. -/
theorem checkedOperation_eq {operation checked : OptimisticOperation N L}
    (h : checkedOperation operation = .ok checked) : checked = operation := by
  cases operation with
  | increment amount =>
    by_cases hfinite : JsNumber.isFinite amount = true
    · rw [checkedOperation, if_pos hfinite] at h
      exact (Except.ok.inj h).symm
    · rw [checkedOperation, if_neg hfinite] at h
      exact nomatch h
  | append value | remove value =>
    obtain ⟨value', hvalue, rfl⟩ := Outcome.map_eq_ok.mp h
    rw [operationValueAt_eq hvalue]

omit [JsNumber N] [DecidableEq N] [DecidableEq L] in
theorem operationsOn_append (key : String) (first second : List (String × OptimisticOperation N L)) :
    operationsOn key (first ++ second) = operationsOn key first ++ operationsOn key second :=
  List.filterMap_append

/-- A handler that has recorded `operations` so far. -/
structure Recorded (keys : Keys) (start : String → Value N L)
    (operations : List (String × OptimisticOperation N L)) (capture : Capture N L) : Prop where
  kept : ∀ key, Entries.get capture.operations key =
    if operationsOn key operations = [] then none else some (operationsOn key operations)
  target : ∀ key, applyOperations (start key) (operationsOn key operations) =
    .ok (capture.target key)
  checked : ∀ entry ∈ operations, entry.1 ∈ keys.1 ∧ checkedOperation entry.2 = .ok entry.2

theorem recorded_nil (keys : Keys) (start : String → Value N L) :
    Recorded keys start [] ⟨start, []⟩ :=
  ⟨fun _ => rfl, fun _ => rfl, fun _ hmem => (nomatch hmem)⟩

section Recording

variable {keys : Keys} {start : String → Value N L}
  {operations : List (String × OptimisticOperation N L)} {capture : Capture N L} {key : String}
  {operation : OptimisticOperation N L}

/-- One operation is recorded exactly when it is checked and applies. -/
theorem recordOptimisticOperation_ok (h : Recorded keys start operations capture)
    {capture' : Capture N L} :
    recordOptimisticOperation (keys.1.map fun key => (key, start key)) capture key operation =
        .ok capture' ↔
      key ∈ keys.1 ∧ checkedOperation operation = .ok operation ∧ ∃ next,
        applyOperation (capture.target key) operation = .ok next ∧
        capture' = ⟨assign capture.target key next, Entries.set capture.operations key
          (operationsOn key operations ++ [operation])⟩ := by
  have hkept : (Entries.get capture.operations key).getD [] = operationsOn key operations := by
    rw [h.kept key]
    split
    · next hnil => exact hnil.symm
    · rfl
  unfold recordOptimisticOperation
  rw [get_snapshot]
  by_cases hkey : key ∈ keys.1
  · simp only [if_pos hkey, hkept, h.target key, Outcome.ok_bind, ne_eq, not_true_eq_false, if_false]
    constructor
    · intro hok
      obtain ⟨checked, hchecked, happlied⟩ := Outcome.bind_eq_ok.mp hok
      have hoperation := checkedOperation_eq hchecked
      rw [hoperation] at hchecked happlied
      obtain ⟨next, hnext, hend⟩ := Outcome.bind_eq_ok.mp happlied
      obtain ⟨middle, hmiddle, hsame⟩ := Outcome.bind_eq_ok.mp hnext
      rw [Outcome.pure_eq_ok.mp hsame] at hmiddle
      exact ⟨hkey, hchecked, next, hmiddle, (Outcome.pure_eq_ok.mp hend).symm⟩
    · rintro ⟨-, hchecked, next, hnext, rfl⟩
      have happly : applyOperations (capture.target key) [operation] = .ok next := by
        show (applyOperation (capture.target key) operation >>= fun next => pure next) = _
        rw [hnext, Outcome.ok_bind]
        rfl
      rw [hchecked, Outcome.ok_bind, happly, Outcome.ok_bind]
      rfl
  · simp only [if_neg hkey]
    exact ⟨fun h => (by cases h), fun h => absurd h.1 hkey⟩

theorem Recorded.record (h : Recorded keys start operations capture) {next : Value N L}
    (hkey : key ∈ keys.1) (hchecked : checkedOperation operation = .ok operation)
    (hnext : applyOperation (capture.target key) operation = .ok next) :
    Recorded keys start (operations ++ [(key, operation)])
      ⟨assign capture.target key next,
        Entries.set capture.operations key (operationsOn key operations ++ [operation])⟩ := by
  have hself : operationsOn key [(key, operation)] = [operation] := by simp [operationsOn]
  have hother : ∀ k, k ≠ key → operationsOn k [(key, operation)] = [] := by
    intro k hk
    simp [operationsOn, Ne.symm hk]
  refine ⟨?_, ?_, ?_⟩
  · intro k
    rw [operationsOn_append]
    by_cases hk : k = key
    · subst hk
      rw [hself, if_neg (by simp)]
      exact Entries.get_set_self _ _ _
    · rw [hother k hk, List.append_nil]
      exact (Entries.get_set_of_ne _ _ (Ne.symm hk)).trans (h.kept k)
  · intro k
    rw [operationsOn_append, applyOperations_append, h.target k, Outcome.ok_bind]
    by_cases hk : k = key
    · subst hk
      rw [hself]
      show (applyOperation (capture.target k) operation >>= fun next => pure next) = _
      rw [hnext, Outcome.ok_bind]
      exact congrArg _ (assign_self _ _ _).symm
    · rw [hother k hk]
      exact congrArg _ (assign_of_ne _ _ hk).symm
  · intro entry hmem
    rcases List.mem_append.mp hmem with hmem | hmem
    · exact h.checked entry hmem
    · cases List.mem_singleton.mp hmem
      exact ⟨hkey, hchecked⟩

/-- A handler has recorded the operations up to the first that is refused. -/
theorem runActions_recorded (h : Recorded keys start operations capture)
    (rest : List (String × OptimisticOperation N L)) :
    ∃ recorded, Recorded keys start (operations ++ recorded)
        (runActions (keys.1.map fun key => (key, start key))
          (rest.map fun entry => .record entry.1 entry.2 false) capture).1 ∧
      ((runActions (keys.1.map fun key => (key, start key))
          (rest.map fun entry => .record entry.1 entry.2 false) capture).2 = false →
        recorded = rest) := by
  induction rest generalizing operations capture with
  | nil => exact ⟨[], by rwa [List.append_nil], fun _ => rfl⟩
  | cons entry rest ih =>
    obtain ⟨key, operation⟩ := entry
    rw [List.map_cons]
    unfold runActions
    cases hrecord : recordOptimisticOperation (keys.1.map fun key => (key, start key)) capture key
        operation with
    | error message => exact ⟨[], by rwa [List.append_nil], fun h => (nomatch h)⟩
    | ok capture' =>
      obtain ⟨hkey, hchecked, next, hnext, rfl⟩ := (recordOptimisticOperation_ok h).mp hrecord
      obtain ⟨recorded, hrecorded, hall⟩ := ih (h.record hkey hchecked hnext)
      refine ⟨(key, operation) :: recorded, ?_, fun hok => by rw [hall hok]⟩
      rwa [List.append_assoc] at hrecorded

/-- Operations that are accepted are all recorded. -/
theorem runActions_accepted (h : Recorded keys start operations capture)
    {rest : List (String × OptimisticOperation N L)}
    (hchecked : ∀ entry ∈ rest, entry.1 ∈ keys.1 ∧ checkedOperation entry.2 = .ok entry.2)
    (happlies : ∀ key ∈ keys.1, ∃ value,
      applyOperations (start key) (operationsOn key (operations ++ rest)) = .ok value) :
    (runActions (keys.1.map fun key => (key, start key))
      (rest.map fun entry => .record entry.1 entry.2 false) capture).2 = false := by
  induction rest generalizing operations capture with
  | nil => rfl
  | cons entry rest ih =>
    obtain ⟨key, operation⟩ := entry
    obtain ⟨hkey, hentry⟩ := hchecked (key, operation) List.mem_cons_self
    -- the operation applies, because all that follows does
    obtain ⟨next, hnext⟩ : ∃ next, applyOperation (capture.target key) operation = .ok next := by
      obtain ⟨value, hvalue⟩ := happlies key hkey
      have hsplit : operationsOn key (operations ++ (key, operation) :: rest) =
          operationsOn key operations ++ operation :: operationsOn key rest := by
        simp [operationsOn]
      rw [hsplit, applyOperations_append, h.target key, Outcome.ok_bind] at hvalue
      obtain ⟨next, hnext, -⟩ := Outcome.bind_eq_ok.mp hvalue
      exact ⟨next, hnext⟩
    rw [List.map_cons]
    unfold runActions
    rw [(recordOptimisticOperation_ok h).mpr ⟨hkey, hentry, next, hnext, rfl⟩]
    apply ih (h.record hkey hentry hnext)
    · exact fun other hmem => hchecked other (List.mem_cons_of_mem _ hmem)
    · intro k hk
      rw [List.append_assoc]
      exact happlies k hk

end Recording

/-- What it means that the operations are recorded. -/
theorem accepts_iff {keys : Keys} {target : String → Value N L}
    {operations : List (String × OptimisticOperation N L)} :
    accepts keys target operations = true ↔
      (∃ before, snapshotFields target keys.1 = .ok before) ∧
      (∀ entry ∈ operations, entry.1 ∈ keys.1 ∧ checkedOperation entry.2 = .ok entry.2) ∧
      ∀ key ∈ keys.1, ∃ value,
        applyOperations (target key) (operationsOn key operations) = .ok value ∧
          copy value = .ok value := by
  have hbool : ∀ {α : Type} (x : Except String α), x.toBool = true ↔ ∃ a, x = .ok a := by
    intro α x
    cases x <;> simp [Except.toBool]
  have hchecked : ∀ operation : OptimisticOperation N L,
      (∃ checked, checkedOperation operation = .ok checked) ↔
        checkedOperation operation = .ok operation := by
    intro operation
    refine ⟨?_, fun h => ⟨operation, h⟩⟩
    rintro ⟨checked, h⟩
    rwa [checkedOperation_eq h] at h
  have hcopied : ∀ key, (∃ value, (applyOperations (target key) (operationsOn key operations) >>=
      copy) = .ok value) ↔ ∃ value, applyOperations (target key) (operationsOn key operations) =
        .ok value ∧ copy value = .ok value := by
    intro key
    constructor
    · rintro ⟨value, h⟩
      obtain ⟨middle, hmiddle, hcopy⟩ := Outcome.bind_eq_ok.mp h
      have hsame := copy_eq hcopy
      subst hsame
      exact ⟨value, hmiddle, hcopy⟩
    · rintro ⟨value, hvalue, hcopy⟩
      exact ⟨value, Outcome.bind_eq_ok.mpr ⟨value, hvalue, hcopy⟩⟩
  simp only [accepts, Bool.and_eq_true, List.all_eq_true, hbool, hchecked, hcopied,
    List.contains_iff_mem, and_assoc]

/-! ## Section 3: The field of a key -/

/-- The contribution of a call to a field, with its sequence. -/
def contributionOf (key : String) (offset : Nat) (call : BegunCall N L) :
    Option (Nat × Option (List (OptimisticOperation N L))) :=
  if call.outcome = some false ∨ operationsOn key call.operations = [] then none
  else some (call.id + 1 - offset, some (operationsOn key call.operations))

def contributionsOf (key : String) (offset : Nat) (calls : List (BegunCall N L)) :
    List (Nat × Option (List (OptimisticOperation N L))) :=
  calls.filterMap (contributionOf key offset)

/-- A field that holds the contributions of `new`, and neither a frame nor an
    edit. -/
structure Contributed (key : String) (new : List (BegunCall N L)) (offset : Nat)
    (field : OwnedField N L) : Prop where
  sequence : field.sequence = 0
  localEdit : field.localEdit = none
  changes : field.changes.map (fun change => (change.sequence, change.operations)) =
    contributionsOf key offset new

/-- A field whose ledger was made after the calls `old` and before `new`. -/
structure Tracks (start value : Value N L) (key : String) (old new : List (BegunCall N L))
    (offset : Nat) (field : OwnedField N L) : Prop extends Contributed key new offset field where
  displayed : field.displayed = value
  base : ∀ v, applyOperations start (retained key old) = .ok v → field.base = v
  shows : ∀ v, shown field = .ok v → value = v

omit [JsNumber N] [DecidableEq N] [DecidableEq L] in
theorem retained_append (key : String) (first second : List (BegunCall N L)) :
    retained key (first ++ second) = retained key first ++ retained key second :=
  List.flatMap_append

/-- Contributions are replayed as the operations they hold. -/
theorem foldlM_contributions {key : String} {offset : Nat} {calls : List (BegunCall N L)}
    {changes : List (Change N L)}
    (h : changes.map (fun change => (change.sequence, change.operations)) =
      contributionsOf key offset calls) (value : Value N L) :
    changes.foldlM applyChange value = applyOperations value (retained key calls) := by
  induction calls generalizing changes value with
  | nil =>
    cases List.map_eq_nil_iff.mp h
    rfl
  | cons call rest ih =>
    have hretained : retained key (call :: rest) =
        (if call.outcome = some false then [] else operationsOn key call.operations) ++
          retained key rest := rfl
    by_cases hdropped : call.outcome = some false ∨ operationsOn key call.operations = []
    · have hrest : contributionsOf key offset (call :: rest) = contributionsOf key offset rest :=
        List.filterMap_cons_none (if_pos hdropped)
      have hnone : (if call.outcome = some false then []
          else operationsOn key call.operations) = [] := by
        rcases hdropped with hfailed | hnil
        · rw [if_pos hfailed]
        · rw [hnil, ite_self]
      rw [hretained, hnone, List.nil_append]
      exact ih (h.trans hrest) value
    · have hcons : contributionsOf key offset (call :: rest) =
          (call.id + 1 - offset, some (operationsOn key call.operations)) ::
            contributionsOf key offset rest :=
        List.filterMap_cons_some (if_neg hdropped)
      rw [hcons] at h
      obtain ⟨change, changes', rfl, hchange, hchanges⟩ := List.map_eq_cons_iff.mp h
      have hoperations : change.operations = some (operationsOn key call.operations) :=
        congrArg Prod.snd hchange
      rw [List.foldlM_cons, applyChange_operations hoperations, hretained,
        if_neg (fun hfailed => hdropped (.inl hfailed)), applyOperations_append]
      exact bind_congr fun middle => ih hchanges middle

/-- Calls in the order they began, none before `offset`. -/
structure Ascending (offset : Nat) (calls : List (BegunCall N L)) : Prop where
  from_offset : ∀ call ∈ calls, offset ≤ call.id
  pairwise : calls.Pairwise fun a b => a.id < b.id

omit [JsNumber N] [DecidableEq N] [DecidableEq L] in
theorem mem_contributionsOf {key : String} {offset : Nat} {calls : List (BegunCall N L)}
    {entry : Nat × Option (List (OptimisticOperation N L))} :
    entry ∈ contributionsOf key offset calls ↔ ∃ call ∈ calls,
      ¬ (call.outcome = some false ∨ operationsOn key call.operations = []) ∧
      entry = (call.id + 1 - offset, some (operationsOn key call.operations)) := by
  unfold contributionsOf contributionOf
  rw [List.mem_filterMap]
  constructor
  · rintro ⟨call, hmem, hsome⟩
    by_cases hdropped : call.outcome = some false ∨ operationsOn key call.operations = []
    · rw [if_pos hdropped] at hsome
      exact nomatch hsome
    · rw [if_neg hdropped] at hsome
      exact ⟨call, hmem, hdropped, (Option.some.inj hsome).symm⟩
  · rintro ⟨call, hmem, hkept, rfl⟩
    exact ⟨call, hmem, if_neg hkept⟩

section Tracks

variable {start value : Value N L} {key : String} {old new : List (BegunCall N L)} {offset : Nat}
  {field : OwnedField N L}

omit [JsNumber N] [DecidableEq N] [DecidableEq L] in
theorem Contributed.ascending (h : Contributed key new offset field)
    (hnew : Ascending offset new) :
    field.changes.Pairwise fun a b => a.sequence < b.sequence := by
  have hentries : (contributionsOf key offset new).Pairwise fun a b => a.1 < b.1 := by
    unfold contributionsOf
    rw [List.pairwise_filterMap]
    apply hnew.pairwise.imp_of_mem
    intro a b ha hb hlt entry hentry other hother
    have hfirst := hnew.from_offset a ha
    unfold contributionOf at hentry hother
    split at hentry
    · exact nomatch hentry
    · split at hother
      · exact nomatch hother
      · cases hentry
        cases hother
        show a.id + 1 - offset < b.id + 1 - offset
        omega
  rw [← h.changes, List.pairwise_map] at hentries
  exact hentries

omit [JsNumber N] [DecidableEq N] [DecidableEq L] in
theorem Contributed.mem_changes (h : Contributed key new offset field)
    {change : Change N L} (hmem : change ∈ field.changes) : ∃ call ∈ new,
      change.sequence = call.id + 1 - offset ∧
      change.operations = some (operationsOn key call.operations) := by
  have hentry : (change.sequence, change.operations) ∈ contributionsOf key offset new := by
    rw [← h.changes]
    exact List.mem_map.mpr ⟨change, hmem, rfl⟩
  obtain ⟨call, hcall, -, heq⟩ := mem_contributionsOf.mp hentry
  exact ⟨call, hcall, congrArg Prod.fst heq, congrArg Prod.snd heq⟩

/-- The replay of a field is its base and the operations retained on it. -/
theorem Contributed.replay (h : Contributed key new offset field)
    (hnew : Ascending offset new) :
    shown field = applyOperations field.base (retained key new) := by
  have hsorted : contributions field = field.changes := by
    unfold contributions
    rw [h.localEdit]
    exact sorted_eq (by simp) (h.ascending hnew)
  have hnewer : newer field = field.changes := by
    unfold newer
    rw [hsorted, List.filter_eq_self]
    intro change hmem
    obtain ⟨call, hcall, hseq, -⟩ := h.mem_changes hmem
    have hfirst := hnew.from_offset call hcall
    rw [h.sequence, decide_eq_true_eq, hseq]
    omega
  rw [shown_eq, hnewer]
  exact foldlM_contributions h.changes field.base

omit [JsNumber N] [DecidableEq N] [DecidableEq L] in
theorem Contributed.ordered (h : Contributed key new offset field)
    (hnew : Ascending offset new) {clock : Nat}
    (hclock : ∀ call ∈ new, call.id + 1 ≤ clock + offset) : Ordered clock field := by
  have hrecorded : recorded field = field.changes := by
    unfold recorded
    rw [h.localEdit]
    exact List.append_nil _
  refine ⟨?_, ?_, ?_, ?_, ?_, ?_⟩
  · rw [hrecorded]
    exact List.pairwise_map.mpr ((h.ascending hnew).imp Nat.ne_of_lt)
  · intro change hmem
    rw [hrecorded] at hmem
    obtain ⟨call, hcall, hseq, -⟩ := h.mem_changes hmem
    have hlast := hclock call hcall
    omega
  · rw [h.sequence]
    exact Nat.zero_le _
  · intro change hmem hdirect
    obtain ⟨call, -, -, hoperations⟩ := h.mem_changes hmem
    rw [hoperations] at hdirect
    exact nomatch hdirect
  · intro edit hedit
    rw [h.localEdit] at hedit
    exact nomatch hedit
  · intro edit hedit
    rw [h.localEdit] at hedit
    exact nomatch hedit

/-- The displayed value is the fold of the calls, where it is defined. -/
theorem Tracks.value_of_fold (h : Tracks start value key old new offset field)
    (hnew : Ascending offset new) {v : Value N L}
    (hfold : applyOperations start (retained key (old ++ new)) = .ok v) :
    value = v ∧ shown field = .ok v := by
  rw [retained_append, applyOperations_append] at hfold
  obtain ⟨base, hbase, hrest⟩ := Outcome.bind_eq_ok.mp hfold
  have hshown : shown field = .ok v := by
    rw [h.replay hnew, h.base base hbase]
    exact hrest
  exact ⟨h.shows v hshown, hshown⟩

/-- A field that has been made for a key without one. -/
theorem newField_tracks (hnone : ∀ call ∈ new, operationsOn key call.operations = [])
    (hvalue : ∀ v, applyOperations start (retained key old) = .ok v → value = v) :
    Tracks start value key old new offset (newField value) where
  sequence := rfl
  localEdit := rfl
  changes := by
    symm
    show contributionsOf key offset new = []
    apply List.filterMap_eq_nil_iff.mpr
    intro call hmem
    exact if_pos (.inr (hnone call hmem))
  displayed := rfl
  base := hvalue
  shows := fun v h => Except.ok.inj h

/-- A call that contributes nothing to the field. -/
theorem Tracks.pass (h : Tracks start value key old new offset field) {call : BegunCall N L}
    (hnone : operationsOn key call.operations = []) :
    Tracks start value key old (new ++ [call]) offset field := by
  have hsame : contributionsOf key offset (new ++ [call]) = contributionsOf key offset new := by
    have hcall : contributionOf key offset call = none := if_pos (.inr hnone)
    simp [contributionsOf, List.filterMap_append, hcall]
  exact { h with changes := h.changes.trans hsame.symm }

/-- A call that contributes the operations of its change. -/
theorem Tracks.join (h : Tracks start value key old new offset field) (hnew : Ascending offset new)
    {call : BegunCall N L} (hcalls : Ascending offset (new ++ [call])) {change : Change N L}
    (hoperations : operationsOn key call.operations ≠ []) (hpending : call.outcome = none)
    (hsequence : change.sequence = call.id + 1 - offset)
    (hchange : change.operations = some (operationsOn key call.operations)) {next : Value N L}
    (hnext : applyOperations value (operationsOn key call.operations) = .ok next) :
    Tracks start next key old (new ++ [call]) offset
      { field with changes := field.changes ++ [change], displayed := next } := by
  have hcall : contributionOf key offset call =
      some (call.id + 1 - offset, some (operationsOn key call.operations)) := by
    unfold contributionOf
    rw [hpending, if_neg (by simp [hoperations])]
  have hcontributed : Contributed key (new ++ [call]) offset
      { field with changes := field.changes ++ [change], displayed := next } := by
    refine ⟨h.sequence, h.localEdit, ?_⟩
    rw [List.map_append, h.changes]
    simp [contributionsOf, List.filterMap_append, hcall, hsequence, hchange]
  have hretained : retained key (new ++ [call]) =
      retained key new ++ operationsOn key call.operations := by
    rw [retained_append]
    simp [retained, hpending]
  refine { hcontributed with displayed := rfl, base := h.base, shows := ?_ }
  intro v hv
  -- the replay before the call is what its handler started from
  rw [hcontributed.replay hcalls, hretained, applyOperations_append] at hv
  obtain ⟨before, hbefore, hafter⟩ := Outcome.bind_eq_ok.mp hv
  have hvalue : value = before := h.shows before ((h.replay hnew).trans hbefore)
  rw [← hvalue] at hafter
  exact Except.ok.inj (hnext.symm.trans hafter)

end Tracks

/-! ## Section 4: A call that finishes -/

section Finish

omit [JsNumber N] [DecidableEq N] [DecidableEq L]

variable {key : String} {offset id : Nat} {calls : List (BegunCall N L)}

theorem finishBegun_id (id : Nat) (success : Bool) (call : BegunCall N L) :
    (finishBegun id success call).id = call.id := by
  unfold finishBegun
  split <;> rfl

theorem finishBegun_operations (id : Nat) (success : Bool) (call : BegunCall N L) :
    (finishBegun id success call).operations = call.operations := by
  unfold finishBegun
  split <;> rfl

theorem finishBegun_finished {success : Bool} {call : BegunCall N L} (h : call.outcome ≠ none) :
    finishBegun id success call = call := if_neg fun hboth => h hboth.2

theorem finishBegun_of_ne {success : Bool} {call : BegunCall N L} (h : call.id ≠ id) :
    finishBegun id success call = call := if_neg fun hboth => h hboth.1

theorem Ascending.finish (h : Ascending offset calls) (id : Nat) (success : Bool) :
    Ascending offset (calls.map (finishBegun id success)) := by
  constructor
  · intro call hmem
    obtain ⟨before, hbefore, rfl⟩ := List.mem_map.mp hmem
    rw [finishBegun_id]
    exact h.from_offset before hbefore
  · rw [List.pairwise_map]
    simp only [finishBegun_id]
    exact h.pairwise

theorem Ascending.snoc (h : Ascending offset calls) {call : BegunCall N L}
    (hoffset : offset ≤ call.id) (hlast : ∀ other ∈ calls, other.id < call.id) :
    Ascending offset (calls ++ [call]) := by
  constructor
  · intro other hmem
    rcases List.mem_append.mp hmem with hmem | hmem
    · exact h.from_offset other hmem
    · cases List.mem_singleton.mp hmem
      exact hoffset
  · rw [List.pairwise_append]
    refine ⟨h.pairwise, List.pairwise_singleton _ _, ?_⟩
    intro other hother last hmem
    cases List.mem_singleton.mp hmem
    exact hlast other hother

theorem Ascending.unique (h : Ascending offset calls) {first second : BegunCall N L}
    (hfirst : first ∈ calls) (hsecond : second ∈ calls) (heq : first.id = second.id) :
    first = second :=
  List.inj_on_of_nodup_map (List.pairwise_map.mpr (h.pairwise.imp Nat.ne_of_lt)) hfirst hsecond heq

/-- A success retracts nothing. -/
theorem contributionsOf_success :
    contributionsOf key offset (calls.map (finishBegun id true)) = contributionsOf key offset calls := by
  unfold contributionsOf
  rw [List.filterMap_map]
  congr 1
  funext call
  show contributionOf key offset (finishBegun id true call) = contributionOf key offset call
  by_cases hfinished : call.id = id ∧ call.outcome = none
  · rw [finishBegun, if_pos hfinished]
    unfold contributionOf
    simp [hfinished.2]
  · rw [finishBegun, if_neg hfinished]

/-- A failure retracts the contribution of its call. -/
theorem contributionsOf_failure (hcalls : ∀ call ∈ calls, offset ≤ call.id) (hid : offset ≤ id)
    (hpending : ∀ call ∈ calls, call.id = id → call.outcome = none) :
    contributionsOf key offset (calls.map (finishBegun id false)) =
      (contributionsOf key offset calls).filter fun entry => entry.1 != id + 1 - offset := by
  unfold contributionsOf
  rw [List.filterMap_map, List.filter_filterMap]
  apply List.filterMap_congr
  intro call hmem
  show contributionOf key offset (finishBegun id false call) =
    (contributionOf key offset call).filter fun entry => entry.1 != id + 1 - offset
  have hoffset := hcalls call hmem
  by_cases heq : call.id = id
  · rw [finishBegun, if_pos ⟨heq, hpending call hmem heq⟩]
    unfold contributionOf
    rw [if_pos (.inl rfl)]
    split
    · rfl
    · simp [Option.filter, heq]
  · rw [finishBegun_of_ne heq]
    unfold contributionOf
    split
    · rfl
    · have hne : call.id + 1 - offset ≠ id + 1 - offset := by omega
      simp [Option.filter, hne]

/-- A call without operations on the field leaves its contributions. -/
theorem contributionsOf_elsewhere {success : Bool}
    (hnone : ∀ call ∈ calls, call.id = id → operationsOn key call.operations = []) :
    contributionsOf key offset (calls.map (finishBegun id success)) =
      contributionsOf key offset calls := by
  unfold contributionsOf
  rw [List.filterMap_map]
  apply List.filterMap_congr
  intro call hmem
  show contributionOf key offset (finishBegun id success call) = contributionOf key offset call
  by_cases heq : call.id = id
  · unfold contributionOf
    rw [finishBegun_operations, if_pos (.inr (hnone call hmem heq)),
      if_pos (.inr (hnone call hmem heq))]
  · rw [finishBegun_of_ne heq]

end Finish

section Settle

variable {start value : Value N L} {key : String} {old new : List (BegunCall N L)} {offset : Nat}
  {field : OwnedField N L}

omit [JsNumber N] [DecidableEq N] [DecidableEq L] in
/-- No change of the field is direct, so a success leaves it as it is. -/
theorem Contributed.settled (h : Contributed key new offset field) (hnew : Ascending offset new)
    {call : OptimisticCall} (hcall : call.sequence + offset = call.id + 1)
    (hpending : ∀ other ∈ new, other.id = call.id → other.outcome = none)
    (hid : offset ≤ call.id) (success : Bool) :
    ∃ field', settledField call success field = .ok field' ∧
      (field'.base = field.base ∧ field'.displayed = field.displayed) ∧
      Contributed key (new.map (finishBegun call.id success)) offset field' := by
  have hsequence : call.sequence = call.id + 1 - offset := by omega
  cases success with
  | false =>
    refine ⟨dropChange field call.sequence, rfl, ⟨rfl, rfl⟩, h.sequence, h.localEdit, ?_⟩
    rw [contributionsOf_failure hnew.from_offset hid hpending, ← h.changes, ← hsequence,
      List.filter_map]
    rfl
  | true =>
    cases hfind : findChange field call.sequence with
    | some change =>
      obtain ⟨_, -, -, hoperations⟩ := h.mem_changes (List.mem_of_find?_eq_some hfind)
      refine ⟨field, ?_, ⟨rfl, rfl⟩, h.sequence, h.localEdit,
        h.changes.trans contributionsOf_success.symm⟩
      simp [settledField, commitDirect, hfind, hoperations]
    | none =>
      have hkept : field.changes.filter (·.sequence != call.sequence) = field.changes := by
        rw [List.filter_eq_self]
        intro change hmem
        simpa using List.find?_eq_none.mp hfind change hmem
      refine ⟨dropChange (releaseEdit field call.sequence) call.sequence, ?_, ⟨rfl, rfl⟩,
        h.sequence, ?_, ?_⟩
      · simp [settledField, commitDirect, hfind]
      · show field.localEdit.filter _ = none
        rw [h.localEdit]
        rfl
      · show (field.changes.filter (·.sequence != call.sequence)).map _ = _
        rw [hkept, contributionsOf_success]
        exact h.changes

/-- The update of a field by a call that finishes. -/
theorem Tracks.settle (h : Tracks start value key old new offset field)
    (hnew : Ascending offset new) {call : OptimisticCall}
    (hcall : call.sequence + offset = call.id + 1)
    (hpending : ∀ other ∈ new, other.id = call.id → other.outcome = none)
    (hid : offset ≤ call.id) (success : Bool) :
    (settleField call success value field).2.2 = none ∧
      Tracks start (settleField call success value field).1 key old
        (new.map (finishBegun call.id success)) offset (settleField call success value field).2.1 := by
  obtain ⟨field', hsettled, ⟨hbase, hdisplayed⟩, hcontributed⟩ :=
    h.toContributed.settled hnew hcall hpending hid success
  unfold settleField
  rw [hsettled]
  cases hshown : shown field' with
  | error message =>
    have hwrite : write value field' = .error message := by
      unfold write
      rw [hshown]
      rfl
    simp only [hwrite]
    exact ⟨trivial, { hcontributed with
      displayed := hdisplayed.trans h.displayed
      base := fun v hv => hbase.trans (h.base v hv)
      shows := fun v hv => absurd (hshown.symm.trans hv) (fun heq => nomatch heq) }⟩
  | ok v =>
    simp only [write_eq hshown]
    exact ⟨trivial, { hcontributed with
      displayed := rfl
      base := fun v hv => hbase.trans (h.base v hv)
      shows := fun w hw => Except.ok.inj (hshown.symm.trans hw) }⟩

end Settle

end Ledger

end Cossack.Core
