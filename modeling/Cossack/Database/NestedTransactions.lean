import Cossack.Lib.Runs
import Mathlib

/-! # Nested transactions

    `ORM.transaction` inside a transaction sets a savepoint, runs its callback and
    releases the savepoint or rolls back to it.  The name of the savepoint is made of
    the depth of the call, and all calls of one transaction share the savepoints of
    its connection, where the most recent one of a name counts.  A statement is known
    by the call that made it; its rows and its failures are left out. -/

namespace Cossack.Database.NestedTransactions

open Runs

variable {S : Type}

/-! ## Section 1: The connection -/

structure Savepoint (S : Type) where
  name : String
  /-- What was in effect when it was set. -/
  saved : List (Nat × S)
  /-- The call that set it; the database does not know. -/
  owner : Nat

structure Connection (S : Type) where
  /-- The statements in effect, each with its call. -/
  effects : List (Nat × S)
  /-- The most recent one first. -/
  savepoints : List (Savepoint S)

namespace Connection

variable (c : Connection S)

def execute (i : Nat) (statement : S) : Connection S :=
  { c with effects := c.effects ++ [(i, statement)] }

def savepoint (name : String) (owner : Nat) : Connection S :=
  { c with savepoints := ⟨name, c.effects, owner⟩ :: c.savepoints }

/-- The savepoints from the most recent one of the name on. -/
def since (name : String) : List (Savepoint S) := c.savepoints.dropWhile (·.name != name)

/-- `RELEASE SAVEPOINT`, which fails without a savepoint of the name. -/
def release (name : String) : Option (Connection S) :=
  match c.since name with
  | [] => none
  | _ :: rest => some { c with savepoints := rest }

/-- `ROLLBACK TO SAVEPOINT`, which leaves the savepoint there. -/
def rollbackTo (name : String) : Option (Connection S) :=
  match c.since name with
  | [] => none
  | savepoint :: rest => some { effects := savepoint.saved, savepoints := savepoint :: rest }

end Connection

/-! ## Section 2: The calls of one transaction -/

inductive Phase where
  /-- `await current.driver.execute(SAVEPOINT)` -/
  | opening
  /-- The callback runs. -/
  | running
  /-- The promise of the callback is fulfilled, or rejected. -/
  | returned
  | thrown
  | resolved
  | rejected
  deriving DecidableEq

structure Call where
  /-- The calls that it is nested in, the outermost first, and itself. -/
  lineage : List Nat
  /-- Of its own context. -/
  transactionDepth : Nat
  phase : Phase
  /-- How many statements there had been when it began. -/
  mark : Nat

def savepointName (depth : Nat) : String := "cossack_sp_" ++ toString depth

/-- A transaction of the driver.  The outermost call is number 0. -/
structure Transaction (S : Type) where
  /-- The adapter keeps a context for every asynchronous call chain. -/
  hasScope : Bool
  connection : Connection S
  calls : List Call
  fallbackScopes : List Nat
  /-- All statements there have been. -/
  history : List (Nat × S)

namespace Transaction

/-- `current.driver.transaction` has begun, and its callback runs. -/
def start (hasScope : Bool) : Transaction S :=
  { hasScope, connection := ⟨[], []⟩, calls := [⟨[0], 1, .running, 0⟩], fallbackScopes := [0], history := [] }

variable (t : Transaction S)

def phase (i : Nat) : Option Phase := t.calls[i]?.map Call.phase

def setPhase (i : Nat) (phase : Phase) : Transaction S :=
  { t with calls := t.calls.modify i fun call => { call with phase } }

/-- `context()` in the callback of a call. -/
def context (i : Nat) : Option Call :=
  if t.hasScope then t.calls[i]? else t.fallbackScopes.getLast?.bind (t.calls[·]?)

/-- The transaction of the driver is over. -/
def closed : Bool := t.phase 0 == some .resolved || t.phase 0 == some .rejected

/-- `transaction` in the callback of a call, up to the first `await`. -/
def nest (parent : Call) (current : Call) : Transaction S :=
  { t with
    connection := t.connection.savepoint (savepointName (current.transactionDepth + 1)) t.calls.length
    calls := t.calls ++
      [⟨parent.lineage ++ [t.calls.length], current.transactionDepth + 1, .opening, t.history.length⟩] }

/-- `runContext` of the nested context. -/
def enter (i : Nat) : Transaction S :=
  { t.setPhase i .running with fallbackScopes := t.fallbackScopes ++ [i] }

def execute (i : Nat) (statement : S) : Transaction S :=
  { t with
    connection := t.connection.execute i statement
    history := t.history ++ [(i, statement)] }

/-- The promise of the callback settles, and its context is no longer there. -/
def settle (i : Nat) (ok : Bool) : Transaction S :=
  { t.setPhase i (if ok then .returned else .thrown) with fallbackScopes := t.fallbackScopes.erase i }

/-- After a callback that returned.  A RELEASE that fails is caught like its
    exceptions. -/
def resolve (i : Nat) (call : Call) : Transaction S :=
  if i = 0 then t.setPhase i .resolved
  else
    match t.connection.release (savepointName call.transactionDepth) with
    | none => t.setPhase i .thrown
    | some connection => { t with connection }.setPhase i .resolved

/-- `catch`; the promise is rejected whether ROLLBACK TO fails or not. -/
def reject (i : Nat) (call : Call) : Transaction S :=
  if i = 0 then { t with connection := ⟨[], []⟩ }.setPhase i .rejected
  else
    match t.connection.rollbackTo (savepointName call.transactionDepth) with
    | none => t.setPhase i .rejected
    | some connection => { t with connection }.setPhase i .rejected

end Transaction

inductive Event (S : Type) where
  | transaction (parent : Nat)
  | enter (i : Nat)
  | execute (i : Nat) (statement : S)
  | settle (i : Nat) (ok : Bool)
  /-- What follows the callback. -/
  | finish (i : Nat)

def step (t : Transaction S) (event : Event S) : Option (Transaction S) :=
  if t.closed then none
  else
    match event with
    | .transaction parent =>
        match t.calls[parent]?, t.context parent with
        | some call, some current => if call.phase = .running then some (t.nest call current) else none
        | _, _ => none
    | .enter i => if t.phase i = some .opening then some (t.enter i) else none
    | .execute i statement =>
        if t.phase i = some .running then some (t.execute i statement) else none
    | .settle i ok => if t.phase i = some .running then some (t.settle i ok) else none
    | .finish i =>
        match t.calls[i]? with
        | none => none
        | some call =>
            match call.phase with
            | .returned => some (t.resolve i call)
            | .thrown => some (t.reject i call)
            | _ => none

/-! ## Section 3: What is to be in effect -/

namespace Transaction

variable (t : Transaction S)

def rejected (i : Nat) : Bool := t.phase i == some .rejected

/-- The call is `outer` or nested in it. -/
def Within (i outer : Nat) : Prop := ∃ call, t.calls[i]? = some call ∧ outer ∈ call.lineage

/-- Neither the call nor one that it is nested in has been rejected. -/
def kept (i : Nat) : Bool :=
  match t.calls[i]? with
  | none => false
  | some call => call.lineage.all fun outer => !t.rejected outer

/-- Each rejected call has undone the statements made inside it, and there is nothing
    else that has been undone. -/
def Atomic : Prop := t.connection.effects = t.history.filter fun e => t.kept e.1

/-- ROLLBACK TO reaches the savepoint of the call itself, and all that has been done
    since and is in effect was done inside the call. -/
def Own (i : Nat) : Prop :=
  ∀ call, t.calls[i]? = some call →
    (∃ saved rest, t.connection.since (savepointName call.transactionDepth) =
      ⟨savepointName call.transactionDepth, saved, i⟩ :: rest) ∧
    ∀ e ∈ t.history.drop call.mark, t.kept e.1 = true → t.Within e.1 i

end Transaction

/-- A nested call rolls back only what is its own, and nothing is executed inside a
    call that has been rejected. -/
def Contained (t : Transaction S) : Event S → Prop
  | .finish i => t.phase i = some .thrown → i ≠ 0 → t.Own i
  | .execute i _ => t.kept i = true
  | _ => True

/-! ## Section 4: The invariant -/

/-- The savepoints were set by calls in their order, and each has what was in effect
    of the statements before its call. -/
structure Sound (t : Transaction S) : Prop where
  entries : ∀ e ∈ t.history, e.1 < t.calls.length
  lineages : ∀ (i : Nat) (call : Call), t.calls[i]? = some call →
    0 ∈ call.lineage ∧ ∀ outer ∈ call.lineage, outer ≤ i
  marks : ∀ (i : Nat) (call : Call), t.calls[i]? = some call →
    call.mark ≤ t.history.length ∧ ∀ e ∈ t.history.take call.mark, e.1 < i
  effects : t.Atomic
  saved : ∀ sp ∈ t.connection.savepoints, ∃ call, t.calls[sp.owner]? = some call ∧
    sp.saved = (t.history.take call.mark).filter fun e => t.kept e.1
  sorted : t.connection.savepoints.Pairwise fun upper lower => lower.owner < upper.owner

namespace Transaction

variable {t t' : Transaction S} {i j : Nat}

@[simp] theorem setPhase_connection (p : Phase) : (t.setPhase i p).connection = t.connection := rfl

@[simp] theorem setPhase_history (p : Phase) : (t.setPhase i p).history = t.history := rfl

@[simp] theorem setPhase_length (p : Phase) : (t.setPhase i p).calls.length = t.calls.length :=
  List.length_modify ..

theorem setPhase_calls (p : Phase) (j : Nat) :
    (t.setPhase i p).calls[j]? =
      (t.calls[j]?).map fun call => if i = j then { call with phase := p } else call := by
  show (t.calls.modify i _)[j]? = _
  rw [List.getElem?_modify]
  by_cases h : i = j
  · simp [h]
  · simp [h]

/-- A call of the new list is the old one up to its phase. -/
theorem setPhase_getElem {p : Phase} {call : Call} (h : (t.setPhase i p).calls[j]? = some call) :
    ∃ old, t.calls[j]? = some old ∧ call.lineage = old.lineage ∧ call.mark = old.mark := by
  rw [setPhase_calls] at h
  obtain ⟨old, hold, rfl⟩ := Option.map_eq_some_iff.mp h
  refine ⟨old, hold, ?_⟩
  split <;> exact ⟨rfl, rfl⟩

theorem setPhase_rejected {p : Phase} (hi : i < t.calls.length) (j : Nat) :
    (t.setPhase i p).rejected j = if i = j then p == .rejected else t.rejected j := by
  unfold rejected phase
  rw [setPhase_calls]
  by_cases h : i = j
  · subst h
    simp [List.getElem?_eq_getElem hi]
  · simp [h]

/-- What is kept depends on who is nested in whom and on what has been rejected. -/
theorem kept_setPhase {p : Phase} (hi : i < t.calls.length) (j : Nat) :
    (t.setPhase i p).kept j =
      match t.calls[j]? with
      | none => false
      | some call => call.lineage.all fun outer => !(if i = outer then p == .rejected else t.rejected outer) := by
  unfold kept
  rw [setPhase_calls]
  cases hj : t.calls[j]? with
  | none => rfl
  | some call =>
    rw [Option.map_some]
    have hlineage : (if i = j then { call with phase := p } else call).lineage = call.lineage := by
      split <;> rfl
    simp only [hlineage, setPhase_rejected hi]

theorem kept_of_phase {p q : Phase} (hi : t.phase i = some q) (hq : q ≠ .rejected)
    (hp : p ≠ .rejected) (j : Nat) : (t.setPhase i p).kept j = t.kept j := by
  obtain ⟨call, hcall, hphase⟩ := Option.map_eq_some_iff.mp hi
  have hlt : i < t.calls.length := (List.getElem?_eq_some_iff.mp hcall).1
  have hsame : ∀ outer, (if i = outer then p == .rejected else t.rejected outer) = t.rejected outer := by
    intro outer
    split
    next h =>
      subst h
      have hnot : t.rejected i = false := by
        unfold rejected
        rw [hi]
        simpa using hq
      rw [hnot]
      simpa using hp
    next => rfl
  rw [kept_setPhase hlt]
  unfold kept
  cases t.calls[j]? with
  | none => rfl
  | some call => simp only [hsame]

end Transaction

open Transaction

variable {t : Transaction S} {i : Nat}

/-- A phase that is no rejection does not matter. -/
theorem Sound.setPhase (h : Sound t) {p q : Phase} (hi : t.phase i = some q) (hq : q ≠ .rejected)
    (hp : p ≠ .rejected) : Sound (t.setPhase i p) where
  entries := by simpa using h.entries
  lineages := by
    intro j call hcall
    obtain ⟨old, hold, hlineage, -⟩ := setPhase_getElem hcall
    rw [hlineage]
    exact h.lineages j old hold
  marks := by
    intro j call hcall
    obtain ⟨old, hold, -, hmark⟩ := setPhase_getElem hcall
    rw [hmark]
    exact h.marks j old hold
  effects := by
    have heffects := h.effects
    unfold Atomic at heffects ⊢
    simpa only [setPhase_connection, setPhase_history, kept_of_phase hi hq hp] using heffects
  saved := by
    intro sp hsp
    obtain ⟨call, hcall, hsaved⟩ := h.saved sp hsp
    refine ⟨_, by rw [setPhase_calls, hcall]; rfl, ?_⟩
    have hmark : (if i = sp.owner then { call with phase := p } else call).mark = call.mark := by
      split <;> rfl
    simp only [hmark, setPhase_history, kept_of_phase hi hq hp]
    exact hsaved
  sorted := h.sorted

theorem Sound.within_le (h : Sound t) {outer : Nat} (hwithin : t.Within i outer) : outer ≤ i := by
  obtain ⟨call, hcall, hmem⟩ := hwithin
  exact (h.lineages i call hcall).2 outer hmem

/-- A call that is rejected takes what is within it out of what is kept. -/
theorem kept_reject (hi : i < t.calls.length) (j : Nat) :
    (t.setPhase i .rejected).kept j = true ↔ t.kept j = true ∧ ¬ t.Within j i := by
  rw [kept_setPhase hi]
  unfold kept Within
  cases hj : t.calls[j]? with
  | none => simp
  | some call =>
    have heach : ∀ outer, (!(if i = outer then (Phase.rejected == .rejected) else t.rejected outer)) =
        true ↔ t.rejected outer = false ∧ outer ≠ i := by
      intro outer
      by_cases h : i = outer
      · simp [h]
      · simp [h, Ne.symm h]
    simp only [List.all_eq_true, heach, Option.some.injEq, exists_eq_left', Bool.not_eq_eq_eq_not,
      Bool.not_true]
    constructor
    · intro h
      exact ⟨fun outer hmem => (h outer hmem).1, fun hmem => (h i hmem).2 rfl⟩
    · rintro ⟨hkept, hnot⟩ outer hmem
      exact ⟨hkept outer hmem, fun heq => hnot (heq ▸ hmem)⟩

theorem Sound.execute (h : Sound t) {call : Call} (hi : t.calls[i]? = some call)
    (hkept : t.kept i = true) (statement : S) : Sound (t.execute i statement) where
  entries := by
    intro e he
    rcases List.mem_append.mp he with he | he
    · exact h.entries e he
    · obtain rfl := List.mem_singleton.mp he
      exact (List.getElem?_eq_some_iff.mp hi).1
  lineages := h.lineages
  marks := by
    intro j old hold
    obtain ⟨hmark, htake⟩ := h.marks j old hold
    refine ⟨Nat.le_trans hmark (by simp [Transaction.execute]), ?_⟩
    show ∀ e ∈ (t.history ++ [(i, statement)]).take old.mark, e.1 < j
    rwa [List.take_append_of_le_length hmark]
  effects := by
    have heffects := h.effects
    unfold Atomic at heffects ⊢
    show t.connection.effects ++ [(i, statement)] =
      (t.history ++ [(i, statement)]).filter fun e => t.kept e.1
    have hlast : [(i, statement)].filter (fun e => t.kept e.1) = [(i, statement)] :=
      List.filter_cons_of_pos hkept
    rw [List.filter_append, ← heffects, hlast]
  saved := by
    intro sp hsp
    obtain ⟨owner, howner, hsaved⟩ := h.saved sp hsp
    refine ⟨owner, howner, ?_⟩
    show sp.saved = ((t.history ++ [(i, statement)]).take owner.mark).filter fun e => t.kept e.1
    rwa [List.take_append_of_le_length (h.marks _ _ howner).1]
  sorted := h.sorted

theorem since_suffix (c : Connection S) (name : String) : c.since name <:+ c.savepoints :=
  List.dropWhile_suffix _

/-- RELEASE takes savepoints away. -/
theorem Sound.release (h : Sound t) {name : String} {connection : Connection S}
    (hrelease : t.connection.release name = some connection) :
    Sound { t with connection } := by
  unfold Connection.release at hrelease
  cases hsince : t.connection.since name with
  | nil =>
    rw [hsince] at hrelease
    exact nomatch hrelease
  | cons sp rest =>
    rw [hsince] at hrelease
    obtain rfl := Option.some.inj hrelease
    have hsuffix : rest <:+ t.connection.savepoints :=
      (hsince ▸ List.suffix_cons sp rest).trans (since_suffix t.connection name)
    exact ⟨h.entries, h.lineages, h.marks, h.effects, fun sp hsp => h.saved sp (hsuffix.subset hsp),
      h.sorted.sublist hsuffix.sublist⟩

/-- A call that rolls back to its own savepoint undoes what is within it. -/
theorem Sound.rollback (h : Sound t) {call : Call} (hi : t.calls[i]? = some call)
    {saved : List (Nat × S)} {rest : List (Savepoint S)}
    (hsince : t.connection.since (savepointName call.transactionDepth) =
      ⟨savepointName call.transactionDepth, saved, i⟩ :: rest)
    (hown : ∀ e ∈ t.history.drop call.mark, t.kept e.1 = true → t.Within e.1 i) :
    Sound ({ t with
      connection := ⟨saved, ⟨savepointName call.transactionDepth, saved, i⟩ :: rest⟩ }.setPhase i
        .rejected) := by
  have hlt : i < t.calls.length := (List.getElem?_eq_some_iff.mp hi).1
  have hsuffix : ⟨savepointName call.transactionDepth, saved, i⟩ :: rest <:+ t.connection.savepoints :=
    hsince ▸ since_suffix t.connection _
  have hsorted := h.sorted.sublist hsuffix.sublist
  -- what earlier calls have done is not within this one
  have hearlier : ∀ (owner : Nat) (old : Call), t.calls[owner]? = some old → owner ≤ i →
      (t.history.take old.mark).filter (fun e => (t.setPhase i .rejected).kept e.1) =
        (t.history.take old.mark).filter fun e => t.kept e.1 := by
    intro owner old hold hle
    refine List.filter_congr fun e he => ?_
    have hbefore := (h.marks owner old hold).2 e he
    have hnot : ¬ t.Within e.1 i := fun hwithin => by
      have := h.within_le hwithin
      omega
    exact Bool.eq_iff_iff.mpr ((kept_reject hlt e.1).trans (and_iff_left hnot))
  obtain ⟨own, howncall, hsaved⟩ := h.saved _ (hsuffix.subset List.mem_cons_self)
  obtain rfl : call = own := Option.some.inj (hi.symm.trans howncall)
  refine ⟨by simpa using h.entries, ?_, ?_, ?_, ?_, hsorted⟩
  · intro j old hold
    obtain ⟨before, hbefore, hlineage, -⟩ := setPhase_getElem hold
    rw [hlineage]
    exact h.lineages j before hbefore
  · intro j old hold
    obtain ⟨before, hbefore, -, hmark⟩ := setPhase_getElem hold
    rw [hmark]
    exact h.marks j before hbefore
  · show saved = t.history.filter fun e => (t.setPhase i .rejected).kept e.1
    have hafter : (t.history.drop call.mark).filter
        (fun e => (t.setPhase i .rejected).kept e.1) = [] := by
      refine List.filter_eq_nil_iff.mpr fun e he hkept => ?_
      obtain ⟨hkept, hnot⟩ := (kept_reject hlt e.1).mp hkept
      exact hnot (hown e he hkept)
    calc saved = (t.history.take call.mark).filter fun e => t.kept e.1 := hsaved
      _ = (t.history.take call.mark).filter fun e => (t.setPhase i .rejected).kept e.1 :=
        (hearlier i call hi (Nat.le_refl i)).symm
      _ = (t.history.take call.mark ++ t.history.drop call.mark).filter
          fun e => (t.setPhase i .rejected).kept e.1 := by
        rw [List.filter_append, hafter, List.append_nil]
      _ = t.history.filter fun e => (t.setPhase i .rejected).kept e.1 := by
        rw [List.take_append_drop]
  · intro sp hsp
    obtain ⟨old, hold, hspsaved⟩ := h.saved sp (hsuffix.subset hsp)
    have hle : sp.owner ≤ i := by
      rcases List.mem_cons.mp hsp with rfl | hrest
      · exact Nat.le_refl i
      · exact Nat.le_of_lt ((List.pairwise_cons.mp hsorted).1 sp hrest)
    refine ⟨_, by rw [setPhase_calls]; exact congrArg (Option.map _) hold, ?_⟩
    have hmark : (if i = sp.owner then { old with phase := .rejected } else old).mark = old.mark := by
      split <;> rfl
    rw [hmark, hspsaved]
    exact (hearlier sp.owner old hold hle).symm

/-- ROLLBACK of the transaction undoes everything. -/
theorem Sound.abort (h : Sound t) (h0 : 0 < t.calls.length) :
    Sound ({ t with connection := ⟨[], []⟩ }.setPhase 0 .rejected) := by
  refine ⟨by simpa using h.entries, ?_, ?_, ?_, fun sp hsp => absurd hsp List.not_mem_nil, .nil⟩
  · intro j old hold
    obtain ⟨before, hbefore, hlineage, -⟩ := setPhase_getElem hold
    rw [hlineage]
    exact h.lineages j before hbefore
  · intro j old hold
    obtain ⟨before, hbefore, -, hmark⟩ := setPhase_getElem hold
    rw [hmark]
    exact h.marks j before hbefore
  · show [] = t.history.filter fun e => (t.setPhase 0 .rejected).kept e.1
    refine (List.filter_eq_nil_iff.mpr fun e he hkept => ?_).symm
    obtain ⟨call, hcall⟩ : ∃ call, t.calls[e.1]? = some call :=
      ⟨_, List.getElem?_eq_getElem (h.entries e he)⟩
    exact ((kept_reject h0 e.1).mp hkept).2 ⟨call, hcall, (h.lineages _ call hcall).1⟩

theorem kept_nest (parent current : Call) {j : Nat} (hj : j < t.calls.length) :
    (t.nest parent current).kept j = t.kept j := by
  have hrejected : ∀ outer, (t.nest parent current).rejected outer = t.rejected outer := by
    intro outer
    unfold rejected phase Transaction.nest
    dsimp only
    rcases Nat.lt_trichotomy outer t.calls.length with hlt | rfl | hgt
    · rw [List.getElem?_append_left hlt]
    · simp
    · rw [List.getElem?_eq_none (by simp; omega), List.getElem?_eq_none (by omega)]
  unfold kept
  simp only [hrejected]
  unfold Transaction.nest
  dsimp only
  rw [List.getElem?_append_left hj]

theorem Sound.nest (h : Sound t) {parent : Nat} {call current : Call}
    (hparent : t.calls[parent]? = some call) : Sound (t.nest call current) := by
  have hlt : parent < t.calls.length := (List.getElem?_eq_some_iff.mp hparent).1
  have hcases : ∀ (j : Nat) (c : Call), (t.nest call current).calls[j]? = some c →
      t.calls[j]? = some c ∨ j = t.calls.length ∧
        c.lineage = call.lineage ++ [t.calls.length] ∧ c.mark = t.history.length := by
    intro j c hc
    change (t.calls ++ [_])[j]? = some c at hc
    rcases Nat.lt_trichotomy j t.calls.length with hj | rfl | hj
    · rw [List.getElem?_append_left hj] at hc
      exact .inl hc
    · rw [List.getElem?_concat_length] at hc
      obtain rfl := Option.some.inj hc
      exact .inr ⟨rfl, rfl, rfl⟩
    · rw [List.getElem?_eq_none (by simp; omega)] at hc
      exact nomatch hc
  have hkept : ∀ list : List (Nat × S), (∀ e ∈ list, e ∈ t.history) →
      list.filter (fun e => (t.nest call current).kept e.1) = list.filter fun e => t.kept e.1 :=
    fun list hlist => List.filter_congr fun e he => kept_nest call current (h.entries e (hlist e he))
  refine ⟨fun e he => ?_, fun j c hc => ?_, fun j c hc => ?_, ?_, fun sp hsp => ?_, ?_⟩
  · have := h.entries e he
    simp only [Transaction.nest, List.length_append, List.length_singleton]
    omega
  · rcases hcases j c hc with hold | ⟨rfl, hlineage, -⟩
    · exact h.lineages j c hold
    · rw [hlineage]
      obtain ⟨hzero, hle⟩ := h.lineages parent call hparent
      refine ⟨List.mem_append_left _ hzero, fun outer houter => ?_⟩
      rcases List.mem_append.mp houter with houter | houter
      · have := hle outer houter
        omega
      · exact Nat.le_of_eq (List.mem_singleton.mp houter)
  · rcases hcases j c hc with hold | ⟨rfl, -, hmark⟩
    · exact h.marks j c hold
    · rw [hmark]
      refine ⟨Nat.le_refl _, fun e he => ?_⟩
      exact h.entries e (List.mem_of_mem_take he)
  · show t.connection.effects = t.history.filter fun e => (t.nest call current).kept e.1
    rw [hkept t.history fun e he => he]
    exact h.effects
  · rcases List.mem_cons.mp hsp with rfl | hsp
    · refine ⟨_, List.getElem?_concat_length, ?_⟩
      show t.connection.effects = (t.history.take t.history.length).filter
        fun e => (t.nest call current).kept e.1
      rw [List.take_length, hkept t.history fun e he => he]
      exact h.effects
    · obtain ⟨owner, howner, hsaved⟩ := h.saved sp hsp
      refine ⟨owner, ?_, ?_⟩
      · show (t.calls ++ [_])[sp.owner]? = some owner
        rw [List.getElem?_append_left (List.getElem?_eq_some_iff.mp howner).1]
        exact howner
      · show sp.saved = (t.history.take owner.mark).filter fun e => (t.nest call current).kept e.1
        rw [hkept _ fun e he => List.mem_of_mem_take he]
        exact hsaved
  · refine List.pairwise_cons.mpr ⟨fun sp hsp => ?_, h.sorted⟩
    obtain ⟨owner, howner, -⟩ := h.saved sp hsp
    exact (List.getElem?_eq_some_iff.mp howner).1

/-! ## Section 5: Runs -/

theorem phase_of {call : Call} (hcall : t.calls[i]? = some call) : t.phase i = some call.phase := by
  unfold Transaction.phase
  rw [hcall]
  rfl

theorem Sound.reject (h : Sound t) {call : Call} (hcall : t.calls[i]? = some call)
    (hown : i ≠ 0 → t.Own i) : Sound (t.reject i call) := by
  unfold Transaction.reject
  by_cases h0 : i = 0
  · rw [if_pos h0]
    subst h0
    exact h.abort (List.getElem?_eq_some_iff.mp hcall).1
  · rw [if_neg h0]
    obtain ⟨⟨saved, rest, hsince⟩, hwithin⟩ := hown h0 call hcall
    unfold Connection.rollbackTo
    rw [hsince]
    exact h.rollback hcall hsince hwithin

theorem Sound.resolve (h : Sound t) {call : Call} (hcall : t.calls[i]? = some call)
    (hphase : call.phase = .returned) : Sound (t.resolve i call) := by
  have hi : t.phase i = some .returned := hphase ▸ phase_of hcall
  unfold Transaction.resolve
  split
  · exact h.setPhase hi (by simp) (by simp)
  · split
    · exact h.setPhase hi (by simp) (by simp)
    · next connection hrelease => exact (h.release hrelease).setPhase hi (by simp) (by simp)

theorem sound_step {t' : Transaction S} {event : Event S} (h : Sound t)
    (hcontained : Contained t event) (hstep : step t event = some t') : Sound t' := by
  unfold step at hstep
  split at hstep
  · exact nomatch hstep
  cases event with
  | transaction parent =>
    dsimp only at hstep
    split at hstep
    next call current hcall hcurrent =>
      split at hstep
      · obtain rfl := Option.some.inj hstep
        exact h.nest hcall
      · exact nomatch hstep
    next => exact nomatch hstep
  | enter i =>
    obtain ⟨hi, hstep⟩ := Option.ite_none_right_eq_some.mp hstep
    obtain rfl := Option.some.inj hstep
    have hentered := h.setPhase (p := .running) hi (by simp) (by simp)
    exact ⟨hentered.1, hentered.2, hentered.3, hentered.4, hentered.5, hentered.6⟩
  | execute i statement =>
    obtain ⟨hi, hstep⟩ := Option.ite_none_right_eq_some.mp hstep
    obtain rfl := Option.some.inj hstep
    obtain ⟨call, hcall, -⟩ := Option.map_eq_some_iff.mp hi
    exact h.execute hcall hcontained statement
  | settle i ok =>
    obtain ⟨hi, hstep⟩ := Option.ite_none_right_eq_some.mp hstep
    obtain rfl := Option.some.inj hstep
    have hsettled := h.setPhase (p := if ok then .returned else .thrown) hi (by simp)
      (by cases ok <;> simp)
    exact ⟨hsettled.1, hsettled.2, hsettled.3, hsettled.4, hsettled.5, hsettled.6⟩
  | finish i =>
    cases hcall : t.calls[i]? with
    | none =>
      simp only [hcall] at hstep
      exact nomatch hstep
    | some call =>
      simp only [hcall] at hstep
      split at hstep
      next hphase =>
        obtain rfl := Option.some.inj hstep
        exact h.resolve hcall hphase
      next hphase =>
        obtain rfl := Option.some.inj hstep
        exact h.reject hcall (hcontained (hphase ▸ phase_of hcall))
      next => exact nomatch hstep

theorem sound_start (hasScope : Bool) : Sound (start hasScope : Transaction S) where
  entries := nofun
  lineages := by
    intro i call hcall
    match i with
    | 0 =>
      obtain rfl := Option.some.inj hcall
      exact ⟨List.mem_singleton_self 0, fun outer h => Nat.le_of_eq (List.mem_singleton.mp h)⟩
    | i + 1 => exact nomatch hcall
  marks := by
    intro i call hcall
    match i with
    | 0 =>
      obtain rfl := Option.some.inj hcall
      exact ⟨Nat.le_refl 0, nofun⟩
    | i + 1 => exact nomatch hcall
  effects := rfl
  saved := nofun
  sorted := .nil

theorem sound_of_run {hasScope : Bool} {t : Transaction S}
    (h : Run step Contained (start hasScope) t) : Sound t :=
  h.invariant (sound_start hasScope) fun _ _ _ hs hcontained hstep => sound_step hs hcontained hstep

end Cossack.Database.NestedTransactions
