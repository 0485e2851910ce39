import Cossack.Lib.Runs
import Mathlib.Data.List.Basic
import Mathlib.Data.Nat.PSub

/-! # The SQLite driver

    One connection shared by every async context.  `exclusive` chains promises:
    a call awaits the promise of the call before it, and resolves its own when it is
    over.  A statement is a function on the contents of the database; its rows and
    its failures are left out.  A token is the number of its call, and a context is
    the token that its async scope holds. -/

namespace Cossack.Database.SqliteDriver

open Runs

/-! ## Section 1: The connection -/

variable {D S : Type}

structure Connection (D : Type) where
  contents : D
  /-- What the open transaction began with. -/
  saved : Option D

def Connection.commit (c : Connection D) : Connection D := { c with saved := none }

def Connection.rollback (c : Connection D) : Connection D :=
  { contents := c.saved.getD c.contents, saved := none }

/-! ## Section 2: The driver -/

inductive Work (S : Type) where
  | statement (context : Option Nat) (statement : S)
  | transaction

/-- Where a call of `exclusive` is. -/
inductive Phase where
  /-- `await previous` -/
  | waiting
  /-- The callback of a transaction. -/
  | running
  /-- `return await callback()`, with a promise that has settled. -/
  | leaving
  | settled
  deriving DecidableEq

structure Call (S : Type) where
  work : Work S
  /-- The call whose promise it awaits; without one the promise is resolved. -/
  previous : Option Nat
  phase : Phase

/-- What the connection was told. -/
inductive Entry (S : Type) where
  | began (token : Nat)
  /-- BEGIN failed. -/
  | refused (token : Nat)
  | committed (token : Nat)
  | rolledBack (token : Nat)
  /-- `ticket` is the call of a statement that was queued. -/
  | ran (context : Option Nat) (ticket : Option Nat) (statement : S)

structure SQLiteDriver (D S : Type) where
  database : Connection D
  activeTransaction : Option Nat
  queued : Int
  tail : Option Nat
  calls : List (Call S)
  log : List (Entry S)

namespace SQLiteDriver

def start (contents : D) : SQLiteDriver D S :=
  { database := ⟨contents, none⟩, activeTransaction := none, queued := 0, tail := none, calls := [],
    log := [] }

variable (effect : S → D → D) (d : SQLiteDriver D S)

def ownsTransaction (context : Option Nat) : Bool :=
  d.activeTransaction.isSome && context == d.activeTransaction

def phase (i : Nat) : Option Phase := d.calls[i]?.map Call.phase

def setPhase (i : Nat) (phase : Phase) : SQLiteDriver D S :=
  { d with calls := d.calls.modify i fun call => { call with phase } }

def record (entry : Entry S) : SQLiteDriver D S := { d with log := d.log ++ [entry] }

def run (context ticket : Option Nat) (statement : S) : SQLiteDriver D S :=
  { d with
    database := { d.database with contents := effect statement d.database.contents }
    log := d.log ++ [.ran context ticket statement] }

/-- `exclusive` up to `await previous`. -/
def exclusive (work : Work S) : SQLiteDriver D S :=
  { d with
    queued := d.queued + 1
    tail := some d.calls.length
    calls := d.calls ++ [⟨work, d.tail, .waiting⟩] }

def execute (context : Option Nat) (statement : S) : SQLiteDriver D S :=
  if d.queued = 0 ∨ d.ownsTransaction context = true then d.run effect context none statement
  else d.exclusive (.statement context statement)

/-- A nested transaction is refused. -/
def transaction (context : Option Nat) : SQLiteDriver D S :=
  if d.ownsTransaction context then d else d.exclusive .transaction

/-- The promise of a call resolves when the call is over. -/
def resolved : Option Nat → Bool
  | none => true
  | some i => d.phase i == some .settled

/-- BEGIN succeeds. -/
def opened (i : Nat) : SQLiteDriver D S :=
  { d with
    database := { d.database with saved := some d.database.contents }
    activeTransaction := some i
    log := d.log ++ [.began i] }

/-- `finally` after a BEGIN that failed. -/
def refused (i : Nat) : SQLiteDriver D S :=
  { d with activeTransaction := none, log := d.log ++ [.refused i] }

def committed (i : Nat) : SQLiteDriver D S :=
  { d with
    database := d.database.commit
    activeTransaction := none
    log := d.log ++ [.committed i] }

def rolledBack (i : Nat) : SQLiteDriver D S :=
  { d with
    database := d.database.rollback
    activeTransaction := none
    log := d.log ++ [.rolledBack i] }

/-- After `await previous`. -/
def proceed (i : Nat) (work : Work S) (begins : Bool) : SQLiteDriver D S :=
  match work with
  | .statement context statement => (d.run effect context (some i) statement).setPhase i .leaving
  | .transaction =>
      -- the connection refuses a second BEGIN
      if begins && d.database.saved.isNone then (d.opened i).setPhase i .running
      else (d.refused i).setPhase i .leaving

end SQLiteDriver

/-- How the callback of a transaction ends. -/
inductive Outcome where
  | returns (commits : Bool)
  | throws
  deriving DecidableEq

namespace SQLiteDriver

/-- A COMMIT that fails is rolled back like a callback that throws. -/
def finish (d : SQLiteDriver D S) (i : Nat) (outcome : Outcome) : SQLiteDriver D S :=
  if outcome = .returns true then (d.committed i).setPhase i .leaving
  else (d.rolledBack i).setPhase i .leaving

/-- `finally` of `exclusive`. -/
def leave (d : SQLiteDriver D S) (i : Nat) : SQLiteDriver D S :=
  { d with queued := d.queued - 1 }.setPhase i .settled

end SQLiteDriver

inductive Event (S : Type) where
  | execute (context : Option Nat) (statement : S)
  | transaction (context : Option Nat)
  | proceed (i : Nat) (begins : Bool)
  | finish (i : Nat) (outcome : Outcome)
  | leave (i : Nat)

def step (effect : S → D → D) (d : SQLiteDriver D S) : Event S → Option (SQLiteDriver D S)
  | .execute context statement => some (d.execute effect context statement)
  | .transaction context => some (d.transaction context)
  | .proceed i begins =>
      match d.calls[i]? with
      | some ⟨work, previous, .waiting⟩ =>
          if d.resolved previous then some (d.proceed effect i work begins) else none
      | _ => none
  | .finish i outcome => if d.phase i = some .running then some (d.finish i outcome) else none
  | .leave i => if d.phase i = some .leaving then some (d.leave i) else none

/-! ## Section 3: The log -/

def Entry.ends (token : Nat) : Entry S → Prop
  | .committed t => t = token
  | .rolledBack t => t = token
  | _ => False

def NoEnd (token : Nat) (entries : List (Entry S)) : Prop := ∀ e ∈ entries, ¬ e.ends token

/-- Between BEGIN and the end of a transaction there are only its own statements. -/
def Isolated (log : List (Entry S)) : Prop :=
  ∀ before token between entry after,
    log = before ++ .began token :: (between ++ entry :: after) → NoEnd token between →
    entry.ends token ∨ ∃ statement, entry = .ran (some token) none statement

/-- A call that has had its turn, and which one it was. -/
def Entry.turn : Entry S → Option (Work S × Nat)
  | .began t => some (.transaction, t)
  | .refused t => some (.transaction, t)
  | .ran context (some i) statement => some (.statement context statement, i)
  | _ => none

/-- The first `k` calls have had their turns, in the order of the calls. -/
def InTurn (d : SQLiteDriver D S) (k : Nat) : Prop :=
  d.log.filterMap Entry.turn = ((d.calls.map Call.work).zipIdx).take k

/-- The statements that no ROLLBACK undid, and those since BEGIN. -/
structure Tally (S : Type) where
  kept : List S
  pending : Option (List S)

def Tally.next (t : Tally S) : Entry S → Tally S
  | .began _ => { t with pending := some [] }
  | .refused _ => t
  | .committed _ => ⟨t.kept ++ t.pending.getD [], none⟩
  | .rolledBack _ => ⟨t.kept, none⟩
  | .ran _ _ statement =>
      match t.pending with
      | none => ⟨t.kept ++ [statement], none⟩
      | some pending => ⟨t.kept, some (pending ++ [statement])⟩

def tally (log : List (Entry S)) : Tally S := log.foldl Tally.next ⟨[], none⟩

/-- What the statements make of the contents, one after the other. -/
def applied (effect : S → D → D) (contents : D) (statements : List S) : D :=
  statements.foldl (fun c s => effect s c) contents

/-! ## Section 4: Phases and queues -/

section phases
variable {d : SQLiteDriver D S}

theorem phase_setPhase (i j : Nat) (phase : Phase) :
    (d.setPhase i phase).phase j = if j = i then (d.phase i).map fun _ => phase else d.phase j := by
  simp only [SQLiteDriver.phase, SQLiteDriver.setPhase, List.getElem?_modify]
  by_cases h : i = j
  · subst h
    cases d.calls[i]? <;> simp
  · simp only [h, if_false, Ne.symm h]
    cases d.calls[j]? <;> simp

theorem phase_some {i : Nat} {phase : Phase} (h : d.phase i = some phase) : i < d.calls.length := by
  obtain ⟨call, hcall, -⟩ := Option.map_eq_some_iff.mp h
  exact (List.getElem?_eq_some_iff.mp hcall).1

theorem phase_none {i : Nat} (h : d.calls.length ≤ i) : d.phase i = none := by
  simp [SQLiteDriver.phase, h]

theorem works_setPhase (i : Nat) (phase : Phase) :
    (d.setPhase i phase).calls.map Call.work = d.calls.map Call.work := by
  refine List.ext_getElem? fun j => ?_
  simp only [SQLiteDriver.setPhase, List.getElem?_map, List.getElem?_modify]
  split <;> cases d.calls[j]? <;> rfl

end phases

/-- Calls up to `done` are over, and calls after it wait. -/
structure Queue (d : SQLiteDriver D S) (done : Nat) : Prop where
  le : done ≤ d.calls.length
  settled : ∀ i < done, d.phase i = some .settled
  current : d.phase done ≠ some .settled
  waiting : ∀ i, done < i → i < d.calls.length → d.phase i = some .waiting
  queued : d.queued = d.calls.length - done
  tail : d.tail = d.calls.length.ppred
  previous : ∀ (i : Nat) (call : Call S), d.calls[i]? = some call → call.previous = i.ppred

section queue
variable {d d' : SQLiteDriver D S} {done : Nat}

theorem Queue.congr (h : Queue d done) (hcalls : d'.calls = d.calls) (hqueued : d'.queued = d.queued)
    (htail : d'.tail = d.tail) : Queue d' done := by
  obtain ⟨hle, hsettled, hcurrent, hwaiting, hq, ht, hprevious⟩ := h
  have hphase (i : Nat) : d'.phase i = d.phase i := by simp only [SQLiteDriver.phase, hcalls]
  refine ⟨by rwa [hcalls], ?_, ?_, ?_, ?_, ?_, ?_⟩
  · simpa only [hphase] using hsettled
  · simpa only [hphase] using hcurrent
  · simpa only [hphase, hcalls] using hwaiting
  · simpa only [hqueued, hcalls] using hq
  · simpa only [htail, hcalls] using ht
  · simpa only [hcalls] using hprevious

theorem Queue.exclusive (h : Queue d done) (work : Work S) : Queue (d.exclusive work) done := by
  have hlength : (d.exclusive work).calls.length = d.calls.length + 1 := by
    simp [SQLiteDriver.exclusive]
  have hold (i : Nat) (hi : i < d.calls.length) : (d.exclusive work).phase i = d.phase i := by
    simp only [SQLiteDriver.phase, SQLiteDriver.exclusive, List.getElem?_append_left hi]
  have hnew : (d.exclusive work).phase d.calls.length = some .waiting := by
    simp [SQLiteDriver.phase, SQLiteDriver.exclusive]
  refine ⟨by have := h.le; omega, ?_, ?_, ?_, ?_, ?_, ?_⟩
  · intro i hi
    rw [hold i (by have := h.le; omega)]
    exact h.settled i hi
  · rcases Nat.lt_or_ge done d.calls.length with hlt | hge
    · rw [hold done hlt]
      exact h.current
    · rw [Nat.le_antisymm h.le hge, hnew]
      nofun
  · intro i hi hlt
    rcases Nat.lt_or_ge i d.calls.length with hold' | hge
    · rw [hold i hold']
      exact h.waiting i hi hold'
    · rw [show i = d.calls.length by omega, hnew]
  · have hq := h.queued
    rw [hlength]
    show d.queued + 1 = _
    push_cast
    omega
  · rw [hlength]
    rfl
  · intro i call hcall
    rcases Nat.lt_or_ge i d.calls.length with hlt | hge
    · refine h.previous i call ?_
      rwa [SQLiteDriver.exclusive, List.getElem?_append_left hlt] at hcall
    · have hi : i = d.calls.length := by
        have := (List.getElem?_eq_some_iff.mp hcall).1
        omega
      subst hi
      obtain rfl : ⟨work, d.tail, .waiting⟩ = call := by
        simpa [SQLiteDriver.exclusive] using hcall
      exact h.tail

/-- A call that is under way, or about to be, changes its phase. -/
theorem Queue.setPhase (h : Queue d done) {phase : Phase} (hphase : phase ≠ .settled) :
    Queue (d.setPhase done phase) done := by
  have hlength : (d.setPhase done phase).calls.length = d.calls.length := by
    simp [SQLiteDriver.setPhase]
  refine ⟨?_, ?_, ?_, ?_, ?_, ?_, ?_⟩
  · rw [hlength]
    exact h.le
  · intro i hi
    rw [phase_setPhase, if_neg (by omega)]
    exact h.settled i hi
  · rw [phase_setPhase, if_pos rfl]
    cases d.phase done <;> simp [hphase]
  · intro i hi hlt
    rw [phase_setPhase, if_neg (by omega)]
    exact h.waiting i hi (by omega)
  · rw [hlength]
    exact h.queued
  · rw [hlength]
    exact h.tail
  · intro i call hcall
    simp only [SQLiteDriver.setPhase, List.getElem?_modify] at hcall
    obtain ⟨old, hold, heq⟩ := Option.map_eq_some_iff.mp hcall
    rw [← h.previous i old hold, ← heq]
    split <;> rfl

/-- The promise that call `i` awaits is resolved only when its turn has come. -/
theorem Queue.turn (h : Queue d done) {i : Nat} {call : Call S} (hcall : d.calls[i]? = some call)
    (hphase : call.phase = .waiting) (hresolved : d.resolved call.previous = true) : i = done := by
  have hi : d.phase i = some .waiting := by simp [SQLiteDriver.phase, hcall, hphase]
  have hge : done ≤ i := by
    by_contra hlt
    rw [h.settled i (by omega)] at hi
    cases hi
  by_contra hne
  rw [h.previous i call hcall] at hresolved
  obtain ⟨j, rfl⟩ : ∃ j, i = j + 1 := ⟨i - 1, by omega⟩
  have hj : d.phase j = some .settled := by simpa [SQLiteDriver.resolved] using hresolved
  rcases Nat.lt_or_ge done j with hlt | hle
  · rw [h.waiting j hlt (phase_some hj)] at hj
    cases hj
  · obtain rfl : j = done := by omega
    exact h.current hj

theorem Queue.current_of_phase (h : Queue d done) {i : Nat} {phase : Phase}
    (hphase : d.phase i = some phase) (hwaiting : phase ≠ .waiting) (hsettled : phase ≠ .settled) :
    i = done := by
  rcases Nat.lt_trichotomy i done with hlt | heq | hgt
  · rw [h.settled i hlt] at hphase
    exact absurd (Option.some.inj hphase).symm hsettled
  · exact heq
  · rw [h.waiting i hgt (phase_some hphase)] at hphase
    exact absurd (Option.some.inj hphase).symm hwaiting

theorem Queue.leave (h : Queue d done) (hphase : d.phase done = some .leaving) :
    Queue (d.leave done) (done + 1) := by
  have hlt := phase_some hphase
  have hlength : (d.leave done).calls.length = d.calls.length := by
    simp [SQLiteDriver.leave, SQLiteDriver.setPhase]
  have hphases (i : Nat) : (d.leave done).phase i = if i = done then some .settled else d.phase i := by
    rw [SQLiteDriver.leave, phase_setPhase]
    split
    · rename_i hi
      subst hi
      show (d.phase i).map _ = _
      rw [hphase]
      rfl
    · rfl
  refine ⟨by omega, ?_, ?_, ?_, ?_, ?_, ?_⟩
  · intro i hi
    rw [hphases]
    split
    · rfl
    · exact h.settled i (by omega)
  · rw [hphases, if_neg (by omega)]
    rcases Nat.lt_or_ge (done + 1) d.calls.length with hnext | hnext
    · rw [h.waiting (done + 1) (by omega) hnext]
      nofun
    · rw [phase_none hnext]
      nofun
  · intro i hi hlt'
    rw [hphases, if_neg (by omega)]
    exact h.waiting i (by omega) (by omega)
  · have hq := h.queued
    rw [hlength]
    show d.queued - 1 = _
    push_cast
    omega
  · rw [hlength]
    exact h.tail
  · intro i call hcall
    simp only [SQLiteDriver.leave, SQLiteDriver.setPhase, List.getElem?_modify] at hcall
    obtain ⟨old, hold, heq⟩ := Option.map_eq_some_iff.mp hcall
    rw [← h.previous i old hold, ← heq]
    split <;> rfl

end queue

/-! ## Section 5: What an entry adds to the log -/

section log
variable {log : List (Entry S)} {entry : Entry S}

/-- A transaction that has begun and not ended. -/
def OpenIn (log : List (Entry S)) (token : Nat) : Prop :=
  ∃ before between, log = before ++ .began token :: between ∧ NoEnd token between

theorem tally_append : tally (log ++ [entry]) = (tally log).next entry := by
  rw [tally, List.foldl_append]
  rfl

theorem openIn_append {token : Nat} (h : OpenIn (log ++ [entry]) token) :
    entry = .began token ∨ (OpenIn log token ∧ ¬ entry.ends token) := by
  obtain ⟨before, between, hlog, hno⟩ := h
  rcases List.eq_nil_or_concat between with rfl | ⟨rest, last, rfl⟩
  · exact .inl (List.append_inj_right' hlog rfl |> List.cons.inj).1
  · rw [List.concat_eq_append, ← List.cons_append, ← List.append_assoc] at hlog
    obtain ⟨hinit, hlast⟩ := List.append_inj' hlog rfl
    rw [List.concat_eq_append] at hno
    refine .inr ⟨⟨before, rest, hinit, fun e he => hno e (List.mem_append_left _ he)⟩, ?_⟩
    rw [(List.cons.inj hlast).1]
    exact hno last (List.mem_append_right _ (List.mem_singleton_self last))

theorem Isolated.append (h : Isolated log)
    (hentry : ∀ token, OpenIn log token →
      entry.ends token ∨ ∃ statement, entry = .ran (some token) none statement) :
    Isolated (log ++ [entry]) := by
  intro before token between e after hlog hno
  rcases List.eq_nil_or_concat after with rfl | ⟨rest, last, rfl⟩
  · have hsplit : log ++ [entry] = (before ++ .began token :: between) ++ [e] := by
      rw [hlog, List.append_assoc]
      rfl
    obtain ⟨hinit, hlast⟩ := List.append_inj' hsplit rfl
    obtain rfl := (List.cons.inj hlast).1
    exact hentry token ⟨before, between, hinit, hno⟩
  · have hsplit : log ++ [entry] = (before ++ .began token :: (between ++ e :: rest)) ++ [last] := by
      rw [hlog, List.concat_eq_append, List.append_assoc]
      simp
    exact h before token between e rest (List.append_inj' hsplit rfl).1 hno

end log

/-- The statements that count so far, with the contents they make. -/
structure Counted (effect : S → D → D) (initial : D) (d : SQLiteDriver D S) : Prop where
  pending : (tally d.log).pending.isSome = d.activeTransaction.isSome
  contents : d.database.contents =
    applied effect initial ((tally d.log).kept ++ (tally d.log).pending.getD [])
  saved : d.database.saved =
    (tally d.log).pending.map fun _ => applied effect initial (tally d.log).kept

theorem applied_append (effect : S → D → D) (contents : D) (a b : List S) :
    applied effect contents (a ++ b) = applied effect (applied effect contents a) b :=
  List.foldl_append ..

section counted
variable {effect : S → D → D} {initial : D} {d : SQLiteDriver D S}

theorem Counted.run (h : Counted effect initial d) (context ticket : Option Nat) (statement : S) :
    Counted effect initial (d.run effect context ticket statement) := by
  obtain ⟨hpending, hcontents, hsaved⟩ := h
  have hlog : (d.run effect context ticket statement).log =
      d.log ++ [.ran context ticket statement] := rfl
  have hone (c : D) : effect statement c = applied effect c [statement] := rfl
  cases ht : (tally d.log).pending with
  | none =>
    simp only [ht, Option.getD_none, List.append_nil, Option.map_none] at hpending hcontents hsaved
    refine ⟨?_, ?_, ?_⟩ <;> rw [hlog, tally_append] <;> simp only [Tally.next, ht]
    · exact hpending
    · rw [List.append_assoc, applied_append, ← hcontents]
      rfl
    · exact hsaved
  | some pending =>
    simp only [ht, Option.getD_some, Option.map_some] at hpending hcontents hsaved
    refine ⟨?_, ?_, ?_⟩ <;> rw [hlog, tally_append] <;> simp only [Tally.next, ht]
    · exact hpending
    · rw [Option.getD_some, ← List.append_assoc, applied_append, ← hcontents]
      rfl
    · exact hsaved

theorem Counted.opened (h : Counted effect initial d) (i : Nat) (hfree : d.activeTransaction = none) :
    Counted effect initial (d.opened i) := by
  obtain ⟨hpending, hcontents, hsaved⟩ := h
  have hlog : (d.opened i).log = d.log ++ [.began i] := rfl
  have hnone : (tally d.log).pending = none := by simpa [hfree] using hpending
  refine ⟨?_, ?_, ?_⟩ <;> rw [hlog, tally_append] <;> simp only [Tally.next]
  · rfl
  · simpa [hnone, SQLiteDriver.opened] using hcontents
  · simpa [hnone, SQLiteDriver.opened] using hcontents

theorem Counted.refused (h : Counted effect initial d) (i : Nat) (hfree : d.activeTransaction = none) :
    Counted effect initial (d.refused i) := by
  obtain ⟨hpending, hcontents, hsaved⟩ := h
  have hlog : (d.refused i).log = d.log ++ [.refused i] := rfl
  refine ⟨?_, ?_, ?_⟩ <;> rw [hlog, tally_append] <;> simp only [Tally.next]
  · rw [hpending, hfree]
    rfl
  · exact hcontents
  · exact hsaved

theorem Counted.committed (h : Counted effect initial d) (i : Nat) :
    Counted effect initial (d.committed i) := by
  obtain ⟨hpending, hcontents, hsaved⟩ := h
  have hlog : (d.committed i).log = d.log ++ [.committed i] := rfl
  refine ⟨?_, ?_, ?_⟩ <;> rw [hlog, tally_append] <;> simp only [Tally.next]
  · rfl
  · simpa [SQLiteDriver.committed, Connection.commit] using hcontents
  · rfl

/-- ROLLBACK restores the contents without the statements since BEGIN. -/
theorem Counted.rolledBack (h : Counted effect initial d) (i : Nat)
    (hopen : d.activeTransaction.isSome) : Counted effect initial (d.rolledBack i) := by
  obtain ⟨hpending, hcontents, hsaved⟩ := h
  have hlog : (d.rolledBack i).log = d.log ++ [.rolledBack i] := rfl
  rw [hopen] at hpending
  obtain ⟨pending, hp⟩ := Option.isSome_iff_exists.mp hpending
  refine ⟨?_, ?_, ?_⟩ <;> rw [hlog, tally_append] <;> simp only [Tally.next]
  · rfl
  · simp [SQLiteDriver.rolledBack, Connection.rollback, hsaved, hp]
  · rfl

end counted

/-! ## Section 6: The invariant -/

/-- The calls that have had their turns. -/
def SQLiteDriver.turns (d : SQLiteDriver D S) (done : Nat) : Nat :=
  match d.phase done with
  | some .running => done + 1
  | some .leaving => done + 1
  | _ => done

structure Inv (effect : S → D → D) (initial : D) (d : SQLiteDriver D S) (done : Nat) : Prop where
  queue : Queue d done
  active : d.activeTransaction = if d.phase done = some .running then some done else none
  inTurn : InTurn d (d.turns done)
  openIn : ∀ token, OpenIn d.log token → d.activeTransaction = some token
  isolated : Isolated d.log
  counted : Counted effect initial d

section invariant
variable {effect : S → D → D} {initial : D} {d d' : SQLiteDriver D S} {done : Nat}

theorem inv_start : Inv effect initial (.start initial) 0 where
  queue := by
    refine ⟨Nat.le_refl 0, nofun, nofun, nofun, rfl, rfl, ?_⟩
    intro i call hcall
    cases hcall
  active := rfl
  inTurn := rfl
  openIn := fun token ⟨before, between, hlog, _⟩ => by simp [SQLiteDriver.start] at hlog
  isolated := fun before token between entry after hlog _ => by simp [SQLiteDriver.start] at hlog
  counted := ⟨rfl, rfl, rfl⟩

/-- A statement that is not queued runs in the open transaction, or there is none. -/
theorem Inv.run_now (h : Inv effect initial d done) {context : Option Nat} (statement : S)
    (hown : ∀ token, d.activeTransaction = some token → context = some token) :
    Inv effect initial (d.run effect context none statement) done where
  queue := h.queue.congr rfl rfl rfl
  active := h.active
  inTurn := by
    have hlog : (d.run effect context none statement).log.filterMap Entry.turn =
        d.log.filterMap Entry.turn := by
      simp [SQLiteDriver.run, Entry.turn]
    exact hlog.trans h.inTurn
  openIn := by
    intro token hopen
    rcases openIn_append hopen with hbegan | ⟨hopen, -⟩
    · cases hbegan
    · exact h.openIn token hopen
  isolated := by
    refine h.isolated.append fun token hopen => .inr ⟨statement, ?_⟩
    rw [hown token (h.openIn token hopen)]
  counted := h.counted.run context none statement

theorem Inv.free (h : Inv effect initial d done) (hphase : d.phase done ≠ some .running) :
    d.activeTransaction = none := by
  rw [h.active, if_neg hphase]

theorem Inv.exclusive (h : Inv effect initial d done) (work : Work S) :
    Inv effect initial (d.exclusive work) done := by
  have hphase : (d.exclusive work).phase done = d.phase done ∨
      d.phase done = none ∧ (d.exclusive work).phase done = some .waiting := by
    rcases Nat.lt_or_ge done d.calls.length with hlt | hge
    · refine .inl ?_
      simp only [SQLiteDriver.phase, SQLiteDriver.exclusive, List.getElem?_append_left hlt]
    · obtain rfl : done = d.calls.length := Nat.le_antisymm h.queue.le hge
      exact .inr ⟨phase_none (Nat.le_refl _), by simp [SQLiteDriver.phase, SQLiteDriver.exclusive]⟩
  have hturns : (d.exclusive work).turns done = d.turns done := by
    rcases hphase with heq | ⟨hnone, hwaiting⟩
    · simp only [SQLiteDriver.turns, heq]
    · simp only [SQLiteDriver.turns, hnone, hwaiting]
  have hle : d.turns done ≤ ((d.calls.map Call.work).zipIdx).length := by
    have hdone := h.queue.le
    rw [List.length_zipIdx, List.length_map]
    unfold SQLiteDriver.turns
    split
    · exact phase_some (by assumption)
    · exact phase_some (by assumption)
    · exact hdone
  refine ⟨h.queue.exclusive work, ?_, ?_, h.openIn, h.isolated, ⟨h.counted.pending,
    h.counted.contents, h.counted.saved⟩⟩
  · show d.activeTransaction = _
    rw [h.active]
    rcases hphase with heq | ⟨hnone, hwaiting⟩
    · rw [heq]
    · rw [hnone, hwaiting]
      rfl
  · have hworks : ((d.exclusive work).calls.map Call.work).zipIdx =
        (d.calls.map Call.work).zipIdx ++ [(work, d.calls.length)] := by
      simp [SQLiteDriver.exclusive, List.zipIdx_append]
    rw [InTurn, hturns, hworks, List.take_append_of_le_length hle]
    exact h.inTurn

/-- The current call goes on, with one more entry in the log. -/
theorem Inv.moved (h : Inv effect initial d done) {entry : Entry S} {phase : Phase}
    (hcalls : d'.calls = d.calls) (hqueued : d'.queued = d.queued) (htail : d'.tail = d.tail)
    (hlog : d'.log = d.log ++ [entry]) (hphase : phase = .running ∨ phase = .leaving)
    (hcall : done < d.calls.length)
    (hactive : d'.activeTransaction = if phase = .running then some done else none)
    (hturn : InTurn d' (done + 1)) (hends : ∀ token, OpenIn d.log token → entry.ends token)
    (hbegan : ∀ token, entry = .began token → d'.activeTransaction = some token)
    (hcounted : Counted effect initial d') : Inv effect initial (d'.setPhase done phase) done := by
  have hnew : (d'.setPhase done phase).phase done = some phase := by
    rw [phase_setPhase, if_pos rfl, SQLiteDriver.phase, hcalls, List.getElem?_eq_getElem hcall]
    rfl
  refine ⟨(h.queue.congr hcalls hqueued htail).setPhase (by rcases hphase with rfl | rfl <;> nofun),
    ?_, ?_, ?_, ?_, ⟨hcounted.pending, hcounted.contents, hcounted.saved⟩⟩
  · rw [hnew]
    simp only [Option.some.injEq]
    exact hactive
  · have hturns : (d'.setPhase done phase).turns done = done + 1 := by
      rcases hphase with rfl | rfl <;> simp only [SQLiteDriver.turns, hnew]
    rw [InTurn, hturns, works_setPhase]
    exact hturn
  · intro token hopen
    have hopen : OpenIn (d.log ++ [entry]) token := hlog ▸ hopen
    rcases openIn_append hopen with hb | ⟨hopen, hno⟩
    · exact hbegan token hb
    · exact absurd (hends token hopen) hno
  · show Isolated d'.log
    rw [hlog]
    exact h.isolated.append fun token hopen => .inl (hends token hopen)

/-- The entry of a call whose turn has come. -/
theorem Inv.turn_next (h : Inv effect initial d done) {entry : Entry S} {call : Call S}
    (hcall : d.calls[done]? = some call) (hphase : call.phase = .waiting)
    (hentry : entry.turn = some (call.work, done)) :
    (d.log ++ [entry]).filterMap Entry.turn = ((d.calls.map Call.work).zipIdx).take (done + 1) := by
  have hturns : d.turns done = done := by
    simp [SQLiteDriver.turns, SQLiteDriver.phase, hcall, hphase]
  have hold := h.inTurn
  rw [InTurn, hturns] at hold
  rw [List.filterMap_append, hold, List.take_add_one]
  simp [hcall, hentry]

theorem Inv.no_open (h : Inv effect initial d done) (hfree : d.activeTransaction = none)
    (token : Nat) : ¬ OpenIn d.log token := by
  intro hopen
  rw [h.openIn token hopen] at hfree
  cases hfree

theorem Inv.proceed (h : Inv effect initial d done) {call : Call S}
    (hcall : d.calls[done]? = some call) (hphase : call.phase = .waiting) (begins : Bool) :
    Inv effect initial (d.proceed effect done call.work begins) done := by
  have hlt : done < d.calls.length := (List.getElem?_eq_some_iff.mp hcall).1
  have hfree : d.activeTransaction = none := h.free (by simp [SQLiteDriver.phase, hcall, hphase])
  have hends (entry : Entry S) (token : Nat) (hopen : OpenIn d.log token) : entry.ends token :=
    absurd hopen (h.no_open hfree token)
  cases hwork : call.work with
  | statement context statement =>
    exact h.moved rfl rfl rfl rfl (.inr rfl) hlt hfree
      (h.turn_next hcall hphase (by rw [hwork]; rfl)) (hends _) nofun
      (h.counted.run context (some done) statement)
  | transaction =>
    simp only [SQLiteDriver.proceed]
    split
    · refine h.moved rfl rfl rfl rfl (.inl rfl) hlt rfl
        (h.turn_next hcall hphase (by rw [hwork]; rfl)) (hends _) ?_ (h.counted.opened done hfree)
      intro token hbegan
      cases hbegan
      rfl
    · exact h.moved rfl rfl rfl rfl (.inr rfl) hlt rfl
        (h.turn_next hcall hphase (by rw [hwork]; rfl)) (hends _) nofun
        (h.counted.refused done hfree)

theorem Inv.finish (h : Inv effect initial d done) (hphase : d.phase done = some .running)
    (outcome : Outcome) : Inv effect initial (d.finish done outcome) done := by
  have hlt := phase_some hphase
  have hactive : d.activeTransaction = some done := by rw [h.active, if_pos hphase]
  have hopen (token : Nat) (hopen : OpenIn d.log token) : done = token := by
    have := h.openIn token hopen
    rw [hactive] at this
    exact Option.some.inj this
  have hturns : d.turns done = done + 1 := by simp only [SQLiteDriver.turns, hphase]
  have hturn := h.inTurn
  rw [InTurn, hturns] at hturn
  have hlog (entry : Entry S) (hentry : entry.turn = none) :
      (d.log ++ [entry]).filterMap Entry.turn = d.log.filterMap Entry.turn := by
    simp [hentry]
  unfold SQLiteDriver.finish
  split
  · refine h.moved rfl rfl rfl rfl (.inr rfl) hlt rfl ?_ hopen nofun (h.counted.committed done)
    exact (hlog _ rfl).trans hturn
  · refine h.moved rfl rfl rfl rfl (.inr rfl) hlt rfl ?_ hopen nofun
      (h.counted.rolledBack done (by rw [hactive]; rfl))
    exact (hlog _ rfl).trans hturn

theorem Inv.leave (h : Inv effect initial d done) (hphase : d.phase done = some .leaving) :
    Inv effect initial (d.leave done) (done + 1) := by
  have hfree : d.activeTransaction = none := h.free (by rw [hphase]; nofun)
  have hqueue := h.queue.leave hphase
  have hnext : (d.leave done).phase (done + 1) = some .waiting ∨
      (d.leave done).phase (done + 1) = none := by
    rcases Nat.lt_or_ge (done + 1) (d.leave done).calls.length with hlt | hge
    · have hlt' : done + 1 < d.calls.length := by
        simpa [SQLiteDriver.leave, SQLiteDriver.setPhase] using hlt
      refine .inl ?_
      rw [SQLiteDriver.leave, phase_setPhase, if_neg (by omega)]
      exact h.queue.waiting (done + 1) (by omega) hlt'
    · exact .inr (phase_none hge)
  refine ⟨hqueue, ?_, ?_, h.openIn, h.isolated, ⟨h.counted.pending, h.counted.contents,
    h.counted.saved⟩⟩
  · show d.activeTransaction = _
    rw [hfree]
    rcases hnext with hnext | hnext <;> rw [hnext] <;> rfl
  · have hturns : d.turns done = done + 1 := by simp only [SQLiteDriver.turns, hphase]
    have hturns' : (d.leave done).turns (done + 1) = done + 1 := by
      rcases hnext with hnext | hnext <;> simp only [SQLiteDriver.turns, hnext]
    have hturn := h.inTurn
    rw [InTurn, hturns] at hturn
    rw [InTurn, hturns', SQLiteDriver.leave, works_setPhase]
    exact hturn

/-- What one event does. -/
theorem Inv.step {e : Event S} (h : Inv effect initial d done) (hstep : step effect d e = some d') :
    ∃ done', Inv effect initial d' done' := by
  cases e with
  | execute context statement =>
    obtain rfl := Option.some.inj hstep
    refine ⟨done, ?_⟩
    unfold SQLiteDriver.execute
    split
    · rename_i hnow
      refine h.run_now statement fun token hactive => ?_
      rcases hnow with hzero | hown
      · -- an empty queue has no call under way
        have hdone : done = d.calls.length := by
          have hq := h.queue.queued
          omega
        have hfree := h.free (by rw [phase_none (Nat.le_of_eq hdone.symm)]; nofun)
        rw [hfree] at hactive
        cases hactive
      · simp only [SQLiteDriver.ownsTransaction, hactive, Bool.and_eq_true, beq_iff_eq] at hown
        exact hown.2
    · exact h.exclusive _
  | transaction context =>
    obtain rfl := Option.some.inj hstep
    refine ⟨done, ?_⟩
    unfold SQLiteDriver.transaction
    split
    · exact h
    · exact h.exclusive _
  | proceed i begins =>
    simp only [SqliteDriver.step] at hstep
    split at hstep
    · rename_i work previous hcall
      split at hstep
      · rename_i hresolved
        obtain rfl := Option.some.inj hstep
        obtain rfl := h.queue.turn hcall rfl hresolved
        exact ⟨i, h.proceed hcall rfl begins⟩
      · cases hstep
    · cases hstep
  | finish i outcome =>
    simp only [SqliteDriver.step, Option.ite_none_right_eq_some, Option.some.injEq] at hstep
    obtain ⟨hphase, rfl⟩ := hstep
    obtain rfl := h.queue.current_of_phase hphase nofun nofun
    exact ⟨i, h.finish hphase outcome⟩
  | leave i =>
    simp only [SqliteDriver.step, Option.ite_none_right_eq_some, Option.some.injEq] at hstep
    obtain ⟨hphase, rfl⟩ := hstep
    obtain rfl := h.queue.current_of_phase hphase nofun nofun
    exact ⟨i + 1, h.leave hphase⟩

theorem inv_run (h : Run (step effect) Free (.start initial) d) : ∃ done, Inv effect initial d done := by
  induction h with
  | refl => exact ⟨0, inv_start⟩
  | tail _ _ hstep ih =>
    obtain ⟨done, hi⟩ := ih
    exact hi.step hstep

end invariant

/-- A queue that is not empty goes on, unless a callback is running. -/
theorem queue_moves {effect : S → D → D} {initial : D} {d : SQLiteDriver D S}
    (h : Run (step effect) Free (.start initial) d) (hqueued : d.queued ≠ 0) :
    ∃ i, d.phase i = some .running ∨ (∃ d', step effect d (.leave i) = some d') ∨
      ∀ begins, ∃ d', step effect d (.proceed i begins) = some d' := by
  obtain ⟨done, hi⟩ := inv_run h
  have hlt : done < d.calls.length := by
    have hq := hi.queue.queued
    have hle := hi.queue.le
    omega
  obtain ⟨call, hcall⟩ : ∃ call, d.calls[done]? = some call := ⟨_, List.getElem?_eq_getElem hlt⟩
  have hphase : d.phase done = some call.phase := by simp [SQLiteDriver.phase, hcall]
  obtain ⟨work, previous, phase⟩ := call
  refine ⟨done, ?_⟩
  cases phase with
  | waiting =>
    have hresolved : d.resolved previous = true := by
      have hprevious : previous = done.ppred := hi.queue.previous done _ hcall
      rw [hprevious]
      cases done with
      | zero => rfl
      | succ n => simp [SQLiteDriver.resolved, hi.queue.settled n (by omega)]
    refine .inr (.inr fun begins => ⟨d.proceed effect done work begins, ?_⟩)
    simp only [step, hcall, hresolved, if_true]
  | running => exact .inl hphase
  | leaving =>
    refine .inr (.inl ⟨d.leave done, ?_⟩)
    simp only [step, hphase, if_true]
  | settled => exact absurd hphase hi.queue.current

/-- Transactions are isolated, calls take turns, what is rolled back leaves
    nothing, and the queue empties. -/
theorem transactions_isolated (effect : S → D → D) (initial : D) {d : SQLiteDriver D S}
    (h : Run (step effect) Free (.start initial) d) :
    Isolated d.log ∧ (∃ k, InTurn d k) ∧
      (d.activeTransaction = none →
        d.database.contents = applied effect initial (tally d.log).kept) ∧
      ((∀ call ∈ d.calls, call.phase = .settled) → d.queued = 0 ∧ d.activeTransaction = none) := by
  obtain ⟨done, hi⟩ := inv_run h
  refine ⟨hi.isolated, ⟨_, hi.inTurn⟩, fun hfree => ?_, fun hsettled => ?_⟩
  · have hpending : (tally d.log).pending = none := by simpa [hfree] using hi.counted.pending
    simpa [hpending] using hi.counted.contents
  · have hdone : done = d.calls.length := by
      by_contra hne
      have hlt : done < d.calls.length := by
        have hle := hi.queue.le
        omega
      refine hi.queue.current ?_
      simp [SQLiteDriver.phase, List.getElem?_eq_getElem hlt, hsettled]
    refine ⟨?_, hi.free (by rw [phase_none (Nat.le_of_eq hdone.symm)]; nofun)⟩
    have hq := hi.queue.queued
    omega

/-- A transaction whose COMMIT fails, and a statement of another context meanwhile. -/
def failedCommit : List (Event Nat) :=
  [.transaction none, .proceed 0 true, .execute (some 0) 1, .execute none 2,
    .finish 0 (.returns false), .leave 0, .proceed 1 true, .leave 1]

theorem transactions_isolated_failed_commit : ∃ d : SQLiteDriver (List Nat) Nat,
    exec (step fun s c => c ++ [s]) (.start []) failedCommit = some d ∧ Isolated d.log ∧
      d.database.contents = [2] ∧ d.queued = 0 := by
  obtain ⟨d, hexec⟩ : ∃ d : SQLiteDriver (List Nat) Nat,
      exec (step fun s c => c ++ [s]) (.start []) failedCommit = some d := ⟨_, rfl⟩
  have h := transactions_isolated (fun s c => c ++ [s]) [] (run_of_exec hexec (admits_free _ _))
  refine ⟨d, hexec, h.1, ?_⟩
  obtain rfl := Option.some.inj hexec
  exact ⟨h.2.2.1 rfl, rfl⟩

end Cossack.Database.SqliteDriver
