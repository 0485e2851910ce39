import Cossack.Lib.Runs
import Mathlib.Data.List.Basic

/-! # Consuming a call

    `createRpcCall`: pulls wait for one another, and cancellation may come
    between any two steps of them.  What the operation does when it is pulled is
    up to the events. -/

namespace Cossack.Core.RpcCall

open Runs

/-! ## Section 1: The call -/

inductive Mode where
  | promise
  | iterator
  deriving DecidableEq

/-- How a promise is settled. -/
inductive Outcome (R E : Type) where
  | resolved (result : R)
  | rejected (error : E)

/-- What a pull gets. -/
inductive Answer (Y R E : Type) where
  | value (y : Y)
  | done (result : Option R)
  | failed (error : E)
  /-- `interruption` is thrown. -/
  | interrupted (error : E)

/-- `cancel()`'s promise.  `operation.return` is called behind the pulls there
    were at the time. -/
inductive Closing where
  | none
  | waiting (pulls : Nat) (abortFailed : Bool)
  | returning (abortFailed : Bool)
  | closed
  | failed
  deriving DecidableEq

/-- Pulls are known by their number.  They are answered in order, so the answers
    are those of the first pulls. -/
structure Call (Y R E : Type) where
  mode : Option Mode
  settled : Bool
  /-- The calls of `resolve` and `reject`. -/
  settles : List (Outcome R E)
  pulls : Nat
  answers : List (Answer Y R E)
  /-- The first pull without an answer awaits `operation.next()`. -/
  running : Bool
  interruption : Option E
  interruptionDelivered : Bool
  closing : Closing
  /-- The pull that the loop of `drive` awaits. -/
  driver : Option Nat

variable {Y R E : Type}

namespace Call

def initial : Call Y R E := ⟨none, false, [], 0, [], false, none, false, .none, none⟩

/-- A promise is settled by the first call. -/
def completion (c : Call Y R E) : Option (Outcome R E) := c.settles.head?

def answer (c : Call Y R E) (a : Answer Y R E) : Call Y R E := { c with answers := c.answers ++ [a] }

/-- The values that were delivered, in the order of the pulls that got them. -/
def values (c : Call Y R E) : List Y :=
  c.answers.filterMap fun
    | .value y => some y
    | _ => none

def interruptions (c : Call Y R E) : List E :=
  c.answers.filterMap fun
    | .interrupted error => some error
    | _ => none

/-- A call of `resolve` or `reject`. -/
def settle (c : Call Y R E) (outcome : Outcome R E) : Call Y R E :=
  { c with settled := true, settles := c.settles ++ [outcome] }

def drive (c : Call Y R E) : Call Y R E :=
  match c.mode with
  | some _ => c
  | none => { c with mode := some .promise, pulls := c.pulls + 1, driver := some c.pulls }

def cancel (c : Call Y R E) (error : E) (abortFailed : Bool) : Call Y R E :=
  if c.closing ≠ .none ∨ c.settled then c
  else
    { c.settle (.rejected error) with
      interruption := some error, closing := .waiting c.pulls abortFailed }

end Call

/-- How `operation.next()` settles. -/
inductive Arrival (Y R E : Type) where
  | yielded (y : Y)
  | returned (result : R)
  | threw (error : E)

inductive Event (Y R E : Type) where
  /-- `next()` of the iterator. -/
  | next
  | asyncIterator
  /-- The microtask, or a use of the call as a promise. -/
  | drive
  /-- The first pull without an answer gets its turn. -/
  | turn
  | arrive (arrival : Arrival Y R E)
  /-- `cancel()`, the iterator's `return()`, or an abort from outside, with the
      error it is given. -/
  | cancel (error : E) (abortFailed : Bool)
  /-- The loop of `drive` sees what its pull got. -/
  | drained
  | close
  /-- `operation.return` settles. -/
  | closed (ok : Bool)

namespace Call

/-- The rest of a pull, once `operation.next()` has settled. -/
def arrive (c : Call Y R E) (arrival : Arrival Y R E) : Call Y R E :=
  let c := { c with running := false }
  match c.interruption with
  | some error =>
      { c.settle (.rejected error) with interruptionDelivered := true }.answer (.interrupted error)
  | none =>
      match arrival with
      | .yielded y => c.answer (.value y)
      | .returned result => (c.settle (.resolved result)).answer (.done (some result))
      | .threw error => (c.settle (.rejected error)).answer (.failed error)

/-- The beginning of a pull, when the one before it has its answer. -/
def turn (c : Call Y R E) : Call Y R E :=
  if c.settled then
    match c.interruption with
    | some error =>
        if c.interruptionDelivered then c.answer (.done none)
        else { c with interruptionDelivered := true }.answer (.interrupted error)
    | none => c.answer (.done none)
  else { c with running := true }

/-- A pull has neither its answer nor its turn. -/
def waiting (c : Call Y R E) : Bool := !c.running && c.answers.length < c.pulls

end Call

def step (c : Call Y R E) : Event Y R E → Option (Call Y R E)
  | .next => if c.mode = some .iterator then some { c with pulls := c.pulls + 1 } else none
  | .asyncIterator =>
      -- a second consumer throws
      match c.mode with
      | some _ => some c
      | none => some { c with mode := some .iterator }
  | .drive => some c.drive
  | .turn => if c.waiting then some c.turn else none
  | .arrive arrival => if c.running then some (c.arrive arrival) else none
  | .cancel error abortFailed => some (c.cancel error abortFailed)
  | .drained =>
      match c.driver.bind fun pull => c.answers[pull]? with
      | none => none
      | some (.value _) => some { c with pulls := c.pulls + 1, driver := some c.pulls }
      | some _ => some { c with driver := none }
  | .close =>
      match c.closing with
      | .waiting pulls abortFailed =>
          if pulls ≤ c.answers.length then some { c with closing := .returning abortFailed } else none
      | _ => none
  | .closed ok =>
      match c.closing with
      | .returning abortFailed =>
          some { c with closing := if ok && !abortFailed then .closed else .failed }
      | _ => none

/-! ## Section 2: What a call keeps -/

structure Inv (c : Call Y R E) : Prop where
  answered : c.answers.length ≤ c.pulls
  running : c.running = true → c.answers.length < c.pulls
  settled : c.settled = true ↔ c.settles ≠ []
  /-- Only an interruption settles a call while the operation is pulled. -/
  pulled : c.running = true → c.settled = true → c.interruption.isSome = true
  interrupted : ∀ error, c.interruption = some error → c.completion = some (.rejected error)
  /-- A later call of `resolve` or `reject` says the same as the first. -/
  agree : ∀ outcome ∈ c.settles, c.completion = some outcome
  delivered : c.interruptionDelivered = true → c.running = false ∧ c.settled = true
  once : c.interruptions.length = if c.interruptionDelivered then 1 else 0
  closing : c.closing ≠ .none → c.settled = true

variable {c c' : Call Y R E}

theorem inv_initial : Inv (Call.initial : Call Y R E) :=
  ⟨Nat.le_refl 0, nofun, by simp [Call.initial], nofun, nofun, nofun, nofun, rfl, by simp [Call.initial]⟩

namespace Call

theorem interruptions_answer (c : Call Y R E) (a : Answer Y R E) :
    (c.answer a).interruptions =
      c.interruptions ++ (match a with | .interrupted error => [error] | _ => []) := by
  cases a <;> simp [answer, interruptions]

theorem values_answer (c : Call Y R E) (a : Answer Y R E) :
    (c.answer a).values = c.values ++ (match a with | .value y => [y] | _ => []) := by
  cases a <;> simp [answer, values]

/-- The first call of `resolve` or `reject`. -/
theorem completion_settle (h : c.settles = []) (outcome : Outcome R E) :
    (c.settle outcome).completion = some outcome := by
  simp [completion, settle, h]

theorem completion_settle_again {first : Outcome R E} (h : c.completion = some first)
    (outcome : Outcome R E) : (c.settle outcome).completion = some first := by
  simp only [completion] at h
  simp [completion, settle, h]

end Call

theorem Inv.unsettled (h : Inv c) (hc : c.settled = false) :
    c.settles = [] ∧ c.interruption = none ∧ c.interruptionDelivered = false := by
  have hnil : c.settles = [] := by
    by_contra hne
    rw [h.settled.mpr hne] at hc
    cases hc
  refine ⟨hnil, ?_, ?_⟩
  · rcases hi : c.interruption with _ | error
    · rfl
    · have hcompletion := h.interrupted error hi
      rw [Call.completion, hnil] at hcompletion
      cases hcompletion
  · rcases hd : c.interruptionDelivered with _ | _
    · rfl
    · rw [(h.delivered hd).2] at hc
      cases hc

/-- The first settlement. -/
theorem Inv.settle (h : Inv c) (hc : c.settled = false) (hrunning : c.running = false)
    (outcome : Outcome R E) : Inv (c.settle outcome) := by
  obtain ⟨hnil, hinterruption, hdelivered⟩ := h.unsettled hc
  have hcompletion := Call.completion_settle hnil outcome
  refine ⟨h.answered, h.running, by simp [Call.settle], ?_, ?_, ?_, ?_, h.once, fun _ => rfl⟩
  · intro hr
    rw [show (c.settle outcome).running = c.running from rfl, hrunning] at hr
    cases hr
  · intro error herror
    rw [show (c.settle outcome).interruption = c.interruption from rfl, hinterruption] at herror
    cases herror
  · intro o ho
    rw [hcompletion]
    simpa [Call.settle, hnil, eq_comm] using ho
  · intro hd
    rw [show (c.settle outcome).interruptionDelivered = c.interruptionDelivered from rfl,
      hdelivered] at hd
    cases hd

/-- An answer that is no interruption. -/
theorem Inv.answer (h : Inv c) (hrunning : c.running = false) (hlt : c.answers.length < c.pulls)
    {a : Answer Y R E} (ha : ∀ error, a ≠ .interrupted error) : Inv (c.answer a) := by
  have honce : (c.answer a).interruptions = c.interruptions := by
    rw [Call.interruptions_answer]
    cases a with
    | interrupted error => exact absurd rfl (ha error)
    | _ => simp
  refine ⟨?_, ?_, h.settled, ?_, h.interrupted, h.agree, h.delivered, ?_, h.closing⟩
  · simpa [Call.answer] using Nat.succ_le_of_lt hlt
  · intro hr
    rw [show (c.answer a).running = c.running from rfl, hrunning] at hr
    cases hr
  · intro hr
    rw [show (c.answer a).running = c.running from rfl, hrunning] at hr
    cases hr
  · rw [honce]
    exact h.once

/-- The answer that is the interruption. -/
theorem Inv.interrupt (h : Inv c) (hrunning : c.running = false) (hlt : c.answers.length < c.pulls)
    (hsettled : c.settled = true) (hdelivered : c.interruptionDelivered = false) (error : E) :
    Inv ({ c with interruptionDelivered := true }.answer (.interrupted error)) := by
  refine ⟨?_, ?_, h.settled, ?_, h.interrupted, h.agree, fun _ => ⟨hrunning, hsettled⟩, ?_,
    h.closing⟩
  · simpa [Call.answer] using Nat.succ_le_of_lt hlt
  · intro hr
    exact absurd (hrunning.symm.trans hr) (by simp)
  · intro hr
    exact absurd (hrunning.symm.trans hr) (by simp)
  · have honce := h.once
    rw [hdelivered] at honce
    rw [Call.interruptions_answer, List.length_append]
    show (Call.interruptions { c with interruptionDelivered := true }).length + 1 = 1
    have hsame : Call.interruptions { c with interruptionDelivered := true } = c.interruptions := rfl
    rw [hsame, honce]
    rfl

/-- A settlement that says the same again. -/
theorem Inv.resettle (h : Inv c) {outcome : Outcome R E} (hc : c.completion = some outcome) :
    Inv (c.settle outcome) := by
  have hcompletion := Call.completion_settle_again hc outcome
  have hsettled : c.settled = true := by
    apply h.settled.mpr
    intro hnil
    rw [Call.completion, hnil] at hc
    cases hc
  refine ⟨h.answered, h.running, by simp [Call.settle], ?_, ?_, ?_, ?_, h.once, fun _ => rfl⟩
  · intro hr _
    exact h.pulled hr hsettled
  · intro error herror
    rw [hcompletion, ← hc]
    exact h.interrupted error herror
  · intro o ho
    rcases List.mem_append.mp ho with hold | hnew
    · rw [hcompletion, ← hc]
      exact h.agree o hold
    · rw [hcompletion, List.mem_singleton.mp hnew]
  · intro hd
    exact ⟨(h.delivered hd).1, rfl⟩

/-- `operation.next()` has settled. -/
theorem Inv.stopped (h : Inv c) (hrunning : c.running = true) :
    Inv { c with running := false } ∧ c.interruptionDelivered = false := by
  have hdelivered : c.interruptionDelivered = false := by
    rcases hd : c.interruptionDelivered with _ | _
    · rfl
    · rw [(h.delivered hd).1] at hrunning
      cases hrunning
  refine ⟨⟨h.answered, nofun, h.settled, nofun, h.interrupted, h.agree, ?_, h.once, h.closing⟩,
    hdelivered⟩
  intro hd
  exact ⟨rfl, (h.delivered hd).2⟩

theorem Inv.arrive (h : Inv c) (hrunning : c.running = true) (arrival : Arrival Y R E) :
    Inv (c.arrive arrival) := by
  obtain ⟨hstopped, hdelivered⟩ := h.stopped hrunning
  have hlt := h.running hrunning
  unfold Call.arrive
  simp only
  split
  · rename_i error hinterruption
    have hsettle := hstopped.resettle (h.interrupted error hinterruption)
    exact hsettle.interrupt rfl hlt rfl hdelivered error
  · rename_i hinterruption
    have hunsettled : c.settled = false := by
      rcases hs : c.settled with _ | _
      · rfl
      · have hsome := h.pulled hrunning hs
        rw [hinterruption] at hsome
        cases hsome
    split
    · exact hstopped.answer rfl hlt nofun
    · exact (hstopped.settle hunsettled rfl _).answer rfl hlt nofun
    · exact (hstopped.settle hunsettled rfl _).answer rfl hlt nofun

theorem Inv.turn (h : Inv c) (hwaiting : c.waiting = true) : Inv c.turn := by
  simp only [Call.waiting, Bool.and_eq_true, Bool.not_eq_true', decide_eq_true_eq] at hwaiting
  obtain ⟨hrunning, hlt⟩ := hwaiting
  unfold Call.turn
  split
  · rename_i hsettled
    split
    · rename_i error _
      split
      · exact h.answer hrunning hlt nofun
      · rename_i hdelivered
        exact h.interrupt hrunning hlt hsettled (by simpa using hdelivered) error
    · exact h.answer hrunning hlt nofun
  · rename_i hsettled
    refine ⟨h.answered, fun _ => hlt, h.settled, ?_, h.interrupted, h.agree, ?_, h.once, h.closing⟩
    · intro _ hs
      exact absurd hs hsettled
    · intro hd
      exact absurd (h.delivered hd).2 hsettled

theorem Inv.cancel (h : Inv c) (error : E) (abortFailed : Bool) :
    Inv (c.cancel error abortFailed) := by
  unfold Call.cancel
  split
  · exact h
  · rename_i hopen
    have hunsettled : c.settled = false := by simpa using (not_or.mp hopen).2
    obtain ⟨hnil, -, hdelivered⟩ := h.unsettled hunsettled
    have hcompletion := Call.completion_settle hnil (.rejected error)
    refine ⟨h.answered, h.running, by simp [Call.settle], fun _ _ => rfl, ?_, ?_, ?_, h.once,
      fun _ => rfl⟩
    · intro e he
      cases he
      exact hcompletion
    · intro o ho
      show (c.settle (.rejected error)).completion = some o
      rw [hcompletion]
      simpa [Call.settle, hnil, eq_comm] using ho
    · intro hd
      exact absurd (hdelivered.symm.trans hd) (by simp)

/-- More pulls, and changes that no pull sees. -/
theorem Inv.pull (h : Inv c) (mode : Option Mode) {pulls : Nat} (hle : c.pulls ≤ pulls)
    {closing : Closing} (hclosing : closing ≠ .none → c.closing ≠ .none) (driver : Option Nat) :
    Inv { c with mode := mode, pulls := pulls, closing := closing, driver := driver } :=
  ⟨Nat.le_trans h.answered hle, fun hr => Nat.lt_of_lt_of_le (h.running hr) hle, h.settled,
    h.pulled, h.interrupted, h.agree, h.delivered, h.once, fun hc => h.closing (hclosing hc)⟩

theorem Inv.step (h : Inv c) {e : Event Y R E} (hstep : step c e = some c') : Inv c' := by
  cases e with
  | next =>
    simp only [RpcCall.step] at hstep
    split at hstep
    · cases hstep
      exact h.pull _ (Nat.le_succ _) id _
    · cases hstep
  | asyncIterator =>
    simp only [RpcCall.step] at hstep
    split at hstep
    · cases hstep
      exact h
    · cases hstep
      exact h.pull _ (Nat.le_refl _) id _
  | drive =>
    simp only [RpcCall.step, Call.drive] at hstep
    split at hstep
    · cases hstep
      exact h
    · cases hstep
      exact h.pull _ (Nat.le_succ _) id _
  | turn =>
    simp only [RpcCall.step] at hstep
    split at hstep
    · rename_i hwaiting
      cases hstep
      exact h.turn hwaiting
    · cases hstep
  | arrive arrival =>
    simp only [RpcCall.step] at hstep
    split at hstep
    · rename_i hrunning
      cases hstep
      exact h.arrive hrunning arrival
    · cases hstep
  | cancel error abortFailed =>
    cases hstep
    exact h.cancel error abortFailed
  | drained =>
    simp only [RpcCall.step] at hstep
    split at hstep
    · cases hstep
    · cases hstep
      exact h.pull _ (Nat.le_succ _) id _
    · cases hstep
      exact h.pull _ (Nat.le_refl _) id _
  | close =>
    simp only [RpcCall.step] at hstep
    split at hstep
    · rename_i hclosing
      split at hstep
      · cases hstep
        exact h.pull _ (Nat.le_refl _) (by simp [hclosing]) _
      · cases hstep
    · cases hstep
  | closed ok =>
    simp only [RpcCall.step] at hstep
    split at hstep
    · rename_i hclosing
      cases hstep
      exact h.pull _ (Nat.le_refl _) (by simp [hclosing]) _
    · cases hstep

/-! ## Section 3: Runs -/

/-- What ends a call. -/
def Event.ends : Event Y R E → Bool
  | .arrive (.returned _) | .arrive (.threw _) | .cancel _ _ => true
  | _ => false

/-- The values the operation yields. -/
def Event.yielded : Event Y R E → Option Y
  | .arrive (.yielded y) => some y
  | _ => none

/-- What a step adds to what the consumers of a call have seen. -/
structure Grows (c : Call Y R E) (e : Event Y R E) (c' : Call Y R E) : Prop where
  settles : c.settles <+: c'.settles
  settled : c'.settled = (c.settled || e.ends)
  answers : c.answers <+: c'.answers
  values : c'.values = c.values ++ if c.settled then [] else e.yielded.toList

/-- A step that no pull and no promise sees. -/
theorem Grows.unseen {e : Event Y R E} (hsettles : c'.settles = c.settles)
    (hsettled : c'.settled = c.settled) (hanswers : c'.answers = c.answers)
    (hends : e.ends = false) (hyielded : e.yielded = none) : Grows c e c' := by
  refine ⟨?_, ?_, ?_, ?_⟩
  · exact hsettles ▸ List.prefix_refl _
  · rw [hsettled, hends, Bool.or_false]
  · exact hanswers ▸ List.prefix_refl _
  · simp [Call.values, hanswers, hyielded]

theorem Inv.grows_arrive (h : Inv c) (hrunning : c.running = true) (arrival : Arrival Y R E) :
    Grows c (.arrive arrival) (c.arrive arrival) := by
  unfold Call.arrive
  simp only
  split
  · rename_i error hinterruption
    have hsettled : c.settled = true := by
      apply h.settled.mpr
      intro hnil
      have hcompletion := h.interrupted error hinterruption
      rw [Call.completion, hnil] at hcompletion
      cases hcompletion
    refine ⟨List.prefix_append _ _, ?_, List.prefix_append _ _, ?_⟩
    · rw [hsettled]
      rfl
    · rw [hsettled, Call.values_answer]
      rfl
  · rename_i hinterruption
    have hunsettled : c.settled = false := by
      rcases hs : c.settled with _ | _
      · rfl
      · have hsome := h.pulled hrunning hs
        rw [hinterruption] at hsome
        cases hsome
    split
    · refine ⟨List.prefix_refl _, ?_, List.prefix_append _ _, ?_⟩
      · show c.settled = _
        rw [hunsettled]
        rfl
      · rw [hunsettled, Call.values_answer]
        rfl
    · refine ⟨List.prefix_append _ _, ?_, List.prefix_append _ _, ?_⟩
      · rw [hunsettled]
        rfl
      · rw [hunsettled, Call.values_answer]
        rfl
    · refine ⟨List.prefix_append _ _, ?_, List.prefix_append _ _, ?_⟩
      · rw [hunsettled]
        rfl
      · rw [hunsettled, Call.values_answer]
        rfl

/-- An answer that a pull finds when its turn comes. -/
theorem grows_turn (c : Call Y R E) : Grows c .turn c.turn := by
  have hanswer : ∀ (d : Call Y R E) a, d.settles = c.settles → d.settled = c.settled →
      d.answers = c.answers → (∀ y, a ≠ .value y) → Grows c .turn (d.answer a) := by
    intro d a hsettles hsettled hanswers ha
    have hvalues : d.values = c.values := by simp [Call.values, hanswers]
    refine ⟨?_, ?_, ?_, ?_⟩
    · show c.settles <+: d.settles
      exact hsettles ▸ List.prefix_refl _
    · show d.settled = _
      rw [hsettled]
      exact (Bool.or_false _).symm
    · show c.answers <+: d.answers ++ [a]
      rw [hanswers]
      exact List.prefix_append _ _
    · rw [Call.values_answer, hvalues]
      cases a with
      | value y => exact absurd rfl (ha y)
      | _ => simp [Event.yielded]
  unfold Call.turn
  split
  · split
    · split
      · exact hanswer c _ rfl rfl rfl nofun
      · exact hanswer { c with interruptionDelivered := true } _ rfl rfl rfl nofun
    · exact hanswer c _ rfl rfl rfl nofun
  · exact .unseen rfl rfl rfl rfl rfl

theorem Inv.grows_cancel (h : Inv c) (error : E) (abortFailed : Bool) :
    Grows c (.cancel error abortFailed) (c.cancel error abortFailed) := by
  unfold Call.cancel
  split
  · rename_i hclosed
    have hsettled : c.settled = true := hclosed.elim h.closing id
    refine ⟨List.prefix_refl _, ?_, List.prefix_refl _, ?_⟩
    · rw [hsettled]
      rfl
    · simp [Event.yielded]
  · rename_i hopen
    have hunsettled : c.settled = false := by simpa using (not_or.mp hopen).2
    refine ⟨List.prefix_append _ _, ?_, List.prefix_refl _, ?_⟩
    · rw [hunsettled]
      rfl
    · simp [Call.values, Call.settle, Event.yielded]

theorem Inv.grows (h : Inv c) {e : Event Y R E} (hstep : RpcCall.step c e = some c') :
    Grows c e c' := by
  cases e with
  | turn =>
    simp only [RpcCall.step] at hstep
    split at hstep
    · cases hstep
      exact grows_turn c
    · cases hstep
  | arrive arrival =>
    simp only [RpcCall.step] at hstep
    split at hstep
    · rename_i hrunning
      cases hstep
      exact h.grows_arrive hrunning arrival
    · cases hstep
  | cancel error abortFailed =>
    cases hstep
    exact h.grows_cancel error abortFailed
  | next =>
    simp only [RpcCall.step] at hstep
    split at hstep <;> cases hstep
    exact .unseen rfl rfl rfl rfl rfl
  | asyncIterator | drive =>
    simp only [RpcCall.step, Call.drive] at hstep
    split at hstep <;> cases hstep <;> exact .unseen rfl rfl rfl rfl rfl
  | drained =>
    simp only [RpcCall.step] at hstep
    split at hstep <;> cases hstep <;> exact .unseen rfl rfl rfl rfl rfl
  | close =>
    simp only [RpcCall.step] at hstep
    split at hstep
    · split at hstep <;> cases hstep
      exact .unseen rfl rfl rfl rfl rfl
    · cases hstep
  | closed ok =>
    simp only [RpcCall.step] at hstep
    split at hstep <;> cases hstep
    exact .unseen rfl rfl rfl rfl rfl

/-- What a run adds to what the consumers of a call have seen. -/
structure Ran (c : Call Y R E) (events : List (Event Y R E)) (c' : Call Y R E) : Prop where
  inv : Inv c'
  settles : c.settles <+: c'.settles
  settled : c'.settled = (c.settled || events.any Event.ends)
  answers : c.answers <+: c'.answers
  /-- Values are taken as they arrive, up to the end of the call. -/
  values : ∃ taken, c'.values = c.values ++ taken ∧ taken <+: events.filterMap Event.yielded ∧
    (c.settled = true → taken = [])

theorem Inv.ran (h : Inv c) {events : List (Event Y R E)} (hrun : exec RpcCall.step c events = some c') :
    Ran c events c' := by
  induction events generalizing c with
  | nil =>
    cases hrun
    refine ⟨h, List.prefix_refl _, (Bool.or_false _).symm, List.prefix_refl _, [], ?_⟩
    exact ⟨(List.append_nil _).symm, List.prefix_refl _, fun _ => rfl⟩
  | cons e rest ih =>
    obtain ⟨d, hstep, hrest⟩ := Option.bind_eq_some_iff.mp hrun
    obtain ⟨hsettles, hsettled, hanswers, hvalues⟩ := h.grows hstep
    obtain ⟨hinv, hsettles', hsettled', hanswers', taken, htaken, hprefix, hnone⟩ :=
      ih (h.step hstep) hrest
    refine ⟨hinv, hsettles.trans hsettles', ?_, hanswers.trans hanswers', ?_⟩
    · rw [hsettled', hsettled, List.any_cons, Bool.or_assoc]
    · rw [hvalues] at htaken
      cases hs : c.settled with
      | true =>
        have hd : d.settled = true := by
          rw [hsettled, hs]
          rfl
        refine ⟨[], ?_, List.nil_prefix, fun _ => rfl⟩
        simpa [hs, hnone hd] using htaken
      | false =>
        refine ⟨e.yielded.toList ++ taken, ?_, ?_, nofun⟩
        · simpa [hs] using htaken
        · cases hy : e.yielded with
          | none => simpa [List.filterMap_cons, hy] using hprefix
          | some y => simpa [List.filterMap_cons, hy] using hprefix

/-- Pulls by hand: one is under way and another waits when the call is
    cancelled. -/
def cancelledPulls : List (Event Nat Nat String) :=
  [.asyncIterator, .next, .next, .next, .turn, .arrive (.yielded 7), .turn,
    .cancel "cancelled" false, .arrive (.yielded 8), .turn]

end Cossack.Core.RpcCall
