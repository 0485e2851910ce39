import Mathlib.Data.List.Basic
import Cossack.Lib.Runs

/-! # Tasks for a single use

    Concurrent calls want to execute one task that may be executed once.  A
    token stands for the right to it.  A call starts when the token is there,
    makes its checks one after the other, takes the token with the last of them
    and then executes the task step by step; the other calls go on between any
    two steps.

    Nothing stops a call from making its last check after the token is gone.
    The two rules below are about the runs in which no call does, and about
    tasks that may be executed side by side. -/

namespace SingleUse

open Runs

variable {S X L F : Type}

/-! ## Section 1: Tasks and their calls -/

/-- A task over the shared state `S`: whether a call may start at all, the
    checks, the first state of its execution (`none`: nothing to execute) and a
    step of it, which writes entries of the log.  What happens to the awaited
    operation is an `F`. -/
structure Task (S X L F : Type) where
  admits : Bool
  checks : List (S → F → Bool)
  first : Option X
  step : S → X → F → S × List L × Option X

inductive Call (X : Type) where
  | checking (passed : Nat)
  | executing (x : X)
  | finished

def Call.ofOption : Option X → Call X
  | none => .finished
  | some x => .executing x

structure State (S X L : Type) where
  shared : S
  token : Bool
  calls : List (Call X)
  log : List L

def State.initial (start : S) : State S X L := ⟨start, true, [], []⟩

inductive Event (F : Type) where
  | begin
  | resume (call : Nat) (f : F)

/-- A new call, or one step of a call. -/
def Task.next (t : Task S X L F) (s : State S X L) : Event F → Option (State S X L)
  | .begin =>
      some { s with calls := s.calls ++ [if s.token && t.admits then .checking 0 else .finished] }
  | .resume i f =>
      match s.calls[i]? with
      | some (.checking passed) =>
          match t.checks[passed]? with
          | none => none
          | some check =>
              if check s.shared f then
                if passed + 1 = t.checks.length then
                  some { s with token := false, calls := s.calls.set i (.ofOption t.first) }
                else some { s with calls := s.calls.set i (.checking (passed + 1)) }
              else some { s with calls := s.calls.set i .finished }
      | some (.executing x) =>
          let result := t.step s.shared x f
          some { s with
            shared := result.1
            log := s.log ++ result.2.1
            calls := s.calls.set i (.ofOption result.2.2) }
      | _ => none

/-- The call passes its last check, and goes on to take the token. -/
def Task.Takes (t : Task S X L F) (s : State S X L) (i : Nat) (f : F) : Prop :=
  ∃ passed check, s.calls[i]? = some (.checking passed) ∧ t.checks[passed]? = some check ∧
    check s.shared f = true ∧ passed + 1 = t.checks.length

/-- A call takes the token only while it is there, unless the task is
    `shareable`; an execution goes on only where it `may`. -/
def Task.Allowed (t : Task S X L F) (shareable : Prop) (may : S → X → Prop) (s : State S X L) :
    Event F → Prop
  | .begin => True
  | .resume i f =>
      (t.Takes s i f → s.token = true ∨ shareable) ∧
        ∀ x, s.calls[i]? = some (Call.executing x) → may s.shared x

theorem allowed_exclusive {t : Task S X L F} {shareable : Prop} {may : S → X → Prop}
    {s u : State S X L} (hnot : ¬ shareable) (h : Run t.next (t.Allowed shareable may) s u) :
    Run t.next (t.Allowed False may) s u := by
  apply h.mono
  intro v e hallowed
  cases e with
  | begin => trivial
  | resume i f =>
    exact ⟨fun htakes => .inl ((hallowed.1 htakes).resolve_right hnot), hallowed.2⟩

/-- A call that executes already takes no token. -/
theorem allowed_executing {t : Task S X L F} {shareable : Prop} {may : S → X → Prop}
    {s : State S X L} {i : Nat} {x : X} (hcall : s.calls[i]? = some (.executing x))
    (hmay : may s.shared x) (f : F) : t.Allowed shareable may s (.resume i f) := by
  refine ⟨fun htakes => ?_, fun y hy => ?_⟩
  · obtain ⟨k, check, hchecking, -⟩ := htakes
    rw [hcall] at hchecking
    cases hchecking
  · rw [hcall] at hy
    cases hy
    exact hmay

/-! ## Section 2: What a step does -/

/-- The steps of a call, with their guards. -/
inductive Stepped (t : Task S X L F) (s : State S X L) : Event F → State S X L → Prop
  | begin (c : Call X) (hc : c = .finished ∨ c = .checking 0 ∧ s.token = true ∧ t.admits = true) :
      Stepped t s .begin { s with calls := s.calls ++ [c] }
  | rejected (i : Nat) (f : F) :
      Stepped t s (.resume i f) { s with calls := s.calls.set i .finished }
  | passed (i : Nat) (f : F) (k : Nat) (check : S → F → Bool)
      (hcall : s.calls[i]? = some (.checking k)) (hcheck : t.checks[k]? = some check)
      (hpass : check s.shared f = true) :
      Stepped t s (.resume i f) { s with calls := s.calls.set i (.checking (k + 1)) }
  | took (i : Nat) (f : F) (k : Nat) (check : S → F → Bool)
      (hcall : s.calls[i]? = some (.checking k)) (hcheck : t.checks[k]? = some check)
      (hpass : check s.shared f = true) (hlast : k + 1 = t.checks.length) :
      Stepped t s (.resume i f)
        { s with token := false, calls := s.calls.set i (.ofOption t.first) }
  | executed (i : Nat) (f : F) (x : X) (hcall : s.calls[i]? = some (Call.executing x)) :
      Stepped t s (.resume i f)
        { s with
          shared := (t.step s.shared x f).1
          log := s.log ++ (t.step s.shared x f).2.1
          calls := s.calls.set i (.ofOption (t.step s.shared x f).2.2) }

theorem next_stepped {t : Task S X L F} {s s' : State S X L} {e : Event F}
    (h : t.next s e = some s') : Stepped t s e s' := by
  cases e with
  | begin =>
    cases h
    apply Stepped.begin
    by_cases hadmits : (s.token && t.admits) = true
    · rw [if_pos hadmits]
      exact .inr ⟨rfl, Bool.and_eq_true_iff.mp hadmits⟩
    · rw [if_neg hadmits]
      exact .inl rfl
  | resume i f =>
    unfold Task.next at h
    cases hcall : s.calls[i]? with
    | none =>
      simp only [hcall] at h
      cases h
    | some c =>
      simp only [hcall] at h
      cases c with
      | finished => cases h
      | executing x =>
        cases h
        exact .executed i f x hcall
      | checking k =>
        cases hcheck : t.checks[k]? with
        | none =>
          simp only [hcheck] at h
          cases h
        | some check =>
          simp only [hcheck] at h
          by_cases hpass : check s.shared f = true
          · rw [if_pos hpass] at h
            by_cases hlast : k + 1 = t.checks.length
            · rw [if_pos hlast] at h
              cases h
              exact .took i f k check hcall hcheck hpass hlast
            · rw [if_neg hlast] at h
              cases h
              exact .passed i f k check hcall hcheck hpass
          · rw [if_neg hpass] at h
            cases h
            exact .rejected i f

theorem executing_mem_set {calls : List (Call X)} {i : Nat} {x : X} {next : Option X}
    (h : Call.executing x ∈ calls.set i (.ofOption next)) :
    Call.executing x ∈ calls ∨ next = some x := by
  rcases List.mem_or_eq_of_mem_set h with hmem | heq
  · exact .inl hmem
  · cases next with
    | none => cases heq
    | some y =>
      cases heq
      exact .inr rfl

/-! ## Section 3: Before the token is taken -/

/-- Nothing has happened to the shared state, and whatever a call has checked
    holds there. -/
structure Untouched (t : Task S X L F) (start : S) (s : State S X L) : Prop where
  shared : s.shared = start
  log : s.log = []
  waiting : ∀ x, .executing x ∉ s.calls
  admits : ∀ k, .checking k ∈ s.calls → t.admits = true
  passed : ∀ k, .checking k ∈ s.calls → ∀ check ∈ t.checks.take k, ∃ f, check start f = true

/-- A check that follows passed checks and passes. -/
theorem passed_succ {t : Task S X L F} {start : S} {k : Nat} {check : S → F → Bool} {f : F}
    (hearlier : ∀ check ∈ t.checks.take k, ∃ f, check start f = true)
    (hcheck : t.checks[k]? = some check) (hpass : check start f = true) :
    ∀ check ∈ t.checks.take (k + 1), ∃ f, check start f = true := by
  intro other hother
  rw [List.take_add_one, hcheck, Option.toList_some, List.mem_append, List.mem_singleton] at hother
  rcases hother with hmem | rfl
  · exact hearlier other hmem
  · exact ⟨f, hpass⟩

theorem untouched_next {t : Task S X L F} {start : S} {s s' : State S X L} {e : Event F}
    (hs : s.token = true → Untouched t start s) (h : t.next s e = some s') :
    s'.token = true → Untouched t start s' := by
  intro htoken
  cases next_stepped h with
  | begin c hc =>
    have hold := hs htoken
    rcases hc with rfl | ⟨rfl, -, hadmits⟩
    · exact ⟨hold.shared, hold.log, fun x hx => hold.waiting x (by simpa using hx),
        fun k hk => hold.admits k (by simpa using hk), fun k hk => hold.passed k (by simpa using hk)⟩
    · refine ⟨hold.shared, hold.log, fun x hx => hold.waiting x (by simpa using hx),
        fun k hk => hadmits, fun k hk => ?_⟩
      rcases List.mem_append.mp hk with hmem | hnew
      · exact hold.passed k hmem
      · cases List.mem_singleton.mp hnew
        intro check hcheck
        cases hcheck
  | rejected i f =>
    have hold := hs htoken
    have hmem : ∀ c, c ∈ s.calls.set i .finished → c ∈ s.calls ∨ c = .finished := fun c hc =>
      List.mem_or_eq_of_mem_set hc
    exact ⟨hold.shared, hold.log, fun x hx => hold.waiting x ((hmem _ hx).resolve_right (nofun)),
      fun k hk => hold.admits k ((hmem _ hk).resolve_right (nofun)),
      fun k hk => hold.passed k ((hmem _ hk).resolve_right (nofun))⟩
  | passed i f k check hcall hcheck hpass =>
    have hold := hs htoken
    have hbefore := List.mem_of_getElem? hcall
    refine ⟨hold.shared, hold.log, fun x hx => ?_, fun j hj => ?_, fun j hj => ?_⟩
    · rcases List.mem_or_eq_of_mem_set hx with hmem | heq
      · exact hold.waiting x hmem
      · cases heq
    · exact hold.admits k hbefore
    · rcases List.mem_or_eq_of_mem_set hj with hmem | heq
      · exact hold.passed j hmem
      · cases heq
        rw [hold.shared] at hpass
        exact passed_succ (hold.passed k hbefore) hcheck hpass
  | took => cases htoken
  | executed i f x hcall => exact absurd (List.mem_of_getElem? hcall) ((hs htoken).waiting x)

/-- The call that takes the token first has passed every check in the state the
    calls started from. -/
theorem Untouched.checked {t : Task S X L F} {start : S} {s : State S X L}
    (hs : Untouched t start s) {i k : Nat} {f : F} {check : S → F → Bool}
    (hcall : s.calls[i]? = some (.checking k)) (hcheck : t.checks[k]? = some check)
    (hpass : check s.shared f = true) (hlast : k + 1 = t.checks.length) :
    t.admits = true ∧ ∀ check ∈ t.checks, ∃ f, check start f = true := by
  have hmem := List.mem_of_getElem? hcall
  refine ⟨hs.admits k hmem, fun other hother => ?_⟩
  rw [hs.shared] at hpass
  have hall := passed_succ (hs.passed k hmem) hcheck hpass
  rw [hlast, List.take_length] at hall
  exact hall other hother

/-! ## Section 4: One execution -/

/-- At most one call executes, and it keeps its invariant. -/
structure Exclusive (Inv : S → X → List L → Prop) (Post : List L → Prop) (s : State S X L) :
    Prop where
  one : ∀ (i j : Nat) (x y : X), s.calls[i]? = some (Call.executing x) → s.calls[j]? = some (Call.executing y) → i = j
  holds : ∀ x, .executing x ∈ s.calls → Inv s.shared x s.log
  post : Post s.log

/-- Calls that come and go without executing anything change nothing. -/
theorem Exclusive.of_calls {Inv : S → X → List L → Prop} {Post : List L → Prop} {s : State S X L}
    (h : Exclusive Inv Post s) {calls : List (Call X)}
    (hcalls : ∀ (i : Nat) (x : X), calls[i]? = some (Call.executing x) →
      s.calls[i]? = some (Call.executing x)) :
    Exclusive Inv Post { s with calls := calls } := by
  refine ⟨fun i j x y hi hj => h.one i j x y (hcalls i x hi) (hcalls j y hj), ?_, h.post⟩
  intro x hx
  obtain ⟨i, hi⟩ := List.mem_iff_getElem?.mp hx
  exact h.holds x (List.mem_of_getElem? (hcalls i x hi))

theorem executing_of_append {calls : List (Call X)} {c : Call X} (hc : ∀ x, c ≠ .executing x)
    (i : Nat) (x : X) (h : (calls ++ [c])[i]? = some (Call.executing x)) :
    calls[i]? = some (Call.executing x) := by
  rw [List.getElem?_append] at h
  by_cases hlt : i < calls.length
  · rwa [if_pos hlt] at h
  · rw [if_neg hlt] at h
    exact absurd (List.mem_singleton.mp (List.mem_of_getElem? h)).symm (hc x)

theorem executing_of_set {calls : List (Call X)} {j : Nat} {c : Call X}
    (hc : ∀ x, c ≠ .executing x) (i : Nat) (x : X)
    (h : (calls.set j c)[i]? = some (Call.executing x)) : calls[i]? = some (Call.executing x) := by
  by_cases heq : j = i
  · subst heq
    exact absurd (List.getElem?_set_self' ▸ h) (by cases calls[j]? <;> simp [hc])
  · rwa [List.getElem?_set_ne heq] at h

/-- The rule for runs in which the token is taken once: what an execution that
    starts in a state with every check passed keeps, step by step, while nothing
    else happens. -/
theorem exclusive_rule {t : Task S X L F} {may : S → X → Prop} {start : S}
    (Inv : S → X → List L → Prop) (Post : List L → Prop) (hnil : Post [])
    (hfirst : t.admits = true → (∀ check ∈ t.checks, ∃ f, check start f = true) →
      ∀ x, t.first = some x → Inv start x [])
    (hstep : ∀ s x log f, Inv s x log → may s x → Post log →
      Post (log ++ (t.step s x f).2.1) ∧
        ∀ x', (t.step s x f).2.2 = some x' → Inv (t.step s x f).1 x' (log ++ (t.step s x f).2.1))
    {s : State S X L} (hrun : Run t.next (t.Allowed False may) (.initial start) s) : Post s.log := by
  have hinv : (s.token = true → Untouched t start s) ∧ Exclusive Inv Post s := by
    apply hrun.invariant
    · refine ⟨fun _ => ⟨rfl, rfl, ?_, ?_, ?_⟩, ⟨?_, ?_, hnil⟩⟩ <;> simp [State.initial]
    · intro s s' e ⟨hs, hex⟩ hallowed hnext
      refine ⟨untouched_next hs hnext, ?_⟩
      cases next_stepped hnext with
      | begin c hc =>
        apply hex.of_calls
        apply executing_of_append
        rcases hc with rfl | ⟨rfl, -⟩ <;> exact fun x => nofun
      | rejected i f => exact hex.of_calls (executing_of_set fun x => nofun)
      | passed i f k check hcall hcheck hpass =>
        exact hex.of_calls (executing_of_set fun x => nofun)
      | took i f k check hcall hcheck hpass hlast =>
        -- the token was there, so nothing executes yet
        have hold := hs ((hallowed.1 ⟨k, check, hcall, hcheck, hpass, hlast⟩).resolve_right id)
        obtain ⟨hadmits, hchecked⟩ := hold.checked hcall hcheck hpass hlast
        have hat : ∀ j x, (s.calls.set i (.ofOption t.first))[j]? = some (Call.executing x) → j = i := by
          intro j x hj
          by_contra hne
          rw [List.getElem?_set_ne (Ne.symm hne)] at hj
          exact hold.waiting x (List.mem_of_getElem? hj)
        refine ⟨fun j l x y hj hl => (hat j x hj).trans (hat l y hl).symm, ?_, hex.post⟩
        intro x hx
        rcases executing_mem_set hx with hmem | hnew
        · exact absurd hmem (hold.waiting x)
        · show Inv s.shared x s.log
          rw [hold.shared, hold.log]
          exact hfirst hadmits hchecked x hnew
      | executed i f x hcall =>
        have hkept := hstep s.shared x s.log f (hex.holds x (List.mem_of_getElem? hcall))
          (hallowed.2 x hcall) hex.post
        have hat : ∀ j y, (s.calls.set i (.ofOption (t.step s.shared x f).2.2))[j]? =
            some (Call.executing y) → j = i := by
          intro j y hj
          by_contra hne
          rw [List.getElem?_set_ne (Ne.symm hne)] at hj
          exact hne (hex.one j i y x hj hcall)
        refine ⟨fun j k y z hj hk => (hat j y hj).trans (hat k z hk).symm, ?_, hkept.1⟩
        intro y hy
        obtain ⟨j, hj⟩ := List.mem_iff_getElem?.mp hy
        cases hat j y hj
        have hlt : i < s.calls.length := (List.getElem?_eq_some_iff.mp hcall).1
        rw [List.getElem?_set_self hlt] at hj
        apply hkept.2 y
        cases hnext' : (t.step s.shared x f).2.2 with
        | none =>
          rw [hnext'] at hj
          cases hj
        | some z =>
          rw [hnext'] at hj
          cases hj
          rfl
  exact hinv.2.post

/-! ## Section 5: Executions side by side -/

/-- The rule for runs in which the token may be taken more than once: an
    invariant of the shared state that holds from the first time on and that
    every step of every execution keeps. -/
theorem shareable_rule {t : Task S X L F} {may : S → X → Prop} {start : S} {shareable : Prop}
    (Inv : S → List L → Prop) (Keeps : X → Prop) (Post : List L → Prop) (hnil : Post [])
    (hpost : ∀ s log, Inv s log → Post log)
    (hstart : t.admits = true → (∀ check ∈ t.checks, ∃ f, check start f = true) → Inv start [])
    (hfirst : ∀ x, t.first = some x → Keeps x)
    (hstep : ∀ s x log f, Inv s log → Keeps x → may s x →
      Inv (t.step s x f).1 (log ++ (t.step s x f).2.1) ∧
        ∀ x', (t.step s x f).2.2 = some x' → Keeps x')
    {s : State S X L} (hrun : Run t.next (t.Allowed shareable may) (.initial start) s) :
    Post s.log := by
  have hinv : (s.token = true → Untouched t start s) ∧
      (s.token = false → Inv s.shared s.log ∧ ∀ x, .executing x ∈ s.calls → Keeps x) := by
    apply hrun.invariant
    · refine ⟨fun _ => ⟨rfl, rfl, ?_, ?_, ?_⟩, fun h => (nomatch h)⟩ <;> simp [State.initial]
    · intro s s' e ⟨hs, hafter⟩ hallowed hnext
      refine ⟨untouched_next hs hnext, fun htoken => ?_⟩
      cases next_stepped hnext with
      | begin c hc =>
        refine ⟨(hafter htoken).1, fun x hx => (hafter htoken).2 x ?_⟩
        rcases hc with rfl | ⟨rfl, -⟩ <;> simpa using hx
      | rejected i f =>
        refine ⟨(hafter htoken).1, fun x hx => (hafter htoken).2 x ?_⟩
        exact (List.mem_or_eq_of_mem_set hx).resolve_right (nofun)
      | passed i f k check hcall hcheck hpass =>
        refine ⟨(hafter htoken).1, fun x hx => (hafter htoken).2 x ?_⟩
        exact (List.mem_or_eq_of_mem_set hx).resolve_right (nofun)
      | took i f k check hcall hcheck hpass hlast =>
        cases hbefore : s.token with
        | true =>
          have hold := hs hbefore
          obtain ⟨hadmits, hchecked⟩ := hold.checked hcall hcheck hpass hlast
          refine ⟨?_, fun x hx => ?_⟩
          · show Inv s.shared s.log
            rw [hold.shared, hold.log]
            exact hstart hadmits hchecked
          · exact hfirst x ((executing_mem_set hx).resolve_left (hold.waiting x))
        | false =>
          refine ⟨(hafter hbefore).1, fun x hx => ?_⟩
          exact (executing_mem_set hx).elim ((hafter hbefore).2 x) (hfirst x)
      | executed i f x hcall =>
        have hold := hafter htoken
        have hkept := hstep s.shared x s.log f hold.1 (hold.2 x (List.mem_of_getElem? hcall))
          (hallowed.2 x hcall)
        exact ⟨hkept.1, fun y hy => (executing_mem_set hy).elim (hold.2 y) (hkept.2 y)⟩
  cases htoken : s.token with
  | true =>
    rw [(hinv.1 htoken).log]
    exact hnil
  | false => exact hpost _ _ (hinv.2 htoken).1

end SingleUse
