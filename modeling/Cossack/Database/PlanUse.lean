import Cossack.Database.PlanRuns
import Cossack.Lib.Outcome
import Mathlib

/-! # A plan is used once

    `applyPlan` looks a plan up, validates it across awaits and only then takes
    it.  A second call that passes its last check after the first took the plan
    executes once more, on whatever the history says by then.  This file is about
    the runs in which that does not happen, or does no harm. -/

namespace Cossack.Database

open Runs
open SingleUse (allowed_executing allowed_exclusive exclusive_rule shareable_rule)

variable {σ : Type}

/-! ## Section 1: The condition -/

/-- Calls that overlap do no harm: there is nothing to execute, or every entry is
    a plain `apply`, which a transaction or batch refuses the second time. -/
def MigrationPlan.Shareable (plan : MigrationPlan σ) (d : Driver) : Prop :=
  plan.entries = [] ∨
    plan.direction = .up ∧ d.atomic = true ∧ ∀ entry ∈ plan.entries, entry.mode = .apply

def MigrationPlan.recorded (plan : MigrationPlan σ) : List String :=
  plan.history.map AppliedMigration.name

/-- The rows of the migrations that a squash replaces still give the planned
    mode, or make `up` refuse the squash. -/
def MigrationPlan.KeepsMode (plan : MigrationPlan σ) (w : World σ) : Execution σ → Prop
  | .next _ (s :: _) =>
      planMode plan.direction w.history.names s.migration = none ∨
        planMode plan.direction w.history.names s.migration =
          planMode plan.direction plan.recorded s.migration
  | _ => True

/-! ## Section 2: Logs -/

theorem committed_append {E : Type} (log more : List (Logged E)) :
    committed (log ++ more) = committed log ++ committed more :=
  List.filterMap_append

theorem UsedOnce.nil {E : Type} (planned : List E) : UsedOnce planned [] :=
  ⟨fun _ h => (by simp at h), List.nodup_nil⟩

theorem UsedOnce.start {E : Type} {planned : List E} {log : List (Logged E)} {entry : E}
    (h : UsedOnce planned log) (hentry : entry ∈ planned) :
    UsedOnce planned (log ++ [.started entry]) := by
  refine ⟨fun other hother => ?_, ?_⟩
  · rw [List.mem_append, List.mem_append, List.mem_singleton, List.mem_singleton] at hother
    rcases hother with (hmem | heq) | (hmem | heq)
    · exact h.1 other (.inl hmem)
    · cases heq
      exact hentry
    · exact h.1 other (.inr hmem)
    · cases heq
  · rw [committed_append]
    show (committed log ++ []).Nodup
    rw [List.append_nil]
    exact h.2

theorem UsedOnce.commit {E : Type} {planned : List E} {log : List (Logged E)} {entry : E}
    (h : UsedOnce planned log) (hentry : entry ∈ planned) (hfresh : entry ∉ committed log) :
    UsedOnce planned (log ++ [.committed entry]) := by
  refine ⟨fun other hother => ?_, ?_⟩
  · rw [List.mem_append, List.mem_append, List.mem_singleton, List.mem_singleton] at hother
    rcases hother with (hmem | heq) | (hmem | heq)
    · exact h.1 other (.inl hmem)
    · cases heq
    · exact h.1 other (.inr hmem)
    · cases heq
      exact hentry
  · rw [committed_append]
    show (committed log ++ [entry]).Nodup
    exact List.nodup_append.mpr ⟨h.2, List.nodup_singleton _, by
      intro a ha b hb heq
      cases List.mem_singleton.mp hb
      exact hfresh (heq ▸ ha)⟩

/-- Names are committed once more only when they are not among the ones before. -/
theorem UsedOnce.run {E : Type} {planned : List E} {log : List (Logged E)} {entry : E}
    (h : UsedOnce planned log) (hentry : entry ∈ planned) (hfresh : entry ∉ committed log) :
    UsedOnce planned (log ++ [.started entry, .committed entry]) := by
  have hstart := h.start hentry
  have hnone : committed (log ++ [.started entry]) = committed log := by
    rw [committed_append]
    exact List.append_nil _
  have := hstart.commit hentry (hnone ▸ hfresh)
  rwa [List.append_assoc] at this

/-! ## Section 3: What was planned -/

theorem mapM_ok {α β ε : Type} {f : α → Except ε β} {l : List α} {results : List β}
    (h : l.mapM f = .ok results) :
    results.length = l.length ∧ ∀ a ∈ l, ∃ b ∈ results, f a = .ok b := by
  induction l generalizing results with
  | nil =>
    cases h
    exact ⟨rfl, fun a ha => (nomatch ha)⟩
  | cons a rest ih =>
    rw [List.mapM_cons] at h
    obtain ⟨b, hb, hrest⟩ := Outcome.bind_eq_ok.mp h
    obtain ⟨bs, hbs, hcons⟩ := Outcome.bind_eq_ok.mp hrest
    cases hcons
    obtain ⟨hlength, hall⟩ := ih hbs
    refine ⟨by simp [hlength], fun x hx => ?_⟩
    rcases List.mem_cons.mp hx with rfl | hmem
    · exact ⟨b, List.mem_cons_self, hb⟩
    · obtain ⟨y, hy, heq⟩ := hall x hmem
      exact ⟨y, List.mem_cons_of_mem _ hy, heq⟩

/-- An entry of the plan says how the migration runs. -/
def MigrationPlan.Lists (plan : MigrationPlan σ) (m : Migration σ) : Prop :=
  ∃ mode, planMode plan.direction plan.recorded m = some mode ∧ (m.name, mode) ∈ plan.keys

theorem plan_ok {r : MigrationRunner σ} {direction : Direction} {w : World σ}
    {plan : MigrationPlan σ} (h : r.plan direction w = .ok plan) :
    r.sorted = .ok plan.definitions ∧ plan.history = w.history.rows ∧
      ∃ selected, selected = r.selectPlanned plan.direction none
          (plan.definitions.map (r.statusOf w.history)) ∧
        plan.entries.length = selected.length ∧ ∀ s ∈ selected, plan.Lists s.migration := by
  unfold MigrationRunner.plan at h
  unfold MigrationRunner.status at h
  cases hsorted : r.sorted with
  | error e =>
    rw [hsorted] at h
    cases h
  | ok l =>
    simp only [hsorted, Except.map] at h
    cases hchanged : firstChanged (l.map (r.statusOf w.history)) with
    | some s =>
      simp only [hchanged] at h
      cases h
    | none =>
      simp only [hchanged] at h
      cases hentries : (r.selectPlanned direction none (l.map (r.statusOf w.history))).mapM
          (planEntry direction w.history.names) with
      | error e =>
        simp only [hentries] at h
        cases h
      | ok entries =>
        simp only [hentries] at h
        cases h
        have hl : (l.map (r.statusOf w.history)).map MigrationStatus.migration = l := by
          rw [List.map_map]
          exact List.map_id l
        obtain ⟨hlength, hall⟩ := mapM_ok hentries
        refine ⟨congrArg Except.ok hl.symm, rfl, _, rfl, ?_, ?_⟩
        · simp only [hl]
          exact hlength
        · simp only [hl]
          intro s hs
          obtain ⟨entry, hmem, hentry⟩ := hall s hs
          unfold planEntry at hentry
          cases hmode : planMode direction w.history.names s.migration with
          | none =>
            rw [hmode] at hentry
            cases hentry
          | some mode =>
            rw [hmode] at hentry
            cases hentry
            exact ⟨mode, hmode, List.mem_map.mpr ⟨_, hmem, rfl⟩⟩

/-- The planned definitions are in order already. -/
theorem sorted_planned {r : MigrationRunner σ} {definitions : List (Migration σ)}
    (h : r.sorted = .ok definitions) :
    ({ r with migrations := definitions } : MigrationRunner σ).sorted = .ok definitions := by
  obtain ⟨heq, -⟩ := sorted_ok h
  have hsorted : definitions.Pairwise (fun a b => r.localeCompare.le a.name b.name = true) := by
    rw [heq]
    exact List.pairwise_mergeSort (fun a b c => r.localeCompare.trans a.name b.name c.name)
      (fun a b => r.localeCompare.total a.name b.name) r.migrations
  have horder : ({ r with migrations := definitions } : MigrationRunner σ).order = definitions :=
    List.mergeSort_of_pairwise hsorted
  unfold MigrationRunner.sorted at h ⊢
  rw [horder]
  rw [← heq] at h
  cases hdup : firstDuplicate definitions with
  | none => rfl
  | some name =>
    rw [hdup] at h
    cases h

theorem find?_perm {h h' : History} (hperm : h.rows.Perm h'.rows) (name : String) :
    h.find? name = h'.find? name := by
  cases hfind : h'.find? name with
  | none =>
    rw [History.find?_eq_none, History.mem_names] at hfind ⊢
    rintro ⟨row, hrow, hname⟩
    exact hfind ⟨row, hperm.mem_iff.mp hrow, hname⟩
  | some row =>
    have hname : row.name = name := by simpa using List.find?_some hfind
    rw [← hname]
    exact History.find?_of_mem (hperm.mem_iff.mpr (List.mem_of_find?_eq_some hfind))

theorem statusOf_perm (r : MigrationRunner σ) {h h' : History} (hperm : h.rows.Perm h'.rows)
    (m : Migration σ) : r.statusOf h m = r.statusOf h' m := by
  unfold MigrationRunner.statusOf
  rw [find?_perm hperm]

/-- Selecting as many migrations as were planned selects the planned ones. -/
theorem selectPlanned_length (r : MigrationRunner σ) (direction : Direction)
    (statuses : List (MigrationStatus σ))
    (hsome : r.selectPlanned direction none statuses ≠ []) :
    r.selectPlanned direction (some (r.selectPlanned direction none statuses).length) statuses =
      r.selectPlanned direction none statuses := by
  cases direction with
  | up => exact List.take_length
  | down =>
    show List.take (List.take 1 _).length _ = List.take 1 _
    have hlength : (r.selectPlanned .down none statuses).length = 1 := by
      have hle : (r.selectPlanned .down none statuses).length ≤ 1 := List.length_take_le 1 _
      have hpos := List.length_pos_iff.mpr hsome
      omega
    exact congrArg (fun n => List.take n _) hlength

/-- Names of distinct definitions. -/
theorem sorted_names_nodup {r : MigrationRunner σ} {l : List (Migration σ)}
    (h : r.sorted = .ok l) : (l.map Migration.name).Nodup :=
  List.pairwise_map.mpr ((sorted_ok h).2.imp And.right)

theorem selected_names_nodup {r : MigrationRunner σ} {l : List (Migration σ)} (h : r.sorted = .ok l)
    (history : History) (direction : Direction) (count : Option Nat) :
    ((r.selectPlanned direction count (l.map (r.statusOf history))).map
      fun s => s.migration.name).Nodup := by
  have hall : ((l.map (r.statusOf history)).map fun s => s.migration.name).Nodup := by
    rw [List.map_map]
    exact sorted_names_nodup h
  cases direction with
  | up =>
    cases count with
    | none => exact hall.sublist (List.filter_sublist.map _)
    | some n => exact hall.sublist (((List.take_sublist _ _).trans List.filter_sublist).map _)
  | down =>
    have hperm := List.perm_insertionSort (fun left right => r.laterFirst left right = true)
      ((l.map (r.statusOf history)).filter (·.applied.isSome))
    have hsorted := (hperm.map fun s => s.migration.name).nodup_iff.mpr
      (hall.sublist (List.filter_sublist.map _))
    exact hsorted.sublist ((List.take_sublist _ _).map _)

/-- The runner that executes a plan finds the statuses the plan was made from. -/
theorem status_planned {r : MigrationRunner σ} {direction : Direction} {w₀ w : World σ}
    {plan : MigrationPlan σ} (hplan : r.plan direction w₀ = .ok plan)
    (hperm : w.history.rows.Perm plan.history) :
    ({ r with migrations := plan.definitions } : MigrationRunner σ).status w =
      .ok (plan.definitions.map (r.statusOf w₀.history)) := by
  obtain ⟨hsorted, hhistory, -⟩ := plan_ok hplan
  rw [hhistory] at hperm
  unfold MigrationRunner.status
  rw [sorted_planned hsorted]
  show Except.ok (plan.definitions.map (r.statusOf w.history)) = _
  rw [show r.statusOf w.history = r.statusOf w₀.history from
    funext fun m => statusOf_perm r hperm m]

/-! ## Section 4: One execution of a migration plan -/

/-- Each of these migrations is planned, and none of them has been committed. -/
def MigrationPlan.Remains (plan : MigrationPlan σ) (rest : List (MigrationStatus σ))
    (log : List (Logged (String × Mode))) : Prop :=
  (∀ s ∈ rest, plan.Lists s.migration) ∧
    (((committed log).map Prod.fst) ++ rest.map fun s => s.migration.name).Nodup

/-- What holds wherever the only execution awaits. -/
def MigrationPlan.Executing (plan : MigrationPlan σ) (w : World σ) (x : Execution σ)
    (log : List (Logged (String × Mode))) : Prop :=
  match x with
  | .status => w.history.rows.Perm plan.history ∧ log = []
  | .batch selected => plan.Remains selected log
  | .next _ rest => plan.Remains rest log
  | .migrate _ mode s rest => (s.migration.name, mode) ∈ plan.keys ∧ plan.Remains (s :: rest) log
  | .statements _ entry _ rest =>
      entry ∈ plan.keys ∧ (∀ s ∈ rest, plan.Lists s.migration) ∧
        (((committed log).map Prod.fst) ++ entry.1 :: rest.map fun s => s.migration.name).Nodup

/-- What was committed last leaves the rest as it is. -/
theorem nodup_commit {log : List (Logged (String × Mode))} (entry : String × Mode)
    {names : List String} (h : (((committed log).map Prod.fst) ++ entry.1 :: names).Nodup) :
    (((committed (log ++ [Logged.started entry, .committed entry])).map Prod.fst) ++ names).Nodup ∧
      (((committed (log ++ [Logged.committed entry])).map Prod.fst) ++ names).Nodup ∧
      entry ∉ committed log := by
  have hlast : (((committed log ++ [entry]).map Prod.fst) ++ names).Nodup := by
    rw [List.map_append, List.append_assoc]
    exact h
  refine ⟨?_, ?_, fun hmem => ?_⟩
  · rw [committed_append]
    exact hlast
  · rw [committed_append]
    exact hlast
  · exact (List.nodup_append.mp h).2.2 entry.1 (List.mem_map_of_mem hmem) entry.1
      List.mem_cons_self rfl

theorem committed_started {E : Type} (log : List (Logged E)) (entry : E) :
    committed (log ++ [.started entry]) = committed log := by
  rw [committed_append]
  exact List.append_nil _

theorem executing_first {r : MigrationRunner σ} {direction : Direction} {w₀ w : World σ}
    {plan : MigrationPlan σ} (hplan : r.plan direction w₀ = .ok plan) (now : String → String)
    (hperm : w.history.rows.Perm plan.history) (hsome : plan.entries ≠ []) (fault : Option Nat)
    {result : World σ × List (Logged (String × Mode)) × Option (Execution σ)}
    (hresult : ({ r with migrations := plan.definitions } : MigrationRunner σ).executionStep now
      plan.direction plan.entries.length w .status fault = result) :
    result.2.1 = [] ∧ ∀ x', result.2.2 = some x' → plan.Executing result.1 x' [] := by
  obtain ⟨hsorted, -, selected, hselected, hlength, hlists⟩ := plan_ok hplan
  have hpos : selected ≠ [] := by
    intro hnil
    rw [hnil] at hlength
    exact hsome (List.eq_nil_of_length_eq_zero hlength)
  have hcount := selectPlanned_length r plan.direction
    (plan.definitions.map (r.statusOf w₀.history)) (hselected ▸ hpos)
  rw [← hselected, ← hlength] at hcount
  have hnodup := selected_names_nodup hsorted w₀.history plan.direction none
  rw [← hselected] at hnodup
  have hremains : plan.Remains selected [] := ⟨hlists, hnodup⟩
  subst hresult
  unfold MigrationRunner.executionStep
  rw [status_planned hplan hperm]
  cases fault with
  | some k => exact ⟨rfl, fun x' hx' => (nomatch hx')⟩
  | none =>
    cases hchanged : firstChanged (plan.definitions.map (r.statusOf w₀.history)) with
    | some s =>
      simp only [hchanged]
      exact ⟨trivial, fun x' hx' => (nomatch hx')⟩
    | none =>
      simp only [hchanged]
      cases hdirection : plan.direction with
      | down =>
        rw [hdirection] at hcount
        refine ⟨rfl, fun x' hx' => ?_⟩
        cases hx'
        show plan.Remains (r.selectPlanned .down (some plan.entries.length) _) []
        rw [hcount]
        exact hremains
      | up =>
        rw [hdirection] at hcount
        refine ⟨rfl, fun x' hx' => ?_⟩
        have hsel : MigrationRunner.selectUp (some plan.entries.length)
            (plan.definitions.map (r.statusOf w₀.history)) = selected := hcount
        simp only [hsel] at hx'
        split at hx'
        · cases hx'
        · cases hx'
          exact hremains

/-- A squash that is reached in its planned mode runs in it. -/
theorem lists_mode {plan : MigrationPlan σ} {w : World σ} {batch : Nat} {s : MigrationStatus σ}
    {rest : List (MigrationStatus σ)} (hlists : plan.Lists s.migration)
    (hkeeps : plan.KeepsMode w (.next batch (s :: rest))) {mode : Mode}
    (hmode : planMode plan.direction w.history.names s.migration = some mode) :
    planMode plan.direction plan.recorded s.migration = some mode ∧
      (s.migration.name, mode) ∈ plan.keys := by
  obtain ⟨planned, hplanned, hkey⟩ := hlists
  have hsame : planned = mode := by
    rcases hkeeps with hnone | hsame
    · rw [hnone] at hmode
      cases hmode
    · rw [hsame, hplanned] at hmode
      exact Option.some.inj hmode
  rw [← hsame]
  exact ⟨hplanned, hkey⟩

/-- The step at the head of the loop chooses the mode and nothing else. -/
theorem next_step {r : MigrationRunner σ} {now : String → String} {direction : Direction}
    {count batch : Nat} {w : World σ} {s : MigrationStatus σ} {rest : List (MigrationStatus σ)}
    {fault : Option Nat} {result : World σ × List (Logged (String × Mode)) × Option (Execution σ)}
    (hresult : r.executionStep now direction count w (.next batch (s :: rest)) fault = result) :
    result.1 = w ∧ result.2.1 = [] ∧ ∀ x', result.2.2 = some x' → ∃ mode,
      planMode direction w.history.names s.migration = some mode ∧ x' = .migrate batch mode s rest := by
  subst hresult
  unfold MigrationRunner.executionStep
  cases direction with
  | down =>
    refine ⟨rfl, rfl, fun x' hx' => ?_⟩
    cases hx'
    exact ⟨.revert, rfl, rfl⟩
  | up =>
    simp only
    split
    · exact ⟨rfl, rfl, fun x' hx' => (nomatch hx')⟩
    · refine ⟨rfl, rfl, fun x' hx' => ?_⟩
      obtain ⟨mode, hmode, rfl⟩ := Option.map_eq_some_iff.mp hx'
      exact ⟨mode, hmode, rfl⟩

/-- The step that executes a migration: as a whole, or its first half where the
    statements follow one by one. -/
theorem migrate_step {r : MigrationRunner σ} {now : String → String} {direction : Direction}
    {count batch : Nat} {w : World σ} {mode : Mode} {s : MigrationStatus σ}
    {rest : List (MigrationStatus σ)} {fault : Option Nat}
    {result : World σ × List (Logged (String × Mode)) × Option (Execution σ)}
    (hresult : r.executionStep now direction count w (.migrate batch mode s rest) fault = result) :
    let entry := (s.migration.name, mode)
    let atomically := runMigration r.driver s.migration.name
      (executeMode r.driver fault mode s.migration (modeBookkeeping now batch mode s)) w
    (r.driver.atomic = true ∧ (∃ e, atomically = (result.1, .error e)) ∧
        result.2 = ([.started entry], none)) ∨
      (r.driver.atomic = true ∧ atomically = (result.1, .ok ()) ∧
        result.2 = ([.started entry, .committed entry], some (.next batch rest))) ∨
      (r.driver.atomic = false ∧ result.2.1 = [.started entry] ∧ ∀ x', result.2.2 = some x' →
        ∃ statements, x' = .statements batch entry statements rest) := by
  subst hresult
  unfold MigrationRunner.executionStep
  cases hatomic : r.driver.atomic with
  | true =>
    simp only [if_true]
    cases hrun : runMigration r.driver s.migration.name
        (executeMode r.driver fault mode s.migration (modeBookkeeping now batch mode s)) w with
    | mk w' outcome =>
      cases outcome with
      | error e => exact .inl ⟨trivial, ⟨e, rfl⟩, rfl⟩
      | ok _ => exact .inr (.inl ⟨trivial, rfl, rfl⟩)
  | false =>
    simp only [Bool.false_eq_true, if_false]
    refine .inr (.inr ⟨trivial, ?_⟩)
    cases modeQueue mode s.migration w with
    | mk w' outcome =>
      cases outcome with
      | error e => exact ⟨rfl, fun x' hx' => (nomatch hx')⟩
      | ok queue =>
        refine ⟨rfl, fun x' hx' => ?_⟩
        obtain ⟨statements, -, rfl⟩ := Option.map_eq_some_iff.mp hx'
        exact ⟨_, rfl⟩

/-- A statement of a migration without transactions or batches; the last one is
    its bookkeeping. -/
theorem statements_step {r : MigrationRunner σ} {now : String → String} {direction : Direction}
    {count batch : Nat} {w : World σ} {entry : String × Mode} {remaining : List (Statement σ)}
    {rest : List (MigrationStatus σ)} {fault : Option Nat}
    {result : World σ × List (Logged (String × Mode)) × Option (Execution σ)}
    (hresult : r.executionStep now direction count w (.statements batch entry remaining rest) fault =
      result) :
    result.2 = ([], none) ∨ result.2 = ([.committed entry], some (.next batch rest)) ∨
      ∃ later, result.2 = ([], some (.statements batch entry later rest)) := by
  subst hresult
  unfold MigrationRunner.executionStep
  cases fault with
  | some k => exact .inl rfl
  | none =>
    cases remaining with
    | nil => exact .inl rfl
    | cons statement later =>
      cases hexec : w.exec statement with
      | none =>
        simp only [hexec]
        exact .inl trivial
      | some w' =>
        simp only [hexec]
        cases later with
        | nil => exact .inr (.inl rfl)
        | cons next later => exact .inr (.inr ⟨_, rfl⟩)

/-- While one call executes, it executes what was planned, and each entry once. -/
theorem executing_step {r : MigrationRunner σ} {direction : Direction} {w₀ w : World σ}
    {plan : MigrationPlan σ} (hplan : r.plan direction w₀ = .ok plan) (live : List (Migration σ))
    (now : String → String) (hsome : plan.entries ≠ []) {x : Execution σ}
    {log : List (Logged (String × Mode))} {fault : Option Nat} (hx : plan.Executing w x log)
    (hkeeps : plan.KeepsMode w x) (hpost : UsedOnce plan.keys log)
    {result : World σ × List (Logged (String × Mode)) × Option (Execution σ)}
    (hresult : (plan.task r live now).step w x fault = result) :
    UsedOnce plan.keys (log ++ result.2.1) ∧
      ∀ x', result.2.2 = some x' → plan.Executing result.1 x' (log ++ result.2.1) := by
  have hresult : ({ r with migrations := plan.definitions } : MigrationRunner σ).executionStep now
    plan.direction plan.entries.length w x fault = result := hresult
  cases x with
  | status =>
    obtain ⟨hperm, rfl⟩ := hx
    obtain ⟨hlog, hnext⟩ := executing_first hplan now hperm hsome fault hresult
    rw [hlog, List.append_nil]
    exact ⟨hpost, hnext⟩
  | batch selected =>
    subst hresult
    show UsedOnce plan.keys (log ++ []) ∧ _
    rw [List.append_nil]
    refine ⟨hpost, fun x' hx' => ?_⟩
    simp only [MigrationRunner.executionStep] at hx'
    split at hx'
    · cases hx'
    · cases hx'
      show plan.Remains selected (log ++ [])
      rw [List.append_nil]
      exact hx
  | next batch rest =>
    cases rest with
    | nil =>
      subst hresult
      show UsedOnce plan.keys (log ++ []) ∧ _
      rw [List.append_nil]
      exact ⟨hpost, fun x' hx' => (nomatch hx')⟩
    | cons s rest =>
      obtain ⟨hworld, hlog, hnext⟩ := next_step hresult
      rw [hlog, List.append_nil]
      refine ⟨hpost, fun x' hx' => ?_⟩
      obtain ⟨mode, hmode, rfl⟩ := hnext x' hx'
      exact ⟨(lists_mode (hx.1 s List.mem_cons_self) hkeeps hmode).2, hx⟩
  | migrate batch mode s rest =>
    obtain ⟨hkey, hlists, hnodup⟩ := hx
    have hrest : ∀ s' ∈ rest, plan.Lists s'.migration := fun s' hs' =>
      hlists s' (List.mem_cons_of_mem _ hs')
    have hentry := nodup_commit (s.migration.name, mode) hnodup
    rcases migrate_step hresult with ⟨-, -, hrun⟩ | ⟨-, -, hrun⟩ | ⟨-, hlog, hnext⟩
    · rw [hrun]
      exact ⟨hpost.start hkey, fun x' hx' => (nomatch hx')⟩
    · rw [hrun]
      refine ⟨hpost.run hkey hentry.2.2, fun x' hx' => ?_⟩
      cases hx'
      exact ⟨hrest, hentry.1⟩
    · rw [hlog]
      refine ⟨hpost.start hkey, fun x' hx' => ?_⟩
      obtain ⟨statements, rfl⟩ := hnext x' hx'
      refine ⟨hkey, hrest, ?_⟩
      rw [committed_started]
      exact hnodup
  | statements batch entry remaining rest =>
    obtain ⟨hkey, hrest, hnodup⟩ := hx
    have hentry := nodup_commit entry hnodup
    rcases statements_step hresult with hrun | hrun | ⟨later, hrun⟩
    · rw [hrun]
      show UsedOnce plan.keys (log ++ []) ∧ _
      rw [List.append_nil]
      exact ⟨hpost, fun x' hx' => (nomatch hx')⟩
    · rw [hrun]
      refine ⟨hpost.commit hkey hentry.2.2, fun x' hx' => ?_⟩
      cases hx'
      exact ⟨hrest, hentry.2.1⟩
    · rw [hrun]
      show UsedOnce plan.keys (log ++ []) ∧ _
      rw [List.append_nil]
      refine ⟨hpost, fun x' hx' => ?_⟩
      cases hx'
      exact ⟨hkey, hrest, hnodup⟩

/-! ## Section 5: Executions of plain applies side by side -/

theorem queueMigration_history (m : Migration σ) (direction : Direction) (w : World σ) :
    (queueMigration m direction w).1.history = w.history := by
  unfold queueMigration
  split
  · split
    · rfl
    · split <;> rfl
  · split
    · rfl
    · split <;> rfl

/-- With a transaction or batch the row of a migration comes with its statements
    or not at all. -/
theorem runMigration_apply {d : Driver} (hd : d.atomic = true) {fault : Option Nat}
    {m : Migration σ} {name : String} {row : AppliedMigration} {w w' : World σ}
    {outcome : Except MigrationError Unit}
    (h : runMigration d name (executeMode d fault .apply m (.insertRow row)) w = (w', outcome)) :
    (outcome = .ok () → w.history.insert row = some w'.history) ∧
      ((∃ e, outcome = .error e) → w'.history = w.history) := by
  have hqueued := queueMigration_history m .up w
  unfold runMigration executeMode modeQueue at h
  cases hq : queueMigration m .up w with
  | mk w₁ queued =>
    rw [hq] at hqueued
    simp only [hq] at h
    cases queued with
    | error e =>
      cases h
      refine ⟨fun heq => (by cases heq), fun _ => ?_⟩
      split
      · rfl
      · exact hqueued
    | ok queue =>
      simp only [executeAtomicUntil] at h
      cases hr : renderQueue queue with
      | none =>
        simp only [hr] at h
        cases h
        refine ⟨fun heq => (by cases heq), fun _ => ?_⟩
        split
        · rfl
        · exact hqueued
      | some statements =>
        simp only [hr] at h
        obtain ⟨-, effects, rfl⟩ := queueMigration_ok hq hr
        cases hexec : w₁.execUntil fault (effects.map .schema ++ [.insertRow row]) with
        | mk w₂ done =>
          simp only [hexec] at h
          cases done with
          | true =>
            cases h
            refine ⟨fun _ => ?_, fun herror => by obtain ⟨e, heq⟩ := herror; cases heq⟩
            obtain ⟨w₃, hw₃, hins⟩ := execAll_schema _ _ _ _ (execUntil_true hexec)
            rw [← hqueued, ← hw₃]
            unfold World.execAll at hins
            split at hins
            · cases hins
            · next w₄ hw₄ =>
              obtain ⟨history, hinsert, rfl⟩ := Option.map_eq_some_iff.mp hw₄
              cases hins
              exact hinsert
          | false =>
            cases h
            refine ⟨fun heq => (by cases heq), fun _ => ?_⟩
            -- a transaction or, without one, the batch is rolled back
            cases htransactions : d.transactions with
            | true => rfl
            | false =>
              have hbatch : d.batch = true := by
                rw [Driver.atomic, htransactions, Bool.false_or] at hd
                exact hd
              simp only [hbatch]
              exact hqueued

/-- The plan applies the migration, and nothing else. -/
def MigrationPlan.Applies (plan : MigrationPlan σ) (m : Migration σ) : Prop :=
  (m.name, .apply) ∈ plan.keys ∧ planMode plan.direction plan.recorded m = some .apply

/-- Wherever an execution awaits, it has only planned migrations ahead. -/
def MigrationPlan.Applying (plan : MigrationPlan σ) : Execution σ → Prop
  | .status => True
  | .batch selected => ∀ s ∈ selected, plan.Applies s.migration
  | .next _ rest => ∀ s ∈ rest, plan.Applies s.migration
  | .migrate _ mode s rest => mode = .apply ∧ ∀ s' ∈ s :: rest, plan.Applies s'.migration
  | .statements .. => False

/-- The history only grows, and has a row for all that was committed. -/
def MigrationPlan.Recorded (plan : MigrationPlan σ) (w : World σ)
    (log : List (Logged (String × Mode))) : Prop :=
  UsedOnce plan.keys log ∧ (∀ name ∈ plan.recorded, name ∈ w.history.names) ∧
    ∀ entry ∈ committed log, entry.1 ∈ w.history.names

theorem Lists.applies {plan : MigrationPlan σ} {m : Migration σ} (h : plan.Lists m)
    (happly : ∀ entry ∈ plan.entries, entry.mode = .apply) : plan.Applies m := by
  obtain ⟨mode, hmode, hkey⟩ := h
  obtain ⟨entry, hentry, heq⟩ := List.mem_map.mp hkey
  have hplain : mode = .apply := by
    rw [← happly entry hentry]
    exact (Prod.ext_iff.mp heq).2.symm
  subst hplain
  exact ⟨hkey, hmode⟩

/-- What is pending in a history that has grown was pending when the plan was
    made. -/
theorem pending_applies {r : MigrationRunner σ} {direction : Direction} {w₀ w : World σ}
    {plan : MigrationPlan σ} (hplan : r.plan direction w₀ = .ok plan) (hup : plan.direction = .up)
    (happly : ∀ entry ∈ plan.entries, entry.mode = .apply)
    (hgrown : ∀ name ∈ plan.recorded, name ∈ w.history.names) {count : Option Nat}
    {s : MigrationStatus σ}
    (hs : s ∈ MigrationRunner.selectUp count (plan.definitions.map (r.statusOf w.history))) :
    plan.Applies s.migration := by
  obtain ⟨-, hhistory, selected, hselected, -, hlists⟩ := plan_ok hplan
  have hpending : s ∈ (plan.definitions.map (r.statusOf w.history)).filter
      fun s => s.state = .pending := by
    unfold MigrationRunner.selectUp at hs
    cases count with
    | none => exact hs
    | some n => exact List.mem_of_mem_take hs
  obtain ⟨m, hm, hnot, rfl⟩ := mem_pending.mp hpending
  have hbefore : m.name ∉ w₀.history.names := by
    intro hmem
    apply hnot
    apply hgrown
    rw [MigrationPlan.recorded, hhistory]
    exact hmem
  have hmem : r.statusOf w₀.history m ∈ selected := by
    rw [hselected, hup]
    exact mem_pending.mpr ⟨m, hm, hbefore, rfl⟩
  have hlisted : plan.Lists m := hlists _ hmem
  exact Lists.applies hlisted happly

/-- Side by side, every execution applies planned migrations, and a migration
    that is recorded is not committed again. -/
theorem applying_step {r : MigrationRunner σ} {direction : Direction} {w₀ w : World σ}
    {plan : MigrationPlan σ} (hplan : r.plan direction w₀ = .ok plan) (live : List (Migration σ))
    (now : String → String) (hup : plan.direction = .up) (hatomic : r.driver.atomic = true)
    (happly : ∀ entry ∈ plan.entries, entry.mode = .apply) {x : Execution σ}
    {log : List (Logged (String × Mode))} {fault : Option Nat} (hlog : plan.Recorded w log)
    (hx : plan.Applying x) (hkeeps : plan.KeepsMode w x)
    {result : World σ × List (Logged (String × Mode)) × Option (Execution σ)}
    (hresult : (plan.task r live now).step w x fault = result) :
    plan.Recorded result.1 (log ++ result.2.1) ∧
      ∀ x', result.2.2 = some x' → plan.Applying x' := by
  have hresult : ({ r with migrations := plan.definitions } : MigrationRunner σ).executionStep now
    plan.direction plan.entries.length w x fault = result := hresult
  cases x with
  | status =>
    have hstatus : ({ r with migrations := plan.definitions } : MigrationRunner σ).status w =
        .ok (plan.definitions.map (r.statusOf w.history)) := by
      unfold MigrationRunner.status
      rw [sorted_planned (plan_ok hplan).1]
      rfl
    subst hresult
    unfold MigrationRunner.executionStep
    rw [hstatus, hup]
    cases fault with
    | some k =>
      exact ⟨(List.append_nil log).symm ▸ hlog, fun x' hx' => (nomatch hx')⟩
    | none =>
      cases hchanged : firstChanged (plan.definitions.map (r.statusOf w.history)) with
      | some s =>
        simp only [hchanged]
        exact ⟨(List.append_nil log).symm ▸ hlog, fun x' hx' => (nomatch hx')⟩
      | none =>
        simp only [hchanged]
        refine ⟨(List.append_nil log).symm ▸ hlog, fun x' hx' => ?_⟩
        split at hx'
        · cases hx'
        · cases hx'
          exact fun s hs => pending_applies hplan hup happly hlog.2.1 hs
  | batch selected =>
    subst hresult
    refine ⟨(List.append_nil log).symm ▸ hlog, fun x' hx' => ?_⟩
    simp only [MigrationRunner.executionStep] at hx'
    split at hx'
    · cases hx'
    · cases hx'
      exact hx
  | next batch rest =>
    cases rest with
    | nil =>
      subst hresult
      exact ⟨(List.append_nil log).symm ▸ hlog, fun x' hx' => (nomatch hx')⟩
    | cons s rest =>
      obtain ⟨hworld, hnone, hnext⟩ := next_step hresult
      rw [hworld, hnone, List.append_nil]
      refine ⟨hlog, fun x' hx' => ?_⟩
      obtain ⟨mode, hmode, rfl⟩ := hnext x' hx'
      obtain ⟨hkey, hplanned⟩ := hx s List.mem_cons_self
      have hsame := (lists_mode ⟨_, hplanned, hkey⟩ hkeeps hmode).1
      rw [hplanned] at hsame
      exact ⟨(Option.some.inj hsame).symm, hx⟩
  | migrate batch mode s rest =>
    obtain ⟨rfl, hall⟩ := hx
    obtain ⟨hkey, -⟩ := hall s List.mem_cons_self
    rcases migrate_step hresult with ⟨-, ⟨e, hrun⟩, hnext⟩ | ⟨-, hrun, hnext⟩ | ⟨hnot, -⟩
    · have hsame := (runMigration_apply hatomic hrun).2 ⟨e, rfl⟩
      rw [hnext]
      refine ⟨⟨hlog.1.start hkey, ?_, ?_⟩, fun x' hx' => (nomatch hx')⟩
      · rw [hsame]
        exact hlog.2.1
      · show ∀ entry ∈ committed (log ++ [_]), _
        rw [committed_started, hsame]
        exact hlog.2.2
    · have hins := (runMigration_apply hatomic hrun).1 rfl
      have hnames := mem_names_insert hins
      rw [hnext]
      have hfresh : (s.migration.name, Mode.apply) ∉ committed log := by
        intro hmem
        have hrecorded : (recordRow now batch s).name ∈ w.history.names := hlog.2.2 _ hmem
        unfold History.insert at hins
        rw [dif_pos hrecorded] at hins
        cases hins
      refine ⟨⟨hlog.1.run hkey hfresh, ?_, ?_⟩, fun x' hx' => ?_⟩
      · exact fun name hname => (hnames name).mpr (.inr (hlog.2.1 name hname))
      · intro entry hentry
        rw [committed_append] at hentry
        rcases List.mem_append.mp hentry with hold | hnew
        · exact (hnames _).mpr (.inr (hlog.2.2 entry hold))
        · cases List.mem_singleton.mp hnew
          exact (hnames _).mpr (.inl rfl)
      · cases hx'
        exact fun s' hs' => hall s' (List.mem_cons_of_mem _ hs')
    · rw [hatomic] at hnot
      cases hnot
  | statements => exact hx.elim

/-! ## Section 6: One execution of a seeder plan -/

/-- What holds wherever the only execution of a seeder plan awaits. -/
def SeederPlan.Executing (plan : SeederPlan σ) (x : SeederExecution σ) (log : List (Logged String)) :
    Prop :=
  match x with
  | .run rest =>
      (∀ seeder ∈ rest, seeder.name ∈ plan.keys) ∧
        (committed log ++ rest.map NormalizedSeeder.name).Nodup
  | .operations seeder _ rest =>
      (∀ s ∈ seeder :: rest, s.name ∈ plan.keys) ∧
        (committed log ++ seeder.name :: rest.map NormalizedSeeder.name).Nodup

theorem duplicateName_none {names : List String} (h : duplicateName names = none) : names.Nodup := by
  induction names with
  | nil => exact List.nodup_nil
  | cons name rest ih =>
    unfold duplicateName at h
    by_cases hmem : name ∈ rest
    · rw [if_pos hmem] at h
      cases h
    · rw [if_neg hmem] at h
      exact List.nodup_cons.mpr ⟨hmem, ih h⟩

theorem normalizeSeeders_nodup {seeders : List (SeederInput σ)} {normalized : List (NormalizedSeeder σ)}
    (h : normalizeSeeders seeders = .ok normalized) :
    (normalized.map NormalizedSeeder.name).Nodup := by
  unfold normalizeSeeders at h
  cases hall : seeders.mapM normalizeSeeder with
  | error e =>
    rw [hall] at h
    cases h
  | ok l =>
    simp only [hall] at h
    cases hdup : duplicateName (l.map NormalizedSeeder.name) with
    | some name =>
      rw [hdup] at h
      cases h
    | none =>
      rw [hdup] at h
      cases h
      exact duplicateName_none hdup

/-- A normalized seeder keeps its definition, and the definition its name. -/
theorem normalizeSeeder_again {definition : SeederInput σ} {seeder : NormalizedSeeder σ}
    (h : normalizeSeeder definition = .ok seeder) : normalizeSeeder seeder.definition = .ok seeder := by
  cases definition with
  | callback name run =>
    have h' := h
    unfold normalizeSeeder at h
    simp only at h
    split at h
    · cases h
    · cases h
      exact h'
  | definition name transaction operations run =>
    have h' := h
    unfold normalizeSeeder at h
    simp only at h
    split at h
    · cases h
    · cases h
      exact h'

theorem select_sublist {normalized selected : List (NormalizedSeeder σ)} {only : Option (List String)}
    (h : select normalized only = .ok selected) : selected.Sublist normalized := by
  unfold select at h
  cases only with
  | none =>
    cases h
    exact List.Sublist.refl _
  | some only =>
    simp only at h
    split at h
    · cases h
      exact List.filter_sublist
    · cases h

/-- Normalizing the planned definitions gives the planned seeders. -/
theorem normalizeSeeders_planned {selected normalized : List (NormalizedSeeder σ)}
    (hselected : ∀ seeder ∈ selected, normalizeSeeder seeder.definition = .ok seeder)
    (h : normalizeSeeders (selected.map NormalizedSeeder.definition) = .ok normalized) :
    normalized = selected := by
  have hall : (selected.map NormalizedSeeder.definition).mapM normalizeSeeder = .ok selected := by
    clear h
    induction selected with
    | nil => rfl
    | cons seeder rest ih =>
      rw [List.map_cons, List.mapM_cons, hselected seeder List.mem_cons_self,
        ih fun s hs => hselected s (List.mem_cons_of_mem _ hs)]
      rfl
  unfold normalizeSeeders at h
  simp only [hall] at h
  cases hdup : duplicateName (selected.map NormalizedSeeder.name) with
  | some name =>
    rw [hdup] at h
    cases h
  | none =>
    rw [hdup] at h
    cases h
    rfl

theorem normalizeSeeders_mem {seeders : List (SeederInput σ)} {normalized : List (NormalizedSeeder σ)}
    (h : normalizeSeeders seeders = .ok normalized) :
    ∀ seeder ∈ normalized, normalizeSeeder seeder.definition = .ok seeder := by
  unfold normalizeSeeders at h
  cases hall : seeders.mapM normalizeSeeder with
  | error e =>
    rw [hall] at h
    cases h
  | ok l =>
    simp only [hall] at h
    have hl : normalized = l := by
      cases hdup : duplicateName (l.map NormalizedSeeder.name) with
      | some name =>
        rw [hdup] at h
        cases h
      | none =>
        rw [hdup] at h
        cases h
        rfl
    subst hl
    clear h
    induction seeders generalizing normalized with
    | nil =>
      cases hall
      exact fun seeder hseeder => (nomatch hseeder)
    | cons definition rest ih =>
      rw [List.mapM_cons] at hall
      obtain ⟨first, hfirst, hrest⟩ := Outcome.bind_eq_ok.mp hall
      obtain ⟨others, hothers, hcons⟩ := Outcome.bind_eq_ok.mp hrest
      cases hcons
      intro seeder hseeder
      rcases List.mem_cons.mp hseeder with rfl | hmem
      · exact normalizeSeeder_again hfirst
      · exact ih hothers seeder hmem

/-- `applyPlan` starts with planned seeders, under distinct names. -/
theorem seederTask_first {r : SeederRunner σ} {only : Option (List String)} {plan : SeederPlan σ}
    (hplan : r.plan only = .ok plan) (live : List (SeederInput σ)) {x : SeederExecution σ}
    (hx : (plan.task r live).first = some x) : plan.Executing x [] := by
  unfold SeederRunner.plan at hplan
  cases hall : normalizeSeeders r.seeders with
  | error e =>
    rw [hall] at hplan
    cases hplan
  | ok all =>
    simp only [hall] at hplan
    cases hselect : select all only with
    | error e =>
      rw [hselect] at hplan
      cases hplan
    | ok selected =>
      simp only [hselect] at hplan
      cases hplan
      have hmem : ∀ seeder ∈ selected, normalizeSeeder seeder.definition = .ok seeder :=
        fun seeder hseeder =>
          normalizeSeeders_mem hall seeder ((select_sublist hselect).subset hseeder)
      unfold SeederPlan.task at hx
      simp only at hx
      cases hnormalized : normalizeSeeders (selected.map NormalizedSeeder.definition) with
      | error e =>
        rw [hnormalized] at hx
        cases hx
      | ok normalized =>
        simp only [hnormalized] at hx
        cases hagain : select normalized (some (selected.map NormalizedSeeder.name)) with
        | error e =>
          rw [hagain] at hx
          cases hx
        | ok again =>
          simp only [hagain] at hx
          cases hx
          have hsame := normalizeSeeders_planned hmem hnormalized
          have hsub := select_sublist hagain
          refine ⟨fun seeder hseeder => ?_, ?_⟩
          · have hin : seeder ∈ selected := hsame ▸ hsub.subset hseeder
            show seeder.name ∈ (selected.map (seederPlanEntry r.driver)).map SeederPlanEntry.name
            rw [List.map_map]
            exact List.mem_map_of_mem hin
          · exact (normalizeSeeders_nodup hnormalized).sublist (hsub.map _)

/-- A step of the execution starts planned seeders, and commits each once. -/
theorem seeder_step {plan : SeederPlan σ} {d : Driver} {state : σ} {x : SeederExecution σ}
    {log : List (Logged String)} {fault : Option Nat} (hx : plan.Executing x log)
    (hpost : UsedOnce plan.keys log)
    {result : σ × List (Logged String) × Option (SeederExecution σ)}
    (hresult : seederStep d state x fault = result) :
    UsedOnce plan.keys (log ++ result.2.1) ∧
      ∀ x', result.2.2 = some x' → plan.Executing x' (log ++ result.2.1) := by
  subst hresult
  have hnothing : UsedOnce plan.keys (log ++ []) := (List.append_nil log).symm ▸ hpost
  cases x with
  | run rest =>
    cases rest with
    | nil => exact ⟨hnothing, fun x' hx' => (nomatch hx')⟩
    | cons seeder rest =>
      obtain ⟨hkeys, hnodup⟩ := hx
      have hkey := hkeys seeder List.mem_cons_self
      have hrest : ∀ s ∈ rest, s.name ∈ plan.keys := fun s hs => hkeys s (List.mem_cons_of_mem _ hs)
      have hfresh : seeder.name ∉ committed log := fun hmem =>
        (List.nodup_append.mp hnodup).2.2 _ hmem _ List.mem_cons_self rfl
      -- a seeder that is done leaves the others to run
      have hdone : ∀ x', some (SeederExecution.run rest) = some x' → plan.Executing x'
          (log ++ [.started seeder.name, .committed seeder.name]) := by
        intro x' hx'
        cases hx'
        refine ⟨hrest, ?_⟩
        rw [committed_append]
        show ((committed log ++ [seeder.name]) ++ _).Nodup
        rw [List.append_assoc]
        exact hnodup
      unfold seederStep
      simp only
      split
      · exact ⟨hnothing, fun x' hx' => (nomatch hx')⟩
      · split
        · split
          · exact ⟨hpost.start hkey, fun x' hx' => (nomatch hx')⟩
          · exact ⟨hpost.run hkey hfresh, hdone⟩
        · split
          · refine ⟨hpost.start hkey, fun x' hx' => ?_⟩
            cases hx'
            refine ⟨hkeys, ?_⟩
            rw [committed_started]
            exact hnodup
          · split
            · exact ⟨hpost.run hkey hfresh, hdone⟩
            · exact ⟨hpost.start hkey, fun x' hx' => (nomatch hx')⟩
          · split
            · exact ⟨hpost.run hkey hfresh, hdone⟩
            · exact ⟨hpost.start hkey, fun x' hx' => (nomatch hx')⟩
          · exact ⟨hpost.start hkey, fun x' hx' => (nomatch hx')⟩
  | operations seeder remaining rest =>
    obtain ⟨hkeys, hnodup⟩ := hx
    cases remaining with
    | nil =>
      have hfresh : seeder.name ∉ committed log := fun hmem =>
        (List.nodup_append.mp hnodup).2.2 _ hmem _ List.mem_cons_self rfl
      refine ⟨hpost.commit (hkeys seeder List.mem_cons_self) hfresh, fun x' hx' => ?_⟩
      cases hx'
      refine ⟨fun s hs => hkeys s (List.mem_cons_of_mem _ hs), ?_⟩
      show (committed (log ++ [_]) ++ _).Nodup
      rw [committed_append]
      show ((committed log ++ [seeder.name]) ++ _).Nodup
      rw [List.append_assoc]
      exact hnodup
    | cons op remaining =>
      unfold seederStep
      simp only
      split
      · refine ⟨hnothing, fun x' hx' => ?_⟩
        cases hx'
        show plan.Executing _ (log ++ [])
        rw [List.append_nil]
        exact ⟨hkeys, hnodup⟩
      · exact ⟨hnothing, fun x' hx' => (nomatch hx')⟩

/-! ## Section 7: Every run of overlapping calls -/

/-- In every run of calls of `applyPlan` on one plan, up or down, in which no
    call takes the plan after another took it, save where overlapping does no
    harm, and every squash is reached in its planned mode, the entries of the
    plan are committed at most once and nothing else is executed; likewise for a
    seeder plan. -/
theorem plans_used_once (σ : Type) :
    (∀ (r : MigrationRunner σ) (direction : Direction) (planned start : World σ)
      (plan : MigrationPlan σ) (live : List (Migration σ)) (now : String → String)
      (s : SingleUse.State (World σ) (Execution σ) (Logged (String × Mode))),
      r.plan direction planned = .ok plan →
      Run (plan.task r live now).next
        ((plan.task r live now).Allowed (plan.Shareable r.driver) plan.KeepsMode) (.initial start) s →
      UsedOnce plan.keys s.log) ∧
    (∀ (r : SeederRunner σ) (only : Option (List String)) (start : σ)
      (plan : SeederPlan σ) (live : List (SeederInput σ))
      (s : SingleUse.State σ (SeederExecution σ) (Logged String)),
      r.plan only = .ok plan →
      Run (plan.task r live).next
        ((plan.task r live).Allowed (plan.entries = []) fun _ _ => True) (.initial start) s →
      UsedOnce plan.keys s.log) := by
  refine ⟨?_, ?_⟩
  · intro r direction planned start plan live now s hplan hrun
    have hchecked : (∀ check ∈ (plan.task r live now).checks, ∃ f, check start f = true) →
        start.history.rows.Perm plan.history := by
      intro hchecks
      obtain ⟨f, hcheck⟩ := hchecks _ List.mem_cons_self
      exact List.isPerm_iff.mp (Bool.and_eq_true_iff.mp hcheck).2
    by_cases hempty : plan.entries = []
    · -- an empty plan has nothing to execute
      apply shareable_rule (fun _ log => log = []) (fun _ => False) (UsedOnce plan.keys)
        (UsedOnce.nil _) (fun _ log hlog => hlog ▸ UsedOnce.nil _) (fun _ _ => rfl) ?_
        (fun _ _ _ _ _ hx => hx.elim) hrun
      intro x hx
      have hx : (if plan.entries.isEmpty then none else some Execution.status) = some x := hx
      rw [hempty] at hx
      cases hx
    · have hfirst : ∀ x, (plan.task r live now).first = some x → x = .status := by
        intro x hx
        have hx : (if plan.entries.isEmpty then none else some Execution.status) = some x := hx
        rw [List.isEmpty_eq_false_iff.mpr hempty] at hx
        exact (Option.some.inj hx).symm
      by_cases hplain : plan.direction = .up ∧ r.driver.atomic = true ∧
          ∀ entry ∈ plan.entries, entry.mode = .apply
      · obtain ⟨hup, hatomic, happly⟩ := hplain
        apply shareable_rule plan.Recorded plan.Applying (UsedOnce plan.keys) (UsedOnce.nil _)
          (fun _ _ hlog => hlog.1) ?_ ?_ ?_ hrun
        · intro _ hchecks
          have hperm := hchecked hchecks
          refine ⟨UsedOnce.nil _, fun name hname => ?_, fun entry hentry => (nomatch hentry)⟩
          exact (hperm.map AppliedMigration.name).mem_iff.mpr hname
        · intro x hx
          rw [hfirst x hx]
          trivial
        · intro w x log f hlog hx hkeeps
          exact applying_step hplan live now hup hatomic happly hlog hx hkeeps rfl
      · have hnot : ¬ plan.Shareable r.driver := not_or.mpr ⟨hempty, hplain⟩
        have hexclusive := allowed_exclusive hnot hrun
        apply exclusive_rule plan.Executing (UsedOnce plan.keys) (UsedOnce.nil _) ?_ ?_ hexclusive
        · intro _ hchecks x hx
          rw [hfirst x hx]
          exact ⟨hchecked hchecks, rfl⟩
        · intro w x log f hx hkeeps hpost
          exact executing_step hplan live now hempty hx hkeeps hpost rfl
  · intro r only start plan live s hplan hrun
    by_cases hempty : plan.entries = []
    · have hkeys : plan.keys = [] := by rw [SeederPlan.keys, hempty, List.map_nil]
      apply shareable_rule (fun _ log => log = []) (fun x => x = .run []) (UsedOnce plan.keys)
        (UsedOnce.nil _) (fun _ log hlog => hlog ▸ UsedOnce.nil _) (fun _ _ => rfl) ?_ ?_ hrun
      · intro x hx
        have hplanned := seederTask_first hplan live hx
        cases x with
        | run rest =>
          cases rest with
          | nil => rfl
          | cons seeder rest =>
            have hmem := hplanned.1 seeder List.mem_cons_self
            rw [hkeys] at hmem
            cases hmem
        | operations seeder remaining rest =>
          have hmem := hplanned.1 seeder List.mem_cons_self
          rw [hkeys] at hmem
          cases hmem
      · rintro state x log f hlog rfl _
        exact ⟨(List.append_nil log).trans hlog, fun x' hx' => (nomatch hx')⟩
    · have hexclusive := allowed_exclusive hempty hrun
      exact exclusive_rule (fun _ x log => plan.Executing x log) (UsedOnce plan.keys)
        (UsedOnce.nil _) (fun _ _ x hx => seederTask_first hplan live hx)
        (fun state x log f hx _ hpost => seeder_step hx hpost rfl) hexclusive

/-! ## Section 8: Plans used twice -/

def reversible (name table : String) : Migration (List String) where
  name := name
  replaces := none
  operations := some
    { up := [⟨some [createTable table]⟩]
      down := some [⟨some [fun schema => some (schema.erase table)]⟩] }
  up := none
  down := none

/-- Two tables, on a database with transactions. -/
def blog : MigrationRunner (List String) where
  migrations := [reversible "001_users" "users", reversible "002_posts" "posts"]
  driver := { transactions := true, batch := false }
  hashing := { checksum := Migration.name, rawChecksum := Migration.name }
  localeCompare := JsString.codePointOrder

def migrated : World (List String) where
  schema := ["posts", "users"]
  history :=
    { rows := [⟨"002_posts", "002_posts", 2, "tuesday"⟩, ⟨"001_users", "001_users", 1, "monday"⟩]
      nodup := by decide }

/-- The plan to revert the newest migration. -/
def newestDown : MigrationPlan (List String) where
  direction := .down
  entries := [⟨"002_posts", .revert, true⟩]
  history := migrated.history.rows
  checksums := ["001_users", "002_posts"]
  definitions := blog.migrations

def newestDownTask := newestDown.task blog blog.migrations fun _ => "now"

/-- A seeder that inserts a user. -/
def demo : SeederRunner (List String) where
  seeders := [.definition "demo" none (some [⟨true, fun users => some ("user" :: users)⟩]) none]
  driver := { transactions := true, batch := false }
  definitionChecksum := fun seeders => ", ".intercalate (seeders.map NormalizedSeeder.name)

def demoPlan : SeederPlan (List String) where
  entries := [⟨"demo", .auto, true⟩]
  definitions := "demo"
  names := ["demo"]
  seeders := demo.seeders

def demoTask := demoPlan.task demo demo.seeders

theorem blog_order : blog.order = blog.migrations := List.mergeSort_of_pairwise (by decide)

theorem newestDown_plan : blog.plan .down migrated = .ok newestDown := by
  simp only [MigrationRunner.plan, MigrationRunner.status, MigrationRunner.sorted, blog_order]
  rfl

/-- Two calls validate a plan to revert `002_posts` before either takes it: the
    second reverts `001_users` as well.  Two calls on a seeder plan seed twice. -/
theorem overlapping_calls_reuse_plan :
    blog.plan .down migrated = .ok newestDown ∧
    (∃ s, exec newestDownTask.next (.initial migrated)
        [.begin, .begin, .resume 0 none, .resume 1 none, .resume 0 none, .resume 1 none,
          .resume 0 none, .resume 0 none, .resume 0 none, .resume 0 none,
          .resume 1 none, .resume 1 none, .resume 1 none, .resume 1 none] = some s ∧
      s.shared.schema = [] ∧ ¬ UsedOnce newestDown.keys s.log) ∧
    demo.plan none = .ok demoPlan ∧
    ∃ s, exec demoTask.next (.initial [])
        [.begin, .begin, .resume 0 none, .resume 1 none, .resume 0 none, .resume 1 none] = some s ∧
      s.shared = ["user", "user"] ∧ ¬ UsedOnce demoPlan.keys s.log := by
  refine ⟨newestDown_plan, ?_, rfl, ?_⟩
  · have horder : ({ blog with migrations := newestDown.definitions } :
        MigrationRunner (List String)).order = blog.migrations := blog_order
    have hlive : ({ blog with migrations := blog.migrations } :
        MigrationRunner (List String)).order = blog.migrations := blog_order
    have hrun : ∃ s, exec newestDownTask.next (.initial migrated)
        [.begin, .begin, .resume 0 none, .resume 1 none, .resume 0 none, .resume 1 none,
          .resume 0 none, .resume 0 none, .resume 0 none, .resume 0 none,
          .resume 1 none, .resume 1 none, .resume 1 none, .resume 1 none] = some s ∧
        s.shared.schema = [] ∧
        s.log = [.started ("002_posts", .revert), .committed ("002_posts", .revert),
          .started ("001_users", .revert), .committed ("001_users", .revert)] := by
      simp only [newestDownTask, exec, SingleUse.Task.next, MigrationPlan.task,
        MigrationRunner.executionStep, MigrationRunner.status, MigrationRunner.sorted, horder, hlive]
      exact ⟨_, rfl, rfl, rfl⟩
    obtain ⟨s, hexec, hschema, hlog⟩ := hrun
    refine ⟨s, hexec, hschema, fun hused => ?_⟩
    have hunplanned := hused.1 ("001_users", .revert) (.inl (hlog ▸ by decide))
    exact absurd hunplanned (by decide)
  · refine ⟨_, rfl, rfl, fun hused => ?_⟩
    exact absurd hused.2 (by decide)

/-- A call reverts the newest migration while a second one is turned away; a
    seeder runs. -/
theorem plans_used_once_in_turn :
    (∃ s, Run newestDownTask.next (newestDownTask.Allowed (newestDown.Shareable blog.driver)
        newestDown.KeepsMode) (.initial migrated) s ∧
      s.shared.schema = ["users"] ∧ s.log = [.started ("002_posts", .revert),
        .committed ("002_posts", .revert)] ∧ UsedOnce newestDown.keys s.log) ∧
    ∃ s, Run demoTask.next (demoTask.Allowed (demoPlan.entries = []) fun _ _ => True) (.initial []) s ∧
      s.shared = ["user"] ∧ UsedOnce demoPlan.keys s.log := by
  refine ⟨?_, ?_⟩
  · have horder : ({ blog with migrations := newestDown.definitions } :
        MigrationRunner (List String)).order = blog.migrations := blog_order
    have hlive : ({ blog with migrations := blog.migrations } :
        MigrationRunner (List String)).order = blog.migrations := blog_order
    have hdown : ∀ w x, newestDown.KeepsMode w x := by
      intro w x
      cases x with
      | next batch rest =>
        cases rest with
        | nil => trivial
        | cons s rest => exact .inr rfl
      | _ => trivial
    let head := blog.statusOf migrated.history (reversible "002_posts" "posts")
    let world : World (List String) := ⟨["users"], migrated.history.delete "002_posts"⟩
    have h₁ : newestDownTask.next (.initial migrated) .begin =
        some ⟨migrated, true, [.checking 0], []⟩ := rfl
    have h₂ : newestDownTask.next ⟨migrated, true, [.checking 0], []⟩ (.resume 0 none) =
        some ⟨migrated, true, [.checking 1], []⟩ := rfl
    have h₃ : newestDownTask.next ⟨migrated, true, [.checking 1], []⟩ (.resume 0 none) =
        some ⟨migrated, false, [.executing .status], []⟩ := by
      simp only [newestDownTask, SingleUse.Task.next, MigrationPlan.task, MigrationRunner.sorted,
        hlive]
      rfl
    have h₄ : newestDownTask.next ⟨migrated, false, [.executing .status], []⟩ .begin =
        some ⟨migrated, false, [.executing .status, .finished], []⟩ := rfl
    have h₅ : newestDownTask.next ⟨migrated, false, [.executing .status, .finished], []⟩
        (.resume 0 none) =
        some ⟨migrated, false, [.executing (.next 0 [head]), .finished], []⟩ := by
      simp only [newestDownTask, SingleUse.Task.next, MigrationPlan.task,
        MigrationRunner.executionStep, MigrationRunner.status, MigrationRunner.sorted, horder]
      rfl
    have h₆ : newestDownTask.next ⟨migrated, false, [.executing (.next 0 [head]), .finished], []⟩
        (.resume 0 none) =
        some ⟨migrated, false, [.executing (.migrate 0 .revert head []), .finished], []⟩ := rfl
    have h₇ : newestDownTask.next
        ⟨migrated, false, [.executing (.migrate 0 .revert head []), .finished], []⟩ (.resume 0 none) =
        some ⟨world, false, [.executing (.next 0 []), .finished],
          [.started ("002_posts", .revert), .committed ("002_posts", .revert)]⟩ := rfl
    have hrun : Run newestDownTask.next (newestDownTask.Allowed (newestDown.Shareable blog.driver)
        newestDown.KeepsMode) (.initial migrated) ⟨world, false, [.executing (.next 0 []), .finished],
          [.started ("002_posts", .revert), .committed ("002_posts", .revert)]⟩ := by
      apply Run.head trivial h₁
      apply Run.head ⟨fun _ => .inl rfl, fun x _ => hdown _ x⟩ h₂
      apply Run.head ⟨fun _ => .inl rfl, fun x _ => hdown _ x⟩ h₃
      apply Run.head trivial h₄
      apply Run.head (allowed_executing rfl (hdown _ _) none) h₅
      apply Run.head (allowed_executing rfl (hdown _ _) none) h₆
      exact Run.head (allowed_executing rfl (hdown _ _) none) h₇ (.refl _)
    exact ⟨_, hrun, rfl, rfl, (plans_used_once _).1 blog .down migrated migrated newestDown
      blog.migrations (fun _ => "now") _ newestDown_plan hrun⟩
  · have hrun : Run demoTask.next (demoTask.Allowed (demoPlan.entries = []) fun _ _ => True)
        (.initial []) ⟨["user"], false, [.executing (.run [])],
          [.started "demo", .committed "demo"]⟩ := by
      have h₁ : demoTask.next (.initial []) .begin = some ⟨[], true, [.checking 0], []⟩ := rfl
      have h₂ : demoTask.next ⟨[], true, [.checking 0], []⟩ (.resume 0 none) =
          some ⟨[], false, [.executing (.run [⟨demo.seeders.head (by decide), "demo", .auto⟩])], []⟩ :=
        rfl
      have h₃ : demoTask.next
          ⟨[], false, [.executing (.run [⟨demo.seeders.head (by decide), "demo", .auto⟩])], []⟩
          (.resume 0 none) =
          some ⟨["user"], false, [.executing (.run [])], [.started "demo", .committed "demo"]⟩ := rfl
      apply Run.head trivial h₁
      apply Run.head ⟨fun _ => .inl rfl, fun _ _ => trivial⟩ h₂
      exact Run.head (allowed_executing rfl trivial none) h₃ (.refl _)
    exact ⟨_, hrun, rfl, (plans_used_once _).2 demo none [] demoPlan demo.seeders _ rfl hrun⟩

end Cossack.Database
