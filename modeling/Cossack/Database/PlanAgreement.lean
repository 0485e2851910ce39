import Cossack.Database.PlanUse
import Mathlib

/-! # What is planned and what is done

    `plan` sorts every pending migration by the history it starts from, `up` by
    the history each round finds.  The two say the same exactly where no round
    changes what a later squash replaces. -/

namespace Cossack.Database

variable {σ : Type}

/-! ## Section 1: The actions of a run -/

def Migration.replacements (m : Migration σ) : List String := m.replaces.getD []

/-- The branch a round of `up` takes. -/
def upAction (s : MigrationStatus σ) (w : World σ) : Option Mode :=
  let replacements := s.migration.replaces.getD []
  let appliedReplacements := replacements.filter (· ∈ w.history.names)
  if replacements ≠ [] ∧ appliedReplacements ≠ [] ∧
      appliedReplacements.length ≠ replacements.length then none
  else if replacements ≠ [] ∧ appliedReplacements.length = replacements.length then
    some .consolidate
  else some .apply

/-- The rounds of `up` that end well, and what each of them does. -/
def upActions (d : Driver) (now : String → String) (batch : Nat) :
    List (MigrationStatus σ) → World σ → List (String × Mode)
  | [], _ => []
  | s :: rest, w =>
      match upAction s w, upOne d now batch s w with
      | some mode, (w', .ok ()) => (s.migration.name, mode) :: upActions d now batch rest w'
      | _, _ => []

/-- The actions that `up()` performs. -/
def MigrationRunner.upActions (r : MigrationRunner σ) (now : String → String) (w : World σ) :
    List (String × Mode) :=
  match r.status w with
  | .error _ => []
  | .ok statuses =>
      Database.upActions r.driver now (nextBatch w.history)
        (statuses.filter fun s => s.state = .pending) w

/-- A round does what its branch says. -/
theorem upOne_action (d : Driver) (now : String → String) (batch : Nat) (s : MigrationStatus σ)
    (w : World σ) :
    match upAction s w with
    | none => ∃ e, upOne d now batch s w = (w, .error e)
    | some .consolidate => upOne d now batch s w =
        runMigration d s.migration.name (consolidate d now batch s (s.migration.replaces.getD [])) w
    | some _ => upOne d now batch s w =
        runMigration d s.migration.name (apply d now batch s) w := by
  unfold upAction upOne
  simp only
  split_ifs with hpartial hall
  · exact ⟨_, rfl⟩
  · rfl
  · rfl

/-- A squash is consolidated where all it replaces is recorded, and applied where
    none of it is. -/
theorem upMode_eq_some {recorded : List String} {m : Migration σ} {mode : Mode} :
    upMode recorded m = some mode ↔
      (mode = .consolidate ∧ m.replacements ≠ [] ∧ ∀ name ∈ m.replacements, name ∈ recorded) ∨
        (mode = .apply ∧ ∀ name ∈ m.replacements, name ∉ recorded) := by
  unfold upMode
  change (if m.replacements.filter (· ∈ recorded) ≠ [] ∧
      (m.replacements.filter (· ∈ recorded)).length ≠ m.replacements.length then none
    else if m.replacements ≠ [] ∧
      (m.replacements.filter (· ∈ recorded)).length = m.replacements.length then
        some Mode.consolidate
    else some Mode.apply) = some mode ↔ _
  have hall : (m.replacements.filter (· ∈ recorded)).length = m.replacements.length ↔
      ∀ name ∈ m.replacements, name ∈ recorded := by
    simp
  have hnone : m.replacements.filter (· ∈ recorded) = [] ↔
      ∀ name ∈ m.replacements, name ∉ recorded := by
    simp [List.filter_eq_nil_iff]
  simp only [ne_eq, hnone, hall]
  split_ifs with hpartial hfull
  · constructor
    · nofun
    · rintro (⟨-, -, hevery⟩ | ⟨-, hno⟩)
      · exact absurd hevery hpartial.2
      · exact absurd hno hpartial.1
  · obtain ⟨hne, hevery⟩ := hfull
    constructor
    · intro heq
      cases heq
      exact .inl ⟨rfl, hne, hevery⟩
    · rintro (⟨rfl, -, -⟩ | ⟨-, hno⟩)
      · rfl
      · obtain ⟨name, hname⟩ := List.exists_mem_of_ne_nil _ hne
        exact absurd (hevery name hname) (hno name hname)
  · have hno : ∀ name ∈ m.replacements, name ∉ recorded := by
      intro name hname hin
      by_cases hevery : ∀ name ∈ m.replacements, name ∈ recorded
      · exact hfull ⟨List.ne_nil_of_mem hname, hevery⟩
      · exact hpartial ⟨fun hno => hno name hname hin, hevery⟩
    constructor
    · intro heq
      cases heq
      exact .inr ⟨rfl, hno⟩
    · rintro (⟨-, hne, hevery⟩ | ⟨rfl, -⟩)
      · exact absurd ⟨hne, hevery⟩ hfull
      · rfl

theorem upAction_eq (s : MigrationStatus σ) (w : World σ) :
    upAction s w = upMode w.history.names s.migration := by
  unfold upAction upMode
  simp only
  by_cases hempty : s.migration.replaces.getD [] = []
  · simp [hempty]
  · simp [hempty]

/-! ## Section 2: Where planned and performed actions agree -/

/-- The squash is planned to be consolidated. -/
def Migration.Recorded (m : Migration σ) (recorded : List String) : Prop :=
  ∀ name ∈ m.replacements, name ∈ recorded

/-- All that a migration replaces is recorded, or none of it, and none of it is
    recorded or deleted by the migrations that run before it. -/
def Undisturbed (recorded : List String) (before : List (Migration σ)) (m : Migration σ) : Prop :=
  (m.Recorded recorded ∨ ∀ name ∈ m.replacements, name ∉ recorded) ∧
    ∀ name ∈ m.replacements, ∀ e ∈ before,
      e.name ≠ name ∧ (e.Recorded recorded → name ∉ e.replacements)

/-- The definitions a run of `up` applies, in their order. -/
def MigrationRunner.pending (r : MigrationRunner σ) (h : History) : List (Migration σ) :=
  r.order.filter fun m => m.name ∉ h.names

def MigrationRunner.Undisturbed (r : MigrationRunner σ) (h : History) : Prop :=
  ∀ before m after, r.pending h = before ++ m :: after →
    Database.Undisturbed h.names before m

/-- The names a run has recorded when it has done what was planned: those of the
    start that no squash replaced, and the new ones. -/
def Reached (recorded : List String) (done : List (Migration σ)) (names : List String) : Prop :=
  ∀ name, name ∈ names ↔
    (name ∈ recorded ∧ ∀ e ∈ done, e.Recorded recorded → name ∉ e.replacements) ∨
      ∃ e ∈ done, e.name = name

theorem reached_nil (recorded : List String) : Reached (σ := σ) recorded [] recorded := by
  simp [Reached]

/-- At its turn a migration does what was planned exactly where nothing it replaces
    was disturbed. -/
theorem upMode_turn {recorded names : List String} {done : List (Migration σ)} {m : Migration σ}
    (hreached : Reached recorded done names) (hnew : ∀ e ∈ done, e.name ∉ recorded) {mode : Mode}
    (hmode : upMode names m = some mode) :
    upMode recorded m = some mode ↔ Undisturbed recorded done m := by
  rw [upMode_eq_some] at hmode ⊢
  constructor
  · rintro (⟨rfl, -, hall⟩ | ⟨rfl, hnone⟩)
    · have hturn : ∀ name ∈ m.replacements, name ∈ names := by
        rcases hmode with ⟨-, -, hturn⟩ | ⟨hcontra, -⟩
        · exact hturn
        · cases hcontra
      refine ⟨.inl hall, fun name hname e he => ⟨?_, fun hrecorded hreplaced => ?_⟩⟩
      · rintro rfl
        exact hnew e he (hall e.name hname)
      · rcases (hreached name).mp (hturn name hname) with ⟨-, hkept⟩ | ⟨d, hd, rfl⟩
        · exact hkept e he hrecorded hreplaced
        · exact hnew d hd (hall d.name hname)
    · have hturn : ∀ name ∈ m.replacements, name ∉ names := by
        rcases hmode with ⟨hcontra, -⟩ | ⟨-, hturn⟩
        · cases hcontra
        · exact hturn
      refine ⟨.inr hnone, fun name hname e he => ⟨?_, fun hrecorded hreplaced => ?_⟩⟩
      · rintro rfl
        exact hturn e.name hname ((hreached e.name).mpr (.inr ⟨e, he, rfl⟩))
      · exact hnone name hname (hrecorded name hreplaced)
  · rintro ⟨hall | hnone, hbefore⟩
    · have hturn : ∀ name ∈ m.replacements, name ∈ names := by
        intro name hname
        exact (hreached name).mpr
          (.inl ⟨hall name hname, fun e he => (hbefore name hname e he).2⟩)
      rcases hmode with ⟨rfl, hne, -⟩ | ⟨rfl, hout⟩
      · exact .inl ⟨rfl, hne, hall⟩
      · exact .inr ⟨rfl, fun name hname => absurd (hturn name hname) (hout name hname)⟩
    · have hturn : ∀ name ∈ m.replacements, name ∉ names := by
        intro name hname hin
        rcases (hreached name).mp hin with ⟨hrecorded, -⟩ | ⟨e, he, heq⟩
        · exact hnone name hname hrecorded
        · exact (hbefore name hname e he).1 heq
      rcases hmode with ⟨rfl, hne, hin⟩ | ⟨rfl, -⟩
      · obtain ⟨name, hname⟩ := List.exists_mem_of_ne_nil _ hne
        exact absurd (hin name hname) (hturn name hname)
      · exact .inr ⟨rfl, hnone⟩

/-- The names after a round that did what was planned. -/
theorem Reached.next {recorded : List String} {done : List (Migration σ)} {d : Driver}
    {now : String → String} {batch : Nat} {s : MigrationStatus σ} {w w' : World σ}
    (h : Reached recorded done w.history.names) (hnew : ∀ e ∈ done, e.name ∉ recorded)
    (hone : upOne d now batch s w = (w', .ok ()))
    (hsame : upMode recorded s.migration = upMode w.history.names s.migration) :
    Reached recorded (done ++ [s.migration]) w'.history.names := by
  have hreplaced : s.replacements = s.migration.replacements := rfl
  intro name
  have hnames : name ∈ w'.history.names ↔ name = s.migration.name ∨
      (name ∈ w.history.names ∧
        (s.migration.Recorded recorded → name ∉ s.migration.replacements)) := by
    rcases upOne_ok hone with ⟨⟨hne, hall⟩, hrows⟩ | ⟨hnone, hrows⟩
    · -- a consolidation, as it was planned
      have hturn : upMode w.history.names s.migration = some .consolidate :=
        upMode_eq_some.mpr (.inl ⟨rfl, hne, hall⟩)
      have hrecorded : s.migration.Recorded recorded := by
        rcases upMode_eq_some.mp (hsame.trans hturn) with ⟨-, -, hrecorded⟩ | ⟨hcontra, -⟩
        · exact hrecorded
        · cases hcontra
      simp only [History.names, hrows, hreplaced, List.map_cons, List.mem_cons, recordRow,
        List.mem_map, List.mem_filter, decide_eq_true_eq, hrecorded, true_imp_iff]
      refine or_congr_right ?_
      constructor
      · rintro ⟨row, ⟨hrow, hout⟩, rfl⟩
        exact ⟨⟨row, hrow, rfl⟩, hout⟩
      · rintro ⟨⟨row, hrow, rfl⟩, hout⟩
        exact ⟨row, ⟨hrow, hout⟩, rfl⟩
    · simp only [History.names, hrows, List.map_cons, List.mem_cons, recordRow]
      refine or_congr_right (iff_self_and.mpr ?_)
      intro hin _ hmem
      exact hnone name hmem hin
  rw [hnames, h name]
  simp only [List.mem_append, List.mem_singleton]
  constructor
  · rintro (rfl | ⟨⟨hrecorded, hkept⟩ | ⟨e, he, rfl⟩, hout⟩)
    · exact .inr ⟨s.migration, .inr rfl, rfl⟩
    · refine .inl ⟨hrecorded, ?_⟩
      rintro e (he | rfl)
      · exact hkept e he
      · exact hout
    · exact .inr ⟨e, .inl he, rfl⟩
  · rintro (⟨hrecorded, hkept⟩ | ⟨e, he | rfl, rfl⟩)
    · exact .inr ⟨.inl ⟨hrecorded, fun e he => hkept e (.inl he)⟩, hkept _ (.inr rfl)⟩
    · -- a new name is not recorded at the start, so no planned consolidation deletes it
      exact .inr ⟨.inr ⟨e, he, rfl⟩, fun hall hmem => hnew e he (hall e.name hmem)⟩
    · exact .inl rfl

/-- The rounds of a run and the plan for them agree just where no migration of the
    run is disturbed by those before it. -/
theorem upActions_iff {d : Driver} {now : String → String} {batch : Nat} {recorded : List String}
    (done : List (Migration σ)) {rest : List (MigrationStatus σ)} {w w' : World σ}
    {names : List String} (hreached : Reached recorded done w.history.names)
    (hnew : ∀ e ∈ done ++ rest.map MigrationStatus.migration, e.name ∉ recorded)
    (hloop : upLoop d now batch rest w = (w', .ok names)) :
    rest.map (fun s => (upMode recorded s.migration).map (Prod.mk s.migration.name)) =
        (upActions d now batch rest w).map some ↔
      ∀ before m after, rest.map MigrationStatus.migration = before ++ m :: after →
        Undisturbed recorded (done ++ before) m := by
  induction rest generalizing done w names with
  | nil => simp [upActions]
  | cons s rest ih =>
    obtain ⟨w₁, names₁, hone, hrest⟩ : ∃ w₁ names₁, upOne d now batch s w = (w₁, .ok ()) ∧
        upLoop d now batch rest w₁ = (w', .ok names₁) := by
      simp only [upLoop] at hloop
      split at hloop
      · cases hloop
      · rename_i w₁ hone
        split at hloop
        · cases hloop
        · rename_i w₂ names₁ hrest
          cases hloop
          exact ⟨w₁, names₁, hone, hrest⟩
    obtain ⟨mode, hmode⟩ : ∃ mode, upAction s w = some mode := by
      cases haction : upAction s w with
      | none =>
        have herror := upOne_action d now batch s w
        simp only [haction, hone] at herror
        obtain ⟨e, he⟩ := herror
        cases he
      | some mode => exact ⟨mode, rfl⟩
    have hdone : ∀ e ∈ done, e.name ∉ recorded :=
      fun e he => hnew e (List.mem_append_left _ he)
    have hturn := upMode_turn hreached hdone (upAction_eq s w ▸ hmode)
    have hactions : upActions d now batch (s :: rest) w =
        (s.migration.name, mode) :: upActions d now batch rest w₁ := by
      simp only [upActions, hmode, hone]
    rw [hactions, List.map_cons, List.map_cons, List.cons.injEq, List.map_cons]
    have hhead : (upMode recorded s.migration).map (Prod.mk s.migration.name) =
        some (s.migration.name, mode) ↔ Undisturbed recorded done s.migration := by
      rw [← hturn]
      cases upMode recorded s.migration <;> simp
    rw [hhead]
    -- once the first has done what was planned, the rest is a matter of the rest
    have htail : Undisturbed recorded done s.migration →
        (rest.map (fun s => (upMode recorded s.migration).map (Prod.mk s.migration.name)) =
            (upActions d now batch rest w₁).map some ↔
          ∀ before m after, rest.map MigrationStatus.migration = before ++ m :: after →
            Undisturbed recorded (done ++ s.migration :: before) m) := by
      intro hfirst
      have hsame := (hturn.mpr hfirst).trans (upAction_eq s w ▸ hmode).symm
      have hnext := ih _ (hreached.next hdone hone hsame) ?_ hrest
      · simpa only [List.append_assoc, List.singleton_append] using hnext
      · simpa only [List.map_cons, List.append_assoc, List.singleton_append] using hnew
    constructor
    · rintro ⟨hfirst, hrest⟩ before m after hsplit
      cases before with
      | nil =>
        obtain ⟨rfl, -⟩ := List.cons.inj hsplit
        rwa [List.append_nil]
      | cons first before =>
        obtain ⟨rfl, hsplit'⟩ := List.cons.inj hsplit
        exact (htail hfirst).mp hrest before m after hsplit'
    · intro hall
      have hfirst : Undisturbed recorded done s.migration := by
        have := hall [] s.migration _ rfl
        rwa [List.append_nil] at this
      exact ⟨hfirst, (htail hfirst).mpr fun before m after hsplit =>
        hall (s.migration :: before) m after (by rw [hsplit]; rfl)⟩

/-! ## Section 3: The plan of a run -/

/-- The entries of a plan, or that there is none. -/
theorem mapM_planEntry {recorded : List String} {selected : List (MigrationStatus σ)}
    {keys : List (String × Mode)} :
    (∃ entries, selected.mapM (planEntry .up recorded) = .ok entries ∧
        (entries.map fun entry => (entry.name, entry.mode)) = keys) ↔
      selected.map (fun s => (upMode recorded s.migration).map (Prod.mk s.migration.name)) =
        keys.map some := by
  induction selected generalizing keys with
  | nil =>
    simp only [List.mapM_nil, List.map_nil]
    constructor
    · rintro ⟨_, h, rfl⟩
      cases h
      rfl
    · intro h
      exact ⟨[], rfl, (List.map_eq_nil_iff.mp h.symm).symm⟩
  | cons s rest ih =>
    rw [List.mapM_cons, List.map_cons]
    cases hmode : upMode recorded s.migration with
    | none =>
      have hentry : ∃ e, planEntry .up recorded s = .error e := by
        unfold planEntry
        rw [show planMode .up recorded s.migration = none from hmode]
        exact ⟨_, rfl⟩
      obtain ⟨e, hentry⟩ := hentry
      rw [hentry]
      constructor
      · rintro ⟨_, h, -⟩
        cases h
      · intro h
        cases keys with
        | nil => cases h
        | cons => cases (List.cons.inj h).1
    | some mode =>
      obtain ⟨entry, hentry, hkey⟩ : ∃ entry, planEntry .up recorded s = .ok entry ∧
          (entry.name, entry.mode) = (s.migration.name, mode) := by
        unfold planEntry
        rw [show planMode .up recorded s.migration = some mode from hmode]
        exact ⟨_, rfl, rfl⟩
      rw [hentry]
      constructor
      · rintro ⟨_, h, rfl⟩
        obtain ⟨_, hfirst, hrest⟩ := Outcome.bind_eq_ok.mp h
        cases hfirst
        obtain ⟨entries, hentries, hcons⟩ := Outcome.bind_eq_ok.mp hrest
        cases hcons
        rw [ih.mp ⟨entries, hentries, rfl⟩]
        simp [hkey]
      · intro h
        cases keys with
        | nil => cases h
        | cons key keys =>
          obtain ⟨hfirst, hrest⟩ := List.cons.inj h
          obtain ⟨entries, hentries, rfl⟩ := ih.mpr hrest
          refine ⟨entry :: entries, ?_, ?_⟩
          · rw [hentries]
            rfl
          · rw [List.map_cons, hkey]
            exact congrArg (· :: _) (Option.some.inj hfirst)

theorem pending_migrations (r : MigrationRunner σ) (h : History) :
    ((r.order.map (r.statusOf h)).filter fun s => s.state = .pending).map
      MigrationStatus.migration = r.pending h := by
  rw [List.filter_map, List.map_map]
  unfold MigrationRunner.pending
  have hfilter : ∀ m : Migration σ, decide ((r.statusOf h m).state = .pending) =
      decide (m.name ∉ h.names) := fun m => decide_eq_decide.mpr statusOf_pending
  have hmap : (MigrationStatus.migration ∘ r.statusOf h) = id := rfl
  rw [hmap, List.map_id]
  congr 1
  funext m
  exact hfilter m

/-- Where no migration fails, `up()` performs just the actions that `plan('up')`
    reports exactly if every pending squash replaces what is all recorded or not
    recorded at all, and nothing that is pending before it or replaced by a squash
    that is consolidated before it. -/
theorem plan_agrees_iff (r : MigrationRunner σ) (now : String → String) (w w' : World σ)
    (names : List String) (h : r.up now none w = (w', .ok names)) :
    (∃ plan, r.plan .up w = .ok plan ∧ plan.keys = r.upActions now w) ↔
      r.Undisturbed w.history := by
  obtain ⟨l, hl, hunchanged, hloop⟩ := up_ok h
  obtain ⟨rfl, -⟩ := sorted_ok hl
  have hstatus : r.status w = .ok (r.order.map (r.statusOf w.history)) := by
    simp [MigrationRunner.status, hl, Except.map]
  have hchanged : firstChanged (r.order.map (r.statusOf w.history)) = none := by
    rw [firstChanged, List.find?_eq_none]
    intro s hs
    obtain ⟨m, hm, rfl⟩ := List.mem_map.mp hs
    simpa using hunchanged m hm
  have hpending := pending_migrations r w.history
  have hnew : ∀ e ∈ [] ++ r.pending w.history, e.name ∉ w.history.names := by
    intro e he
    simpa using (List.mem_filter.mp he).2
  have hagree := upActions_iff [] (reached_nil _) (by rwa [hpending]) hloop
  simp only [hpending, List.nil_append] at hagree
  rw [MigrationRunner.Undisturbed, ← hagree, ← mapM_planEntry]
  have hactions : r.upActions now w = upActions r.driver now (nextBatch w.history)
      ((r.order.map (r.statusOf w.history)).filter fun s => s.state = .pending) w := by
    rw [MigrationRunner.upActions, hstatus]
  rw [hactions]
  constructor
  · rintro ⟨plan, hplan, hkeys⟩
    simp only [MigrationRunner.plan, hstatus, hchanged] at hplan
    split at hplan
    · cases hplan
    · rename_i entries hentries
      cases hplan
      exact ⟨entries, hentries, hkeys⟩
  · rintro ⟨entries, hentries, hkeys⟩
    have hselect : (r.selectPlanned .up none (r.order.map (r.statusOf w.history))).mapM
        (planEntry .up w.history.names) = .ok entries := hentries
    simp only [MigrationRunner.plan, hstatus, hchanged, hselect]
    exact ⟨_, rfl, hkeys⟩

/-- A squash of a migration that was applied long ago. -/
theorem pruned_plan_agrees :
    ∃ plan, pruned.plan .up originalApplied = .ok plan ∧
      plan.keys = pruned.upActions (fun _ => "now") originalApplied := by
  have horder : pruned.order = pruned.migrations := List.mergeSort_of_pairwise (by decide)
  have hrun : ∃ w', pruned.up (fun _ => "now") none originalApplied =
      (w', .ok ["010_baseline"]) := by
    simp only [MigrationRunner.up, MigrationRunner.status, MigrationRunner.sorted, horder]
    exact ⟨_, rfl⟩
  obtain ⟨w', hup⟩ := hrun
  refine (plan_agrees_iff pruned _ originalApplied w' _ hup).mpr ?_
  have hpending : pruned.pending originalApplied.history = pruned.migrations := by
    rw [MigrationRunner.pending, horder]
    rfl
  intro before m after hsplit
  rw [hpending] at hsplit
  obtain ⟨rfl, hlast⟩ | ⟨_, rfl, hcontra⟩ := List.cons_eq_append_iff.mp hsplit
  · obtain ⟨rfl, -⟩ := List.cons.inj hlast.symm
    refine ⟨.inl ?_, fun _ _ _ he => (by cases he)⟩
    intro name hname
    obtain rfl : name = "001_original" := by
      simpa [Migration.replacements, declarative] using hname
    decide
  · simp at hcontra

/-- On a fresh database the squash next to the migration it replaces is planned to
    be applied, and is consolidated. -/
theorem unpruned_plan_disagrees :
    (∃ w', unpruned.up (fun _ => "now") none ⟨[], .empty⟩ =
        (w', .ok ["001_original", "010_baseline"])) ∧
      (∃ plan, unpruned.plan .up ⟨[], .empty⟩ = .ok plan ∧
        plan.keys = [("001_original", .apply), ("010_baseline", .apply)]) ∧
      unpruned.upActions (fun _ => "now") ⟨[], .empty⟩ =
        [("001_original", .apply), ("010_baseline", .consolidate)] := by
  refine ⟨?_, ?_, ?_⟩
  · simp only [MigrationRunner.up, MigrationRunner.status, MigrationRunner.sorted, unpruned_order]
    exact ⟨_, rfl⟩
  · simp only [MigrationRunner.plan, MigrationRunner.status, MigrationRunner.sorted,
      unpruned_order]
    exact ⟨_, rfl, rfl⟩
  · simp only [MigrationRunner.upActions, MigrationRunner.status, MigrationRunner.sorted,
      unpruned_order]
    rfl

end Cossack.Database
