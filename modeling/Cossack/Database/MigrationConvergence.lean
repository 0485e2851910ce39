import Cossack.Database.MigrationRunner

/-! # Convergence of migration runs

    After a successful `up` the history should be a fixed point: nothing is
    pending, `check` passes and a second `up` does nothing.  Consolidating a
    squash deletes the history rows of the migrations it replaces, so the run
    is a fixed point exactly when no replaced migration that is still listed
    is recorded by the time its squash is reached. -/

namespace Cossack.Database

open JsString (Collation)

variable {σ : Type}

/-! ## Section 1: What one migration does to the history -/

def MigrationStatus.replacements (s : MigrationStatus σ) : List String :=
  s.migration.replaces.getD []

/-- `up` treats the squash as already applied and only rewrites history. -/
def MigrationStatus.Consolidates (s : MigrationStatus σ) (h : History) : Prop :=
  s.replacements ≠ [] ∧ ∀ name ∈ s.replacements, name ∈ h.names

theorem History.mem_names {h : History} {name : String} :
    name ∈ h.names ↔ ∃ row ∈ h.rows, row.name = name := by
  simp [History.names]

theorem History.insert_rows {h h' : History} {row : AppliedMigration}
    (hins : h.insert row = some h') : h'.rows = row :: h.rows := by
  unfold History.insert at hins
  split at hins
  · cases hins
  · cases hins; rfl

theorem execAll_schema (w w' : World σ) (effects : List (σ → Option σ)) (rest : List (Statement σ))
    (h : w.execAll (effects.map .schema ++ rest) = (w', true)) :
    ∃ w₁ : World σ, w₁.history = w.history ∧ w₁.execAll rest = (w', true) := by
  induction effects generalizing w with
  | nil => exact ⟨w, rfl, h⟩
  | cons effect effects ih =>
    simp only [List.map_cons, List.cons_append, World.execAll] at h
    cases he : effect w.schema with
    | none => simp [World.exec, he] at h
    | some s =>
      simp only [World.exec, he, Option.map_some] at h
      obtain ⟨w₁, hw₁, hrest⟩ := ih _ h
      exact ⟨w₁, hw₁, hrest⟩

theorem execAll_deletes (w w' : World σ) (names : List String) (rest : List (Statement σ))
    (h : w.execAll (names.map .deleteRow ++ rest) = (w', true)) :
    ∃ w₁ : World σ, w₁.history.rows = w.history.rows.filter (fun row => row.name ∉ names) ∧
      w₁.execAll rest = (w', true) := by
  induction names generalizing w with
  | nil => exact ⟨w, by simp, h⟩
  | cons name names ih =>
    simp only [List.map_cons, List.cons_append, World.execAll, World.exec] at h
    obtain ⟨w₁, hw₁, hrest⟩ := ih _ h
    refine ⟨w₁, ?_, hrest⟩
    rw [hw₁, History.delete, List.filter_filter]
    congr 1
    funext row
    by_cases hn : row.name = name <;> simp [hn]

theorem execAll_insert {w w' : World σ} {row : AppliedMigration}
    (h : w.execAll [.insertRow row] = (w', true)) : w'.history.rows = row :: w.history.rows := by
  simp only [World.execAll, World.exec] at h
  cases hi : w.history.insert row with
  | none => simp [hi] at h
  | some h' =>
    simp only [hi, Option.map_some, Prod.mk.injEq, and_true] at h
    rw [← h]
    exact History.insert_rows hi

/-- A queue whose raw statements all act on the schema renders to such
    statements. -/
theorem renderQueue_operations {ops : List (Operation σ)} {statements : List (Statement σ)}
    (h : renderQueue (ops.map .operation) = some statements) :
    ∃ effects : List (σ → Option σ), statements = effects.map .schema := by
  induction ops generalizing statements with
  | nil => exact ⟨[], by simpa [renderQueue] using h.symm⟩
  | cons op ops ih =>
    simp only [List.map_cons, renderQueue, Option.bind_eq_bind, Option.bind_eq_some_iff] at h
    obtain ⟨texts, _, tail, htail, heq⟩ := h
    obtain ⟨effects, rfl⟩ := ih htail
    exact ⟨texts ++ effects, by simpa using heq.symm⟩

theorem renderQueue_raw (statements : List (Statement σ)) :
    renderQueue (statements.map .raw) = some statements := by
  induction statements with
  | nil => rfl
  | cons s rest ih => simp [renderQueue, ih]

/-- Queueing a migration leaves the history alone, and what it queues renders
    to statements on the schema only. -/
theorem queueMigration_ok {m : Migration σ} {direction : Direction} {w w' : World σ}
    {queue : List (QueueItem σ)} {statements : List (Statement σ)}
    (h : queueMigration m direction w = (w', .ok queue))
    (hr : renderQueue queue = some statements) :
    w'.history = w.history ∧ ∃ effects : List (σ → Option σ), statements = effects.map .schema := by
  unfold queueMigration at h
  split at h
  · -- declarative operations, rendered while they are queued
    split at h
    · cases h
    · split at h
      · cases h
      · next hlist =>
        cases h
        rw [renderQueue_raw] at hr
        cases hr
        exact ⟨rfl, renderQueue_operations hlist⟩
  · -- a callback, whose operations are rendered by `executeAtomic`
    split at h
    · cases h
    · split at h
      · cases h
      · cases h; exact ⟨rfl, renderQueue_operations hr⟩

theorem executeAtomic_ok {d : Driver} {queue : List (QueueItem σ)} {bookkeeping : Statement σ}
    {w w' : World σ} (h : executeAtomic d queue bookkeeping w = (w', .ok ())) :
    ∃ statements, renderQueue queue = some statements ∧
      w.execAll (statements ++ [bookkeeping]) = (w', true) := by
  unfold executeAtomic at h
  split at h
  · cases h
  · next statements hr =>
    split at h
    · next w₁ he => cases h; exact ⟨statements, hr, he⟩
    · cases h

theorem runMigration_ok {d : Driver} {name : String}
    {action : World σ → World σ × Except MigrationError Unit} {w w' : World σ}
    (h : runMigration d name action w = (w', .ok ())) : action w = (w', .ok ()) := by
  unfold runMigration at h
  split at h
  · next w₁ ha => cases h; exact ha
  · cases h

theorem apply_rows {d : Driver} {now : String → String} {batch : Nat} {s : MigrationStatus σ}
    {w w' : World σ} (h : apply d now batch s w = (w', .ok ())) :
    w'.history.rows = recordRow now batch s :: w.history.rows := by
  unfold apply at h
  split at h
  · cases h
  · next w₁ queue hq =>
    obtain ⟨statements, hr, he⟩ := executeAtomic_ok h
    obtain ⟨hw₁, effects, rfl⟩ := queueMigration_ok hq hr
    obtain ⟨w₂, hw₂, hins⟩ := execAll_schema _ _ _ _ he
    rw [execAll_insert hins, hw₂, hw₁]

theorem consolidate_rows {d : Driver} {now : String → String} {batch : Nat} {s : MigrationStatus σ}
    {names : List String} {w w' : World σ} (h : consolidate d now batch s names w = (w', .ok ())) :
    w'.history.rows =
      recordRow now batch s :: w.history.rows.filter (fun row => row.name ∉ names) := by
  obtain ⟨statements, hr, he⟩ := executeAtomic_ok h
  have hmap : names.map (fun name => QueueItem.raw (Statement.deleteRow (σ := σ) name)) =
      (names.map Statement.deleteRow).map QueueItem.raw := by simp
  rw [hmap, renderQueue_raw] at hr
  cases hr
  obtain ⟨w₁, hw₁, hins⟩ := execAll_deletes _ _ _ _ he
  rw [execAll_insert hins, hw₁]

/-- Everything a successful round of the loop can do: consolidate a squash all
    of whose replaced migrations are recorded, or record a migration none of
    whose replaced migrations is. -/
theorem upOne_ok {d : Driver} {now : String → String} {batch : Nat} {s : MigrationStatus σ}
    {w w' : World σ} (h : upOne d now batch s w = (w', .ok ())) :
    (s.Consolidates w.history ∧ w'.history.rows =
        recordRow now batch s :: w.history.rows.filter (fun row => row.name ∉ s.replacements)) ∨
    ((∀ name ∈ s.replacements, name ∉ w.history.names) ∧
      w'.history.rows = recordRow now batch s :: w.history.rows) := by
  unfold upOne at h
  change (if s.replacements ≠ [] ∧ s.replacements.filter (· ∈ w.history.names) ≠ [] ∧
      (s.replacements.filter (· ∈ w.history.names)).length ≠ s.replacements.length then _ else
    if s.replacements ≠ [] ∧
      (s.replacements.filter (· ∈ w.history.names)).length = s.replacements.length then _ else _) =
    (w', Except.ok ()) at h
  split at h
  · cases h
  · next hpartial =>
    split at h
    · next hall =>
      left
      obtain ⟨hne, hlen⟩ := hall
      refine ⟨⟨hne, fun name hmem => ?_⟩, consolidate_rows (runMigration_ok h)⟩
      have := List.filter_eq_self.mp (List.filter_sublist.eq_of_length hlen) name hmem
      simpa using this
    · next hall =>
      right
      refine ⟨fun name hmem hin => ?_, apply_rows (runMigration_ok h)⟩
      have hne : s.replacements ≠ [] := List.ne_nil_of_mem hmem
      have hfilter : name ∈ s.replacements.filter (· ∈ w.history.names) :=
        List.mem_filter.mpr ⟨hmem, by simpa using hin⟩
      by_cases hlen : (s.replacements.filter (· ∈ w.history.names)).length = s.replacements.length
      · exact hall ⟨hne, hlen⟩
      · exact hpartial ⟨hne, List.ne_nil_of_mem hfilter, hlen⟩

/-- A row after a round is the one it recorded or was there before. -/
theorem upOne_row {d : Driver} {now : String → String} {batch : Nat} {s : MigrationStatus σ}
    {w w' : World σ} (h : upOne d now batch s w = (w', .ok ())) {row : AppliedMigration}
    (hrow : row ∈ w'.history.rows) : row = recordRow now batch s ∨ row ∈ w.history.rows := by
  rcases upOne_ok h with ⟨_, hrows⟩ | ⟨_, hrows⟩
  · rw [hrows, List.mem_cons, List.mem_filter] at hrow
    exact hrow.imp_right And.left
  · rw [hrows, List.mem_cons] at hrow
    exact hrow

/-! ## Section 2: What a run does to the history -/

/-- The names after a run come from before it or from the migrations it ran. -/
theorem upLoop_names {d : Driver} {now : String → String} {batch : Nat}
    {run : List (MigrationStatus σ)} {w w' : World σ} {names : List String}
    (h : upLoop d now batch run w = (w', .ok names)) :
    ∀ name ∈ w'.history.names, name ∈ w.history.names ∨ ∃ s ∈ run, s.migration.name = name := by
  induction run generalizing w names with
  | nil => simp only [upLoop] at h; cases h; exact fun name hmem => Or.inl hmem
  | cons s rest ih =>
    simp only [upLoop] at h
    split at h
    · cases h
    · next w₁ hone =>
      split at h
      · cases h
      · next w₂ names₂ hrest =>
        cases h
        intro name hmem
        rcases ih hrest name hmem with hin | ⟨t, ht, hname⟩
        · obtain ⟨row, hrow, rfl⟩ := History.mem_names.mp hin
          rcases upOne_row hone hrow with rfl | hold
          · exact Or.inr ⟨s, List.mem_cons_self, rfl⟩
          · exact Or.inl (History.mem_names.mpr ⟨row, hold, rfl⟩)
        · exact Or.inr ⟨t, List.mem_cons_of_mem _ ht, hname⟩

/-- A row survives a run in which no squash that could consolidate it away is
    reached, and every migration of the run is recorded. `done` is what has
    been recorded before this part of the run. -/
theorem upLoop_keeps {d : Driver} {now : String → String} {batch : Nat} (listed : String → Prop)
    (before : List String) {run : List (MigrationStatus σ)} {w w' : World σ} {names : List String}
    (h : upLoop d now batch run w = (w', .ok names))
    (hlisted : ∀ s ∈ run, listed s.migration.name)
    (hbefore : ∀ name ∈ w.history.names, listed name → name ∈ before)
    (hfree : ∀ pre s post, run = pre ++ s :: post → ∀ name ∈ s.replacements, listed name →
      name ∉ before ∧ ∀ t ∈ pre, t.migration.name ≠ name) :
    (∀ row ∈ w.history.rows, listed row.name → row ∈ w'.history.rows) ∧
      ∀ s ∈ run, recordRow now batch s ∈ w'.history.rows := by
  induction run generalizing w names before with
  | nil => simp only [upLoop] at h; cases h; exact ⟨fun row hrow _ => hrow, by simp⟩
  | cons s rest ih =>
    simp only [upLoop] at h
    split at h
    · cases h
    · next w₁ hone =>
      split at h
      · cases h
      · next w₂ names₂ hrest =>
        cases h
        -- the listed rows of `w` and the new row are still there after this round
        have hkeep : ∀ row ∈ w.history.rows, listed row.name → row ∈ w₁.history.rows := by
          intro row hrow hl
          rcases upOne_ok hone with ⟨_, hrows⟩ | ⟨_, hrows⟩
          · have hname := hbefore row.name (History.mem_names.mpr ⟨row, hrow, rfl⟩) hl
            have hnot : row.name ∉ s.replacements := fun hr =>
              (hfree [] s rest rfl row.name hr hl).1 hname
            rw [hrows]
            exact List.mem_cons_of_mem _ (List.mem_filter.mpr ⟨hrow, by simpa using hnot⟩)
          · rw [hrows]
            exact List.mem_cons_of_mem _ hrow
        have hnew : recordRow now batch s ∈ w₁.history.rows := by
          rcases upOne_ok hone with ⟨_, hrows⟩ | ⟨_, hrows⟩ <;> rw [hrows] <;> exact List.mem_cons_self
        have hstep := ih (s.migration.name :: before) hrest
          (fun t ht => hlisted t (List.mem_cons_of_mem _ ht))
          (fun name hmem hl => by
            obtain ⟨row, hrow, rfl⟩ := History.mem_names.mp hmem
            rcases upOne_row hone hrow with rfl | hold
            · exact List.mem_cons_self
            · exact List.mem_cons_of_mem _
                (hbefore row.name (History.mem_names.mpr ⟨row, hold, rfl⟩) hl))
          (fun pre t post heq name hr hl => by
            obtain ⟨hout, hpre⟩ := hfree (s :: pre) t post (by rw [heq]; rfl) name hr hl
            refine ⟨fun hin => ?_, fun u hu => hpre u (List.mem_cons_of_mem _ hu)⟩
            rcases List.mem_cons.mp hin with rfl | hin
            · exact hpre s List.mem_cons_self rfl
            · exact hout hin)
        refine ⟨fun row hrow hl => hstep.1 row (hkeep row hrow hl) hl, fun t ht => ?_⟩
        rcases List.mem_cons.mp ht with rfl | ht
        · exact hstep.1 _ hnew (hlisted _ List.mem_cons_self)
        · exact hstep.2 t ht

/-- A name that a squash of the run replaces, and that no migration from this
    squash on bears, is not in the history when the run ends. -/
theorem upLoop_deletes {d : Driver} {now : String → String} {batch : Nat}
    {pre post : List (MigrationStatus σ)} {s : MigrationStatus σ} {w w' : World σ}
    {names : List String} (h : upLoop d now batch (pre ++ s :: post) w = (w', .ok names))
    {name : String} (hr : name ∈ s.replacements)
    (hlater : ∀ t ∈ s :: post, t.migration.name ≠ name) : name ∉ w'.history.names := by
  induction pre generalizing w names with
  | nil =>
    simp only [List.nil_append, upLoop] at h
    split at h
    · cases h
    · next w₁ hone =>
      split at h
      · cases h
      · next w₂ names₂ hrest =>
        cases h
        intro hin
        rcases upLoop_names hrest name hin with hmid | ⟨t, ht, heq⟩
        · obtain ⟨row, hrow, rfl⟩ := History.mem_names.mp hmid
          have hne : row ≠ recordRow now batch s := by
            rintro rfl
            exact hlater s List.mem_cons_self rfl
          rcases upOne_ok hone with ⟨_, hrows⟩ | ⟨hnone, hrows⟩
          · rw [hrows, List.mem_cons, List.mem_filter] at hrow
            simp [hne, hr] at hrow
          · rw [hrows, List.mem_cons] at hrow
            have hold := hrow.resolve_left hne
            exact hnone row.name hr (History.mem_names.mpr ⟨row, hold, rfl⟩)
        · exact hlater t (List.mem_cons_of_mem _ ht) heq
  | cons p pre ih =>
    simp only [List.cons_append, upLoop] at h
    split at h
    · cases h
    · next w₁ hone =>
      split at h
      · cases h
      · next w₂ names₂ hrest =>
        cases h
        exact ih hrest

/-! ## Section 3: The sorted definitions -/

/-- `a` strictly before `b` in the order migrations run in. -/
def MigrationRunner.SortsBefore (r : MigrationRunner σ) (a b : String) : Prop :=
  r.localeCompare.le a b = true ∧ a ≠ b

theorem MigrationRunner.SortsBefore.trans {r : MigrationRunner σ} {a b c : String}
    (hab : r.SortsBefore a b) (hbc : r.SortsBefore b c) : r.SortsBefore a c := by
  refine ⟨r.localeCompare.trans a b c hab.1 hbc.1, ?_⟩
  rintro rfl
  exact hab.2 (r.localeCompare.antisymm _ _ hab.1 hbc.1)

/-- Without a duplicate, neighbours of an ordered list have distinct names. -/
theorem firstDuplicate_none {R : Migration σ → Migration σ → Prop} {l : List (Migration σ)}
    (hchain : l.IsChain R) (h : firstDuplicate l = none) :
    l.IsChain (fun a b => R a b ∧ a.name ≠ b.name) := by
  induction hchain with
  | nil => exact .nil
  | singleton a => exact .singleton a
  | cons_cons hab _ ih =>
    simp only [firstDuplicate] at h
    split at h
    · cases h
    · next hne =>
      exact List.isChain_cons_cons.mpr ⟨⟨hab, fun heq => hne (by simp [heq])⟩, ih h⟩

theorem mem_order {r : MigrationRunner σ} {m : Migration σ} : m ∈ r.order ↔ m ∈ r.migrations := by
  simp [MigrationRunner.order]

/-- A list of definitions that `sorted` accepts runs in strictly increasing
    order of names. -/
theorem sorted_ok {r : MigrationRunner σ} {l : List (Migration σ)} (h : r.sorted = .ok l) :
    l = r.order ∧ l.Pairwise (fun a b => r.SortsBefore a.name b.name) := by
  unfold MigrationRunner.sorted at h
  split at h
  · cases h
  · next hdup =>
    cases h
    refine ⟨rfl, ?_⟩
    have hle : r.order.Pairwise (fun a b => r.localeCompare.le a.name b.name = true) :=
      List.pairwise_mergeSort (fun a b c => r.localeCompare.trans a.name b.name c.name)
        (fun a b => r.localeCompare.total a.name b.name) r.migrations
    have : IsTrans (Migration σ) (fun a b => r.SortsBefore a.name b.name) :=
      ⟨fun a b c hab hbc => hab.trans hbc⟩
    rw [← List.isChain_iff_pairwise]
    exact firstDuplicate_none hle.isChain hdup

/-! ## Section 4: Convergence -/

/-- The run left nothing to do: no definition is pending, `check` passes and
    another `up()` returns no names and changes nothing. -/
def MigrationRunner.Converged (r : MigrationRunner σ) (w : World σ) : Prop :=
  (∃ statuses, r.status w = .ok statuses ∧ ∀ s ∈ statuses, s.state ≠ .pending) ∧
  r.check w = .ok () ∧
  ∀ now, r.up now none w = (w, .ok [])

/-- Whatever a pending squash replaces and the list still defines is neither
    recorded yet nor run before the squash. -/
def MigrationRunner.ReplacedOnlyLater (r : MigrationRunner σ) (h : History) : Prop :=
  ∀ m ∈ r.migrations, m.name ∉ h.names → ∀ name ∈ m.replaces.getD [],
    (∃ d ∈ r.migrations, d.name = name) → name ∉ h.names ∧ ¬ r.SortsBefore name m.name

theorem History.find?_eq_none {h : History} {name : String} :
    h.find? name = none ↔ name ∉ h.names := by
  simp only [History.find?, List.find?_eq_none, beq_iff_eq, History.mem_names, not_exists, not_and]

theorem History.find?_of_mem {h : History} {row : AppliedMigration} (hrow : row ∈ h.rows) :
    h.find? row.name = some row := by
  cases hf : h.find? row.name with
  | none =>
    exact absurd (History.mem_names.mpr ⟨row, hrow, rfl⟩) (History.find?_eq_none.mp hf)
  | some found =>
    have hname : found.name = row.name := by
      simpa using List.find?_some hf
    rw [List.inj_on_of_nodup_map h.nodup (List.mem_of_find?_eq_some hf) hrow hname]

theorem statusOf_pending {r : MigrationRunner σ} {h : History} {m : Migration σ} :
    (r.statusOf h m).state = .pending ↔ m.name ∉ h.names := by
  rw [← History.find?_eq_none]
  unfold MigrationRunner.statusOf
  cases hf : h.find? m.name with
  | none => simp
  | some row => by_cases hc : r.hashing.checksumMatches m row.checksum (r.hashing.checksum m) <;> simp [hc]

/-- A recorded row with the checksum of the migration makes it applied. -/
theorem statusOf_applied {r : MigrationRunner σ} {h : History} {m : Migration σ}
    {row : AppliedMigration} (hrow : row ∈ h.rows) (hname : row.name = m.name)
    (hsum : r.hashing.checksumMatches m row.checksum (r.hashing.checksum m) = true) :
    (r.statusOf h m).state = .applied := by
  have hf : h.find? m.name = some row := hname ▸ History.find?_of_mem hrow
  simp [MigrationRunner.statusOf, hf, hsum]

/-- The row behind an applied status. -/
theorem statusOf_applied_row {r : MigrationRunner σ} {h : History} {m : Migration σ}
    (ha : (r.statusOf h m).state = .applied) :
    ∃ row ∈ h.rows, row.name = m.name ∧
      r.hashing.checksumMatches m row.checksum (r.hashing.checksum m) = true := by
  unfold MigrationRunner.statusOf at ha
  cases hf : h.find? m.name with
  | none => simp [hf] at ha
  | some row =>
    have hname : row.name = m.name := by simpa using List.find?_some hf
    by_cases hc : r.hashing.checksumMatches m row.checksum (r.hashing.checksum m) = true
    · exact ⟨row, List.mem_of_find?_eq_some hf, hname, hc⟩
    · simp [hf, hc] at ha

/-- When every definition is applied, the state is a fixed point. -/
theorem converged_of_applied {r : MigrationRunner σ} {w : World σ} {l : List (Migration σ)}
    (hl : r.sorted = .ok l) (h : ∀ m ∈ l, (r.statusOf w.history m).state = .applied) :
    r.Converged w := by
  have hstatus : r.status w = .ok (l.map (r.statusOf w.history)) := by
    simp [MigrationRunner.status, hl, Except.map]
  have hall : ∀ s ∈ l.map (r.statusOf w.history), s.state = .applied := by
    simpa using h
  have hinvalid : (l.map (r.statusOf w.history)).filter (fun s => s.state ≠ .applied) = [] :=
    List.filter_eq_nil_iff.mpr fun s hs => by simp [hall s hs]
  have hpending : (l.map (r.statusOf w.history)).filter (fun s => s.state = .pending) = [] :=
    List.filter_eq_nil_iff.mpr fun s hs => by simp [hall s hs]
  have hchanged : firstChanged (l.map (r.statusOf w.history)) = none :=
    List.find?_eq_none.mpr fun s hs => by simp [hall s hs]
  refine ⟨⟨_, hstatus, fun s hs => by simp [hall s hs]⟩, ?_, fun now => ?_⟩
  · simp only [MigrationRunner.check, hstatus]
    rw [hinvalid]
    rfl
  · simp only [MigrationRunner.up, hstatus, hchanged]
    rw [hpending]
    rfl

/-- The definitions a successful `up()` runs, in order, and its loop. -/
theorem up_ok {r : MigrationRunner σ} {now : String → String} {w w' : World σ} {names : List String}
    (h : r.up now none w = (w', .ok names)) :
    ∃ l, r.sorted = .ok l ∧ (∀ m ∈ l, (r.statusOf w.history m).state ≠ .changed) ∧
      upLoop r.driver now (nextBatch w.history)
        ((l.map (r.statusOf w.history)).filter (fun s => s.state = .pending)) w = (w', .ok names) := by
  unfold MigrationRunner.up at h
  cases hl : r.sorted with
  | error e =>
    have hstatus : r.status w = .error e := by simp [MigrationRunner.status, hl, Except.map]
    simp [hstatus] at h
  | ok l =>
    have hstatus : r.status w = .ok (l.map (r.statusOf w.history)) := by
      simp [MigrationRunner.status, hl, Except.map]
    simp only [hstatus] at h
    split at h
    · cases h
    · next hchanged =>
      refine ⟨l, rfl, fun m hm => ?_, ?_⟩
      · have := List.find?_eq_none.mp hchanged _ (List.mem_map_of_mem hm)
        simpa using this
      · split at h
        · next hempty =>
          rw [List.isEmpty_iff.mp hempty]
          exact h
        · exact h

/-- The migrations a run records are exactly the ones that were not. -/
theorem mem_pending {r : MigrationRunner σ} {h : History} {l : List (Migration σ)}
    {s : MigrationStatus σ} :
    s ∈ (l.map (r.statusOf h)).filter (fun s => s.state = .pending) ↔
      ∃ m ∈ l, m.name ∉ h.names ∧ r.statusOf h m = s := by
  simp only [List.mem_filter, List.mem_map, decide_eq_true_eq]
  constructor
  · rintro ⟨⟨m, hm, rfl⟩, hp⟩
    exact ⟨m, hm, statusOf_pending.mp hp, rfl⟩
  · rintro ⟨m, hm, hp, rfl⟩
    exact ⟨⟨m, hm, rfl⟩, statusOf_pending.mpr hp⟩

/-- After a successful `up()` the history is a fixed point exactly when every
    listed migration that a pending squash replaces was unrecorded and sorts
    after the squash. -/
theorem up_converges_iff (r : MigrationRunner σ) (now : String → String) (w w' : World σ)
    (names : List String) (h : r.up now none w = (w', .ok names)) :
    r.Converged w' ↔ r.ReplacedOnlyLater w.history := by
  obtain ⟨l, hl, hunchanged, hloop⟩ := up_ok h
  obtain ⟨rfl, hsorted⟩ := sorted_ok hl
  have hpairs : ((r.order.map (r.statusOf w.history)).filter (fun s => s.state = .pending)).Pairwise
      (fun a b => r.SortsBefore a.migration.name b.migration.name) := by
    have hmap : (r.order.map (r.statusOf w.history)).Pairwise
        (fun a b => r.SortsBefore a.migration.name b.migration.name) :=
      List.pairwise_map.mpr hsorted
    exact hmap.filter _
  constructor
  · -- a squash that consolidates away a listed migration leaves it pending
    rintro ⟨⟨statuses, hstatus, hnone⟩, -, -⟩ m hm hmnew name hr ⟨d, hd, rfl⟩
    by_contra hcon
    have hms : r.statusOf w.history m ∈
        (r.order.map (r.statusOf w.history)).filter (fun s => s.state = .pending) :=
      mem_pending.mpr ⟨m, mem_order.mpr hm, hmnew, rfl⟩
    obtain ⟨pre, post, hsplit⟩ := List.append_of_mem hms
    rw [hsplit] at hloop
    have hgone : d.name ∉ w'.history.names := by
      refine upLoop_deletes hloop hr fun t ht heq => ?_
      have htp : t ∈ (r.order.map (r.statusOf w.history)).filter (fun s => s.state = .pending) := by
        rw [hsplit]; exact List.mem_append_right _ ht
      obtain ⟨mt, -, htnew, rfl⟩ := mem_pending.mp htp
      refine hcon ⟨fun hin => htnew (heq ▸ hin), fun hlt => ?_⟩
      rw [hsplit, List.pairwise_append, List.pairwise_cons] at hpairs
      rcases List.mem_cons.mp ht with hts | hts
      · exact hlt.2 (by rw [← heq, hts]; rfl)
      · exact (hlt.trans (hpairs.2.1.1 _ hts)).2 heq.symm
    have hst : statuses = r.order.map (r.statusOf w'.history) := by
      simpa [MigrationRunner.status, hl, Except.map] using hstatus.symm
    refine hnone (r.statusOf w'.history d) ?_ (statusOf_pending.mpr hgone)
    rw [hst]
    exact List.mem_map_of_mem (mem_order.mpr hd)
  · intro hcond
    have hkeep := upLoop_keeps (fun name => ∃ d ∈ r.migrations, d.name = name)
      w.history.names hloop
      (fun s hs => by
        obtain ⟨m, hm, -, rfl⟩ := mem_pending.mp hs
        exact ⟨m, mem_order.mp hm, rfl⟩)
      (fun name hin _ => hin)
      (fun pre s post heq name hr hlisted => by
        have hs : s ∈ (r.order.map (r.statusOf w.history)).filter (fun s => s.state = .pending) := by
          rw [heq]; simp
        obtain ⟨m, hm, hnew, rfl⟩ := mem_pending.mp hs
        obtain ⟨hout, hlater⟩ := hcond m (mem_order.mp hm) hnew name hr hlisted
        refine ⟨hout, fun t ht hname => hlater ?_⟩
        rw [heq, List.pairwise_append] at hpairs
        exact hname ▸ hpairs.2.2 t ht _ List.mem_cons_self)
    refine converged_of_applied hl fun m hm => ?_
    by_cases hin : m.name ∈ w.history.names
    · have happlied : (r.statusOf w.history m).state = .applied := by
        have hnp : (r.statusOf w.history m).state ≠ .pending := fun hp => statusOf_pending.mp hp hin
        have hnc := hunchanged m hm
        cases hs : (r.statusOf w.history m).state <;> simp_all
      obtain ⟨row, hrow, hname, hsum⟩ := statusOf_applied_row happlied
      exact statusOf_applied (hkeep.1 row hrow ⟨m, mem_order.mp hm, hname.symm⟩) hname hsum
    · have hnew := hkeep.2 _ (mem_pending.mpr ⟨m, hm, hin, rfl⟩)
      exact statusOf_applied hnew rfl (by simp [Hashing.checksumMatches, recordRow, MigrationRunner.statusOf])

/-! ### A squash next to the migration it replaces -/

/-- `CREATE TABLE` on a schema that is the list of its tables. -/
def createTable (name : String) (tables : List String) : Option (List String) :=
  if name ∈ tables then none else some (name :: tables)

def declarative (name : String) (replaces : Option (List String)) (table : String) :
    Migration (List String) where
  name := name
  replaces := replaces
  operations := some { up := [⟨some [createTable table]⟩], down := none }
  up := none
  down := none

/-- The migration list after a squash was registered and nothing was pruned. -/
def unpruned : MigrationRunner (List String) where
  migrations := [declarative "001_original" none "squashed",
    declarative "010_baseline" (some ["001_original"]) "squashed"]
  driver := { transactions := true, batch := false }
  hashing := { checksum := Migration.name, rawChecksum := Migration.name }
  localeCompare := JsString.codePointOrder

theorem unpruned_order : unpruned.order = unpruned.migrations :=
  List.mergeSort_of_pairwise (by decide)

/-- On a fresh database `up()` runs both migrations of the unpruned list and
    leaves the replaced one pending. -/
theorem unpruned_not_converged :
    ∃ w' names, unpruned.up (fun _ => "now") none ⟨[], .empty⟩ = (w', .ok names) ∧
      ¬ unpruned.Converged w' := by
  have hrun : ∃ w', unpruned.up (fun _ => "now") none ⟨[], .empty⟩ =
      (w', .ok ["001_original", "010_baseline"]) ∧ w'.history.names = ["010_baseline"] := by
    simp only [MigrationRunner.up, MigrationRunner.status, MigrationRunner.sorted, unpruned_order]
    exact ⟨_, rfl, by decide⟩
  obtain ⟨w', hup, hnames⟩ := hrun
  refine ⟨w', _, hup, ?_⟩
  rintro ⟨⟨statuses, hstatus, hnone⟩, -, -⟩
  have hst : statuses = unpruned.migrations.map (unpruned.statusOf w'.history) := by
    simp only [MigrationRunner.status, MigrationRunner.sorted, unpruned_order] at hstatus
    exact (Except.ok.inj hstatus).symm
  refine hnone (unpruned.statusOf w'.history (declarative "001_original" none "squashed")) ?_ ?_
  · rw [hst]
    exact List.mem_map_of_mem List.mem_cons_self
  · rw [statusOf_pending, hnames]
    decide

/-- The list after pruning: the squash alone, on a database that applied the
    migration it replaces. -/
def pruned : MigrationRunner (List String) :=
  { unpruned with migrations := [declarative "010_baseline" (some ["001_original"]) "squashed"] }

def originalApplied : World (List String) where
  schema := ["squashed"]
  history := ⟨[⟨"001_original", "001_original", 1, "then"⟩], by decide⟩

theorem pruned_converges :
    ∃ w', pruned.up (fun _ => "now") none originalApplied = (w', .ok ["010_baseline"]) ∧
      pruned.Converged w' := by
  have horder : pruned.order = pruned.migrations := List.mergeSort_of_pairwise (by decide)
  have hrun : ∃ w', pruned.up (fun _ => "now") none originalApplied =
      (w', .ok ["010_baseline"]) := by
    simp only [MigrationRunner.up, MigrationRunner.status, MigrationRunner.sorted, horder]
    exact ⟨_, rfl⟩
  obtain ⟨w', hup⟩ := hrun
  refine ⟨w', hup, (up_converges_iff pruned _ originalApplied w' _ hup).mpr ?_⟩
  intro m hm hnew name hr ⟨d, hd, hname⟩
  -- nothing listed is replaced
  have hd' : d = declarative "010_baseline" (some ["001_original"]) "squashed" := by
    simpa [pruned] using hd
  have hm' : m = declarative "010_baseline" (some ["001_original"]) "squashed" := by
    simpa [pruned] using hm
  subst hd' hm'
  have hr' : name = "001_original" := by simpa [declarative] using hr
  rw [hr'] at hname
  exact absurd hname (by decide)

end Cossack.Database
