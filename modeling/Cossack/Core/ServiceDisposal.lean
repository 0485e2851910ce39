import Cossack.Core.ServiceReports

/-! # Every hook once

    In every order of events a service is visited at most once, and once its
    scope has been disposed exactly once; a disposal completes after the hooks of
    what it covers; and the errors of a disposal reach each of its callers. -/

namespace Cossack.Core.ServiceScopes

/-! ## Section 1: Every run -/

structure Good (w : World) : Prop where
  simulated : Simulated w
  accounted : Accounted w
  reported : Reported w
  abandoned : Abandoned w

theorem good_reachable {w : World} (h : Reachable w) : Good w := by
  refine Runs.Run.invariant h ⟨simulated_new, accounted_new, reported_new, nofun⟩ ?_
  intro w w' e hw _ hstep
  have hmove := move_of_step hstep
  exact ⟨hw.simulated.move hmove, hw.accounted.move hw.simulated hmove,
    hw.reported.move hw.simulated hmove, hw.abandoned.move hmove⟩

theorem mem_failedOf {w : World} {s : ScopeId} {i : Instance} : i ∈ w.failedOf s ↔ (s, i) ∈ w.failures := by
  unfold World.failedOf
  constructor
  · intro h
    obtain ⟨f, hf, rfl⟩ := List.mem_map.mp h
    obtain ⟨hmem, hs⟩ := List.mem_filter.mp hf
    obtain rfl := of_decide_eq_true hs
    exact hmem
  · intro h
    exact List.mem_map.mpr ⟨(s, i), List.mem_filter.mpr ⟨h, by simp⟩, rfl⟩

/-! ### Visits -/

theorem Good.visits_le {w : World} (h : Good w) (s : ScopeId) (i : Instance) : w.visitsOf s i ≤ 1 := by
  have hvisited := h.accounted.visited s i
  have honce := List.nodup_iff_count_le_one.mp (h.accounted.distinct s) i
  omega

theorem Good.visit_own {w : World} (h : Good w) {v : Visit} (hv : v ∈ w.visits) :
    v.service ∈ (w.scopes v.scope).instances := by
  have hpos : 0 < w.visitsOf v.scope v.service := List.countP_pos_iff.mpr ⟨v, hv, by simp⟩
  have hvisited := h.accounted.visited v.scope v.service
  exact List.count_pos_iff.mp (by omega)

/-- A service is visited for its own scope only. -/
theorem Good.visits_eq {w : World} (h : Good w) {s : ScopeId} {i : Instance}
    (hi : i ∈ (w.scopes s).instances) : w.visits.countP (fun v => v.service = i) = w.visitsOf s i := by
  refine List.countP_congr ?_
  intro v hv
  have hown := h.visit_own hv
  simp only [decide_eq_true_eq]
  constructor
  · rintro rfl
    exact ⟨h.accounted.own _ _ _ hown hi, rfl⟩
  · exact fun hand => hand.2

theorem Good.visited_at_most_once {w : World} (h : Good w) (i : Instance) :
    w.visits.countP (fun v => v.service = i) ≤ 1 := by
  by_cases hi : ∃ v ∈ w.visits, v.service = i
  · obtain ⟨v, hv, rfl⟩ := hi
    rw [h.visits_eq (h.visit_own hv)]
    exact h.visits_le _ _
  · rw [List.countP_eq_zero.mpr]
    · exact Nat.zero_le _
    · intro v hv hvi
      exact hi ⟨v, hv, of_decide_eq_true hvi⟩

/-- Once no disposal runs, those that have begun have reached every service. -/
theorem Good.visited_once {w : World} (h : Good w) (hstack : w.stack = []) {s : ScopeId}
    (hs : (w.scopes s).disposal ≠ .idle) {i : Instance} (hi : i ∈ (w.scopes s).instances) :
    w.visits.countP (fun v => v.service = i) = 1 := by
  have hnone : (w.scopes s).todo = [] := by
    have hactive := h.simulated.tree.not_active hstack s
    simp only [World.tree] at hactive
    cases hd : (w.scopes s).disposal <;> simp_all [Scope.todo, Disposal.phase]
  have hvisited := h.accounted.visited s i
  rw [hnone, List.count_nil, List.count_eq_one_of_mem (h.accounted.distinct s) hi] at hvisited
  rw [h.visits_eq hi]
  omega

/-! ### Errors -/

open Teardown (Phase Covers Gathers)

theorem waits_of_complete {d : Disposal} (h : d.isComplete) : d.phase.waits = d.gathered := by
  cases d <;> first | rfl | cases h

theorem waits_of_gathered {d : Disposal} {c : ScopeId} (h : c ∈ d.gathered) : c ∈ d.phase.waits := by
  cases d <;> first | exact h | cases h

theorem Good.gathered {w : World} (h : Good w) {s c : Nat} (hc : c ∈ (w.scopes s).disposal.gathered) :
    c ∈ (w.tree.phase s).waits ∧ (w.scopes c).parent = some s ∧ s < c ∧ c < w.count := by
  have hmem : c ∈ (w.tree.phase s).waits := waits_of_gathered hc
  have hparent := h.simulated.tree.listed s c (.inr (.inr (.inr hmem)))
  exact ⟨hmem, hparent, h.simulated.parents hparent⟩

/-- A complete disposal has the errors of all it waited for. -/
theorem Good.mem_errors {w : World} (h : Good w) {s : Nat} (hs : (w.scopes s).disposal.isComplete) (i : Instance) :
    i ∈ (w.scopes s).errors ↔ ∃ t, Gathers w.tree s t ∧ (t, i) ∈ w.failures := by
  constructor
  · -- the induction goes up the tree: children have larger numbers
    intro hi
    induction hrest : w.count - s using Nat.strongRecOn generalizing s with
    | _ n ih =>
      rw [h.reported.errors s, List.mem_append, List.mem_flatMap] at hi
      rcases hi with hi | ⟨c, hc, hi⟩
      · exact ⟨s, .self, mem_failedOf.mp hi⟩
      · obtain ⟨hmem, -, hlt⟩ := h.gathered hc
        obtain ⟨t, ht, hfailed⟩ := ih (w.count - c) (by omega) (h.reported.finished s c hc) hi rfl
        exact ⟨t, (Gathers.self.waits hmem).trans ht, hfailed⟩
  · rintro ⟨t, hgathers, hfailed⟩
    have hmore : ∀ j ∈ (w.scopes t).errors, j ∈ (w.scopes s).errors := by
      clear hfailed
      induction hgathers with
      | self => exact fun _ => id
      | @waits p c hp hmem ih =>
        intro j hj
        refine ih j ?_
        have hcomplete := phase_isComplete.mp
          (h.simulated.tree.gathered_complete (phase_isComplete.mpr hs) hp)
        have hc : c ∈ (w.scopes p).disposal.gathered := by
          rw [← waits_of_complete hcomplete]
          exact hmem
        rw [h.reported.errors p, List.mem_append, List.mem_flatMap]
        exact .inr ⟨c, hc, hj⟩
    refine hmore i ?_
    rw [h.reported.errors t]
    exact List.mem_append_left _ (mem_failedOf.mpr hfailed)

theorem Good.failed_own {w : World} (h : Good w) {s : ScopeId} {i : Instance} (hi : (s, i) ∈ w.failures) :
    i ∈ (w.scopes s).instances := by
  have hpos : 0 < w.failures.count (s, i) := List.count_pos_iff.mpr hi
  have houtcome := h.accounted.outcome s i
  have hvisited := h.accounted.visited s i
  exact List.count_pos_iff.mp (by omega)

theorem Good.failures_le {w : World} (h : Good w) (s : ScopeId) (i : Instance) : w.failures.count (s, i) ≤ 1 := by
  have houtcome := h.accounted.outcome s i
  have honce := h.visits_le s i
  omega

theorem Good.failedOf_nodup {w : World} (h : Good w) (s : ScopeId) : (w.failedOf s).Nodup := by
  have hnodup : w.failures.Nodup := List.nodup_iff_count_le_one.mpr fun f => h.failures_le f.1 f.2
  refine (hnodup.filter _).map_on ?_
  intro f hf g hg heq
  have hfs := of_decide_eq_true (List.mem_filter.mp hf).2
  have hgs := of_decide_eq_true (List.mem_filter.mp hg).2
  exact Prod.ext (hfs.trans hgs.symm) heq

/-- It has each of them once. -/
theorem Good.errors_nodup {w : World} (h : Good w) {s : Nat} (hs : (w.scopes s).disposal.isComplete) :
    (w.scopes s).errors.Nodup := by
  induction hrest : w.count - s using Nat.strongRecOn generalizing s with
  | _ n ih =>
    rw [h.reported.errors s]
    -- an error belongs to one scope, and a scope to one of the children
    have hsource : ∀ c ∈ (w.scopes s).disposal.gathered, ∀ i ∈ (w.scopes c).errors,
        ∃ t, Gathers w.tree c t ∧ i ∈ (w.scopes t).instances := by
      intro c hc i hi
      obtain ⟨t, ht, hfailed⟩ := (h.mem_errors (h.reported.finished s c hc) i).mp hi
      exact ⟨t, ht, h.failed_own hfailed⟩
    have hseparate : (w.scopes s).disposal.gathered.Nodup := by
      rw [← waits_of_complete hs]
      exact h.simulated.tree.separate s
    refine List.nodup_append.mpr ⟨h.failedOf_nodup s, ?_, ?_⟩
    · refine List.nodup_flatMap.mpr ⟨?_, hseparate.imp_of_mem ?_⟩
      · intro c hc
        obtain ⟨-, -, hlt⟩ := h.gathered hc
        exact ih (w.count - c) (by omega) (h.reported.finished s c hc) rfl
      · intro a b ha hb hne i hia hib
        obtain ⟨t, ht, hti⟩ := hsource a ha i hia
        obtain ⟨u, hu, hui⟩ := hsource b hb i hib
        obtain rfl := h.accounted.own t u i hti hui
        exact hne (h.simulated.tree.gathers_unique (h.gathered ha).2.1 (h.gathered hb).2.1 ht hu)
    · rintro i hi j hj rfl
      obtain ⟨c, hc, hic⟩ := List.mem_flatMap.mp hj
      obtain ⟨t, ht, hti⟩ := hsource c hc i hic
      obtain rfl := h.accounted.own s t i (h.failed_own (mem_failedOf.mp hi)) hti
      have hle := h.simulated.tree.gathers_le ht
      have hlt := (h.gathered hc).2.2.1
      omega

/-! ## Section 2: The claims of a disposal -/

/-- The disposal of a scope is over, and so is every hook that it called. -/
def World.Quiet (w : World) (s : ScopeId) : Prop :=
  (w.scopes s).disposal.isComplete ∧ (w.scopes s).running = [] ∧ (w.scopes s).pending = []

/-- Calls of `dispose` that begin a disposal, of `disposeAsync`, and constructors
    that throw are the callers; `Covers` are the descendants there were when the
    disposals above them began, `Gathers` those a disposal waited for. -/
structure DisposedOnce (w : World) : Prop where
  /-- No service is visited twice. -/
  once : ∀ i, w.visits.countP (fun v => v.service = i) ≤ 1
  /-- A scope visits its own services and no other's. -/
  own : ∀ v ∈ w.visits, ∀ s, v.service ∈ (w.scopes s).instances ↔ s = v.scope
  /-- A constructor that throws disposes what it instantiated. -/
  abandoned : ∀ s, s < w.count → (w.scopes s).constructed = false → (s, .setup) ∈ w.callers
  /-- When all disposals have returned, they have visited every service. -/
  visited : w.stack = [] → ∀ c ∈ w.callers, ∀ t, Covers w.tree c.1 t → ∀ i ∈ (w.scopes t).instances,
    w.visits.countP (fun v => v.service = i) = 1
  /-- A caller gets its report after every hook of what the disposal covers, and
      of what it waited for. -/
  settled : ∀ r ∈ w.reports, ∀ t, Covers w.tree r.scope t ∨ Gathers w.tree r.scope t → w.Quiet t
  /-- Each caller gets one report. -/
  answered : ∀ s caller, w.callers.count (s, caller) =
    w.reports.countP (fun r => r.scope = s ∧ r.caller = caller) + (w.scopes s).observers.count caller
  /-- A service fails once, and a report has each error of what the disposal
      waited for once. -/
  failures : w.failures.Nodup
  errors : ∀ r ∈ w.reports, r.errors.Nodup ∧
    ∀ i, i ∈ r.errors ↔ ∃ t, Gathers w.tree r.scope t ∧ (t, i) ∈ w.failures
  /-- No error is lost. -/
  heard : w.stack = [] → ∀ f ∈ w.failures, ∃ c ∈ w.callers, Gathers w.tree c.1 f.1
  reported : w.stack = [] → (∀ s, (w.scopes s).observers = []) → ∀ f ∈ w.failures, ∃ r ∈ w.reports, f.2 ∈ r.errors

theorem Good.quiet {w : World} (h : Good w) {s : ScopeId} (hs : (w.tree.phase s).IsComplete) : w.Quiet s := by
  have hcomplete := phase_isComplete.mp hs
  refine ⟨hcomplete, ?_, h.reported.pending s hcomplete⟩
  cases hd : (w.scopes s).disposal <;> simp_all [Scope.running, Disposal.isComplete]

theorem Good.heard {w : World} (h : Good w) (hstack : w.stack = []) {s : ScopeId} {i : Instance}
    (hi : (s, i) ∈ w.failures) : ∃ c ∈ w.callers, Gathers w.tree c.1 s := by
  have hstarted : w.tree.phase s ≠ .idle := by
    intro hidle
    have hdisposal : (w.scopes s).disposal = .idle := phase_eq_idle.mp hidle
    have hnone := h.accounted.unvisited s hdisposal i
    have houtcome := h.accounted.outcome s i
    have hpositive : 0 < w.failures.count (s, i) := List.count_pos_iff.mpr hi
    omega
  obtain ⟨t, ht, hgathers⟩ := h.simulated.tree.requested hstack hstarted
  obtain ⟨c, hc, rfl⟩ := List.mem_map.mp ht
  exact ⟨c, hc, hgathers⟩

/-- Every hook is called once and reported to every caller once. -/
theorem disposed_once {w : World} (hreach : Reachable w) : DisposedOnce w := by
  have h := good_reachable hreach
  have hheard : w.stack = [] → ∀ f ∈ w.failures, ∃ c ∈ w.callers, Gathers w.tree c.1 f.1 :=
    fun hstack _ hf => h.heard hstack hf
  have herrors : ∀ r ∈ w.reports, r.errors.Nodup ∧
      ∀ i, i ∈ r.errors ↔ ∃ t, Gathers w.tree r.scope t ∧ (t, i) ∈ w.failures := by
    intro r hr
    obtain ⟨hcomplete, heq⟩ := h.reported.reports r hr
    rw [heq]
    exact ⟨h.errors_nodup hcomplete, h.mem_errors hcomplete⟩
  refine {
    once := h.visited_at_most_once
    own := ?own
    abandoned := h.abandoned
    visited := ?visited
    settled := ?settled
    answered := h.reported.answered
    failures := List.nodup_iff_count_le_one.mpr fun f => h.failures_le f.1 f.2
    errors := herrors
    heard := hheard
    reported := ?reported }
  case own =>
    intro v hv s
    constructor
    · intro hs
      exact h.accounted.own s v.scope v.service hs (h.visit_own hv)
    · rintro rfl
      exact h.visit_own hv
  case visited =>
    intro hstack c hc t ht i hi
    have hcalled : w.tree.phase c.1 ≠ .idle := fun hidle => h.reported.called c hc (phase_eq_idle.mp hidle)
    have hstarted := h.simulated.tree.covered_started hstack hcalled ht
    exact h.visited_once hstack (fun hidle => hstarted (phase_eq_idle.mpr hidle)) hi
  case settled =>
    intro r hr t ht
    have hcomplete := phase_isComplete.mpr (h.reported.reports r hr).1
    rcases ht with ht | ht
    · exact h.quiet (h.simulated.tree.covered_complete hcomplete ht)
    · exact h.quiet (h.simulated.tree.gathered_complete hcomplete ht)
  case reported =>
    intro hstack hnone f hf
    obtain ⟨c, hc, hgathers⟩ := hheard hstack f hf
    have hanswered := h.reported.answered c.1 c.2
    have hcalled : 0 < w.callers.count (c.1, c.2) := List.count_pos_iff.mpr hc
    rw [hnone, List.count_nil] at hanswered
    have hreported : 0 < w.reports.countP (fun r => r.scope = c.1 ∧ r.caller = c.2) := by omega
    obtain ⟨r, hr, hrc⟩ := List.countP_pos_iff.mp hreported
    have hscope : r.scope = c.1 := (of_decide_eq_true hrc).1
    exact ⟨r, hr, ((herrors r hr).2 f.2).mpr ⟨f.1, by rwa [hscope], hf⟩⟩

/-- The service 1 depends on the service 0. -/
def chained : Classes where
  isService _ := true
  paramTypes c := if c = 1 then [0] else []
  constructs _ := true
  boots _ := true
  hydrates _ := true
  borrows _ := false

/-- A scope below another, whose service borrows one of it; both hooks throw. -/
theorem disposed_once_chained : ∃ w, Reachable w ∧ DisposedOnce w ∧
    w.visits = [⟨1, 1, .function⟩, ⟨0, 0, .function⟩] ∧ w.reports = [⟨0, .disposeAsync, [0, 1]⟩] := by
  have hexec : Runs.exec World.step .new [.construct none [0] chained, .construct (some 0) [1] chained,
    .disposeAsync 0, .advance .absent, .advance .absent, .advance .function, .hookReturns .throws,
    .advance .absent, .advance .absent, .advance .function, .hookReturns .promise, .advance .absent,
    .settle 0 0 true, .complete 1, .complete 0, .report 0] = some _ := rfl
  have hrun : Reachable _ := Runs.run_of_exec hexec (Runs.admits_free _ _)
  exact ⟨_, hrun, disposed_once hrun, rfl, rfl⟩

/-- `disposeAsync` after `dispose` waits for the disposal that goes on, and throws
    what `dispose` logs. -/
theorem error_reported_twice : ∃ w, Reachable w ∧ w.stack = [] ∧ w.failures = [(0, 0)] ∧
    w.callers = [(0, .dispose), (0, .disposeAsync)] ∧
    w.reports = [⟨0, .dispose, [0]⟩, ⟨0, .disposeAsync, [0]⟩] := by
  have hexec : Runs.exec World.step .new [.construct none [0] chained, .dispose 0, .advance .absent,
    .advance .function, .hookReturns .throws, .advance .absent, .disposeAsync 0, .complete 0, .report 0,
    .report 0] = some _ := rfl
  have hrun : Reachable _ := Runs.run_of_exec hexec (Runs.admits_free _ _)
  exact ⟨_, hrun, rfl, rfl, rfl, rfl⟩

end Cossack.Core.ServiceScopes
