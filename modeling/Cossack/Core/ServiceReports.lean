import Cossack.Core.ServiceAccounts
import Mathlib

/-! # The errors of a disposal

    A disposal has the errors of its own hooks and, once it is complete, those of
    the disposals it waited for; each caller gets one report of them. -/

namespace Cossack.Core.ServiceScopes

/-! ## Section 1: Errors and reports -/

/-- The children whose errors a complete disposal has taken over. -/
def Disposal.gathered : Disposal → List ScopeId
  | .complete waits => waits
  | _ => []

def World.failedOf (w : World) (s : ScopeId) : List Instance :=
  (w.failures.filter fun f => f.1 = s).map Prod.snd

structure Reported (w : World) : Prop where
  pending : ∀ s, (w.scopes s).disposal.isComplete → (w.scopes s).pending = []
  finished : ∀ s, ∀ c ∈ (w.scopes s).disposal.gathered, (w.scopes c).disposal.isComplete
  errors : ∀ s, (w.scopes s).errors =
    w.failedOf s ++ (w.scopes s).disposal.gathered.flatMap fun c => (w.scopes c).errors
  reports : ∀ r ∈ w.reports, (w.scopes r.scope).disposal.isComplete ∧ r.errors = (w.scopes r.scope).errors
  answered : ∀ s caller, w.callers.count (s, caller) =
    w.reports.countP (fun r => r.scope = s ∧ r.caller = caller) + (w.scopes s).observers.count caller
  called : ∀ c ∈ w.callers, (w.scopes c.1).disposal ≠ .idle

theorem reported_new : Reported .new where
  pending _ := nofun
  finished _ := nofun
  errors _ := rfl
  reports := nofun
  answered _ _ := rfl
  called := nofun

/-- Two states of a scope between which its disposal reports nothing new. -/
structure SameReports (a b : Scope) : Prop where
  errors : b.errors = a.errors
  gathered : b.disposal.gathered = a.disposal.gathered
  complete : b.disposal.isComplete = a.disposal.isComplete
  pending : a.disposal.isComplete → a.pending = [] → b.pending = []
  observers : b.observers = a.observers
  started : a.disposal ≠ .idle → b.disposal ≠ .idle

theorem SameReports.rfl {a : Scope} : SameReports a a :=
  ⟨.refl _, .refl _, .refl _, fun _ => id, .refl _, id⟩

theorem SameReports.ite {a b : Scope} {c : Prop} [Decidable c] (h : SameReports a b) :
    SameReports a (if c then b else a) := by
  split
  · exact h
  · exact .rfl

theorem Reported.frame {w w' : World} (h : Reported w) (hsame : ∀ t, SameReports (w.scopes t) (w'.scopes t))
    (hfailures : w'.failures = w.failures) (hreports : w'.reports = w.reports)
    (hcallers : w'.callers = w.callers) : Reported w' where
  pending s hs := by
    rw [(hsame s).complete] at hs
    exact (hsame s).pending hs (h.pending s hs)
  finished s c hc := by
    rw [(hsame s).gathered] at hc
    rw [(hsame c).complete]
    exact h.finished s c hc
  errors s := by
    have herrors : (fun c => (w'.scopes c).errors) = fun c => (w.scopes c).errors := funext fun c => (hsame c).errors
    rw [(hsame s).errors, (hsame s).gathered, World.failedOf, hfailures, herrors]
    exact h.errors s
  reports r hr := by
    rw [hreports] at hr
    rw [(hsame r.scope).complete, (hsame r.scope).errors]
    exact h.reports r hr
  answered s caller := by
    rw [hcallers, hreports, (hsame s).observers]
    exact h.answered s caller
  called c hc := by
    rw [hcallers] at hc
    exact (hsame c.1).started (h.called c hc)

theorem reports_modify {w : World} {s t : ScopeId} {f : Scope → Scope}
    (h : t = s → SameReports (w.scopes t) (f (w.scopes t))) :
    SameReports (w.scopes t) ((w.modify s f).scopes t) := by
  rw [modify_scopes]
  split
  · exact h ‹_›
  · exact .rfl

theorem reports_modifyParent {w : World} {s t : ScopeId} {f : Scope → Scope}
    (h : SameReports (w.scopes t) (f (w.scopes t))) :
    SameReports (w.scopes t) ((w.modifyParent s f).scopes t) := by
  rw [modifyParent_eq]
  exact h.ite

theorem SameReports.trans {a b c : Scope} (h : SameReports a b) (h' : SameReports b c) : SameReports a c where
  errors := h'.errors.trans h.errors
  gathered := h'.gathered.trans h.gathered
  complete := h'.complete.trans h.complete
  pending hc hp := h'.pending (by rwa [h.complete]) (h.pending hc hp)
  observers := h'.observers.trans h.observers
  started hs := h'.started (h.started hs)

/-- What is not complete before and after a step reports nothing. -/
theorem sameReports_goto {a : Scope} {d : Disposal} (ha : a.disposal.isComplete = false)
    (hd : d.isComplete = false) (hstarted : d ≠ .idle) : SameReports a { a with disposal := d } where
  errors := rfl
  gathered := by
    have hnone : ∀ {e : Disposal}, e.isComplete = false → e.gathered = [] := by
      intro e he
      cases e <;> first | rfl | cases he
    rw [hnone ha]
    exact hnone hd
  complete := hd.trans ha.symm
  pending _ := id
  observers := rfl
  started _ := hstarted

theorem Reported.beginDisposal {w : World} (h : Reported w) (s : ScopeId) : Reported (w.beginDisposal s) := by
  unfold World.beginDisposal
  split
  case h_2 => exact h
  case h_1 hidle =>
    refine h.frame (fun t => ?_) ?_ ?_ ?_
    · have hbegin : SameReports (w.scopes t) ((w.modify s fun scope =>
          { scope with disposal := .children scope.children, begun := w.count }).scopes t) := by
        refine reports_modify ?_
        rintro rfl
        have hsame := sameReports_goto (a := w.scopes t) (d := .children (w.scopes t).children)
          (by simp [hidle, Disposal.isComplete]) rfl nofun
        exact { hsame with }
      exact hbegin.trans (reports_modifyParent ⟨rfl, rfl, rfl, fun _ => id, rfl, id⟩)
    all_goals simp [World.begin, World.modify, modifyParent_eq]

theorem beginDisposal_started (w : World) (s : ScopeId) : ((w.beginDisposal s).scopes s).disposal ≠ .idle := by
  have h := Teardown.begin_started w.tree s
  rw [← tree_beginDisposal] at h
  simpa [World.tree] using h

theorem Reported.observe {w : World} (h : Reported w) {s : ScopeId} (hs : (w.scopes s).disposal ≠ .idle)
    (caller : Caller) : Reported (w.observe s caller) := by
  have hother : ∀ t, ((w.observe s caller).scopes t).disposal = (w.scopes t).disposal ∧
      ((w.observe s caller).scopes t).errors = (w.scopes t).errors ∧
      ((w.observe s caller).scopes t).pending = (w.scopes t).pending := by
    intro t
    rw [observe_scopes]
    split <;> exact ⟨rfl, rfl, rfl⟩
  refine {
    pending := fun t ht => ?pending
    finished := fun t c hc => ?finished
    errors := fun t => ?errors
    reports := fun r hr => ?reports
    answered := ?answered
    called := ?called }
  case pending =>
    rw [(hother t).1] at ht
    rw [(hother t).2.2]
    exact h.pending t ht
  case finished =>
    rw [(hother t).1] at hc
    rw [(hother c).1]
    exact h.finished t c hc
  case errors =>
    have herrors : (fun c => ((w.observe s caller).scopes c).errors) = fun c => (w.scopes c).errors :=
      funext fun c => (hother c).2.1
    rw [(hother t).2.1, (hother t).1, herrors]
    exact h.errors t
  case reports =>
    rw [(hother r.scope).1, (hother r.scope).2.1]
    exact h.reports r hr
  case answered =>
    intro t other
    show (w.callers ++ [(s, caller)]).count (t, other) = w.reports.countP _ + _
    rw [List.count_append, h.answered t other, observe_scopes, List.count_singleton]
    by_cases ht : t = s
    · subst ht
      simp only [if_true, List.count_append, List.count_singleton]
      by_cases hcaller : caller = other
      all_goals simp [hcaller]
      all_goals omega
    · have hst : s ≠ t := fun heq => ht heq.symm
      simp [ht, hst]
  case called =>
    intro c hc
    rw [(hother c.1).1]
    rcases List.mem_append.mp hc with hc | hc
    · exact h.called c hc
    · rw [List.mem_singleton.mp hc]
      exact hs

theorem failedOf_fail (w : World) (s t : ScopeId) (i : Instance) :
    (w.fail s i).failedOf t = w.failedOf t ++ if t = s then [i] else [] := by
  show ((w.failures ++ [(s, i)]).filter _).map _ = _
  rw [List.filter_append, List.map_append]
  by_cases h : t = s
  · simp [World.failedOf, h]
  · have hst : s ≠ t := fun heq => h heq.symm
    simp [World.failedOf, h, hst]

/-- An error of a disposal that is not complete. -/
theorem Reported.fail {w : World} (h : Reported w) {s : ScopeId} (hs : (w.scopes s).disposal.isComplete = false)
    (i : Instance) : Reported (w.fail s i) := by
  have hother : ∀ t, ((w.fail s i).scopes t).disposal = (w.scopes t).disposal ∧
      ((w.fail s i).scopes t).pending = (w.scopes t).pending ∧
      ((w.fail s i).scopes t).observers = (w.scopes t).observers := by
    intro t
    rw [fail_scopes]
    split <;> exact ⟨rfl, rfl, rfl⟩
  have herrors : ∀ t, (w.scopes t).disposal.isComplete → ((w.fail s i).scopes t).errors = (w.scopes t).errors := by
    intro t ht
    rw [fail_scopes, if_neg]
    rintro rfl
    rw [hs] at ht
    cases ht
  refine {
    pending := fun t ht => ?pending
    finished := fun t c hc => ?finished
    errors := fun t => ?errors
    reports := fun r hr => ?reports
    answered := fun t caller => ?answered
    called := fun c hc => ?called }
  case pending =>
    rw [(hother t).1] at ht
    rw [(hother t).2.1]
    exact h.pending t ht
  case finished =>
    rw [(hother t).1] at hc
    rw [(hother c).1]
    exact h.finished t c hc
  case errors =>
    -- what was taken over is complete
    have hgathered : ((w.scopes t).disposal.gathered.flatMap fun c => ((w.fail s i).scopes c).errors) =
        (w.scopes t).disposal.gathered.flatMap fun c => (w.scopes c).errors := by
      rw [List.flatMap_def, List.flatMap_def]
      congr 1
      exact List.map_congr_left fun c hc => herrors c (h.finished t c hc)
    rw [(hother t).1, hgathered, failedOf_fail, fail_scopes]
    have hbefore := h.errors t
    by_cases ht : t = s
    · subst ht
      have hnone : (w.scopes t).disposal.gathered = [] := by
        cases hd : (w.scopes t).disposal <;> first | rfl | simp [hd, Disposal.isComplete] at hs
      rw [hnone] at hbefore ⊢
      simp [hbefore]
    · simp [ht, hbefore]
  case reports =>
    obtain ⟨hcomplete, heq⟩ := h.reports r hr
    rw [(hother r.scope).1, herrors r.scope hcomplete]
    exact ⟨hcomplete, heq⟩
  case answered =>
    rw [(hother t).2.2]
    exact h.answered t caller
  case called =>
    rw [(hother c.1).1]
    exact h.called c hc

theorem Reported.add {w : World} (h : Reported w) (hfresh : Fresh w) {parent : Option ScopeId}
    (hparent : ∀ p, parent = some p → p < w.count) (declarations : List ServiceClass) (classes : Classes) :
    Reported (w.add parent declarations classes) := by
  obtain ⟨hnew, hold⟩ := add_scopes hparent declarations classes
  have hblank := hfresh w.count (Nat.le_refl _)
  refine h.frame (fun t => ?_) ?_ ?_ ?_
  · by_cases ht : t = w.count
    · subst ht
      rw [hnew, hblank]
      exact ⟨rfl, rfl, rfl, fun _ => id, rfl, id⟩
    · rw [hold t ht]
      exact SameReports.ite ⟨rfl, rfl, rfl, fun _ => id, rfl, id⟩
  all_goals simp [World.add, modifyParent_eq]

/-- The scopes after a disposal is complete, as far as the reports go. -/
theorem completed_scopes (w : World) (s : ScopeId) (waits : List ScopeId) (t : ScopeId) :
    ((w.completed s waits).scopes t).disposal = (if t = s then .complete waits else (w.scopes t).disposal) ∧
    ((w.completed s waits).scopes t).errors =
      (if t = s then (w.scopes t).errors ++ waits.flatMap fun c => (w.scopes c).errors
        else (w.scopes t).errors) ∧
    ((w.completed s waits).scopes t).pending = (w.scopes t).pending ∧
    ((w.completed s waits).scopes t).observers = (w.scopes t).observers := by
  simp only [World.completed, modifyParent_eq, modify_scopes, apply_ite Scope.disposal, apply_ite Scope.errors,
    apply_ite Scope.pending, apply_ite Scope.observers, ite_self, and_self]

theorem Reported.completed {w : World} (h : Reported w) {s : ScopeId} {waits : List ScopeId}
    (hd : (w.scopes s).disposal = .waiting waits) (hpending : (w.scopes s).pending = [])
    (hwaits : ∀ c ∈ waits, (w.scopes c).disposal.isComplete) : Reported (w.completed s waits) := by
  have hs : ∀ c, (w.scopes c).disposal.isComplete → c ≠ s := by
    rintro c hc rfl
    simp [hd, Disposal.isComplete] at hc
  have hlogs : (w.completed s waits).failures = w.failures ∧ (w.completed s waits).reports = w.reports ∧
      (w.completed s waits).callers = w.callers := by
    simp [World.completed, World.modify, modifyParent_eq]
  have hmore : ∀ c, (w.scopes c).disposal.isComplete → ((w.completed s waits).scopes c).disposal.isComplete ∧
      ((w.completed s waits).scopes c).errors = (w.scopes c).errors := by
    intro c hc
    rw [(completed_scopes w s waits c).1, (completed_scopes w s waits c).2.1, if_neg (hs c hc), if_neg (hs c hc)]
    exact ⟨hc, rfl⟩
  have hflat : ∀ cs : List ScopeId, (∀ c ∈ cs, (w.scopes c).disposal.isComplete) →
      (cs.flatMap fun c => ((w.completed s waits).scopes c).errors) = cs.flatMap fun c => (w.scopes c).errors := by
    intro cs hcs
    rw [List.flatMap_def, List.flatMap_def]
    congr 1
    exact List.map_congr_left fun c hc => (hmore c (hcs c hc)).2
  refine {
    pending := fun t ht => ?pending
    finished := fun t c hc => ?finished
    errors := fun t => ?errors
    reports := fun r hr => ?reports
    answered := fun t caller => ?answered
    called := fun c hc => ?called }
  case pending =>
    rw [(completed_scopes w s waits t).2.2.1]
    by_cases hts : t = s
    · rw [hts]
      exact hpending
    · rw [(completed_scopes w s waits t).1, if_neg hts] at ht
      exact h.pending t ht
  case finished =>
    rw [(completed_scopes w s waits t).1] at hc
    split at hc
    · exact (hmore c (hwaits c hc)).1
    · exact (hmore c (h.finished t c hc)).1
  case errors =>
    have hbefore := h.errors t
    rw [(completed_scopes w s waits t).1, (completed_scopes w s waits t).2.1, World.failedOf, hlogs.1]
    by_cases hts : t = s
    · subst hts
      rw [if_pos rfl, if_pos rfl]
      rw [hd] at hbefore
      show _ = _ ++ waits.flatMap _
      rw [hflat waits hwaits, hbefore]
      simp [Disposal.gathered, World.failedOf]
    · rw [if_neg hts, if_neg hts, hflat _ (h.finished t)]
      exact hbefore
  case reports =>
    rw [hlogs.2.1] at hr
    obtain ⟨hcomplete, heq⟩ := h.reports r hr
    rw [(hmore r.scope hcomplete).2]
    exact ⟨(hmore r.scope hcomplete).1, heq⟩
  case answered =>
    rw [hlogs.2.1, hlogs.2.2, (completed_scopes w s waits t).2.2.2]
    exact h.answered t caller
  case called =>
    rw [hlogs.2.2] at hc
    rw [(completed_scopes w s waits c.1).1]
    split
    · rintro ⟨⟩
    · exact h.called c hc

theorem Reported.reported {w : World} (h : Reported w) {s : ScopeId} {caller : Caller} {rest : List Caller}
    (hs : (w.scopes s).disposal.isComplete) (hobservers : (w.scopes s).observers = caller :: rest) :
    Reported (w.reported s caller rest) := by
  have hscopes : ∀ t, (w.reported s caller rest).scopes t =
      if t = s then { w.scopes t with observers := rest } else w.scopes t :=
    fun t => modify_scopes w s (fun scope => { scope with observers := rest }) t
  have hother : ∀ t, ((w.reported s caller rest).scopes t).disposal = (w.scopes t).disposal ∧
      ((w.reported s caller rest).scopes t).errors = (w.scopes t).errors ∧
      ((w.reported s caller rest).scopes t).pending = (w.scopes t).pending := by
    intro t
    rw [hscopes]
    split <;> exact ⟨rfl, rfl, rfl⟩
  refine {
    pending := fun t ht => ?pending
    finished := fun t c hc => ?finished
    errors := fun t => ?errors
    reports := fun r hr => ?reports
    answered := fun t other => ?answered
    called := fun c hc => ?called }
  case pending =>
    rw [(hother t).1] at ht
    rw [(hother t).2.2]
    exact h.pending t ht
  case finished =>
    rw [(hother t).1] at hc
    rw [(hother c).1]
    exact h.finished t c hc
  case errors =>
    have herrors : (fun c => ((w.reported s caller rest).scopes c).errors) = fun c => (w.scopes c).errors :=
      funext fun c => (hother c).2.1
    rw [(hother t).2.1, (hother t).1, herrors]
    exact h.errors t
  case reports =>
    rw [(hother r.scope).1, (hother r.scope).2.1]
    rcases List.mem_append.mp hr with hr | hr
    · exact h.reports r hr
    · rw [List.mem_singleton.mp hr]
      exact ⟨hs, rfl⟩
  case answered =>
    show w.callers.count (t, other) = (w.reports ++ [_]).countP _ + _
    rw [List.countP_append, h.answered t other, hscopes]
    by_cases ht : t = s
    · subst ht
      rw [if_pos rfl, hobservers, List.count_cons]
      by_cases hcaller : caller = other
      all_goals simp [hcaller]
      all_goals omega
    · have hst : s ≠ t := fun heq => ht heq.symm
      simp [ht, hst]
  case called =>
    rw [(hother c.1).1]
    exact h.called c hc

theorem Reported.goto {w : World} (h : Reported w) {s : ScopeId} {d : Disposal}
    (hs : (w.scopes s).disposal.isComplete = false) (hd : d.isComplete = false) (hstarted : d ≠ .idle) :
    Reported (w.goto s d) := by
  refine h.frame (fun t => reports_modify ?_) rfl rfl rfl
  rintro rfl
  exact sameReports_goto hs hd hstarted

theorem Reported.visit {w : World} (h : Reported w) (s : ScopeId) (i : Instance) (read : Read) :
    Reported (w.visit s i read) :=
  h.frame (fun _ => .rfl) rfl rfl rfl

theorem goto_disposal (w : World) (s : ScopeId) (d : Disposal) :
    ((w.goto s d).scopes s).disposal = d := by
  simp [World.goto, modify_scopes]

theorem Reported.move {w w' : World} (h : Reported w) (hw : Simulated w) (hmove : Move w w') : Reported w' := by
  cases hmove with
  | idle => exact h
  | construct parent declarations classes hparent hbuilt => exact h.add hw.fresh hparent declarations classes
  | abandon parent declarations classes hparent =>
    exact ((h.add hw.fresh hparent declarations classes).beginDisposal _).observe
      (beginDisposal_started _ _) _
  | call s caller hs => exact (h.beginDisposal s).observe (beginDisposal_started _ _) caller
  | child s c rest hd =>
    have hnext : Reported (w.goto s (.children rest)) := h.goto (by simp [hd, Disposal.isComplete]) rfl (by rintro ⟨⟩)
    exact hnext.beginDisposal c
  | services s hd =>
    refine h.frame (fun t => reports_modify ?_) rfl rfl rfl
    rintro rfl
    have hsame := sameReports_goto (a := w.scopes t) (d := .entries (w.scopes t).owned)
      (by simp [hd, Disposal.isComplete]) rfl (by rintro ⟨⟩)
    exact { hsame with }
  | skip s c rest hd => exact h.goto (by simp [hd, Disposal.isComplete]) rfl (by rintro ⟨⟩)
  | pass s c i rest hd =>
    exact (h.visit s i .absent).goto (by simp [World.visit, hd, Disposal.isComplete]) rfl (by rintro ⟨⟩)
  | unreadable s c i rest hd =>
    have hvisited : Reported ((w.visit s i .throws).goto s (.entries rest)) :=
      (h.visit s i .throws).goto (by simp [World.visit, hd, Disposal.isComplete]) rfl (by rintro ⟨⟩)
    refine hvisited.fail ?_ i
    rw [goto_disposal]
    rfl
  | hook s c i rest hd =>
    exact (h.visit s i .function).goto (by simp [World.visit, hd, Disposal.isComplete]) rfl (by rintro ⟨⟩)
  | collect s rest hstack hd =>
    refine h.frame (fun t => ?_) ?_ ?_ ?_
    · have hcollect : SameReports (w.scopes t) ((w.modify s fun scope =>
          { scope with owned := [], disposal := .waiting scope.childDisposals }).scopes t) := by
        refine reports_modify ?_
        rintro rfl
        have hsame := sameReports_goto (a := w.scopes t) (d := .waiting (w.scopes t).childDisposals)
          (by simp [hd, Disposal.isComplete]) rfl (by rintro ⟨⟩)
        exact { hsame with }
      exact hcollect.trans (reports_modifyParent ⟨rfl, rfl, rfl, fun _ => id, rfl, id⟩)
    all_goals simp [World.collect, World.modify, modifyParent_eq]
  | value s i rest hd => exact h.goto (by simp [hd, Disposal.isComplete]) rfl (by rintro ⟨⟩)
  | promise s i rest hd =>
    have hreturned : Reported (w.goto s (.entries rest)) := h.goto (by simp [hd, Disposal.isComplete]) rfl (by rintro ⟨⟩)
    refine hreturned.frame (fun t => reports_modify ?_) rfl rfl rfl
    rintro rfl
    refine ⟨rfl, rfl, rfl, ?_, rfl, id⟩
    intro hcomplete
    rw [goto_disposal] at hcomplete
    cases hcomplete
  | throw s i rest hd =>
    have hreturned : Reported (w.goto s (.entries rest)) := h.goto (by simp [hd, Disposal.isComplete]) rfl (by rintro ⟨⟩)
    refine hreturned.fail ?_ i
    rw [goto_disposal]
    rfl
  | fulfil s i hstack hi =>
    refine h.frame (fun t => reports_modify fun _ => ⟨rfl, rfl, rfl, ?_, rfl, id⟩) rfl rfl rfl
    intro _ hnone
    simp [hnone]
  | reject s i hstack hi =>
    have hsettled : Reported (w.modify s fun scope => { scope with pending := scope.pending.erase i }) := by
      refine h.frame (fun t => reports_modify fun _ => ⟨rfl, rfl, rfl, ?_, rfl, id⟩) rfl rfl rfl
      intro _ hnone
      simp [hnone]
    refine hsettled.fail ?_ i
    rw [modify_scopes, if_pos rfl]
    -- a complete disposal has no pending hook
    cases hcomplete : (w.scopes s).disposal.isComplete with
    | false => rfl
    | true =>
      rw [h.pending s hcomplete] at hi
      cases hi
  | complete s waits hstack hd hpending hwaits => exact h.completed hd hpending hwaits
  | report s caller rest hstack hd hobservers => exact h.reported hd hobservers

/-! ## Section 2: Constructors that throw -/

/-- A scope whose constructor threw is disposed by it. -/
def Abandoned (w : World) : Prop :=
  ∀ s, s < w.count → (w.scopes s).constructed = false → (s, .setup) ∈ w.callers

theorem Abandoned.frame {w w' : World} (h : Abandoned w) (hcount : w'.count = w.count)
    (hsame : ∀ t, (w'.scopes t).constructed = (w.scopes t).constructed)
    (hcallers : ∀ c ∈ w.callers, c ∈ w'.callers) : Abandoned w' := by
  intro s hs hfalse
  rw [hcount] at hs
  rw [hsame] at hfalse
  exact hcallers _ (h s hs hfalse)

theorem beginDisposal_constructed (w : World) (s t : ScopeId) :
    ((w.beginDisposal s).scopes t).constructed = (w.scopes t).constructed := by
  unfold World.beginDisposal
  split
  · simp only [World.begin, modifyParent_eq, modify_scopes, apply_ite Scope.constructed, ite_self]
  · rfl

@[simp] theorem beginDisposal_callers (w : World) (s : ScopeId) : (w.beginDisposal s).callers = w.callers := by
  unfold World.beginDisposal
  split
  · simp [World.begin, World.modify, modifyParent_eq]
  · rfl

theorem Abandoned.move {w w' : World} (h : Abandoned w) (hmove : Move w w') : Abandoned w' := by
  have hadd : ∀ (parent : Option ScopeId) (declarations : List ServiceClass) (classes : Classes),
      (∀ p, parent = some p → p < w.count) → ∀ t, t ≠ w.count →
      ((w.add parent declarations classes).scopes t).constructed = (w.scopes t).constructed := by
    intro parent declarations classes hparent t ht
    rw [(add_scopes hparent declarations classes).2 t ht]
    split <;> rfl
  cases hmove with
  | idle => exact h
  | construct parent declarations classes hparent hbuilt =>
    intro s hs hfalse
    have hcallers : (w.add parent declarations classes).callers = w.callers := by
      simp [World.add, modifyParent_eq]
    have hne : s ≠ w.count := by
      rintro rfl
      rw [hbuilt] at hfalse
      cases hfalse
    rw [hadd parent declarations classes hparent s hne] at hfalse
    rw [add_count] at hs
    rw [hcallers]
    exact h s (Nat.lt_of_le_of_ne (Nat.le_of_lt_succ hs) hne) hfalse
  | abandon parent declarations classes hparent =>
    intro s hs hfalse
    have hcallers : (((w.add parent declarations classes).beginDisposal w.count).observe w.count .setup).callers =
        w.callers ++ [(w.count, .setup)] := by
      simp [World.observe, World.add, modifyParent_eq]
    rw [hcallers]
    by_cases hne : s = w.count
    · rw [hne]
      exact List.mem_append_right _ List.mem_cons_self
    · rw [observe_scopes, apply_ite Scope.constructed] at hfalse
      simp only [ite_self, beginDisposal_constructed] at hfalse
      rw [hadd parent declarations classes hparent s hne] at hfalse
      have hlt : s < (w.add parent declarations classes).count := by
        simpa [World.observe, World.modify] using hs
      rw [add_count] at hlt
      exact List.mem_append_left _ (h s (Nat.lt_of_le_of_ne (Nat.le_of_lt_succ hlt) hne) hfalse)
  | call s caller hs =>
    refine h.frame (by simp [World.observe, World.modify]) (fun t => ?_) ?_
    · rw [observe_scopes, apply_ite Scope.constructed]
      simp only [ite_self, beginDisposal_constructed]
    · intro c hc
      exact List.mem_append_left _ (by simpa using hc)
  | child s c rest hd =>
    refine h.frame (by simp [World.goto, World.modify]) (fun t => ?_) (fun c hc => ?_)
    · simp only [beginDisposal_constructed, World.goto, modify_scopes, apply_ite Scope.constructed, ite_self]
    · simpa [World.goto, World.modify] using hc
  | collect s rest hstack hd =>
    refine h.frame ?_ (fun t => ?_) ?_
    · simp [World.collect, World.modify, modifyParent_eq]
    · simp only [World.collect, modifyParent_eq, modify_scopes, apply_ite Scope.constructed, ite_self]
    · simp [World.collect, World.modify, modifyParent_eq]
  | complete s waits hstack hd hpending hwaits =>
    refine h.frame ?_ (fun t => ?_) ?_
    · simp [World.completed, World.modify, modifyParent_eq]
    · simp only [World.completed, modifyParent_eq, modify_scopes, apply_ite Scope.constructed, ite_self]
    · simp [World.completed, World.modify, modifyParent_eq]
  | _ =>
    refine h.frame rfl (fun t => ?_) fun _ hc => hc
    simp only [World.goto, World.visit, World.fail, World.reported, modify_scopes, apply_ite Scope.constructed,
      ite_self]

end Cossack.Core.ServiceScopes
