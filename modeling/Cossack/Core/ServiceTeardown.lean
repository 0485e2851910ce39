import Cossack.Core.ServiceScopes
import Cossack.Lib.Teardown

/-! # Disposal as the teardown of a tree

    The moves a world can make, and what they do to the tree of its scopes. -/

namespace Cossack.Core.ServiceScopes

open Teardown (Phase Tree)

/-! ## Section 1: Moves -/

/-- The state after `complete`. -/
def World.completed (w : World) (s : ScopeId) (waits : List ScopeId) : World :=
  (w.modify s fun scope =>
    { scope with
      errors := scope.errors ++ waits.flatMap fun c => (w.scopes c).errors
      childDisposals := [], disposal := .complete waits }).modifyParent s fun parent =>
    { parent with childDisposals := parent.childDisposals.filter (· != s) }

def World.reported (w : World) (s : ScopeId) (caller : Caller) (rest : List Caller) : World :=
  { w.modify s fun scope => { scope with observers := rest } with
    reports := w.reports ++ [⟨s, caller, (w.scopes s).errors⟩] }

/-- Everything an event can do. -/
inductive Move (w : World) : World → Prop
  | idle : Move w w
  | construct (parent : Option ScopeId) (declarations : List ServiceClass) (classes : Classes)
      (hparent : ∀ p, parent = some p → p < w.count)
      (hbuilt : ((w.add parent declarations classes).scopes w.count).constructed) :
      Move w (w.add parent declarations classes)
  | abandon (parent : Option ScopeId) (declarations : List ServiceClass) (classes : Classes)
      (hparent : ∀ p, parent = some p → p < w.count) :
      Move w (((w.add parent declarations classes).beginDisposal w.count).observe w.count .setup)
  | call (s : ScopeId) (caller : Caller) (hs : s < w.count) : Move w ((w.beginDisposal s).observe s caller)
  | child (s c : ScopeId) (rest : List ScopeId) (h : (w.scopes s).disposal = .children (c :: rest)) :
      Move w ((w.goto s (.children rest)).beginDisposal c)
  | services (s : ScopeId) (h : (w.scopes s).disposal = .children []) :
      Move w (w.modify s fun scope => { scope with children := [], disposal := .entries scope.owned })
  | skip (s : ScopeId) (c : ServiceClass) (rest : List (ServiceClass × Option Instance))
      (h : (w.scopes s).disposal = .entries ((c, none) :: rest)) : Move w (w.goto s (.entries rest))
  | pass (s : ScopeId) (c : ServiceClass) (i : Instance) (rest : List (ServiceClass × Option Instance))
      (h : (w.scopes s).disposal = .entries ((c, some i) :: rest)) :
      Move w ((w.visit s i .absent).goto s (.entries rest))
  | unreadable (s : ScopeId) (c : ServiceClass) (i : Instance) (rest : List (ServiceClass × Option Instance))
      (h : (w.scopes s).disposal = .entries ((c, some i) :: rest)) :
      Move w (((w.visit s i .throws).goto s (.entries rest)).fail s i)
  | hook (s : ScopeId) (c : ServiceClass) (i : Instance) (rest : List (ServiceClass × Option Instance))
      (h : (w.scopes s).disposal = .entries ((c, some i) :: rest)) :
      Move w ((w.visit s i .function).goto s (.hook i rest))
  | collect (s : ScopeId) (rest : List ScopeId) (hstack : w.stack = s :: rest)
      (h : (w.scopes s).disposal = .entries []) : Move w (w.collect s)
  | value (s : ScopeId) (i : Instance) (rest : List (ServiceClass × Option Instance))
      (h : (w.scopes s).disposal = .hook i rest) : Move w (w.goto s (.entries rest))
  | promise (s : ScopeId) (i : Instance) (rest : List (ServiceClass × Option Instance))
      (h : (w.scopes s).disposal = .hook i rest) :
      Move w ((w.goto s (.entries rest)).modify s fun scope => { scope with pending := scope.pending ++ [i] })
  | throw (s : ScopeId) (i : Instance) (rest : List (ServiceClass × Option Instance))
      (h : (w.scopes s).disposal = .hook i rest) : Move w ((w.goto s (.entries rest)).fail s i)
  | fulfil (s : ScopeId) (i : Instance) (hstack : w.stack = []) (h : i ∈ (w.scopes s).pending) :
      Move w (w.modify s fun scope => { scope with pending := scope.pending.erase i })
  | reject (s : ScopeId) (i : Instance) (hstack : w.stack = []) (h : i ∈ (w.scopes s).pending) :
      Move w ((w.modify s fun scope => { scope with pending := scope.pending.erase i }).fail s i)
  | complete (s : ScopeId) (waits : List ScopeId) (hstack : w.stack = [])
      (h : (w.scopes s).disposal = .waiting waits) (hpending : (w.scopes s).pending = [])
      (hwaits : ∀ c ∈ waits, (w.scopes c).disposal.isComplete) : Move w (w.completed s waits)
  | report (s : ScopeId) (caller : Caller) (rest : List Caller) (hstack : w.stack = [])
      (h : (w.scopes s).disposal.isComplete) (hobservers : (w.scopes s).observers = caller :: rest) :
      Move w (w.reported s caller rest)

theorem known_lt {w : World} {s : ScopeId} (h : w.known s) : s < w.count := by
  simp only [World.known, Bool.and_eq_true, decide_eq_true_eq] at h
  exact h.1

theorem move_of_advance {w w' : World} {s : ScopeId} {rest : List ScopeId} {read : Read}
    (hstack : w.stack = s :: rest) (h : w.advance s read = some w') : Move w w' := by
  unfold World.advance at h
  split at h
  case h_1 c rest hd =>
    cases h
    exact .child s c rest hd
  case h_2 hd =>
    cases h
    exact .services s hd
  case h_3 c rest hd =>
    cases h
    exact .skip s c rest hd
  case h_4 c i rest hd =>
    cases read <;> cases h
    · exact .pass s c i rest hd
    · exact .unreadable s c i rest hd
    · exact .hook s c i rest hd
  case h_5 hd =>
    cases h
    exact .collect s rest hstack hd
  case h_6 => cases h

theorem move_of_hookReturns {w w' : World} {s : ScopeId} {outcome : HookOutcome}
    (h : w.hookReturns s outcome = some w') : Move w w' := by
  unfold World.hookReturns at h
  split at h
  case h_1 i rest hd =>
    cases outcome <;> cases h
    · exact .value s i rest hd
    · exact .promise s i rest hd
    · exact .throw s i rest hd
  case h_2 => cases h

theorem move_of_complete {w w' : World} {s : ScopeId} (hstack : w.stack = []) (h : w.complete s = some w') :
    Move w w' := by
  unfold World.complete at h
  split at h
  case h_1 waits hd =>
    split at h
    case isTrue hall =>
      cases h
      exact .complete s waits hstack hd hall.1 hall.2
    case isFalse => cases h
  case h_2 => cases h

theorem move_of_report {w w' : World} {s : ScopeId} (hstack : w.stack = []) (h : w.report s = some w') :
    Move w w' := by
  unfold World.report at h
  split at h
  case h_1 waits caller rest hd hobservers =>
    cases h
    exact .report s caller rest hstack (by rw [hd]; rfl) hobservers
  case h_2 => cases h

theorem move_of_step {w w' : World} {e : Event} (h : w.step e = some w') : Move w w' := by
  cases e with
  | construct parent declarations classes =>
    simp only [World.step] at h
    split at h
    case isFalse => cases h
    case isTrue hknown =>
      have hparent : ∀ p, parent = some p → p < w.count := fun p hp => known_lt (hknown.2 p hp)
      split at h
      · cases h
        exact .construct parent declarations classes hparent ‹_›
      · cases h
        exact .abandon parent declarations classes hparent
  | dispose s =>
    simp only [World.step] at h
    split at h
    case isFalse => cases h
    case isTrue hknown =>
      split at h <;> cases h
      · exact .call s .dispose (known_lt hknown.2)
      · exact .idle
  | disposeAsync s =>
    simp only [World.step] at h
    split at h <;> cases h
    rename_i hknown
    exact .call s .disposeAsync (known_lt hknown.2)
  | advance read =>
    simp only [World.step] at h
    split at h
    · exact move_of_advance ‹_› h
    · cases h
  | hookReturns outcome =>
    simp only [World.step] at h
    split at h
    · exact move_of_hookReturns h
    · cases h
  | settle s i rejected =>
    simp only [World.step] at h
    split at h
    case isFalse => cases h
    case isTrue hpending =>
      cases rejected <;> cases h
      · exact .fulfil s i hpending.1 hpending.2
      · exact .reject s i hpending.1 hpending.2
  | complete s =>
    simp only [World.step] at h
    split at h
    · exact move_of_complete ‹_› h
    · cases h
  | report s =>
    simp only [World.step] at h
    split at h
    · exact move_of_report ‹_› h
    · cases h

/-! ## Section 2: The tree of the scopes -/

def Disposal.phase : Disposal → Phase
  | .idle => .idle
  | .children rest => .children rest
  | .entries _ => .working
  | .hook _ _ => .working
  | .waiting waits => .waiting waits
  | .complete waits => .complete waits

def World.tree (w : World) : Tree where
  count := w.count
  parent s := (w.scopes s).parent
  phase s := (w.scopes s).disposal.phase
  children s := (w.scopes s).children
  promises s := (w.scopes s).childDisposals
  begun s := (w.scopes s).begun
  stack := w.stack
  requested := w.callers.map Prod.fst

theorem modify_scopes (w : World) (s : ScopeId) (f : Scope → Scope) (t : ScopeId) :
    (w.modify s f).scopes t = if t = s then f (w.scopes t) else w.scopes t := by
  by_cases h : t = s
  · subst h
    simp [World.modify]
  · simp [World.modify, h]

theorem modifyParent_eq (w : World) (s : ScopeId) (f : Scope → Scope) :
    w.modifyParent s f =
      { w with scopes := fun t => if (w.scopes s).parent = some t then f (w.scopes t) else w.scopes t } := by
  unfold World.modifyParent
  cases hparent : (w.scopes s).parent with
  | none => simp
  | some p =>
    have hscopes : Function.update w.scopes p (f (w.scopes p)) =
        fun t => if some p = some t then f (w.scopes t) else w.scopes t := by
      funext t
      by_cases h : t = p
      · subst h
        simp
      · have hne : p ≠ t := fun heq => h heq.symm
        simp [h, hne]
    simp only [World.modify, hscopes]

@[simp] theorem phase_eq_idle {d : Disposal} : d.phase = .idle ↔ d = .idle := by
  cases d <;> simp [Disposal.phase]

theorem phase_isComplete {d : Disposal} : d.phase.IsComplete ↔ d.isComplete = true := by
  cases d <;> simp [Disposal.phase, Disposal.isComplete]

/-- A change of what the tree does not show. -/
theorem tree_modify (w : World) (s : ScopeId) (f : Scope → Scope)
    (h : ∀ x, (f x).parent = x.parent ∧ (f x).disposal = x.disposal ∧ (f x).children = x.children ∧
      (f x).childDisposals = x.childDisposals ∧ (f x).begun = x.begun) : (w.modify s f).tree = w.tree := by
  have hview : ∀ {A : Type} (view : Scope → A), (∀ x, view (f x) = view x) →
      (fun t => view ((w.modify s f).scopes t)) = fun t => view (w.scopes t) := by
    intro A view hsame
    funext t
    rw [modify_scopes]
    split
    · exact hsame _
    · rfl
  unfold World.tree
  rw [hview Scope.parent fun x => (h x).1, hview Scope.children fun x => (h x).2.2.1,
    hview Scope.childDisposals fun x => (h x).2.2.2.1, hview Scope.begun fun x => (h x).2.2.2.2,
    hview (fun x => x.disposal.phase) fun x => by rw [(h x).2.1]]
  rfl

/-- Two trees are equal when they are at every scope. -/
theorem tree_eq {w : World} {t : Tree} (hcount : w.count = t.count) (hstack : w.stack = t.stack)
    (hrequested : w.callers.map Prod.fst = t.requested) (hparent : ∀ s, (w.scopes s).parent = t.parent s)
    (hphase : ∀ s, (w.scopes s).disposal.phase = t.phase s)
    (hchildren : ∀ s, (w.scopes s).children = t.children s)
    (hpromises : ∀ s, (w.scopes s).childDisposals = t.promises s)
    (hbegun : ∀ s, (w.scopes s).begun = t.begun s) : w.tree = t := by
  cases t
  simp only [World.tree, Tree.mk.injEq]
  exact ⟨hcount, funext hparent, funext hphase, funext hchildren, funext hpromises, funext hbegun, hstack,
    hrequested⟩

theorem tree_goto (w : World) (s : ScopeId) (d : Disposal) : (w.goto s d).tree = w.tree.goto s d.phase := by
  apply tree_eq rfl rfl rfl
  all_goals intro t
  all_goals simp only [World.goto, modify_scopes, apply_ite Scope.parent, apply_ite Scope.disposal,
    apply_ite Scope.children, apply_ite Scope.childDisposals, apply_ite Scope.begun, apply_ite Disposal.phase,
    ite_self, World.tree, Tree.goto, Function.update_apply]

/-- A phase that the tree does not distinguish from the one before. -/
theorem tree_goto_same {w : World} {s : ScopeId} {d : Disposal} (h : d.phase = (w.scopes s).disposal.phase) :
    (w.goto s d).tree = w.tree := by
  rw [tree_goto, h]
  unfold Tree.goto
  simp only [World.tree]
  rw [show (w.scopes s).disposal.phase = (fun t => (w.scopes t).disposal.phase) s from rfl, Function.update_eq_self]

@[simp] theorem tree_visit (w : World) (s : ScopeId) (i : Instance) (read : Read) :
    (w.visit s i read).tree = w.tree := rfl

@[simp] theorem tree_fail (w : World) (s : ScopeId) (i : Instance) : (w.fail s i).tree = w.tree :=
  tree_modify w s (fun scope => { scope with errors := scope.errors ++ [i] }) fun _ => ⟨rfl, rfl, rfl, rfl, rfl⟩

theorem tree_observe (w : World) (s : ScopeId) (caller : Caller) :
    (w.observe s caller).tree = { w.tree with requested := w.tree.requested ++ [s] } := by
  have hsame := tree_modify w s (fun scope => { scope with observers := scope.observers ++ [caller] })
    fun _ => ⟨rfl, rfl, rfl, rfl, rfl⟩
  have hobserve : (w.observe s caller).tree =
      { (w.modify s fun scope => { scope with observers := scope.observers ++ [caller] }).tree with
        requested := w.tree.requested ++ [s] } := by
    simp [World.observe, World.tree]
  rw [hobserve, hsame]

theorem tree_beginDisposal (w : World) (s : ScopeId) : (w.beginDisposal s).tree = w.tree.begin s := by
  unfold World.beginDisposal
  split
  case h_1 h =>
    rw [Teardown.begin_eq (by simp [World.tree, h])]
    apply tree_eq
    all_goals simp only [World.begin, modifyParent_eq, modify_scopes, apply_ite Scope.parent,
      apply_ite Scope.disposal, apply_ite Scope.children, apply_ite Scope.childDisposals, apply_ite Scope.begun,
      apply_ite Disposal.phase, ite_self, implies_true, World.tree, Function.update_apply]
    case hcount => rfl
    case hrequested => rfl
    all_goals intro t
    case hphase =>
      split
      · subst t
        rfl
      · rfl
    case hpromises => rfl
  case h_2 h => rw [Teardown.begin_of_ne (by simpa [World.tree] using h)]

theorem tree_services {w : World} {s : ScopeId} :
    (w.modify s fun scope => { scope with children := [], disposal := .entries scope.owned }).tree =
      w.tree.work s := by
  apply tree_eq rfl rfl rfl
  all_goals intro t
  all_goals simp only [modify_scopes, apply_ite Scope.parent, apply_ite Scope.disposal,
    apply_ite Scope.children, apply_ite Scope.childDisposals, apply_ite Scope.begun, apply_ite Disposal.phase,
    ite_self, World.tree, Tree.work, Tree.goto, Function.update_apply]
  case hphase => rfl

theorem tree_collect (w : World) (s : ScopeId) : (w.collect s).tree = w.tree.collect s := by
  apply tree_eq
  all_goals simp only [World.collect, modifyParent_eq, modify_scopes, apply_ite Scope.parent,
    apply_ite Scope.disposal, apply_ite Scope.children, apply_ite Scope.childDisposals, apply_ite Scope.begun,
    apply_ite Disposal.phase, ite_self, implies_true, World.tree, Tree.collect, Tree.goto, Function.update_apply]
  case hcount => rfl
  case hrequested => rfl
  all_goals intro t
  case hphase =>
    split
    · subst t
      rfl
    · rfl
  case hchildren => rfl

theorem tree_completed (w : World) (s : ScopeId) (waits : List ScopeId) :
    (w.completed s waits).tree = w.tree.complete s waits := by
  apply tree_eq
  all_goals simp only [World.completed, modifyParent_eq, modify_scopes, apply_ite Scope.parent,
    apply_ite Scope.disposal, apply_ite Scope.children, apply_ite Scope.childDisposals, apply_ite Scope.begun,
    apply_ite Disposal.phase, ite_self, implies_true, World.tree, Tree.complete, Tree.goto, Teardown.atParent,
    Function.update_apply]
  case hcount => rfl
  case hstack => rfl
  case hrequested => rfl
  all_goals intro t
  case hphase => rfl

theorem tree_reported (w : World) (s : ScopeId) (caller : Caller) (rest : List Caller) :
    (w.reported s caller rest).tree = w.tree :=
  tree_modify w s (fun scope => { scope with observers := rest }) fun _ => ⟨rfl, rfl, rfl, rfl, rfl⟩

/-- Nothing is known of a scope before its construction. -/
def Fresh (w : World) : Prop := ∀ s, w.count ≤ s → w.scopes s = .new none (⟨[], 0, []⟩, false)

theorem tree_add {w : World} (hfresh : Fresh w) {parent : Option ScopeId}
    (declarations : List ServiceClass) (classes : Classes) :
    (w.add parent declarations classes).tree = w.tree.add parent := by
  have hblank := hfresh w.count (Nat.le_refl _)
  apply tree_eq
  all_goals simp only [World.add, modifyParent_eq, Function.update_apply, apply_ite Scope.parent,
    apply_ite Scope.disposal, apply_ite Scope.children, apply_ite Scope.childDisposals, apply_ite Scope.begun,
    apply_ite Disposal.phase, ite_self, World.tree, Tree.add]
  all_goals intro t
  case hparent => rfl
  all_goals by_cases ht : t = w.count
  all_goals (try subst ht)
  all_goals simp [*, Scope.new, Disposal.phase]

/-! ## Section 3: Every move is steps of the teardown -/

theorem Fresh.modify {w : World} (h : Fresh w) {s : ScopeId} (hs : s < w.count) (f : Scope → Scope) :
    Fresh (w.modify s f) := by
  intro t ht
  rw [modify_scopes, if_neg (show t ≠ s by rintro rfl; exact absurd hs (Nat.not_lt.mpr ht))]
  exact h t ht

theorem Fresh.modifyParent {w : World} (h : Fresh w) {s : ScopeId}
    (hparent : ∀ p, (w.scopes s).parent = some p → p < w.count) (f : Scope → Scope) :
    Fresh (w.modifyParent s f) := by
  rw [modifyParent_eq]
  intro t ht
  show (if _ then _ else _) = _
  rw [if_neg]
  · exact h t ht
  · intro heq
    exact absurd (hparent t heq) (Nat.not_lt.mpr ht)

theorem Fresh.known {w : World} (h : Fresh w) {s : ScopeId}
    (hs : (w.scopes s).disposal ≠ .idle ∨ (w.scopes s).pending ≠ []) : s < w.count := by
  by_contra hge
  rw [h s (Nat.not_lt.mp hge)] at hs
  simp [Scope.new] at hs

theorem Fresh.observe {w : World} (h : Fresh w) {s : ScopeId} (hs : s < w.count) (caller : Caller) :
    Fresh (w.observe s caller) :=
  fun t ht => h.modify hs (fun scope => { scope with observers := scope.observers ++ [caller] }) t ht

theorem Fresh.fail {w : World} (h : Fresh w) {s : ScopeId} (hs : s < w.count) (i : Instance) :
    Fresh (w.fail s i) :=
  fun t ht => h.modify hs (fun scope => { scope with errors := scope.errors ++ [i] }) t ht

@[simp] theorem modifyParent_count (w : World) (s : ScopeId) (f : Scope → Scope) :
    (w.modifyParent s f).count = w.count := by rw [modifyParent_eq]

@[simp] theorem beginDisposal_count (w : World) (s : ScopeId) : (w.beginDisposal s).count = w.count := by
  unfold World.beginDisposal
  split
  · simp [World.begin, World.modify]
  · rfl

theorem add_count (w : World) (parent : Option ScopeId) (declarations : List ServiceClass) (classes : Classes) :
    (w.add parent declarations classes).count = w.count + 1 := by
  simp [World.add]

theorem Fresh.beginDisposal {w : World} (h : Fresh w) {s : ScopeId} (hs : s < w.count)
    (hparent : ∀ p, (w.scopes s).parent = some p → p < w.count) : Fresh (w.beginDisposal s) := by
  unfold World.beginDisposal
  split
  · refine (h.modify hs _).modifyParent ?_ _
    intro p hp
    rw [modify_scopes, if_pos rfl] at hp
    exact hparent p hp
  · exact h

/-- The tree of a world is one of the teardown's. -/
structure Simulated (w : World) : Prop where
  fresh : Fresh w
  tree : Teardown.Coordinated w.tree

theorem Simulated.parents {w : World} (h : Simulated w) {p c : Nat} (hpc : (w.scopes c).parent = some p) :
    p < c ∧ c < w.count := h.tree.parents p c hpc

theorem Simulated.parent_lt {w : World} (h : Simulated w) (s : Nat) :
    ∀ p : Nat, (w.scopes s).parent = some p → p < w.count := by
  intro p hp
  have := h.parents hp
  omega

theorem add_fresh {w : World} (h : Fresh w) {parent : Option ScopeId}
    (hparent : ∀ p, parent = some p → p < w.count) (declarations : List ServiceClass) (classes : Classes) :
    Fresh (w.add parent declarations classes) ∧
    ((w.add parent declarations classes).scopes w.count).parent = parent := by
  simp only [World.add, modifyParent_eq, Function.update_self, Scope.new]
  have hself : parent ≠ some w.count := fun heq => absurd (hparent _ heq) (Nat.lt_irrefl _)
  refine ⟨?_, by simp [hself]⟩
  intro t ht
  have hne : t ≠ w.count := fun heq => absurd ht (by simp [heq])
  have hpt : parent ≠ some t := by
    intro heq
    have hlt := hparent t heq
    exact absurd (Nat.lt_trans hlt (Nat.lt_of_succ_le ht)) (Nat.lt_irrefl _)
  simp only [hpt, if_false, Function.update_of_ne hne]
  exact h t (Nat.le_of_succ_le ht)

theorem Simulated.fresh_move {w w' : World} (h : Simulated w) (hmove : Move w w') : Fresh w' := by
  have hbusy : ∀ s, (w.scopes s).disposal ≠ .idle → s < w.count := fun s hs => h.fresh.known (.inl hs)
  have hgoto : ∀ s d, (w.scopes s).disposal ≠ .idle → Fresh (w.goto s d) :=
    fun s d hs => h.fresh.modify (hbusy s hs) _
  cases hmove with
  | idle => exact h.fresh
  | construct parent declarations classes hparent hbuilt => exact (add_fresh h.fresh hparent declarations classes).1
  | abandon parent declarations classes hparent =>
    obtain ⟨hfresh, heq⟩ := add_fresh h.fresh hparent declarations classes
    have hcount := add_count w parent declarations classes
    have hlt : w.count < (w.add parent declarations classes).count := by omega
    refine (hfresh.beginDisposal hlt ?_).observe (by rwa [beginDisposal_count]) _
    intro p hp
    rw [heq] at hp
    rw [hcount]
    exact Nat.lt_succ_of_lt (hparent p hp)
  | call s caller hs =>
    exact (h.fresh.beginDisposal hs (h.parent_lt s)).observe (by rwa [beginDisposal_count]) _
  | child s c rest hd =>
    have hc : (w.scopes c).parent = some s :=
      h.tree.listed s c (.inr (.inl (by simp [World.tree, hd, Disposal.phase, Phase.rest])))
    refine (hgoto s _ (by simp [hd])).beginDisposal (h.parents hc).2 ?_
    intro p hp
    refine h.parent_lt c p ?_
    simpa only [World.goto, modify_scopes, apply_ite Scope.parent, ite_self] using hp
  | services s hd => exact h.fresh.modify (hbusy s (by simp [hd])) _
  | skip s c rest hd => exact hgoto s _ (by simp [hd])
  | pass s c i rest hd => exact hgoto s _ (by simp [hd])
  | unreadable s c i rest hd => exact Fresh.fail (hgoto s _ (by simp [hd])) (hbusy s (by simp [hd])) i
  | hook s c i rest hd => exact hgoto s _ (by simp [hd])
  | collect s rest hstack hd =>
    refine (h.fresh.modify (hbusy s (by simp [hd])) _).modifyParent ?_ _
    intro p hp
    refine h.parent_lt s p ?_
    simpa only [modify_scopes, apply_ite Scope.parent, ite_self] using hp
  | value s i rest hd => exact hgoto s _ (by simp [hd])
  | promise s i rest hd => exact Fresh.modify (hgoto s _ (by simp [hd])) (hbusy s (by simp [hd])) _
  | throw s i rest hd => exact Fresh.fail (hgoto s _ (by simp [hd])) (hbusy s (by simp [hd])) i
  | fulfil s i hstack hi => exact h.fresh.modify (h.fresh.known (.inr (List.ne_nil_of_mem hi))) _
  | reject s i hstack hi =>
    have hs := h.fresh.known (.inr (List.ne_nil_of_mem hi))
    exact (h.fresh.modify hs _).fail hs i
  | complete s waits hstack hd hpending hwaits =>
    refine (h.fresh.modify (hbusy s (by simp [hd])) _).modifyParent ?_ _
    intro p hp
    refine h.parent_lt s p ?_
    simpa only [modify_scopes, apply_ite Scope.parent, ite_self] using hp
  | report s caller rest hstack hd hobservers =>
    have hs : s < w.count := by
      refine hbusy s ?_
      intro hidle
      simp [hidle, Disposal.isComplete] at hd
    exact fun t ht => h.fresh.modify hs (fun scope => { scope with observers := rest }) t ht

theorem Simulated.tree_move {w w' : World} (h : Simulated w) (hmove : Move w w') :
    Relation.ReflTransGen Teardown.Step w.tree w'.tree := by
  cases hmove with
  | idle => exact .refl
  | construct parent declarations classes hparent hbuilt =>
    rw [tree_add h.fresh]
    exact .single (.add parent hparent)
  | abandon parent declarations classes hparent =>
    rw [tree_observe, tree_beginDisposal, tree_add h.fresh]
    refine .tail (.single (.add parent hparent)) ?_
    have hrequested : ((w.tree.add parent).begin w.count).requested = (w.tree.add parent).requested := by
      unfold Tree.begin
      split <;> rfl
    rw [hrequested, ← Teardown.request_eq]
    exact .request _ (Nat.lt_succ_self _)
  | call s caller hs =>
    rw [tree_observe, tree_beginDisposal]
    have hrequested : (w.tree.begin s).requested = w.tree.requested := by
      unfold Tree.begin
      split <;> rfl
    rw [hrequested, ← Teardown.request_eq]
    exact .single (.request s hs)
  | child s c rest hd =>
    rw [tree_beginDisposal, tree_goto]
    exact .single (.child s c rest (by simp [World.tree, hd, Disposal.phase]))
  | services s hd =>
    rw [tree_services]
    exact .single (.work s (by simp [World.tree, hd, Disposal.phase]))
  | skip s c rest hd =>
    rw [tree_goto_same (by simp [hd, Disposal.phase])]
  | pass s c i rest hd =>
    rw [tree_goto_same (by simp [World.visit, hd, Disposal.phase]), tree_visit]
  | unreadable s c i rest hd =>
    rw [tree_fail, tree_goto_same (by simp [World.visit, hd, Disposal.phase]), tree_visit]
  | hook s c i rest hd =>
    rw [tree_goto_same (by simp [World.visit, hd, Disposal.phase]), tree_visit]
  | collect s rest hstack hd =>
    rw [tree_collect]
    exact .single (.collect s rest hstack (by simp [World.tree, hd, Disposal.phase]))
  | value s i rest hd =>
    rw [tree_goto_same (by simp [hd, Disposal.phase])]
  | promise s i rest hd =>
    rw [tree_modify, tree_goto_same (by simp [hd, Disposal.phase])]
    exact fun _ => ⟨rfl, rfl, rfl, rfl, rfl⟩
  | throw s i rest hd =>
    rw [tree_fail, tree_goto_same (by simp [hd, Disposal.phase])]
  | fulfil s i hstack hi =>
    rw [tree_modify]
    exact fun _ => ⟨rfl, rfl, rfl, rfl, rfl⟩
  | reject s i hstack hi =>
    rw [tree_fail, tree_modify]
    exact fun _ => ⟨rfl, rfl, rfl, rfl, rfl⟩
  | complete s waits hstack hd hpending hwaits =>
    rw [tree_completed]
    refine .single (.complete s waits hstack (by simp [World.tree, hd, Disposal.phase]) ?_)
    exact fun c hc => phase_isComplete.mpr (hwaits c hc)
  | report s caller rest hstack hd hobservers =>
    rw [tree_reported]

theorem Simulated.move {w w' : World} (h : Simulated w) (hmove : Move w w') : Simulated w' :=
  ⟨h.fresh_move hmove, h.tree.steps (h.tree_move hmove)⟩

theorem simulated_new : Simulated .new := ⟨fun _ _ => rfl, Teardown.coordinated_new⟩

end Cossack.Core.ServiceScopes
