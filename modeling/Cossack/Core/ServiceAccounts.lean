import Cossack.Core.ServiceTeardown
import Mathlib

/-! # The services of a scope

    What a constructor instantiates for its scope is visited once: what was
    visited and what is still to be visited are its instances. -/

namespace Cossack.Core.ServiceScopes

/-! ## Section 1: What a constructor instantiates -/

def services (owned : List (ServiceClass × Option Instance)) : List Instance := owned.filterMap Prod.snd

/-- A service that is stored where there was none. -/
theorem services_set {owned : List (ServiceClass × Option Instance)} {c : ServiceClass}
    (h : Entries.get owned c = some none) (i : Instance) :
    (services (Entries.set owned c (some i))).Perm (i :: services owned) := by
  induction owned with
  | nil => cases h
  | cons e rest ih =>
    rw [Entries.get_cons] at h
    by_cases he : e.1 = c
    · rw [if_pos he] at h
      simp [Entries.set, he, services, Option.some.inj h]
    · rw [if_neg he] at h
      simp only [Entries.set, if_neg he]
      cases hv : e.2 with
      | none => simpa [services, hv] using ih h
      | some j =>
        have hset : services (e :: Entries.set rest c (some i)) = j :: services (Entries.set rest c (some i)) := by
          simp [services, hv]
        have hrest : services (e :: rest) = j :: services rest := by simp [services, hv]
        rw [hset, hrest]
        exact ((ih h).cons j).trans (List.Perm.swap i j _)

/-- `b'` was made from `b` without storing a service of `kept`. -/
structure Extends (kept : List ServiceClass) (b b' : Building) : Prop where
  next : b.next ≤ b'.next
  instances : b'.instances = b.instances ++ List.range' b.next (b'.next - b.next)
  kept : ∀ c ∈ kept, Entries.get b'.owned c = Entries.get b.owned c

theorem Extends.refl (kept : List ServiceClass) (b : Building) : Extends kept b b :=
  ⟨Nat.le_refl _, by simp, fun _ _ => rfl⟩

theorem Extends.trans {kept : List ServiceClass} {b b' b'' : Building} (h : Extends kept b b')
    (h' : Extends kept b' b'') : Extends kept b b'' where
  next := Nat.le_trans h.next h'.next
  instances := by
    have hlen : b''.next - b.next = (b'.next - b.next) + (b''.next - b'.next) := by
      rw [Nat.add_comm, Nat.sub_add_sub_cancel h'.next h.next]
    rw [h'.instances, h.instances, hlen, List.append_assoc, List.range'_append_1.symm]
    rw [Nat.add_sub_cancel' h.next]
  kept c hc := (h'.kept c hc).trans (h.kept c hc)

theorem Extends.mono {kept fewer : List ServiceClass} {b b' : Building} (h : Extends kept b b')
    (hsub : ∀ c ∈ fewer, c ∈ kept) : Extends fewer b b' :=
  { h with kept := fun c hc => h.kept c (hsub c hc) }

theorem extends_store {kept : List ServiceClass} {c : ServiceClass} (h : c ∉ kept) (b : Building)
    (i : Instance) : Extends kept b (b.store c i) where
  next := Nat.le_refl _
  instances := by simp [Building.store]
  kept c' hc' := Entries.get_set_of_ne _ _ fun heq => h (heq ▸ hc')

theorem extends_construct (kept : List ServiceClass) (b : Building) : Extends kept b b.construct where
  next := Nat.le_succ _
  instances := by simp [Building.construct]
  kept _ _ := rfl

/-- Every instance is stored, but for those in the list. -/
def Building.Stored (b : Building) (loose : List Instance) : Prop :=
  b.instances.Perm (loose ++ services b.owned)

theorem Building.Stored.store {b : Building} {i : Instance} (h : b.Stored [i]) {c : ServiceClass}
    (hc : Entries.get b.owned c = some none) : (b.store c i).Stored [] :=
  h.trans (services_set hc i).symm

theorem Building.Stored.construct {b : Building} (h : b.Stored []) : b.construct.Stored [b.next] :=
  (List.perm_append_singleton _ _).trans (h.cons b.next)

variable (classes : Classes) (inherited : ServiceClass → Option Instance)

/-- What instantiating a class does: its own entry and those of the classes being
    resolved stay, and a new instance is left for the caller to store. -/
def Instantiates (kept : List ServiceClass)
    (instantiate : ServiceClass → Building → Building × Option Instance) : Prop :=
  ∀ c b, b.Stored [] → Extends (c :: kept) b (instantiate c b).1 ∧
    (instantiate c b).1.Stored (instantiate c b).2.toList ∧
    ((instantiate c b).2.isSome → c ∉ kept)

theorem resolveDependencies_spec {kept : List ServiceClass}
    {instantiate : ServiceClass → Building → Building × Option Instance}
    (hinst : Instantiates kept instantiate) (deps : List ServiceClass) (b : Building) (hb : b.Stored []) :
    Extends kept b (resolveDependencies classes inherited instantiate deps b).1 ∧
    (resolveDependencies classes inherited instantiate deps b).1.Stored [] := by
  induction deps generalizing b with
  | nil => exact ⟨.refl _ _, hb⟩
  | cons dep deps ih =>
    rw [resolveDependencies]
    split
    case isFalse => exact ih b hb
    split
    · exact ih b hb
    · rename_i hentry
      obtain ⟨hext, hstored, hnew⟩ := hinst dep b hb
      split
      · rename_i b' heq
        rw [heq] at hext hstored
        exact ⟨hext.mono fun c hc => List.mem_cons_of_mem _ hc, hstored⟩
      · rename_i b' i heq
        rw [heq] at hext hstored hnew
        have hnone : Entries.get b'.owned dep = some none := (hext.kept dep List.mem_cons_self).trans hentry
        have hkept := (hext.mono fun c hc => List.mem_cons_of_mem _ hc).trans (extends_store (hnew rfl) b' i)
        have hall := Building.Stored.store hstored hnone
        split
        · exact ⟨hkept.trans (ih _ hall).1, (ih _ hall).2⟩
        · exact ⟨hkept, hall⟩
    · split
      · exact ih b hb
      · exact ⟨.refl _ _, hb⟩

theorem instantiateOwned_spec (fuel : Nat) (resolving : List ServiceClass) :
    Instantiates resolving (instantiateOwned classes inherited fuel resolving) := by
  induction fuel generalizing resolving with
  | zero => exact fun c b hb => ⟨.refl _ _, hb, nofun⟩
  | succ fuel ih =>
    intro c b hb
    rw [instantiateOwned]
    split
    case isTrue => exact ⟨.refl _ _, hb, nofun⟩
    rename_i hnot
    obtain ⟨hext, hstored⟩ := resolveDependencies_spec classes inherited (ih (c :: resolving)) (classes.paramTypes c) b hb
    split
    · rename_i b' heq
      rw [heq] at hext hstored
      exact ⟨hext, hstored, nofun⟩
    · rename_i b' heq
      rw [heq] at hext hstored
      split
      · exact ⟨hext.trans (extends_construct _ _), hstored.construct, fun _ => hnot⟩
      · exact ⟨hext, hstored, nofun⟩

theorem reserve_spec (declarations : List ServiceClass) (b : Building) :
    (reserve classes declarations b).1.next = b.next ∧
    (reserve classes declarations b).1.instances = b.instances ∧
    services (reserve classes declarations b).1.owned = services b.owned := by
  induction declarations generalizing b with
  | nil => exact ⟨rfl, rfl, rfl⟩
  | cons c rest ih =>
    rw [reserve]
    split
    · exact ⟨rfl, rfl, rfl⟩
    split
    · obtain ⟨hnext, hinstances, hservices⟩ := ih { b with owned := b.owned ++ [(c, none)] }
      exact ⟨hnext, hinstances, hservices.trans (by simp [services])⟩
    · exact ⟨rfl, rfl, rfl⟩

theorem instantiateAll_spec (fuel : Nat) (declarations : List ServiceClass) (b : Building)
    (hb : b.Stored []) :
    Extends [] b (instantiateAll classes inherited fuel declarations b).1 ∧
    (instantiateAll classes inherited fuel declarations b).1.Stored [] := by
  induction declarations generalizing b with
  | nil => exact ⟨.refl _ _, hb⟩
  | cons c rest ih =>
    rw [instantiateAll]
    split
    · rename_i hentry
      obtain ⟨hext, hstored, -⟩ := instantiateOwned_spec classes inherited fuel [] c b hb
      split
      · rename_i b' heq
        rw [heq] at hext hstored
        exact ⟨hext.mono (by simp), hstored⟩
      · rename_i b' i heq
        rw [heq] at hext hstored
        have hnone : Entries.get b'.owned c = some none := (hext.kept c List.mem_cons_self).trans hentry
        have hmore : Extends [] b (b'.store c i) := (hext.mono (by simp)).trans (extends_store List.not_mem_nil b' i)
        have hall := Building.Stored.store hstored hnone
        split
        · exact ⟨hmore.trans (ih _ hall).1, (ih _ hall).2⟩
        · exact ⟨hmore, hall⟩
    · split
      · exact ih b hb
      · exact ⟨.refl _ _, hb⟩

/-- Whether the constructor returns or throws, the entries hold exactly the
    services that were instantiated for the scope. -/
theorem buildScope_spec (declarations : List ServiceClass) (next : Instance) :
    next ≤ (buildScope classes inherited declarations next).1.next ∧
    (buildScope classes inherited declarations next).1.instances =
      List.range' next ((buildScope classes inherited declarations next).1.next - next) ∧
    (buildScope classes inherited declarations next).1.Stored [] := by
  obtain ⟨hnext, hinstances, hservices⟩ := reserve_spec classes declarations ⟨[], next, []⟩
  rw [buildScope]
  split
  · rename_i b heq
    rw [heq] at hnext hinstances hservices
    simp only at hnext hinstances hservices
    rw [Building.Stored, hinstances, hservices, hnext]
    simp [services]
  · rename_i b heq
    rw [heq] at hnext hinstances hservices
    simp only at hnext hinstances hservices
    have hb : b.Stored [] := by
      rw [Building.Stored, hinstances, hservices]
      simp [services]
    obtain ⟨hext, hstored⟩ := instantiateAll_spec classes inherited
      (declarations.length + 1) declarations b hb
    have hmade := hext.instances
    have hle := hext.next
    rw [hinstances, hnext] at hmade
    rw [hnext] at hle
    exact ⟨hle, hmade, hstored⟩


/-! ## Section 2: Each service is visited once -/

/-- The services that the disposal of a scope has not reached. -/
def Scope.todo (scope : Scope) : List Instance :=
  match scope.disposal with
  | .idle | .children _ => services scope.owned
  | .entries rest | .hook _ rest => services rest
  | .waiting _ | .complete _ => []

/-- The service whose hook is being called. -/
def Scope.running (scope : Scope) : List Instance :=
  match scope.disposal with
  | .hook i _ => [i]
  | _ => []

def World.visitsOf (w : World) (s : ScopeId) (i : Instance) : Nat :=
  w.visits.countP fun v => v.scope = s ∧ v.service = i

structure Accounted (w : World) : Prop where
  visited : ∀ s i, w.visitsOf s i + (w.scopes s).todo.count i = (w.scopes s).instances.count i
  outcome : ∀ s i, w.failures.count (s, i) + (w.scopes s).pending.count i + (w.scopes s).running.count i ≤
    w.visitsOf s i
  distinct : ∀ s, (w.scopes s).instances.Nodup
  old : ∀ s, ∀ i ∈ (w.scopes s).instances, i < w.next
  own : ∀ s t i, i ∈ (w.scopes s).instances → i ∈ (w.scopes t).instances → s = t
  unvisited : ∀ s, (w.scopes s).disposal = .idle → ∀ i, w.visitsOf s i = 0

theorem accounted_new : Accounted .new where
  visited _ _ := rfl
  outcome _ _ := Nat.le_refl 0
  distinct _ := List.nodup_nil
  old _ := nofun
  own _ _ _ := nofun
  unvisited _ _ _ := rfl

/-- Two states of a scope between which none of its services moves. -/
structure SameServices (a b : Scope) : Prop where
  instances : b.instances = a.instances
  todo : b.todo = a.todo
  running : b.running = a.running
  pending : b.pending = a.pending
  started : b.disposal = .idle → a.disposal = .idle

theorem Accounted.frame {w w' : World} (h : Accounted w)
    (hsame : ∀ t, SameServices (w.scopes t) (w'.scopes t)) (hvisits : w'.visits = w.visits)
    (hfailures : w'.failures = w.failures) (hnext : w'.next = w.next) : Accounted w' where
  visited s i := by
    rw [World.visitsOf, hvisits, (hsame s).todo, (hsame s).instances]
    exact h.visited s i
  outcome s i := by
    rw [World.visitsOf, hvisits, hfailures, (hsame s).pending, (hsame s).running]
    exact h.outcome s i
  distinct s := by
    rw [(hsame s).instances]
    exact h.distinct s
  old s := by
    rw [(hsame s).instances, hnext]
    exact h.old s
  own s t := by
    rw [(hsame s).instances, (hsame t).instances]
    exact h.own s t
  unvisited s hs i := by
    rw [World.visitsOf, hvisits]
    exact h.unvisited s ((hsame s).started hs) i

/-- A move of one service of the scope `s`. -/
theorem Accounted.at_scope {w w' : World} (h : Accounted w) {s : ScopeId}
    (hother : ∀ t, t ≠ s → SameServices (w.scopes t) (w'.scopes t))
    (hvisits : ∀ t, t ≠ s → ∀ i, w'.visitsOf t i = w.visitsOf t i)
    (hfailures : ∀ t, t ≠ s → ∀ i, w'.failures.count (t, i) = w.failures.count (t, i))
    (hinstances : (w'.scopes s).instances = (w.scopes s).instances) (hnext : w'.next = w.next)
    (hvisited : ∀ i, w'.visitsOf s i + (w'.scopes s).todo.count i =
      w.visitsOf s i + (w.scopes s).todo.count i)
    (houtcome : ∀ i, w'.failures.count (s, i) + (w'.scopes s).pending.count i + (w'.scopes s).running.count i ≤
      w'.visitsOf s i) (hstarted : (w'.scopes s).disposal ≠ .idle) :
    Accounted w' := by
  have hsame : ∀ t, (w'.scopes t).instances = (w.scopes t).instances := by
    intro t
    by_cases ht : t = s
    · rw [ht, hinstances]
    · exact (hother t ht).instances
  refine {
    visited := ?visited
    outcome := ?outcome
    distinct := fun t => by rw [hsame]; exact h.distinct t
    old := fun t => by rw [hsame, hnext]; exact h.old t
    own := fun t u => by rw [hsame, hsame]; exact h.own t u
    unvisited := ?unvisited }
  case visited =>
    intro t i
    rw [hsame, ← h.visited t i]
    by_cases ht : t = s
    · rw [ht, hvisited]
    · rw [hvisits t ht, (hother t ht).todo]
  case outcome =>
    intro t i
    by_cases ht : t = s
    · rw [ht]
      exact houtcome i
    · rw [hvisits t ht, hfailures t ht, (hother t ht).pending, (hother t ht).running]
      exact h.outcome t i
  case unvisited =>
    intro t hidle i
    by_cases ht : t = s
    · rw [ht] at hidle
      exact absurd hidle hstarted
    · rw [hvisits t ht]
      exact h.unvisited t ((hother t ht).started hidle) i

theorem visitsOf_visit (w : World) (s t : ScopeId) (i j : Instance) (read : Read) :
    (w.visit s i read).visitsOf t j = w.visitsOf t j + if s = t ∧ i = j then 1 else 0 := by
  unfold World.visitsOf World.visit
  rw [List.countP_append]
  by_cases h : s = t ∧ i = j <;> simp [h]

theorem SameServices.rfl {a : Scope} : SameServices a a := ⟨.refl _, .refl _, .refl _, .refl _, id⟩

theorem same_goto {w : World} {s t : ScopeId} (h : t ≠ s) (d : Disposal) :
    SameServices (w.scopes t) ((w.goto s d).scopes t) := by
  rw [World.goto, modify_scopes, if_neg h]
  exact .rfl

/-- A change that no service sees, made to some scopes. -/
theorem SameServices.ite {a b : Scope} {c : Prop} [Decidable c] (h : SameServices a b) :
    SameServices a (if c then b else a) := by
  split
  · exact h
  · exact .rfl

theorem SameServices.trans {a b c : Scope} (h : SameServices a b) (h' : SameServices b c) : SameServices a c :=
  ⟨h'.instances.trans h.instances, h'.todo.trans h.todo, h'.running.trans h.running,
    h'.pending.trans h.pending, fun hc => h.started (h'.started hc)⟩

theorem same_modifyParent {w : World} {s t : ScopeId} {f : Scope → Scope}
    (h : SameServices (w.scopes t) (f (w.scopes t))) :
    SameServices (w.scopes t) ((w.modifyParent s f).scopes t) := by
  rw [modifyParent_eq]
  exact h.ite

theorem same_modify {w : World} {s t : ScopeId} {f : Scope → Scope}
    (h : t = s → SameServices (w.scopes t) (f (w.scopes t))) :
    SameServices (w.scopes t) ((w.modify s f).scopes t) := by
  rw [modify_scopes]
  split
  · exact h ‹_›
  · exact .rfl

theorem observe_scopes (w : World) (s : ScopeId) (caller : Caller) (t : ScopeId) :
    (w.observe s caller).scopes t =
      if t = s then { w.scopes t with observers := (w.scopes t).observers ++ [caller] } else w.scopes t :=
  modify_scopes w s (fun scope => { scope with observers := scope.observers ++ [caller] }) t

theorem fail_scopes (w : World) (s : ScopeId) (i : Instance) (t : ScopeId) :
    (w.fail s i).scopes t =
      if t = s then { w.scopes t with errors := (w.scopes t).errors ++ [i] } else w.scopes t :=
  modify_scopes w s (fun scope => { scope with errors := scope.errors ++ [i] }) t

theorem same_beginDisposal (w : World) (s t : ScopeId) :
    SameServices (w.scopes t) ((w.beginDisposal s).scopes t) := by
  unfold World.beginDisposal
  split
  case h_1 hidle =>
    refine (same_modify (s := s) ?_).trans (same_modifyParent ⟨rfl, rfl, rfl, rfl, id⟩)
    rintro rfl
    exact ⟨rfl, by simp [Scope.todo, hidle], by simp [Scope.running, hidle], rfl, nofun⟩
  case h_2 => exact .rfl

@[simp] theorem beginDisposal_visits (w : World) (s : ScopeId) : (w.beginDisposal s).visits = w.visits := by
  unfold World.beginDisposal
  split
  · simp [World.begin, World.modify, modifyParent_eq]
  · rfl

@[simp] theorem beginDisposal_failures (w : World) (s : ScopeId) : (w.beginDisposal s).failures = w.failures := by
  unfold World.beginDisposal
  split
  · simp [World.begin, World.modify, modifyParent_eq]
  · rfl

@[simp] theorem beginDisposal_next (w : World) (s : ScopeId) : (w.beginDisposal s).next = w.next := by
  unfold World.beginDisposal
  split
  · simp [World.begin, World.modify, modifyParent_eq]
  · rfl

theorem Accounted.beginDisposal {w : World} (h : Accounted w) (s : ScopeId) : Accounted (w.beginDisposal s) :=
  h.frame (same_beginDisposal w s) (by simp) (by simp) (by simp)

theorem Accounted.observe {w : World} (h : Accounted w) (s : ScopeId) (caller : Caller) :
    Accounted (w.observe s caller) := by
  refine h.frame (fun t => ?_) rfl rfl rfl
  rw [observe_scopes]
  exact SameServices.ite ⟨rfl, rfl, rfl, rfl, id⟩

/-- A step of a disposal that does not reach a service. -/
theorem Accounted.goto {w : World} (h : Accounted w) {s : ScopeId} {d : Disposal}
    (htodo : { w.scopes s with disposal := d }.todo = (w.scopes s).todo)
    (hrunning : { w.scopes s with disposal := d }.running = (w.scopes s).running) (hd : d ≠ .idle) :
    Accounted (w.goto s d) := by
  refine h.frame (fun t => same_modify ?_) rfl rfl rfl
  rintro rfl
  exact ⟨rfl, htodo, hrunning, rfl, fun hidle => absurd hidle hd⟩

/-- A service of `s` that was visited and whose outcome is not known. -/
def World.Open (w : World) (s : ScopeId) (i : Instance) : Prop :=
  w.failures.count (s, i) + (w.scopes s).pending.count i + (w.scopes s).running.count i < w.visitsOf s i

theorem Accounted.started_of_open {w : World} (h : Accounted w) {s : ScopeId} {i : Instance} (hopen : w.Open s i) :
    (w.scopes s).disposal ≠ .idle := by
  intro hidle
  have hnone := h.unvisited s hidle i
  rw [World.Open] at hopen
  omega

/-- The disposal reaches a service, and goes on to `d`. -/
theorem Accounted.visit {w : World} (h : Accounted w) {s : ScopeId} {c : ServiceClass} {i : Instance}
    {rest : List (ServiceClass × Option Instance)} (hd : (w.scopes s).disposal = .entries ((c, some i) :: rest))
    {d : Disposal} (hnext : d = .entries rest ∨ d = .hook i rest) (read : Read) :
    Accounted ((w.visit s i read).goto s d) := by
  have htodo : (w.scopes s).todo = i :: services rest := by simp [Scope.todo, hd, services]
  have hrunning : (w.scopes s).running = [] := by simp [Scope.running, hd]
  have hself : ((w.visit s i read).goto s d).scopes s = { w.scopes s with disposal := d } := by
    simp [World.goto, World.visit, modify_scopes]
  have hvisits : ∀ t j, ((w.visit s i read).goto s d).visitsOf t j =
      w.visitsOf t j + if s = t ∧ i = j then 1 else 0 := fun t j => visitsOf_visit w s t i j read
  refine h.at_scope (s := s) (fun t ht => same_goto ht d) ?_ (fun _ _ _ => rfl) (by rw [hself]) rfl ?_ ?_ ?_
  · intro t ht j
    rw [hvisits, if_neg (fun hand => ht hand.1.symm), Nat.add_zero]
  · intro j
    have hleft : { w.scopes s with disposal := d }.todo = services rest := by
      rcases hnext with rfl | rfl <;> rfl
    rw [hself, hvisits, htodo, hleft, List.count_cons]
    by_cases hij : i = j <;> simp [hij]
    omega
  · intro j
    have hbefore := h.outcome s j
    rw [hrunning, List.count_nil] at hbefore
    rw [hself, hvisits]
    show w.failures.count (s, j) + (w.scopes s).pending.count j + _ ≤ _
    rcases hnext with rfl | rfl
    · simp only [Scope.running, List.count_nil]
      omega
    · by_cases hij : i = j
      all_goals simp [Scope.running, hij]
      all_goals omega
  · rw [hself]
    rcases hnext with rfl | rfl <;> rintro ⟨⟩

/-- Its outcome is open until the hook that is called for it returns. -/
theorem Accounted.open_visit {w : World} (h : Accounted w) (s : ScopeId) (i : Instance)
    (rest : List (ServiceClass × Option Instance)) (read : Read) : World.Open ((w.visit s i read).goto s (.entries rest)) s i := by
  have hself : ((w.visit s i read).goto s (.entries rest)).scopes s =
      { w.scopes s with disposal := .entries rest } := by
    simp [World.goto, World.visit, modify_scopes]
  have hbefore := h.outcome s i
  have hvisits := visitsOf_visit w s s i i read
  rw [if_pos ⟨rfl, rfl⟩] at hvisits
  rw [World.Open, hself]
  show w.failures.count (s, i) + (w.scopes s).pending.count i + List.count i [] < World.visitsOf (w.visit s i read) s i
  rw [hvisits, List.count_nil]
  omega

/-- The hook returns. -/
theorem Accounted.returns {w : World} (h : Accounted w) {s : ScopeId} {i : Instance}
    {rest : List (ServiceClass × Option Instance)} (hd : (w.scopes s).disposal = .hook i rest) :
    Accounted (w.goto s (.entries rest)) ∧ World.Open (w.goto s (.entries rest)) s i := by
  have hself : (w.goto s (.entries rest)).scopes s = { w.scopes s with disposal := .entries rest } := by
    simp [World.goto, modify_scopes]
  have hrunning : (w.scopes s).running = [i] := by simp [Scope.running, hd]
  have htodo : (w.scopes s).todo = services rest := by simp [Scope.todo, hd]
  constructor
  · refine h.at_scope (s := s) (fun t ht => same_goto ht _) (fun _ _ _ => rfl) (fun _ _ _ => rfl) (by rw [hself])
      rfl ?_ ?_ (by rw [hself]; rintro ⟨⟩)
    · intro j
      rw [hself, htodo]
      rfl
    · intro j
      have hbefore := h.outcome s j
      rw [hself]
      show w.failures.count (s, j) + (w.scopes s).pending.count j + List.count j [] ≤ w.visitsOf s j
      rw [List.count_nil]
      omega
  · have hbefore := h.outcome s i
    rw [hrunning, List.count_singleton_self] at hbefore
    rw [World.Open, hself]
    show w.failures.count (s, i) + (w.scopes s).pending.count i + List.count i [] < w.visitsOf s i
    rw [List.count_nil]
    omega

/-- It failed. -/
theorem Accounted.fail {w : World} (h : Accounted w) {s : ScopeId} {i : Instance} (hopen : w.Open s i) :
    Accounted (w.fail s i) := by
  have hself := fail_scopes w s i s
  rw [if_pos rfl] at hself
  have hcount : ∀ t j, (w.fail s i).failures.count (t, j) =
      w.failures.count (t, j) + if s = t ∧ i = j then 1 else 0 := by
    intro t j
    show (w.failures ++ [(s, i)]).count (t, j) = _
    rw [List.count_append, List.count_singleton]
    simp
  refine h.at_scope (s := s) ?_ (fun _ _ _ => rfl) ?_ (by rw [hself]) rfl ?_ ?_ ?_
  · intro t ht
    rw [fail_scopes, if_neg ht]
    exact .rfl
  · intro t ht j
    rw [hcount, if_neg (fun hand => ht hand.1.symm), Nat.add_zero]
  · intro j
    rw [hself]
    rfl
  · intro j
    have hbefore := h.outcome s j
    rw [hself, hcount]
    show _ + (w.scopes s).pending.count j + (w.scopes s).running.count j ≤ w.visitsOf s j
    by_cases hij : i = j
    · subst hij
      rw [World.Open] at hopen
      simp
      omega
    · simpa [hij] using hbefore
  · rw [hself]
    exact h.started_of_open hopen

/-- It returned a promise. -/
theorem Accounted.suspend {w : World} (h : Accounted w) {s : ScopeId} {i : Instance} (hopen : w.Open s i) :
    Accounted (w.modify s fun scope => { scope with pending := scope.pending ++ [i] }) := by
  refine h.at_scope (s := s) ?_ (fun _ _ _ => rfl) (fun _ _ _ => rfl) (by simp [modify_scopes]) rfl ?_ ?_ ?_
  · exact fun t ht => same_modify fun heq => absurd heq ht
  · intro j
    rw [modify_scopes, if_pos rfl]
    rfl
  · intro j
    have hbefore := h.outcome s j
    rw [modify_scopes, if_pos rfl]
    show w.failures.count (s, j) + List.count j ((w.scopes s).pending ++ [i]) + (w.scopes s).running.count j ≤
      w.visitsOf s j
    rw [List.count_append, List.count_singleton]
    by_cases hij : i = j
    · subst hij
      rw [World.Open] at hopen
      simp
      omega
    · simp [hij]
      omega
  · rw [modify_scopes, if_pos rfl]
    exact h.started_of_open hopen

/-- Its promise has settled. -/
theorem Accounted.settle {w : World} (h : Accounted w) {s : ScopeId} {i : Instance}
    (hi : i ∈ (w.scopes s).pending) :
    Accounted (w.modify s fun scope => { scope with pending := scope.pending.erase i }) ∧
    World.Open (w.modify s fun scope => { scope with pending := scope.pending.erase i }) s i := by
  have hself : (w.modify s fun scope => { scope with pending := scope.pending.erase i }).scopes s =
      { w.scopes s with pending := (w.scopes s).pending.erase i } := by
    rw [modify_scopes, if_pos rfl]
  constructor
  · refine h.at_scope (s := s) ?_ (fun _ _ _ => rfl) (fun _ _ _ => rfl) (by rw [hself]) rfl ?_ ?_ ?_
    · exact fun t ht => same_modify fun heq => absurd heq ht
    · intro j
      rw [hself]
      rfl
    · intro j
      have hbefore := h.outcome s j
      have hfewer : ((w.scopes s).pending.erase i).count j ≤ (w.scopes s).pending.count j :=
        List.erase_sublist.count_le j
      rw [hself]
      show w.failures.count (s, j) + ((w.scopes s).pending.erase i).count j + (w.scopes s).running.count j ≤
        w.visitsOf s j
      omega
    · rw [hself]
      intro hidle
      have hnone := h.unvisited s hidle i
      have hbefore := h.outcome s i
      have hpositive : 0 < (w.scopes s).pending.count i := List.count_pos_iff.mpr hi
      omega
  · have hbefore := h.outcome s i
    have hpositive : 0 < (w.scopes s).pending.count i := List.count_pos_iff.mpr hi
    rw [World.Open, hself]
    show w.failures.count (s, i) + ((w.scopes s).pending.erase i).count i + (w.scopes s).running.count i <
      w.visitsOf s i
    rw [List.count_erase_self]
    omega

/-- A scope that is constructed changes no service of another. -/
theorem add_scopes {w : World} {parent : Option ScopeId} (hparent : ∀ p, parent = some p → p < w.count)
    (declarations : List ServiceClass) (classes : Classes) :
    (w.add parent declarations classes).scopes w.count = .new parent (buildScope classes
      (fun c => w.findDeclaration c w.count parent) declarations w.next) ∧
    ∀ t, t ≠ w.count → (w.add parent declarations classes).scopes t =
      if parent = some t then { w.scopes t with children := (w.scopes t).children ++ [w.count] }
      else w.scopes t := by
  have hself : parent ≠ some w.count := fun heq => absurd (hparent _ heq) (Nat.lt_irrefl _)
  simp only [World.add, modifyParent_eq, Function.update_self, Scope.new]
  refine ⟨by simp [hself], ?_⟩
  intro t ht
  simp only [Function.update_of_ne ht]

/-- Nothing was recorded of a scope before its construction. -/
theorem Accounted.unrecorded {w : World} (h : Accounted w) (hfresh : Fresh w) (i : Instance) :
    w.visitsOf w.count i = 0 ∧ w.failures.count (w.count, i) = 0 := by
  have hblank := hfresh w.count (Nat.le_refl _)
  have hvisited := h.visited w.count i
  have houtcome := h.outcome w.count i
  rw [hblank] at hvisited houtcome
  simp only [Scope.new, Scope.todo, services, Scope.running, List.filterMap_nil, List.count_nil] at hvisited houtcome
  omega

theorem Accounted.add {w : World} (h : Accounted w) (hfresh : Fresh w) {parent : Option ScopeId}
    (hparent : ∀ p, parent = some p → p < w.count) (declarations : List ServiceClass) (classes : Classes) :
    Accounted (w.add parent declarations classes) := by
  obtain ⟨hle, hinstances, hstored⟩ := buildScope_spec classes (fun c => w.findDeclaration c w.count parent)
    declarations w.next
  obtain ⟨hnew, hold⟩ := add_scopes hparent declarations classes
  have hnext : (w.add parent declarations classes).next = (buildScope classes
      (fun c => w.findDeclaration c w.count parent) declarations w.next).1.next := by
    simp [World.add, modifyParent_eq]
  have hlogs : (w.add parent declarations classes).visits = w.visits ∧
      (w.add parent declarations classes).failures = w.failures := by
    simp [World.add, modifyParent_eq]
  generalize buildScope classes (fun c => w.findDeclaration c w.count parent) declarations w.next = built at *
  have hsame : ∀ t, t ≠ w.count → SameServices (w.scopes t) ((w.add parent declarations classes).scopes t) := by
    intro t ht
    rw [hold t ht]
    exact SameServices.ite ⟨rfl, rfl, rfl, rfl, id⟩
  have hrange : ∀ i ∈ built.1.instances, w.next ≤ i ∧ i < built.1.next := by
    intro i hi
    rw [hinstances, List.mem_range'_1] at hi
    exact ⟨hi.1, by rw [Nat.add_sub_cancel' hle] at hi; exact hi.2⟩
  refine {
    visited := ?visited, outcome := ?outcome
    distinct := ?distinct, old := ?old, own := ?own, unvisited := ?unvisited }
  case unvisited =>
    intro t hidle i
    rw [World.visitsOf, hlogs.1]
    by_cases ht : t = w.count
    · rw [ht]
      exact (h.unrecorded hfresh i).1
    · exact h.unvisited t ((hsame t ht).started hidle) i
  case visited =>
    intro t i
    rw [World.visitsOf, hlogs.1]
    by_cases ht : t = w.count
    · subst ht
      have hnone := (h.unrecorded hfresh i).1
      rw [World.visitsOf] at hnone
      rw [hnew, hnone, Nat.zero_add]
      exact (hstored.count_eq i).symm
    · rw [(hsame t ht).todo, (hsame t ht).instances]
      exact h.visited t i
  case outcome =>
    intro t i
    rw [World.visitsOf, hlogs.1, hlogs.2]
    by_cases ht : t = w.count
    · subst ht
      rw [hnew, (h.unrecorded hfresh i).2]
      exact Nat.zero_le _
    · rw [(hsame t ht).pending, (hsame t ht).running]
      exact h.outcome t i
  case distinct =>
    intro t
    by_cases ht : t = w.count
    · subst ht
      rw [hnew]
      show built.1.instances.Nodup
      rw [hinstances]
      exact List.nodup_range'
    · rw [(hsame t ht).instances]
      exact h.distinct t
  case old =>
    intro t i hi
    rw [hnext]
    by_cases ht : t = w.count
    · subst ht
      rw [hnew] at hi
      exact (hrange i hi).2
    · rw [(hsame t ht).instances] at hi
      exact Nat.lt_of_lt_of_le (h.old t i hi) hle
  case own =>
    -- what is new was not there before
    have hfresh : ∀ t, t ≠ w.count → ∀ i ∈ built.1.instances,
        i ∉ ((w.add parent declarations classes).scopes t).instances := by
      intro t ht i hi hmem
      rw [(hsame t ht).instances] at hmem
      exact absurd (h.old t i hmem) (Nat.not_lt.mpr (hrange i hi).1)
    intro t u i hti hui
    by_cases ht : t = w.count
    · by_cases hu : u = w.count
      · rw [ht, hu]
      · rw [ht, hnew] at hti
        exact absurd hui (hfresh u hu i hti)
    · by_cases hu : u = w.count
      · rw [hu, hnew] at hui
        exact absurd hti (hfresh t ht i hui)
      · rw [(hsame t ht).instances] at hti
        rw [(hsame u hu).instances] at hui
        exact h.own t u i hti hui

theorem Accounted.move {w w' : World} (h : Accounted w) (hw : Simulated w) (hmove : Move w w') :
    Accounted w' := by
  cases hmove with
  | idle => exact h
  | construct parent declarations classes hparent hbuilt => exact h.add hw.fresh hparent declarations classes
  | abandon parent declarations classes hparent =>
    exact ((h.add hw.fresh hparent declarations classes).beginDisposal _).observe _ _
  | call s caller hs => exact (h.beginDisposal s).observe s caller
  | child s c rest hd =>
    have hnext : Accounted (w.goto s (.children rest)) :=
      h.goto (by simp [Scope.todo, hd]) (by simp [Scope.running, hd]) (by rintro ⟨⟩)
    exact hnext.beginDisposal c
  | services s hd =>
    refine h.frame (fun t => same_modify ?_) rfl rfl rfl
    rintro rfl
    exact ⟨rfl, by simp [Scope.todo, hd], by simp [Scope.running, hd], rfl, (by rintro ⟨⟩)⟩
  | skip s c rest hd =>
    refine h.goto ?_ ?_ (by rintro ⟨⟩)
    · simp [Scope.todo, hd, services]
    · simp [Scope.running, hd]
  | pass s c i rest hd => exact h.visit hd (.inl rfl) .absent
  | unreadable s c i rest hd => exact (h.visit hd (.inl rfl) .throws).fail (h.open_visit s i rest .throws)
  | hook s c i rest hd => exact h.visit hd (.inr rfl) .function
  | collect s rest hstack hd =>
    refine h.frame (fun t => ?_) ?_ ?_ ?_
    · refine (same_modify (s := s) ?_).trans (same_modifyParent ⟨rfl, rfl, rfl, rfl, id⟩)
      rintro rfl
      exact ⟨rfl, by simp [Scope.todo, hd, services], by simp [Scope.running, hd], rfl, (by rintro ⟨⟩)⟩
    all_goals simp [World.collect, World.modify, modifyParent_eq]
  | value s i rest hd => exact (h.returns hd).1
  | promise s i rest hd => exact (h.returns hd).1.suspend (h.returns hd).2
  | throw s i rest hd => exact (h.returns hd).1.fail (h.returns hd).2
  | fulfil s i hstack hi => exact (h.settle hi).1
  | reject s i hstack hi => exact (h.settle hi).1.fail (h.settle hi).2
  | complete s waits hstack hd hpending hwaits =>
    refine h.frame (fun t => ?_) ?_ ?_ ?_
    · refine (same_modify (s := s) ?_).trans (same_modifyParent ⟨rfl, rfl, rfl, rfl, id⟩)
      rintro rfl
      exact ⟨rfl, by simp [Scope.todo, hd], by simp [Scope.running, hd], rfl, (by rintro ⟨⟩)⟩
    all_goals simp [World.completed, World.modify, modifyParent_eq]
  | report s caller rest hstack hd hobservers =>
    refine h.frame (fun t => ?_) rfl rfl rfl
    exact same_modify (w := w) (s := s) (f := fun scope => { scope with observers := rest })
      fun _ => ⟨rfl, rfl, rfl, rfl, id⟩

end Cossack.Core.ServiceScopes
