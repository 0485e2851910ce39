import Cossack.Renderer.StyleRegistry
import Mathlib.Tactic.Tauto

/-! # Reference counts of styles

    Each entry of the registry counts the uses that are resolved and not released,
    and the releases that are still queued.  While a batch of releases is applied,
    the ones that are left count too, so that the invariant takes what is queued as
    an argument. -/

namespace Cossack.Renderer.StyleRegistry

/-! ## Section 1: Documents -/

theorem mem_remove_nodes {element : Nat} {nodes : List Node} {style : Nat × String} :
    style ∈ (nodes.filterMap (Node.remove element)).flatMap Node.styles ↔
      style ∈ nodes.flatMap Node.styles ∧ style.1 ≠ element := by
  induction nodes with
  | nil => simp
  | cons node nodes ih =>
    rw [List.flatMap_cons, List.mem_append, or_and_right, ← ih]
    cases node with
    | style el scopeId =>
      by_cases heq : el = element
      · subst heq
        simp only [Node.remove, if_true, List.filterMap_cons_none, Node.styles, List.mem_singleton]
        constructor
        · exact .inr
        · rintro (⟨rfl, hne⟩ | h)
          · exact absurd rfl hne
          · exact h
      · have hstyle : Node.remove element (.style el scopeId) = some (.style el scopeId) := if_neg heq
        rw [List.filterMap_cons_some hstyle, List.flatMap_cons, List.mem_append]
        simp only [Node.styles, List.mem_singleton]
        constructor
        · rintro (rfl | h)
          · exact .inl ⟨rfl, heq⟩
          · exact .inr h
        · exact Or.imp_left And.left
    | other inside =>
      have hother : Node.remove element (.other inside) =
          some (.other (inside.filter fun style => style.1 ≠ element)) := rfl
      rw [List.filterMap_cons_some hother, List.flatMap_cons, List.mem_append]
      simp [Node.styles]

theorem mem_remove {c : Content} {element : Nat} {style : Nat × String} :
    style ∈ (c.remove element).styles ↔ style ∈ c.styles ∧ style.1 ≠ element := by
  unfold Content.remove Content.styles
  simp only [List.mem_append, mem_remove_nodes, or_and_right]
  cases c.head with
  | none => simp
  | some nodes => simp only [Option.map_some, Option.getD_some, mem_remove_nodes]

theorem mem_append {c : Content} {element : Nat} {scopeId : String} {style : Nat × String} :
    (style ∈ c.styles → style ∈ (c.append (.style element scopeId)).styles) ∧
    (style ∈ (c.append (.style element scopeId)).styles →
      style ∈ c.styles ∨ style = (element, scopeId)) := by
  obtain ⟨documentElement, head, nodes⟩ := c
  cases head with
  | some children =>
    simp only [Content.append, Content.styles, Option.getD_some, List.flatMap_append, List.mem_append,
      List.flatMap_cons, List.flatMap_nil, List.append_nil, Node.styles, List.mem_singleton]
    exact ⟨by tauto, by tauto⟩
  | none =>
    cases documentElement with
    | false => exact ⟨id, .inl⟩
    | true =>
      simp only [Content.append, Content.styles, if_true, Option.getD_none, List.flatMap_nil, List.nil_append,
        List.flatMap_append, List.mem_append, List.flatMap_cons, List.append_nil, Node.styles,
        List.mem_singleton]
      exact ⟨.inl, id⟩

theorem mem_insert {c : Content} {managed : List Nat} {element : Nat} {scopeId : String}
    {style : Nat × String} :
    style ∈ (c.insert managed (.style element scopeId)).styles ↔
      style ∈ c.styles ∨ style = (element, scopeId) := by
  have hparts : style ∈ c.nodes.flatMap Node.styles ↔
      style ∈ (c.nodes.takeWhile (Node.isManaged managed)).flatMap Node.styles ∨
        style ∈ (c.nodes.dropWhile (Node.isManaged managed)).flatMap Node.styles := by
    rw [← List.mem_append, ← List.flatMap_append, List.takeWhile_append_dropWhile]
  unfold Content.insert Content.styles
  simp only [List.mem_append, List.flatMap_append, List.flatMap_cons, Node.styles, List.mem_singleton, hparts]
  tauto

/-- A new element is all that comes to a root. -/
theorem mem_createStyle {c : Content} {managed : List Nat} {root : StyleRoot} {element : Nat}
    {scopeId : String} {style : Nat × String} :
    (style ∈ c.styles → style ∈ (createStyle managed root c (.style element scopeId)).styles) ∧
    (style ∈ (createStyle managed root c (.style element scopeId)).styles →
      style ∈ c.styles ∨ style = (element, scopeId)) := by
  cases root with
  | document n => exact mem_append
  | shadow n => exact ⟨fun h => mem_insert.mpr (.inl h), mem_insert.mp⟩

theorem createStyle_placed {dom : StyleRoot → Content} {managed : List Nat} {root : StyleRoot}
    {element : Nat} {scopeId : String} (h : HasPlace dom root) :
    (element, scopeId) ∈ (createStyle managed root (dom root) (.style element scopeId)).styles := by
  cases root with
  | shadow n => exact mem_insert.mpr (.inr rfl)
  | document n =>
    simp only [HasPlace] at h
    simp only [createStyle, Content.append]
    cases hhead : (dom (.document n)).head with
    | some children => simp [Content.styles, Node.styles]
    | none =>
      rw [hhead] at h
      simp only [Option.isSome_none, Bool.false_eq_true, false_or] at h
      simp [h, Content.styles, Node.styles]

theorem querySelector_some {c : Content} {scopeId : String} {el : Nat}
    (h : c.querySelector scopeId = some el) : (el, scopeId) ∈ c.styles := by
  obtain ⟨⟨el', id⟩, hfind, rfl⟩ := Option.map_eq_some_iff.mp h
  have hid : id = scopeId := by simpa using List.find?_some hfind
  rw [← hid]
  exact List.mem_of_find?_eq_some hfind

/-! ## Section 2: The invariant -/

/-- The count of an entry, zero where there is none. -/
def State.count (s : State) (root : StyleRoot) (scopeId : String) : Nat :=
  ((s.registries root scopeId).map StyleEntry.count).getD 0

/-- The use is resolved in this root and not released. -/
def StyleUse.holds (use : StyleUse) (root : StyleRoot) (scopeId : String) : Bool :=
  !use.released && use.root = some root && use.scopeId = scopeId

/-- The resolved and unreleased uses. -/
def held (uses : List StyleUse) (root : StyleRoot) (scopeId : String) : Nat :=
  uses.countP fun use => use.holds root scopeId

/-- Counts are right where `queued` says what is released and not yet counted down. -/
structure Counts (s : State) (queued : StyleRoot → String → Nat) : Prop where
  counted : ∀ root scopeId, s.count root scopeId = held s.uses root scopeId + queued root scopeId
  positive : ∀ root scopeId entry, s.registries root scopeId = some entry → 0 < entry.count
  dropped : ∀ use ∈ s.uses, use.released = true → use.root = none
  waiting : ∀ i ∈ s.pending, ∃ use, s.uses[i]? = some use ∧ use.root = none ∧ use.released = false
  distinct : s.pending.Nodup

/-- The element of an entry. -/
def State.element (s : State) (root : StyleRoot) (scopeId : String) : Option Nat :=
  (s.registries root scopeId).map StyleEntry.element

/-- Each element of the registry is the one of its entry, or in no document. -/
structure Elements (s : State) : Prop where
  owns : ∀ root scopeId el, s.element root scopeId = some el → (el, root, scopeId) ∈ s.owned
  apart : ∀ root scopeId root' scopeId' el, s.element root scopeId = some el →
    s.element root' scopeId' = some el → root = root' ∧ scopeId = scopeId'
  gone : ∀ el root scopeId, (el, root, scopeId) ∈ s.owned →
    s.element root scopeId = some el ∨ ∀ root' scopeId', (el, scopeId') ∉ (s.dom root').styles
  located : ∀ el root scopeId, (el, root, scopeId) ∈ s.owned →
    ∀ root' scopeId', (el, scopeId') ∈ (s.dom root').styles → root' = root ∧ scopeId' = scopeId
  fresh : ∀ el root scopeId, (el, root, scopeId) ∈ s.owned → el < s.nextElement
  documents : Documents s.dom s.nextElement

/-- Callbacks are scheduled for what waits. -/
structure Scheduled (s : State) : Prop where
  resolve : s.pending ≠ [] → s.resolveScheduled = true
  release : s.releases ≠ [] → s.releaseScheduled = true

/-- The releases in the queue. -/
def State.queued (s : State) (root : StyleRoot) (scopeId : String) : Nat := s.releases.count (root, scopeId)

/-- The elements of the entries of a root are in it. -/
def Present (s : State) (root : StyleRoot) : Prop :=
  ∀ scopeId el, s.element root scopeId = some el → (el, scopeId) ∈ (s.dom root).styles

/-! ## Section 3: Attaching a use -/

theorem held_set {uses : List StyleUse} {i : Nat} {use : StyleUse} (h : uses[i]? = some use)
    (use' : StyleUse) (root : StyleRoot) (scopeId : String) :
    held (uses.set i use') root scopeId + (use.holds root scopeId).toNat =
      held uses root scopeId + (use'.holds root scopeId).toNat := by
  obtain ⟨hlt, rfl⟩ := List.getElem?_eq_some_iff.mp h
  have hpos : (uses[i].holds root scopeId).toNat ≤ held uses root scopeId := by
    cases hholds : uses[i].holds root scopeId with
    | false => exact Nat.zero_le _
    | true => exact List.countP_pos_iff.mpr ⟨uses[i], List.getElem_mem hlt, hholds⟩
  unfold held at hpos ⊢
  rw [List.countP_set hlt]
  cases hholds : uses[i].holds root scopeId <;> cases use'.holds root scopeId <;>
    simp only [hholds, Bool.toNat_true, Bool.toNat_false, Bool.false_eq_true, if_true, if_false] at hpos ⊢ <;>
    omega

@[simp] theorem setEntry_self (registries : StyleRoot → String → Option StyleEntry) (root : StyleRoot)
    (scopeId : String) (entry : Option StyleEntry) :
    setEntry registries root scopeId entry root scopeId = entry := by
  simp [setEntry]

theorem setEntry_ne {registries : StyleRoot → String → Option StyleEntry} {root root' : StyleRoot}
    {scopeId scopeId' : String} {entry : Option StyleEntry} (h : ¬(root' = root ∧ scopeId' = scopeId)) :
    setEntry registries root scopeId entry root' scopeId' = registries root' scopeId' := if_neg h

/-- The state with an entry to count in. -/
def State.opened (s : State) (root : StyleRoot) (scopeId : String) : State :=
  if (s.registries root scopeId).isSome then s else s.register root scopeId

theorem opened_frame (s : State) (root : StyleRoot) (scopeId : String) :
    (s.opened root scopeId).uses = s.uses ∧ (s.opened root scopeId).pending = s.pending ∧
      (s.opened root scopeId).releases = s.releases ∧
      (s.opened root scopeId).resolveScheduled = s.resolveScheduled ∧
      (s.opened root scopeId).releaseScheduled = s.releaseScheduled := by
  unfold State.opened State.register
  split
  · exact ⟨rfl, rfl, rfl, rfl, rfl⟩
  · split <;> exact ⟨rfl, rfl, rfl, rfl, rfl⟩

theorem opened_registries (s : State) (root : StyleRoot) (scopeId : String) :
    (∃ el, (s.opened root scopeId).registries root scopeId = some ⟨s.count root scopeId, el⟩) ∧
    ∀ root' scopeId', ¬(root' = root ∧ scopeId' = scopeId) →
      (s.opened root scopeId).registries root' scopeId' = s.registries root' scopeId' := by
  unfold State.opened State.count
  cases hentry : s.registries root scopeId with
  | some entry => exact ⟨⟨entry.element, hentry⟩, fun _ _ _ => rfl⟩
  | none =>
    simp only [Option.isSome_none, Bool.false_eq_true, if_false, Option.map_none, Option.getD_none]
    unfold State.register
    split
    · exact ⟨⟨_, setEntry_self _ _ _ _⟩, fun _ _ hne => setEntry_ne hne⟩
    · exact ⟨⟨_, setEntry_self _ _ _ _⟩, fun _ _ hne => setEntry_ne hne⟩

theorem attach_eq (s : State) (i : Nat) (use : StyleUse) (root : StyleRoot) :
    s.attach i use root = { (s.opened root use.scopeId).increment root use.scopeId with
      uses := (s.opened root use.scopeId).uses.set i { use with root := some root } } := rfl

theorem attach_frame (s : State) (i : Nat) (use : StyleUse) (root : StyleRoot) :
    (s.attach i use root).uses = s.uses.set i { use with root := some root } ∧
      (s.attach i use root).pending = s.pending ∧ (s.attach i use root).releases = s.releases ∧
      (s.attach i use root).resolveScheduled = s.resolveScheduled ∧
      (s.attach i use root).releaseScheduled = s.releaseScheduled := by
  obtain ⟨huses, hrest⟩ := opened_frame s root use.scopeId
  rw [attach_eq]
  exact ⟨by rw [huses], hrest⟩

/-- The use is counted in its new root; where it was counted before is queued. -/
theorem Counts.attach {s : State} {queued : StyleRoot → String → Nat} (h : Counts s queued) {i : Nat}
    {use : StyleUse} (huse : s.uses[i]? = some use) (hheld : use.released = false) (hi : i ∉ s.pending)
    (root : StyleRoot) :
    Counts (s.attach i use root) fun r id => queued r id + (use.holds r id).toNat := by
  obtain ⟨huses, hpending, -⟩ := attach_frame s i use root
  obtain ⟨⟨el, hentry⟩, hother⟩ := opened_registries s root use.scopeId
  have hregistries : (s.attach i use root).registries = setEntry (s.opened root use.scopeId).registries root
      use.scopeId (some ⟨s.count root use.scopeId + 1, el⟩) := by
    rw [attach_eq]
    simp only [State.increment, hentry, Option.map_some]
  refine ⟨?_, ?_, ?_, ?_, by rw [hpending]; exact h.distinct⟩
  · intro r id
    have hset := held_set huse { use with root := some root } r id
    have hcounted := h.counted r id
    rw [huses]
    by_cases heq : r = root ∧ id = use.scopeId
    · obtain ⟨rfl, rfl⟩ := heq
      have hcount : (s.attach i use r).count r use.scopeId = s.count r use.scopeId + 1 := by
        simp only [State.count, hregistries, setEntry_self, Option.map_some, Option.getD_some]
      have hnew : ({ use with root := some r } : StyleUse).holds r use.scopeId = true := by
        simp [StyleUse.holds, hheld]
      rw [hnew] at hset
      rw [hcount]
      simp only [Bool.toNat_true] at hset
      omega
    · have hcount : (s.attach i use root).count r id = s.count r id := by
        simp only [State.count, hregistries, setEntry_ne heq, hother r id heq]
      have hnew : ({ use with root := some root } : StyleUse).holds r id = false := by
        simp only [StyleUse.holds, hheld, Bool.not_false, Bool.true_and, Bool.and_eq_false_iff,
          decide_eq_false_iff_not, Option.some.injEq]
        rw [not_and_or] at heq
        exact heq.imp (fun hne => Ne.symm hne) (fun hne => Ne.symm hne)
      rw [hnew] at hset
      rw [hcount]
      simp only [Bool.toNat_false] at hset
      omega
  · intro r id entry hsome
    rw [hregistries] at hsome
    by_cases heq : r = root ∧ id = use.scopeId
    · obtain ⟨rfl, rfl⟩ := heq
      rw [setEntry_self] at hsome
      obtain rfl := Option.some.inj hsome
      exact Nat.succ_pos _
    · rw [setEntry_ne heq, hother r id heq] at hsome
      exact h.positive r id entry hsome
  · intro u hu hreleased
    rw [huses] at hu
    rcases List.mem_or_eq_of_mem_set hu with hu | rfl
    · exact h.dropped u hu hreleased
    · exact absurd (hheld.symm.trans hreleased) (by decide)
  · intro j hj
    rw [hpending] at hj
    obtain ⟨u, hu, hroot⟩ := h.waiting j hj
    have hne : i ≠ j := by
      rintro rfl
      exact hi hj
    rw [huses, List.getElem?_set_ne hne]
    exact ⟨u, hu, hroot⟩

/-! ## Section 4: Elements -/

theorem element_opened (s : State) (root : StyleRoot) (scopeId : String) :
    ∀ root' scopeId', ¬(root' = root ∧ scopeId' = scopeId) →
      (s.opened root scopeId).element root' scopeId' = s.element root' scopeId' := by
  intro root' scopeId' hne
  unfold State.element
  rw [(opened_registries s root scopeId).2 root' scopeId' hne]

/-- Where a new entry gets its element from. -/
theorem register_cases (s : State) (root : StyleRoot) (scopeId : String) :
    (∃ el, (el, scopeId) ∈ (s.dom root).styles ∧
      (s.register root scopeId).element root scopeId = some el ∧
      (s.register root scopeId).owned = (el, root, scopeId) :: s.owned ∧
      (s.register root scopeId).dom = s.dom ∧ (s.register root scopeId).nextElement = s.nextElement) ∨
    ((s.register root scopeId).element root scopeId = some s.nextElement ∧
      (s.register root scopeId).owned = (s.nextElement, root, scopeId) :: s.owned ∧
      (s.register root scopeId).dom = (fun r => if r = root then
        createStyle s.managedStyles root (s.dom root) (.style s.nextElement scopeId) else s.dom r) ∧
      (s.register root scopeId).nextElement = s.nextElement + 1) := by
  unfold State.register
  cases hquery : (s.dom root).querySelector scopeId with
  | some el => 
    exact .inl ⟨el, querySelector_some hquery, by simp only [State.element, setEntry_self, Option.map_some],
      rfl, rfl, rfl⟩
  | none =>
    refine .inr ⟨?_, rfl, rfl, rfl⟩
    simp only [State.element, setEntry_self, Option.map_some]

/-- The style elements after one is created. -/
theorem mem_created {dom : StyleRoot → Content} {managed : List Nat} {root root' : StyleRoot} {next : Nat}
    {scopeId : String} {style : Nat × String} :
    let dom' := fun r => if r = root then createStyle managed root (dom root) (.style next scopeId) else dom r
    (style ∈ (dom root').styles → style ∈ (dom' root').styles) ∧
    (style ∈ (dom' root').styles → style ∈ (dom root').styles ∨ (root' = root ∧ style = (next, scopeId))) := by
  intro dom'
  by_cases heq : root' = root
  · subst heq
    rw [show dom' root' = createStyle managed root' (dom root') (.style next scopeId) from if_pos rfl]
    exact ⟨mem_createStyle.1, fun h => (mem_createStyle.2 h).imp_right fun h => ⟨rfl, h⟩⟩
  · rw [show dom' root' = dom root' from if_neg heq]
    exact ⟨id, .inl⟩

theorem Documents.created {dom : StyleRoot → Content} {next : Nat} (h : Documents dom next)
    (managed : List Nat) (root : StyleRoot) (scopeId : String) :
    Documents (fun r => if r = root then createStyle managed root (dom root) (.style next scopeId) else dom r)
      (next + 1) := by
  constructor
  · intro el r id r' id' hmem hmem'
    rcases mem_created.2 hmem with hold | ⟨rfl, heq⟩
    · rcases mem_created.2 hmem' with hold' | ⟨rfl, heq'⟩
      · exact h.unique el r id r' id' hold hold'
      · have hlt := h.known el r id hold
        obtain ⟨rfl, -⟩ := Prod.mk.inj heq'
        exact absurd hlt (Nat.lt_irrefl _)
    · obtain ⟨rfl, rfl⟩ := Prod.mk.inj heq
      rcases mem_created.2 hmem' with hold' | ⟨rfl, heq'⟩
      · exact absurd (h.known _ _ _ hold') (Nat.lt_irrefl _)
      · exact ⟨rfl, (Prod.mk.inj heq').2.symm⟩
  · intro el r id hmem
    rcases mem_created.2 hmem with hold | ⟨rfl, heq⟩
    · exact Nat.lt_succ_of_lt (h.known el r id hold)
    · obtain ⟨rfl, -⟩ := Prod.mk.inj heq
      exact Nat.lt_succ_self _

/-- A new entry has an element that no other entry has. -/
theorem Elements.register {s : State} (h : Elements s) {root : StyleRoot} {scopeId : String}
    (hnone : s.registries root scopeId = none) : Elements (s.register root scopeId) := by
  have hopened : s.register root scopeId = s.opened root scopeId := by
    unfold State.opened
    rw [hnone]
    rfl
  have hother := element_opened s root scopeId
  rw [← hopened] at hother
  have hold : s.element root scopeId = none := by rw [State.element, hnone]; rfl
  -- the new element is under its root and scope only, and the old ones stay where they are
  obtain ⟨el, helement, howned, hnew, hdom, hkept, hplace, hfresh⟩ : ∃ el,
      (s.register root scopeId).element root scopeId = some el ∧
      (s.register root scopeId).owned = (el, root, scopeId) :: s.owned ∧
      (∀ root' scopeId', s.element root' scopeId' ≠ some el) ∧
      Documents (s.register root scopeId).dom (s.register root scopeId).nextElement ∧
      (∀ el' root' scopeId', (el', root', scopeId') ∈ s.owned → ∀ r id,
        (el', id) ∈ ((s.register root scopeId).dom r).styles → (el', id) ∈ (s.dom r).styles) ∧
      (∀ r id, (el, id) ∈ ((s.register root scopeId).dom r).styles → r = root ∧ id = scopeId) ∧
      (el < (s.register root scopeId).nextElement ∧ s.nextElement ≤ (s.register root scopeId).nextElement) := by
    rcases register_cases s root scopeId with ⟨el, hmem, helement, howned, hdom, hnext⟩ |
      ⟨helement, howned, hdom, hnext⟩
    · rw [hdom, hnext]
      refine ⟨el, helement, howned, ?_, h.documents, fun _ _ _ _ _ _ => id, ?_,
        h.documents.known el root scopeId hmem, Nat.le_refl _⟩
      · intro root' scopeId' hsome
        obtain ⟨rfl, rfl⟩ := h.located el root' scopeId' (h.owns root' scopeId' el hsome) root scopeId hmem
        rw [hold] at hsome
        cases hsome
      · intro r id hmem'
        exact h.documents.unique el r id root scopeId hmem' hmem
    · rw [hdom, hnext]
      refine ⟨s.nextElement, helement, howned, ?_, h.documents.created _ _ _, ?_, ?_,
        Nat.lt_succ_self _, Nat.le_succ _⟩
      · intro root' scopeId' hsome
        exact absurd (h.fresh _ _ _ (h.owns root' scopeId' _ hsome)) (Nat.lt_irrefl _)
      · intro el' root' scopeId' hmem r id hnew
        rcases mem_created.2 hnew with hold' | ⟨rfl, heq⟩
        · exact hold'
        · obtain ⟨rfl, -⟩ := Prod.mk.inj heq
          exact absurd (h.fresh _ _ _ hmem) (Nat.lt_irrefl _)
      · intro r id hnew
        rcases mem_created.2 hnew with hold' | ⟨rfl, heq⟩
        · exact absurd (h.documents.known _ _ _ hold') (Nat.lt_irrefl _)
        · exact ⟨rfl, (Prod.mk.inj heq).2⟩
  have hcases : ∀ r id el', (s.register root scopeId).element r id = some el' →
      (r = root ∧ id = scopeId ∧ el' = el) ∨ (¬(r = root ∧ id = scopeId) ∧ s.element r id = some el') := by
    intro r id el' hsome
    by_cases heq : r = root ∧ id = scopeId
    · obtain ⟨rfl, rfl⟩ := heq
      rw [helement] at hsome
      exact .inl ⟨rfl, rfl, (Option.some.inj hsome).symm⟩
    · rw [hother r id heq] at hsome
      exact .inr ⟨heq, hsome⟩
  constructor
  · intro r id el' hsome
    rw [howned]
    rcases hcases r id el' hsome with ⟨rfl, rfl, rfl⟩ | ⟨-, hsome'⟩
    · exact List.mem_cons_self
    · exact List.mem_cons_of_mem _ (h.owns r id el' hsome')
  · intro r id r' id' el' hsome hsome'
    rcases hcases r id el' hsome with ⟨rfl, rfl, rfl⟩ | ⟨-, hfirst⟩
    · rcases hcases r' id' el' hsome' with ⟨rfl, rfl, -⟩ | ⟨-, hsecond⟩
      · exact ⟨rfl, rfl⟩
      · exact absurd hsecond (hnew r' id')
    · rcases hcases r' id' el' hsome' with ⟨rfl, rfl, rfl⟩ | ⟨-, hsecond⟩
      · exact absurd hfirst (hnew r id)
      · exact h.apart r id r' id' el' hfirst hsecond
  · intro el' r id hmem
    rw [howned] at hmem
    rcases List.mem_cons.mp hmem with heq | hmem
    · obtain ⟨rfl, heq'⟩ := Prod.mk.inj heq
      obtain ⟨rfl, rfl⟩ := Prod.mk.inj heq'
      exact .inl helement
    · rcases h.gone el' r id hmem with hsome | hgone
      · left
        have hne : ¬(r = root ∧ id = scopeId) := by
          rintro ⟨rfl, rfl⟩
          rw [hold] at hsome
          cases hsome
        rw [hother r id hne]
        exact hsome
      · exact .inr fun r' id' hin => hgone r' id' (hkept el' r id hmem r' id' hin)
  · intro el' r id hmem r' id' hin
    rw [howned] at hmem
    rcases List.mem_cons.mp hmem with heq | hmem
    · obtain ⟨rfl, heq'⟩ := Prod.mk.inj heq
      obtain ⟨rfl, rfl⟩ := Prod.mk.inj heq'
      exact hplace r' id' hin
    · exact h.located el' r id hmem r' id' (hkept el' r id hmem r' id' hin)
  · intro el' r id hmem
    rw [howned] at hmem
    rcases List.mem_cons.mp hmem with heq | hmem
    · obtain ⟨rfl, -⟩ := Prod.mk.inj heq
      exact hfresh.1
    · exact Nat.lt_of_lt_of_le (h.fresh el' r id hmem) hfresh.2
  · exact hdom

/-- Elements only depend on the elements of the entries, the documents and what is owned. -/
theorem Elements.congr {s t : State} (h : Elements s)
    (helement : ∀ root scopeId, t.element root scopeId = s.element root scopeId) (howned : t.owned = s.owned)
    (hdom : t.dom = s.dom) (hnext : t.nextElement = s.nextElement) : Elements t := by
  constructor
  · intro root scopeId el hsome
    rw [howned]
    exact h.owns root scopeId el (helement root scopeId ▸ hsome)
  · intro root scopeId root' scopeId' el hsome hsome'
    exact h.apart root scopeId root' scopeId' el (helement root scopeId ▸ hsome) (helement root' scopeId' ▸ hsome')
  · intro el root scopeId hmem
    rw [helement, hdom]
    exact h.gone el root scopeId (howned ▸ hmem)
  · intro el root scopeId hmem
    rw [hdom]
    exact h.located el root scopeId (howned ▸ hmem)
  · intro el root scopeId hmem
    rw [hnext]
    exact h.fresh el root scopeId (howned ▸ hmem)
  · rw [hdom, hnext]
    exact h.documents

theorem Elements.opened {s : State} (h : Elements s) (root : StyleRoot) (scopeId : String) :
    Elements (s.opened root scopeId) := by
  unfold State.opened
  cases hentry : s.registries root scopeId with
  | some entry => exact h
  | none => exact h.register hentry

theorem element_attach (s : State) (i : Nat) (use : StyleUse) (root r : StyleRoot) (id : String) :
    (s.attach i use root).element r id = (s.opened root use.scopeId).element r id := by
  rw [attach_eq]
  simp only [State.element, State.increment]
  by_cases heq : r = root ∧ id = use.scopeId
  · obtain ⟨rfl, rfl⟩ := heq
    rw [setEntry_self]
    cases (s.opened r use.scopeId).registries r use.scopeId <;> rfl
  · rw [setEntry_ne heq]

theorem Elements.attach {s : State} (h : Elements s) (i : Nat) (use : StyleUse) (root : StyleRoot) :
    Elements (s.attach i use root) :=
  (h.opened root use.scopeId).congr (element_attach s i use root) rfl rfl rfl

/-- A root that can take an element has those of its entries after an attachment too. -/
theorem Present.attach {s : State} {r : StyleRoot} (h : Present s r)
    (hplace : HasPlace s.dom r) (i : Nat) (use : StyleUse) (root : StyleRoot) :
    Present (s.attach i use root) r ∧ HasPlace (s.attach i use root).dom r := by
  have hdom : (s.attach i use root).dom = (s.opened root use.scopeId).dom := rfl
  unfold Present
  simp only [element_attach, hdom]
  unfold State.opened
  cases hentry : s.registries root use.scopeId with
  | some entry => exact ⟨h, hplace⟩
  | none =>
    simp only [Option.isSome_none, Bool.false_eq_true, if_false]
    have hopened : s.register root use.scopeId = s.opened root use.scopeId := by
      unfold State.opened
      rw [hentry]
      rfl
    have hother := element_opened s root use.scopeId
    rw [← hopened] at hother
    rcases register_cases s root use.scopeId with ⟨el, hmem, helement, -, hdom, -⟩ | ⟨helement, -, hdom, -⟩
    · rw [hdom]
      refine ⟨?_, hplace⟩
      intro id el' hsome
      by_cases heq : r = root ∧ id = use.scopeId
      · obtain ⟨rfl, rfl⟩ := heq
        rw [helement] at hsome
        obtain rfl := Option.some.inj hsome
        exact hmem
      · rw [hother r id heq] at hsome
        exact h id el' hsome
    · rw [hdom]
      constructor
      · intro id el' hsome
        by_cases heq : r = root ∧ id = use.scopeId
        · obtain ⟨rfl, rfl⟩ := heq
          rw [helement] at hsome
          obtain rfl := Option.some.inj hsome
          simp only [if_true]
          exact createStyle_placed hplace
        · rw [hother r id heq] at hsome
          exact mem_created.1 (h id el' hsome)
      · cases r with
        | shadow n => trivial
        | document n =>
          simp only [HasPlace] at hplace ⊢
          by_cases heq : StyleRoot.document n = root
          · subst heq
            simp only [if_true, createStyle, Content.append]
            cases hhead : (s.dom (.document n)).head with
            | some children => exact .inl rfl
            | none =>
              rw [hhead] at hplace
              simp only [Option.isSome_none, Bool.false_eq_true, false_or] at hplace
              simp [hplace]
          · simp only [if_neg heq]
            exact hplace

/-! ## Section 5: Releases -/

theorem Counts.dropUse {s : State} {queued : StyleRoot → String → Nat} {root : StyleRoot} {scopeId : String}
    (h : Counts s fun r id => queued r id + (decide (r = root ∧ id = scopeId)).toNat) :
    Counts (s.dropUse (root, scopeId)) queued := by
  have hcounted := h.counted root scopeId
  simp only [true_and, decide_true, Bool.toNat_true] at hcounted
  cases hentry : s.registries root scopeId with
  | none =>
    simp only [State.count, hentry, Option.map_none, Option.getD_none] at hcounted
    omega
  | some entry =>
    have hcount : s.count root scopeId = entry.count := by
      simp only [State.count, hentry, Option.map_some, Option.getD_some]
    -- only the count of this entry changes
    obtain ⟨entry', hregistries, huses, hpending, hnew, hpositive⟩ : ∃ entry',
        (s.dropUse (root, scopeId)).registries = setEntry s.registries root scopeId entry' ∧
        (s.dropUse (root, scopeId)).uses = s.uses ∧ (s.dropUse (root, scopeId)).pending = s.pending ∧
        (entry'.map StyleEntry.count).getD 0 = entry.count - 1 ∧
        ∀ e, entry' = some e → 0 < e.count := by
      unfold State.dropUse
      simp only [hentry]
      split
      · rename_i hmore
        refine ⟨_, rfl, rfl, rfl, rfl, ?_⟩
        intro e he
        obtain rfl := Option.some.inj he
        exact hmore
      · exact ⟨none, rfl, rfl, rfl, by simp only [Option.map_none, Option.getD_none]; omega, nofun⟩
    refine ⟨?_, ?_, by rw [huses]; exact h.dropped, by rw [huses, hpending]; exact h.waiting,
      by rw [hpending]; exact h.distinct⟩
    · intro r id
      have hall := h.counted r id
      rw [huses]
      by_cases heq : r = root ∧ id = scopeId
      · obtain ⟨rfl, rfl⟩ := heq
        simp only [State.count, hregistries, setEntry_self, hnew]
        omega
      · simp only [heq, decide_false, Bool.toNat_false, Nat.add_zero] at hall
        simp only [State.count, hregistries, setEntry_ne heq]
        exact hall
    · intro r id e hsome
      rw [hregistries] at hsome
      by_cases heq : r = root ∧ id = scopeId
      · obtain ⟨rfl, rfl⟩ := heq
        rw [setEntry_self] at hsome
        exact hpositive e hsome
      · rw [setEntry_ne heq] at hsome
        exact h.positive r id e hsome

/-- The last release takes the entry and its element out. -/
theorem dropUse_cases (s : State) (root : StyleRoot) (scopeId : String) :
    ((∀ r id, (s.dropUse (root, scopeId)).element r id = s.element r id) ∧
      (s.dropUse (root, scopeId)).dom = s.dom) ∨
    ∃ el, s.element root scopeId = some el ∧ (s.dropUse (root, scopeId)).element root scopeId = none ∧
      (∀ r id, ¬(r = root ∧ id = scopeId) →
        (s.dropUse (root, scopeId)).element r id = s.element r id) ∧
      (s.dropUse (root, scopeId)).dom = fun r => (s.dom r).remove el := by
  unfold State.dropUse
  simp only
  cases hentry : s.registries root scopeId with
  | none => exact .inl ⟨fun _ _ => rfl, rfl⟩
  | some entry =>
    simp only
    split
    · refine .inl ⟨?_, rfl⟩
      intro r id
      simp only [State.element]
      by_cases heq : r = root ∧ id = scopeId
      · obtain ⟨rfl, rfl⟩ := heq
        rw [setEntry_self, hentry]
        rfl
      · rw [setEntry_ne heq]
    · refine .inr ⟨entry.element, by rw [State.element, hentry]; rfl, ?_, ?_, rfl⟩
      · simp only [State.element, setEntry_self, Option.map_none]
      · intro r id heq
        simp only [State.element, setEntry_ne heq]

theorem dropUse_frame (s : State) (released : StyleRoot × String) :
    (s.dropUse released).owned = s.owned ∧ (s.dropUse released).nextElement = s.nextElement ∧
      (s.dropUse released).releases = s.releases ∧ (s.dropUse released).pending = s.pending ∧
      (s.dropUse released).uses = s.uses ∧
      (s.dropUse released).resolveScheduled = s.resolveScheduled ∧
      (s.dropUse released).releaseScheduled = s.releaseScheduled := by
  unfold State.dropUse
  split
  · exact ⟨rfl, rfl, rfl, rfl, rfl, rfl, rfl⟩
  · split <;> exact ⟨rfl, rfl, rfl, rfl, rfl, rfl, rfl⟩

theorem Elements.dropUse {s : State} (h : Elements s) (released : StyleRoot × String) :
    Elements (s.dropUse released) := by
  obtain ⟨root, scopeId⟩ := released
  obtain ⟨howned, hnext, -⟩ := dropUse_frame s (root, scopeId)
  rcases dropUse_cases s root scopeId with ⟨helement, hdom⟩ | ⟨el, hel, hnone, hother, hdom⟩
  · exact h.congr helement howned hdom hnext
  have hkept : ∀ r id el', (s.dropUse (root, scopeId)).element r id = some el' →
      s.element r id = some el' := by
    intro r id el' hsome
    by_cases heq : r = root ∧ id = scopeId
    · obtain ⟨rfl, rfl⟩ := heq
      rw [hnone] at hsome
      cases hsome
    · rwa [hother r id heq] at hsome
  have hin : ∀ {r : StyleRoot} {style : Nat × String},
      style ∈ ((s.dropUse (root, scopeId)).dom r).styles ↔ style ∈ (s.dom r).styles ∧ style.1 ≠ el := by
    intro r style
    rw [hdom]
    exact mem_remove
  constructor
  · intro r id el' hsome
    rw [howned]
    exact h.owns r id el' (hkept r id el' hsome)
  · intro r id r' id' el' hsome hsome'
    exact h.apart r id r' id' el' (hkept r id el' hsome) (hkept r' id' el' hsome')
  · intro el' r id hmem
    rw [howned] at hmem
    rcases h.gone el' r id hmem with hsome | hgone
    · by_cases heq : r = root ∧ id = scopeId
      · obtain ⟨rfl, rfl⟩ := heq
        obtain rfl : el = el' := Option.some.inj (hel.symm.trans hsome)
        exact .inr fun r' id' hstyle => (hin.mp hstyle).2 rfl
      · left
        rw [hother r id heq]
        exact hsome
    · exact .inr fun r' id' hstyle => hgone r' id' (hin.mp hstyle).1
  · intro el' r id hmem r' id' hstyle
    rw [howned] at hmem
    exact h.located el' r id hmem r' id' (hin.mp hstyle).1
  · intro el' r id hmem
    rw [howned] at hmem
    rw [hnext]
    exact h.fresh el' r id hmem
  · constructor
    · intro el' r id r' id' hstyle hstyle'
      exact h.documents.unique el' r id r' id' (hin.mp hstyle).1 (hin.mp hstyle').1
    · intro el' r id hstyle
      rw [hnext]
      exact h.documents.known el' r id (hin.mp hstyle).1

theorem Present.dropUse {s : State} (helements : Elements s) {r : StyleRoot} (h : Present s r)
    (hplace : HasPlace s.dom r) (released : StyleRoot × String) :
    Present (s.dropUse released) r ∧ HasPlace (s.dropUse released).dom r := by
  obtain ⟨root, scopeId⟩ := released
  rcases dropUse_cases s root scopeId with ⟨helement, hdom⟩ | ⟨el, hel, hnone, hother, hdom⟩
  · rw [hdom]
    refine ⟨?_, hplace⟩
    intro id el' hsome
    rw [hdom]
    exact h id el' (helement r id ▸ hsome)
  · rw [hdom]
    constructor
    · intro id el' hsome
      rw [hdom]
      by_cases heq : r = root ∧ id = scopeId
      · obtain ⟨rfl, rfl⟩ := heq
        rw [hnone] at hsome
        cases hsome
      · rw [hother r id heq] at hsome
        refine mem_remove.mpr ⟨h id el' hsome, ?_⟩
        rintro rfl
        exact heq (helements.apart r id root scopeId el' hsome hel)
    · cases r with
      | shadow n => trivial
      | document n =>
        simp only [HasPlace, Content.remove] at hplace ⊢
        simpa using hplace

/-! ## Section 6: Queues -/

/-- What a round over `pending` keeps. -/
structure Resolves (s t : State) : Prop where
  counts : ∀ queued, Counts s queued → Counts t queued
  elements : Elements s → Elements t
  present : ∀ r, Present s r → HasPlace s.dom r → Present t r ∧ HasPlace t.dom r
  releases : t.releases = s.releases
  resolveScheduled : t.resolveScheduled = s.resolveScheduled
  releaseScheduled : t.releaseScheduled = s.releaseScheduled
  pending : ∀ i ∈ t.pending, i ∈ s.pending

theorem Resolves.refl (s : State) : Resolves s s :=
  ⟨fun _ => id, id, fun _ h h' => ⟨h, h'⟩, rfl, rfl, rfl, fun _ => id⟩

theorem Resolves.trans {s t u : State} (h : Resolves s t) (h' : Resolves t u) : Resolves s u where
  counts queued hs := h'.counts queued (h.counts queued hs)
  elements hs := h'.elements (h.elements hs)
  present r hs hplace := h'.present r (h.present r hs hplace).1 (h.present r hs hplace).2
  releases := h'.releases.trans h.releases
  resolveScheduled := h'.resolveScheduled.trans h.resolveScheduled
  releaseScheduled := h'.releaseScheduled.trans h.releaseScheduled
  pending i hi := h.pending i (h'.pending i hi)

/-- A use that waits is resolved, or stays because it has no root yet. -/
theorem resolveUse_resolves {s : State} {queued : StyleRoot → String → Nat} (hcounts : Counts s queued)
    (final : Bool) {i : Nat} (hi : i ∈ s.pending) :
    Resolves s (s.resolveUse final i) ∧ (∀ j ∈ s.pending, j ≠ i → j ∈ (s.resolveUse final i).pending) ∧
      (final = true → i ∉ (s.resolveUse final i).pending) := by
  obtain ⟨use, huse, hroot, hreleased⟩ := hcounts.waiting i hi
  unfold State.resolveUse
  simp only [huse]
  cases hstyle : styleRootOf use.anchor final with
  | none =>
    refine ⟨Resolves.refl s, fun _ hj _ => hj, ?_⟩
    rintro rfl
    unfold styleRootOf at hstyle
    split at hstyle <;> cases hstyle
  | some root =>
    simp only
    obtain ⟨-, hpending, hreleases, hresolve, hrelease⟩ :=
      attach_frame { s with pending := s.pending.erase i } i use root
    refine ⟨⟨?_, ?_, ?_, hreleases, hresolve, hrelease, ?_⟩, ?_, ?_⟩
    · intro q hq
      have hwaiting : Counts { s with pending := s.pending.erase i } q :=
        ⟨hq.counted, hq.positive, hq.dropped, fun j hj => hq.waiting j (List.mem_of_mem_erase hj),
          hq.distinct.erase i⟩
      have hattach := hwaiting.attach huse hreleased hq.distinct.not_mem_erase root
      have hzero : (fun r id => q r id + (use.holds r id).toNat) = q := by
        funext r id
        simp [StyleUse.holds, hroot]
      rwa [hzero] at hattach
    · intro he
      have hwaiting : Elements { s with pending := s.pending.erase i } := he.congr (fun _ _ => rfl) rfl rfl rfl
      exact hwaiting.attach i use root
    · intro r hr hplace
      exact Present.attach (s := { s with pending := s.pending.erase i }) hr hplace i use root
    · intro j hj
      rw [hpending] at hj
      exact List.mem_of_mem_erase hj
    · intro j hj hne
      rw [hpending]
      exact (List.mem_erase_of_ne hne).mpr hj
    · intro _
      rw [hpending]
      exact hcounts.distinct.not_mem_erase

/-- By induction on the uses that are left in the round. -/
theorem resolve_fold {s : State} {queued : StyleRoot → String → Nat} (hcounts : Counts s queued)
    (final : Bool) {batch : List Nat} (hbatch : ∀ i ∈ batch, i ∈ s.pending) (hdistinct : batch.Nodup) :
    Resolves s (batch.foldl (State.resolveUse final) s) ∧
      (final = true → ∀ i ∈ batch, i ∉ (batch.foldl (State.resolveUse final) s).pending) := by
  induction batch generalizing s with
  | nil => exact ⟨Resolves.refl s, nofun⟩
  | cons i batch ih =>
    obtain ⟨hresolves, hstays, hgone⟩ := resolveUse_resolves hcounts final (hbatch i List.mem_cons_self)
    obtain ⟨hi, hnodup⟩ := List.nodup_cons.mp hdistinct
    obtain ⟨hrest, hdone⟩ := ih (hresolves.counts queued hcounts)
      (fun j hj => hstays j (hbatch j (List.mem_cons_of_mem _ hj)) (by rintro rfl; exact hi hj)) hnodup
    refine ⟨hresolves.trans hrest, ?_⟩
    intro hfinal j hj
    rcases List.mem_cons.mp hj with rfl | hj
    · exact fun hmem => hgone hfinal (hrest.pending j hmem)
    · exact hdone hfinal j hj

theorem resolvePending_resolves {s : State} {queued : StyleRoot → String → Nat} (h : Counts s queued)
    (final : Bool) : Resolves s (s.resolvePending final) ∧
      (final = true → (s.resolvePending final).pending = []) := by
  obtain ⟨hresolves, hdone⟩ := resolve_fold h final (fun _ => id) h.distinct
  refine ⟨hresolves, fun hfinal => List.eq_nil_iff_forall_not_mem.mpr fun i hi => ?_⟩
  exact hdone hfinal i (hresolves.pending i hi) hi

/-- By induction on the batch: the releases that are left are still queued. -/
theorem drop_fold {s : State} {batch : List (StyleRoot × String)}
    (hcounts : Counts s fun r id => batch.count (r, id)) (helements : Elements s) :
    let t := batch.foldl State.dropUse s
    Counts t (fun _ _ => 0) ∧ Elements t ∧
      (∀ r, Present s r → HasPlace s.dom r → Present t r ∧ HasPlace t.dom r) ∧
      t.releases = s.releases ∧ t.pending = s.pending ∧ t.uses = s.uses ∧
      t.resolveScheduled = s.resolveScheduled := by
  induction batch generalizing s with
  | nil => exact ⟨hcounts, helements, fun _ h h' => ⟨h, h'⟩, rfl, rfl, rfl, rfl⟩
  | cons released batch ih =>
    obtain ⟨root, scopeId⟩ := released
    have hfirst : Counts s fun r id => batch.count (r, id) + (decide (r = root ∧ id = scopeId)).toNat := by
      have hsplit : (fun r id => ((root, scopeId) :: batch).count (r, id)) =
          fun r id => batch.count (r, id) + (decide (r = root ∧ id = scopeId)).toNat := by
        funext r id
        rw [List.count_cons]
        by_cases heq : r = root ∧ id = scopeId
        · obtain ⟨rfl, rfl⟩ := heq
          simp
        · have hne : ¬(root = r ∧ scopeId = id) := fun h => heq ⟨h.1.symm, h.2.symm⟩
          simp [heq, hne]
      rwa [hsplit] at hcounts
    obtain ⟨-, -, hreleases, hpending, huses, hresolve, -⟩ := dropUse_frame s (root, scopeId)
    obtain ⟨hc, he, hp, hrest⟩ := ih hfirst.dropUse (helements.dropUse (root, scopeId))
    rw [hreleases, hpending, huses, hresolve] at hrest
    refine ⟨hc, he, ?_, hrest⟩
    intro r hr hplace
    obtain ⟨hr', hplace'⟩ := hr.dropUse helements hplace (root, scopeId)
    exact hp r hr' hplace'

/-! ## Section 7: Steps -/

/-- What holds in every state. -/
structure Good (s : State) : Prop where
  counts : Counts s s.queued
  elements : Elements s
  scheduled : Scheduled s

theorem good_initial {dom : StyleRoot → Content} {next : Nat} (h : Documents dom next) :
    Good (initial dom next) where
  counts := ⟨fun _ _ => rfl, nofun, nofun, nofun, List.nodup_nil⟩
  elements := ⟨nofun, nofun, nofun, nofun, nofun, h⟩
  scheduled := ⟨fun h => absurd rfl h, fun h => absurd rfl h⟩

theorem queued_append (s : State) (root : StyleRoot) (scopeId : String) (r : StyleRoot) (id : String) :
    (s.releases ++ [(root, scopeId)]).count (r, id) =
      s.queued r id + (decide (root = r ∧ scopeId = id)).toNat := by
  rw [List.count_append, State.queued, List.count_singleton]
  by_cases heq : root = r ∧ scopeId = id
  · obtain ⟨rfl, rfl⟩ := heq
    simp
  · simp [heq]

theorem Good.acquire {s : State} (h : Good s) (scopeId : String) (anchor : Anchor) :
    Good (s.acquire scopeId anchor) := by
  obtain ⟨hcounts, helements, hscheduled⟩ := h
  refine ⟨⟨?_, hcounts.positive, ?_, ?_, ?_⟩, helements.congr (fun _ _ => rfl) rfl rfl rfl,
    fun _ => rfl, hscheduled.release⟩
  · intro r id
    have hnew : held (s.uses ++ [⟨scopeId, anchor, none, false⟩]) r id = held s.uses r id := by
      simp [held, StyleUse.holds]
    exact (hcounts.counted r id).trans (by rw [State.acquire, hnew]; rfl)
  · intro u hu hreleased
    rcases List.mem_append.mp hu with hu | hu
    · exact hcounts.dropped u hu hreleased
    · obtain rfl := List.mem_singleton.mp hu
      rfl
  · intro i hi
    rcases List.mem_append.mp hi with hi | hi
    · obtain ⟨u, hu, hrest⟩ := hcounts.waiting i hi
      exact ⟨u, by rw [State.acquire, List.getElem?_append_left (List.getElem?_eq_some_iff.mp hu).1]; exact hu, hrest⟩
    · obtain rfl := List.mem_singleton.mp hi
      exact ⟨⟨scopeId, anchor, none, false⟩, by simp [State.acquire], rfl, rfl⟩
  · refine List.nodup_append.mpr ⟨hcounts.distinct, List.pairwise_singleton _ _, ?_⟩
    intro i hi j hj
    obtain rfl := List.mem_singleton.mp hj
    obtain ⟨u, hu, -⟩ := hcounts.waiting i hi
    exact Nat.ne_of_lt (List.getElem?_eq_some_iff.mp hu).1

/-- A use may change where that keeps what it counts for. -/
theorem Counts.set {s : State} {queued queued' : StyleRoot → String → Nat} (h : Counts s queued) {i : Nat}
    {use use' : StyleUse} (huse : s.uses[i]? = some use) {pending : List Nat}
    (hdropped : use'.released = true → use'.root = none)
    (hwaiting : i ∈ pending → use'.root = none ∧ use'.released = false)
    (hpending : pending.Sublist s.pending)
    (hqueued : ∀ r id, queued r id + (use.holds r id).toNat = queued' r id + (use'.holds r id).toNat)
    {releases : List (StyleRoot × String)} {scheduled : Bool} :
    Counts { s with
      uses := s.uses.set i use', pending := pending, releases := releases,
      releaseScheduled := scheduled } queued' := by
  refine ⟨?_, h.positive, ?_, ?_, h.distinct.sublist hpending⟩
  · intro r id
    have hset := held_set huse use' r id
    have hcounted := h.counted r id
    have hboth := hqueued r id
    show s.count r id = held (s.uses.set i use') r id + queued' r id
    omega
  · intro u hu hreleased
    rcases List.mem_or_eq_of_mem_set hu with hu | rfl
    · exact h.dropped u hu hreleased
    · exact hdropped hreleased
  · intro j hj
    by_cases heq : i = j
    · subst heq
      obtain ⟨hlt, -⟩ := List.getElem?_eq_some_iff.mp huse
      exact ⟨use', List.getElem?_set_self hlt, hwaiting hj⟩
    · obtain ⟨u, hu, hrest⟩ := h.waiting j (hpending.subset hj)
      exact ⟨u, (List.getElem?_set_ne heq).trans hu, hrest⟩

theorem Good.release {s : State} (h : Good s) {i : Nat} {use : StyleUse} (huse : s.uses[i]? = some use) :
    Good (s.release i use) := by
  unfold State.release
  by_cases hreleased : use.released = true
  · rw [if_pos hreleased]
    exact h
  rw [if_neg hreleased]
  obtain ⟨hcounts, helements, hscheduled⟩ := h
  cases hroot : use.root with
  | none =>
    simp only
    refine ⟨?_, helements.congr (fun _ _ => rfl) rfl rfl rfl, ?_, hscheduled.release⟩
    · refine hcounts.set huse (fun _ => rfl) ?_ List.erase_sublist ?_
      · exact fun hi => absurd hi hcounts.distinct.not_mem_erase
      · intro r id
        simp [StyleUse.holds, hroot]
        rfl
    · intro hne
      apply hscheduled.resolve
      rintro hnil
      exact hne (by simp [hnil])
  | some root =>
    simp only
    have hnot : i ∉ s.pending := by
      intro hi
      obtain ⟨u, hu, hnone, -⟩ := hcounts.waiting i hi
      obtain rfl := Option.some.inj (huse.symm.trans hu)
      rw [hroot] at hnone
      cases hnone
    refine ⟨?_, helements.congr (fun _ _ => rfl) rfl rfl rfl, hscheduled.resolve, fun _ => rfl⟩
    refine hcounts.set huse (fun _ => rfl) (fun hi => absurd hi hnot) (List.Sublist.refl _) ?_
    intro r id
    have hqueue := queued_append s root use.scopeId r id
    simp only [State.queued] at hqueue ⊢
    rw [hqueue]
    simp [StyleUse.holds, hroot, hreleased]

theorem Good.update {s : State} (h : Good s) {i : Nat} {use : StyleUse} (huse : s.uses[i]? = some use) :
    Good (s.update i use) := by
  unfold State.update
  by_cases hidle : (use.released || !use.anchor.connected) = true
  · rw [if_pos hidle]
    exact h
  rw [if_neg hidle]
  have hreleased : use.released = false := by
    cases hr : use.released with
    | false => rfl
    | true => simp [hr] at hidle
  obtain ⟨hcounts, helements, hscheduled⟩ := h
  cases hroot : use.root with
  | none => exact ⟨hcounts, helements, hscheduled⟩
  | some old =>
    cases hanchor : use.anchor.root with
    | none => exact ⟨hcounts, helements, hscheduled⟩
    | some root =>
      simp only
      by_cases hsame : root = old
      · rw [if_pos hsame]
        exact ⟨hcounts, helements, hscheduled⟩
      rw [if_neg hsame]
      have hnot : i ∉ s.pending := by
        intro hi
        obtain ⟨u, hu, hnone, -⟩ := hcounts.waiting i hi
        obtain rfl := Option.some.inj (huse.symm.trans hu)
        rw [hroot] at hnone
        cases hnone
      generalize hs : ({ s with releases := s.releases ++ [(old, use.scopeId)], releaseScheduled := true } : State) = s'
      obtain ⟨-, hpending, hreleases, hresolve, hrelease⟩ := attach_frame s' i use root
      have huse' : s'.uses[i]? = some use := by rw [← hs]; exact huse
      have hcounts' : Counts s' s.queued := by
        rw [← hs]
        exact ⟨hcounts.counted, hcounts.positive, hcounts.dropped, hcounts.waiting, hcounts.distinct⟩
      have helements' : Elements s' := by
        rw [← hs]
        exact helements.congr (fun _ _ => rfl) rfl rfl rfl
      have hnot' : i ∉ s'.pending := by rw [← hs]; exact hnot
      refine ⟨?_, helements'.attach i use root, ?_, ?_⟩
      · have hattach := hcounts'.attach huse' hreleased hnot' root
        have hqueued : (s'.attach i use root).queued = fun r id => s.queued r id + (use.holds r id).toNat := by
          funext r id
          rw [State.queued, hreleases, ← hs]
          simp only
          rw [queued_append s old use.scopeId r id]
          simp [StyleUse.holds, hroot, hreleased]
        rw [hqueued]
        exact hattach
      · intro hne
        rw [hresolve, ← hs]
        rw [hpending, ← hs] at hne
        exact hscheduled.resolve hne
      · intro _
        rw [hrelease, ← hs]

theorem Good.move {s : State} (h : Good s) {i : Nat} {use : StyleUse} (huse : s.uses[i]? = some use)
    (anchor : Anchor) : Good { s with uses := s.uses.set i { use with anchor := anchor } } := by
  obtain ⟨hcounts, helements, hscheduled⟩ := h
  refine ⟨?_, helements.congr (fun _ _ => rfl) rfl rfl rfl, hscheduled.resolve, hscheduled.release⟩
  have hdropped : ({ use with anchor := anchor } : StyleUse).released = true →
      ({ use with anchor := anchor } : StyleUse).root = none :=
    hcounts.dropped use (List.mem_of_getElem? huse)
  refine hcounts.set huse hdropped ?_ (List.Sublist.refl _) (fun _ _ => rfl)
  intro hi
  obtain ⟨u, hu, hrest⟩ := hcounts.waiting i hi
  obtain rfl := Option.some.inj (huse.symm.trans hu)
  exact hrest

theorem Good.edit {s : State} (h : Good s) {dom : StyleRoot → Content} {next : Nat}
    (hedit : Undisturbed s (.edit dom next)) : Good { s with dom := dom, nextElement := next } := by
  obtain ⟨hcounts, helements, hscheduled⟩ := h
  obtain ⟨hdocuments, hnext, hsame⟩ := hedit
  refine ⟨⟨hcounts.counted, hcounts.positive, hcounts.dropped, hcounts.waiting, hcounts.distinct⟩,
    ⟨helements.owns, helements.apart, ?_, ?_, ?_, hdocuments⟩, ⟨hscheduled.resolve, hscheduled.release⟩⟩
  · intro el root scopeId hmem
    refine (helements.gone el root scopeId hmem).imp_right fun hgone root' scopeId' hstyle => ?_
    exact hgone root' scopeId' ((hsame el root scopeId hmem root' scopeId').mp hstyle)
  · intro el root scopeId hmem root' scopeId' hstyle
    exact helements.located el root scopeId hmem root' scopeId'
      ((hsame el root scopeId hmem root' scopeId').mp hstyle)
  · intro el root scopeId hmem
    exact Nat.lt_of_lt_of_le (helements.fresh el root scopeId hmem) hnext

theorem Good.resolvePending {s : State} (h : Good s) (final : Bool) : Good (s.resolvePending final) := by
  obtain ⟨hresolves, -⟩ := resolvePending_resolves h.counts final
  refine ⟨?_, hresolves.elements h.elements, ?_, ?_⟩
  · have hqueued : (s.resolvePending final).queued = s.queued := by
      unfold State.queued
      rw [hresolves.releases]
    rw [hqueued]
    exact hresolves.counts _ h.counts
  · intro hne
    rw [hresolves.resolveScheduled]
    apply h.scheduled.resolve
    intro hnil
    apply hne
    apply List.eq_nil_iff_forall_not_mem.mpr
    intro i hi
    have hmem := hresolves.pending i hi
    rw [hnil] at hmem
    cases hmem
  · intro hne
    rw [hresolves.releaseScheduled]
    rw [hresolves.releases] at hne
    exact h.scheduled.release hne

/-- The microtask resolves every use that waits. -/
theorem Good.microtask {s : State} (h : Good s) :
    Good ({ s with resolveScheduled := false }.resolvePending true) := by
  have hcounts : Counts { s with resolveScheduled := false } s.queued :=
    ⟨h.counts.counted, h.counts.positive, h.counts.dropped, h.counts.waiting, h.counts.distinct⟩
  obtain ⟨hresolves, hdone⟩ := resolvePending_resolves hcounts true
  refine ⟨?_, hresolves.elements (h.elements.congr (fun _ _ => rfl) rfl rfl rfl), ?_, ?_⟩
  · have hqueued : ({ s with resolveScheduled := false }.resolvePending true).queued = s.queued := by
      unfold State.queued
      rw [hresolves.releases]
    rw [hqueued]
    exact hresolves.counts _ hcounts
  · intro hne
    exact absurd (hdone rfl) hne
  · intro hne
    rw [hresolves.releaseScheduled]
    rw [hresolves.releases] at hne
    exact h.scheduled.release hne

/-- The macrotask drains both queues. -/
theorem applyReleases_drains {s : State} (h : Good s) :
    Good s.applyReleases ∧ s.applyReleases.pending = [] ∧ s.applyReleases.releases = [] ∧
      ∀ r, Present s r → HasPlace s.dom r → Present s.applyReleases r := by
  have hcounts : Counts { s with releaseScheduled := false } s.queued :=
    ⟨h.counts.counted, h.counts.positive, h.counts.dropped, h.counts.waiting, h.counts.distinct⟩
  obtain ⟨hresolves, hdone⟩ := resolvePending_resolves hcounts true
  have helements := hresolves.elements (h.elements.congr (fun _ _ => rfl) rfl rfl rfl)
  unfold State.applyReleases
  generalize hr : ({ s with releaseScheduled := false } : State).resolvePending true = r at *
  have hbatch : Counts { r with releases := [] } fun root id => r.releases.count (root, id) := by
    have hc := hresolves.counts _ hcounts
    have hqueued : (fun root id => r.releases.count (root, id)) = s.queued := by
      funext root id
      rw [hresolves.releases]
      rfl
    rw [hqueued]
    exact ⟨hc.counted, hc.positive, hc.dropped, hc.waiting, hc.distinct⟩
  obtain ⟨hc, he, hp, hreleases, hpending, -, -⟩ :=
    drop_fold hbatch (helements.congr (fun _ _ => rfl) rfl rfl rfl)
  have hnil := hdone rfl
  simp only
  refine ⟨⟨?_, he, ⟨?_, ?_⟩⟩, by rw [hpending]; exact hnil, hreleases, ?_⟩
  · have hqueued : (r.releases.foldl State.dropUse { r with releases := [] }).queued = fun _ _ => 0 := by
      funext root id
      rw [State.queued, hreleases]
      rfl
    rw [hqueued]
    exact hc
  · intro hne
    rw [hpending] at hne
    exact absurd hnil hne
  · intro hne
    exact absurd hreleases hne
  · intro root hpresent hplace
    obtain ⟨hpresent', hplace'⟩ := hresolves.present root hpresent hplace
    exact (hp root hpresent' hplace').1

theorem step_good {s t : State} {e : Event} (h : Good s) (hallowed : Undisturbed s e)
    (hstep : step s e = some t) : Good t := by
  cases e with
  | acquire scopeId anchor =>
    obtain rfl := Option.some.inj hstep
    exact h.acquire scopeId anchor
  | flush =>
    obtain rfl := Option.some.inj hstep
    exact h.resolvePending false
  | microtask =>
    simp only [step, Option.ite_none_right_eq_some, Option.some.injEq] at hstep
    obtain ⟨-, rfl⟩ := hstep
    exact h.microtask
  | macrotask =>
    simp only [step, Option.ite_none_right_eq_some, Option.some.injEq] at hstep
    obtain ⟨-, rfl⟩ := hstep
    exact (applyReleases_drains h).1
  | release i =>
    obtain ⟨use, huse, rfl⟩ := Option.map_eq_some_iff.mp hstep
    exact h.release huse
  | update i =>
    obtain ⟨use, huse, rfl⟩ := Option.map_eq_some_iff.mp hstep
    exact h.update huse
  | move i anchor =>
    obtain ⟨use, huse, rfl⟩ := Option.map_eq_some_iff.mp hstep
    exact h.move huse anchor
  | edit dom next =>
    obtain rfl := Option.some.inj hstep
    exact h.edit hallowed

/-- In a root that can take elements, those of its entries stay. -/
theorem step_present {s t : State} {e : Event} (h : Good s) (hallowed : Undisturbed s e) {r : StyleRoot}
    (hplace : HasPlace s.dom r) (hpresent : Present s r) (hstep : step s e = some t) : Present t r := by
  cases e with
  | acquire scopeId anchor =>
    obtain rfl := Option.some.inj hstep
    exact hpresent
  | flush =>
    obtain rfl := Option.some.inj hstep
    exact ((resolvePending_resolves h.counts false).1.present r hpresent hplace).1
  | microtask =>
    simp only [step, Option.ite_none_right_eq_some, Option.some.injEq] at hstep
    obtain ⟨-, rfl⟩ := hstep
    have hcounts : Counts { s with resolveScheduled := false } s.queued :=
      ⟨h.counts.counted, h.counts.positive, h.counts.dropped, h.counts.waiting, h.counts.distinct⟩
    exact ((resolvePending_resolves hcounts true).1.present r hpresent hplace).1
  | macrotask =>
    simp only [step, Option.ite_none_right_eq_some, Option.some.injEq] at hstep
    obtain ⟨-, rfl⟩ := hstep
    exact (applyReleases_drains h).2.2.2 r hpresent hplace
  | release i =>
    obtain ⟨use, huse, rfl⟩ := Option.map_eq_some_iff.mp hstep
    unfold State.release
    split
    · exact hpresent
    · split <;> exact hpresent
  | update i =>
    obtain ⟨use, huse, rfl⟩ := Option.map_eq_some_iff.mp hstep
    unfold State.update
    split
    · exact hpresent
    · split
      · split
        · exact hpresent
        · rename_i old root hold hroot hsame
          exact (Present.attach (s := { s with
            releases := s.releases ++ [(old, use.scopeId)], releaseScheduled := true }) hpresent hplace i use root).1
      · exact hpresent
  | move i anchor =>
    obtain ⟨use, huse, rfl⟩ := Option.map_eq_some_iff.mp hstep
    exact hpresent
  | edit dom next =>
    obtain rfl := Option.some.inj hstep
    intro scopeId el hsome
    exact (hallowed.2.2 el r scopeId (h.elements.owns r scopeId el hsome) r scopeId).mpr
      (hpresent scopeId el hsome)

/-! ## Section 8: Every run -/

theorem run_good {dom : StyleRoot → Content} {next : Nat} (hdom : Documents dom next) {s : State}
    (h : Runs.Run step Undisturbed (initial dom next) s) : Good s :=
  h.invariant (good_initial hdom) fun _ _ _ hs hallowed hstep => step_good hs hallowed hstep

/-- What holds in every state of a run in which a root could always take an element. -/
def GoodIn (root : StyleRoot) (s : State) : Prop := Good s ∧ Present s root

/-- No element that the registry created or adopted is in a document. -/
def Clean (s : State) : Prop :=
  ∀ el root scopeId, (el, root, scopeId) ∈ s.owned → ∀ root' scopeId', (el, scopeId') ∉ (s.dom root').styles

theorem clean_drained {s : State} (h : Good s) (hreleased : ∀ use ∈ s.uses, use.released = true)
    (hreleases : s.releases = []) : Clean s := by
  intro el root scopeId hmem
  rcases h.elements.gone el root scopeId hmem with hsome | hgone
  · exfalso
    obtain ⟨entry, hentry, -⟩ := Option.map_eq_some_iff.mp hsome
    have hpos := h.counts.positive root scopeId entry hentry
    have hcounted := h.counts.counted root scopeId
    have hnone : held s.uses root scopeId = 0 := by
      apply List.countP_eq_zero.mpr
      intro use huse
      simp [StyleUse.holds, hreleased use huse]
    rw [State.count, hentry, hnone, State.queued, hreleases] at hcounted
    simp only [Option.map_some, Option.getD_some, List.count_nil] at hcounted
    omega
  · exact hgone

theorem released_frame {s : State} (h : Good s) (hreleased : ∀ use ∈ s.uses, use.released = true) :
    s.pending = [] := by
  apply List.eq_nil_iff_forall_not_mem.mpr
  intro i hi
  obtain ⟨use, huse, -, hnot⟩ := h.counts.waiting i hi
  have hyes := hreleased use (List.mem_of_getElem? huse)
  rw [hnot] at hyes
  cases hyes

theorem dropUses_uses (batch : List (StyleRoot × String)) (s : State) :
    (batch.foldl State.dropUse s).uses = s.uses := by
  induction batch generalizing s with
  | nil => rfl
  | cons released batch ih =>
    obtain ⟨-, -, -, -, huses, -⟩ := dropUse_frame s released
    rw [List.foldl_cons, ih, huses]

/-- In every run the count of an entry is the number of uses that are resolved in its root
and not released, and of releases in the queue; in a root that could always take an element
there is an entry exactly when its element is there; and once every use is released, no
use waits, and with the queue empty, or after the macrotask, no element remains. -/
theorem style_counts {dom : StyleRoot → Content} {next : Nat} (hdom : Documents dom next) {s : State}
    (h : Runs.Run step Undisturbed (initial dom next) s) :
    (∀ root scopeId, s.count root scopeId = held s.uses root scopeId + s.queued root scopeId ∧
      ((s.registries root scopeId).isSome ↔ 0 < s.count root scopeId)) ∧
    (∀ root, Runs.Run step (fun s e => Undisturbed s e ∧ HasPlace s.dom root) (initial dom next) s →
      ∀ scopeId, ((s.registries root scopeId).isSome ↔
        ∃ el, (el, root, scopeId) ∈ s.owned ∧ (el, scopeId) ∈ (s.dom root).styles) ∧
      ∀ entry, s.registries root scopeId = some entry → (entry.element, scopeId) ∈ (s.dom root).styles) ∧
    ((∀ use ∈ s.uses, use.released = true) → s.pending = [] ∧ (s.releases = [] → Clean s) ∧
      (s.releases ≠ [] → ∃ t, step s .macrotask = some t ∧ t.pending = [] ∧ t.releases = [] ∧ Clean t)) := by
  have hgood := run_good hdom h
  refine ⟨?_, ?_, ?_⟩
  · intro root scopeId
    refine ⟨hgood.counts.counted root scopeId, ?_⟩
    unfold State.count
    cases hentry : s.registries root scopeId with
    | none => simp
    | some entry => simpa using hgood.counts.positive root scopeId entry hentry
  · intro root hrun scopeId
    have hpresent : Present s root := by
      have hboth : GoodIn root s := by
        refine hrun.invariant ?_ ?_
        · exact ⟨good_initial hdom, nofun⟩
        · intro _ _ _ hs hallowed hstep
          exact ⟨step_good hs.1 hallowed.1 hstep, step_present hs.1 hallowed.1 hallowed.2 hs.2 hstep⟩
      exact hboth.2
    have helement : ∀ entry, s.registries root scopeId = some entry →
        s.element root scopeId = some entry.element := by
      intro entry hentry
      rw [State.element, hentry]
      rfl
    constructor
    · constructor
      · intro hsome
        obtain ⟨entry, hentry⟩ := Option.isSome_iff_exists.mp hsome
        have hel := helement entry hentry
        exact ⟨entry.element, hgood.elements.owns root scopeId _ hel, hpresent scopeId _ hel⟩
      · rintro ⟨el, howned, hstyle⟩
        rcases hgood.elements.gone el root scopeId howned with hsome | hgone
        · obtain ⟨entry, hentry, -⟩ := Option.map_eq_some_iff.mp hsome
          rw [hentry]
          rfl
        · exact absurd hstyle (hgone root scopeId)
    · exact fun entry hentry => hpresent scopeId _ (helement entry hentry)
  · intro hreleased
    refine ⟨released_frame hgood hreleased, clean_drained hgood hreleased, ?_⟩
    intro hne
    obtain ⟨hgood', hpending, hreleases, -⟩ := applyReleases_drains hgood
    refine ⟨s.applyReleases, by rw [step, if_pos (hgood.scheduled.release hne)], hpending, hreleases, ?_⟩
    -- nothing waits, so that the macrotask resolves no use
    have huses : s.applyReleases.uses = s.uses := by
      unfold State.applyReleases State.resolvePending
      simp only [released_frame hgood hreleased, List.foldl_nil]
      exact dropUses_uses _ _
    exact clean_drained hgood' (by rw [huses]; exact hreleased) hreleases

/-! ## Section 9: Two pages -/

/-- A document without an element, to which a detached node belongs. -/
def bareDom : StyleRoot → Content := fun _ => ⟨false, none, []⟩

/-- A use in a document without an element has an entry, and the document has no style. -/
theorem style_without_place :
    ∃ s, Runs.Run step Undisturbed (initial bareDom 0) s ∧
      (s.registries (.document 0) "a").isSome ∧ s.count (.document 0) "a" = 1 ∧
      (s.dom (.document 0)).styles = [] := by
  have hexec : Runs.exec step (initial bareDom 0) [.acquire "a" ⟨none, false, 0⟩, .microtask] = some _ := rfl
  refine ⟨_, Runs.run_of_exec hexec ?_, ?_, ?_, ?_⟩
  · exact ⟨trivial, fun t _ => ⟨trivial, fun _ _ => trivial⟩⟩
  · decide
  · decide
  · decide

/-- A document with one style in its head, as it was served. -/
def servedDom : StyleRoot → Content := fun root =>
  if root = .document 0 then ⟨true, some [.style 0 "a"], []⟩ else ⟨false, none, []⟩

theorem servedDom_documents : Documents servedDom 1 := by
  have hstyles : ∀ el root scopeId, (el, scopeId) ∈ (servedDom root).styles →
      el = 0 ∧ root = .document 0 ∧ scopeId = "a" := by
    intro el root scopeId hmem
    unfold servedDom at hmem
    by_cases hroot : root = .document 0
    · rw [if_pos hroot] at hmem
      obtain ⟨rfl, rfl⟩ := Prod.mk.inj (List.mem_singleton.mp hmem)
      exact ⟨rfl, hroot, rfl⟩
    · rw [if_neg hroot] at hmem
      cases hmem
  constructor
  · intro el root scopeId root' scopeId' h h'
    obtain ⟨-, rfl, rfl⟩ := hstyles el root scopeId h
    obtain ⟨-, rfl, rfl⟩ := hstyles el root' scopeId' h'
    exact ⟨rfl, rfl⟩
  · intro el root scopeId h
    obtain ⟨rfl, -⟩ := hstyles el root scopeId h
    decide

def servedEvents : List Event :=
  [.acquire "a" ⟨some (.document 0), true, 0⟩, .flush, .release 0, .release 0]

/-- The served style is adopted, counted for the release in the queue, and then removed. -/
theorem style_counts_served :
    ∃ s t, Runs.exec step (initial servedDom 1) servedEvents = some s ∧
      s.count (.document 0) "a" = 1 ∧ step s .macrotask = some t ∧ Clean t := by
  obtain ⟨s, hs⟩ : ∃ s, Runs.exec step (initial servedDom 1) servedEvents = some s := ⟨_, rfl⟩
  have hrun : Runs.Run step Undisturbed (initial servedDom 1) s :=
    Runs.run_of_exec hs
      ⟨trivial, fun _ _ => ⟨trivial, fun _ _ => ⟨trivial, fun _ _ => ⟨trivial, fun _ _ => trivial⟩⟩⟩⟩
  have hstate : s.uses.all (fun use => use.released) = true ∧
      s.releases = [(.document 0, "a")] ∧ s.count (.document 0) "a" = 1 := by
    have heval : (Runs.exec step (initial servedDom 1) servedEvents).map (fun s =>
        (s.uses.all fun use => use.released, s.releases, s.count (.document 0) "a")) =
          some (true, [(.document 0, "a")], 1) := rfl
    rw [hs] at heval
    simpa using heval
  obtain ⟨-, -, hdrains⟩ := style_counts servedDom_documents hrun
  obtain ⟨-, -, hmacrotask⟩ := hdrains (List.all_eq_true.mp hstate.1)
  obtain ⟨t, ht, -, -, hclean⟩ := hmacrotask (by rw [hstate.2.1]; exact List.cons_ne_nil _ _)
  exact ⟨s, t, hs, hstate.2.2, ht, hclean⟩

end Cossack.Renderer.StyleRegistry
