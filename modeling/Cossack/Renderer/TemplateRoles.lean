import Cossack.Renderer.TemplateReading
import Mathlib

/-! # The parser and the analysis agree

    The role of a hole is settled when its tag is; until then the parser holds the
    hole in the tag, in the attribute or in the end tag that is being read. -/

namespace Cossack.Renderer.Html

variable (toLowerCase : Units → Units)

/-! ## Section 1: Roles and kinds -/

/-- The role and the kind of one hole. -/
def Corresponds : BindingRole → BindingKind → Prop
  | .node, .node => True
  | .rawText, .rawText => True
  | .attribute, .attribute => True
  | .tag closing, .tag closing' => closing = closing'
  | .dropped .comment, .comment => True
  | .dropped .tag, .element => True
  | .dropped .endTag, .element => True
  | _, _ => False

namespace Parse

/-- The holes in the attributes of the tag being read. -/
def pendingAttributes (s : Parse) : List Nat :=
  (s.tag.map fun tag => tag.attributes.flatMap (·.bindings)).getD [] ++ (s.attr.map (·.bindings)).getD []

/-- A hole whose role is still to be settled, and its kind. -/
inductive Awaits (s : Parse) (k : Nat) : BindingKind → Prop
  | value : k ∈ s.pendingAttributes → Awaits s k .attribute
  | component (tag : MutableTag) : s.tag = some tag → tag.binding = some k → Awaits s k (.tag false)
  | dropped (tag : MutableTag) : s.tag = some tag → k ∈ tag.droppedBindings → Awaits s k .element
  | closing : s.endBinding = some k → Awaits s k (.tag true)
  | ending : k ∈ s.endDropped → Awaits s k .element

/-- The parser reported a problem with this code in what begins in the string `k`. -/
def Reports (s : Parse) (code : ProblemCode) (k : Nat) : Prop :=
  ∃ p ∈ s.problems, p.code = code ∧ p.range.start.string = k

/-- The role so far of a hole of this kind. -/
def Agrees (s : Parse) (k : Nat) (role : BindingRole) (kind : BindingKind) : Prop :=
  Corresponds role kind ∨
  role = .dropped .tag ∧ s.Awaits k kind ∧ (kind = .attribute ∨ kind = .tag false) ∨
  role = .dropped .endTag ∧ kind = .tag true ∧ (s.endBinding = some k ∨ s.Reports .unexpectedComponentEnd k)

end Parse

/-- A start tag is being read. -/
def State.inTag : State → Bool
  | .tagName | .beforeAttrName | .attrName | .afterAttrName | .beforeAttrValue | .attrValueQuoted
  | .attrValueUnquoted => true
  | _ => false

namespace Parse

/-- The parser follows the outline. -/
structure Follows (t : Tokenizer) (s : Parse) (o : Outline) : Prop where
  attr : s.attr.isSome = o.opened
  tag : s.tag.isSome = t.state.inTag
  inside : o.opened = true → t.state.inTag = true
  ending : s.endStart.isSome = (t.state == .endTag)
  quiet : t.state ≠ .endTag → s.endBinding = none ∧ s.endDropped = []
  closing : ∀ k, s.endBinding = some k → ∃ start, s.endStart = some start ∧ start.string = k
  length : s.roles.length = o.kinds.length
  awaits : ∀ k kind, s.Awaits k kind → o.kinds[k]? = some kind
  agrees : ∀ k role kind, s.roles[k]? = some role → o.kinds[k]? = some kind → s.Agrees k role kind

/-! ## Section 2: What leaves the roles alone -/

/-- Nothing that decides a role has changed. -/
structure SameRoles (s s' : Parse) : Prop where
  roles : s'.roles = s.roles
  tag : s'.tag = s.tag
  attr : s'.attr = s.attr
  endStart : s'.endStart = s.endStart
  endBinding : s'.endBinding = s.endBinding
  endDropped : s'.endDropped = s.endDropped
  problems : ∀ p ∈ s.problems, p ∈ s'.problems

theorem SameRoles.rfl {s : Parse} : SameRoles s s := ⟨.refl _, .refl _, .refl _, .refl _, .refl _, .refl _, fun _ => id⟩

theorem SameRoles.trans {s s' s'' : Parse} (h : SameRoles s s') (h' : SameRoles s' s'') : SameRoles s s'' :=
  ⟨h'.roles.trans h.roles, h'.tag.trans h.tag, h'.attr.trans h.attr, h'.endStart.trans h.endStart,
    h'.endBinding.trans h.endBinding, h'.endDropped.trans h.endDropped,
    fun p hp => h'.problems p (h.problems p hp)⟩

theorem same_problem (s : Parse) (code : ProblemCode) (start stop : Location) :
    SameRoles s (s.problem code start stop) :=
  ⟨rfl, rfl, rfl, rfl, rfl, rfl, fun _ hp => List.mem_append_left _ hp⟩

theorem same_addChild (s : Parse) (child : TemplateNode) : SameRoles s (s.addChild child) := by
  unfold addChild
  split <;> exact ⟨rfl, rfl, rfl, rfl, rfl, rfl, fun _ => id⟩

theorem same_flushText (s : Parse) (string stop : Nat) : SameRoles s (s.flushText string stop) := by
  have hflushed : SameRoles s { s with text := none } := ⟨rfl, rfl, rfl, rfl, rfl, rfl, fun _ => id⟩
  unfold flushText
  split
  · split
    · exact hflushed.trans (same_addChild _ _)
    · exact hflushed
  · exact hflushed

theorem same_addText (s : Parse) (string offset : Nat) (chunk : Units) :
    SameRoles s (s.addText string offset chunk) := by
  unfold addText
  split
  · split <;> exact ⟨rfl, rfl, rfl, rfl, rfl, rfl, fun _ => id⟩
  · exact ⟨rfl, rfl, rfl, rfl, rfl, rfl, fun _ => id⟩

theorem same_unclosed (s : Parse) (c : Container) : SameRoles s (s.unclosed c) := by
  unfold unclosed
  split
  · exact same_problem _ _ _ _
  · split
    · exact same_problem _ _ _ _
    · exact .rfl

theorem same_stack (s : Parse) (stack : List Container) : SameRoles s { s with stack } :=
  ⟨rfl, rfl, rfl, rfl, rfl, rfl, fun _ => id⟩

theorem same_pop (s : Parse) (stop : Location) (report : Bool) : SameRoles s (s.pop stop report) := by
  unfold pop
  split
  · exact .rfl
  · rename_i top rest _
    have hpopped : SameRoles s ({ s with stack := rest }.addChild (close top none false stop)) :=
      (same_stack s rest).trans (same_addChild _ _)
    cases report
    · exact hpopped
    · exact hpopped.trans (same_unclosed _ _)

theorem same_popAll (n : Nat) (s : Parse) (stop : Location) : SameRoles s (popAll n s stop) := by
  induction n generalizing s with
  | zero => exact .rfl
  | succ n ih => exact (same_pop s stop true).trans (ih _)

theorem same_popClosed (s : Parse) (closing : Option (Nat × Location)) (stop : Location) :
    SameRoles s (s.popClosed closing stop) := by
  unfold popClosed
  split
  · exact .rfl
  · exact (same_stack s _).trans (same_addChild _ _)

theorem same_popImplied (name : Units) (stop : Location) (n : Nat) (s : Parse) :
    SameRoles s (popImplied name stop n s) := by
  induction n generalizing s with
  | zero => exact .rfl
  | succ n ih =>
    rw [popImplied]
    split
    · exact .rfl
    · split
      · split
        · exact (same_pop s stop false).trans (ih _)
        · exact .rfl
      · exact .rfl

theorem Awaits.congr {s s' : Parse} {k : Nat} {kind : BindingKind} (htag : s'.tag = s.tag)
    (hattr : s'.attr = s.attr) (hbinding : s'.endBinding = s.endBinding) (hdropped : s'.endDropped = s.endDropped)
    (h : s'.Awaits k kind) : s.Awaits k kind := by
  cases h with
  | value hk => exact .value (by rwa [pendingAttributes, htag, hattr] at hk)
  | component tag ht hk => exact .component tag (htag ▸ ht) hk
  | dropped tag ht hk => exact .dropped tag (htag ▸ ht) hk
  | closing hk => exact .closing (hbinding ▸ hk)
  | ending hk => exact .ending (hdropped ▸ hk)

theorem Reports.mono {s s' : Parse} (h : ∀ p ∈ s.problems, p ∈ s'.problems) {code : ProblemCode}
    {k : Nat} (hcode : s.Reports code k) : s'.Reports code k := by
  obtain ⟨p, hp, hcode⟩ := hcode
  exact ⟨p, h p hp, hcode⟩

theorem SameRoles.awaits {s s' : Parse} (h : SameRoles s s') {k : Nat} {kind : BindingKind} :
    s'.Awaits k kind ↔ s.Awaits k kind :=
  ⟨Awaits.congr h.tag h.attr h.endBinding h.endDropped,
    Awaits.congr h.tag.symm h.attr.symm h.endBinding.symm h.endDropped.symm⟩

/-- A step that settles no role: the same holes wait. -/
theorem Follows.change {t t' : Tokenizer} {s s' : Parse} {o o' : Outline} (h : Follows t s o)
    (hkinds : o'.kinds = o.kinds) (hattr : s'.attr.isSome = o'.opened) (htag : s'.tag.isSome = t'.state.inTag)
    (hinside : o'.opened = true → t'.state.inTag = true) (hending : s'.endStart.isSome = (t'.state == .endTag))
    (hquiet : t'.state ≠ .endTag → s'.endBinding = none ∧ s'.endDropped = [])
    (hclosing : ∀ k, s'.endBinding = some k → ∃ start, s'.endStart = some start ∧ start.string = k)
    (hroles : s'.roles = s.roles) (hawaits : ∀ k kind, s'.Awaits k kind ↔ s.Awaits k kind) (hbinding : s'.endBinding = s.endBinding)
    (hproblems : ∀ p ∈ s.problems, p ∈ s'.problems) : Follows t' s' o' where
  attr := hattr
  tag := htag
  inside := hinside
  ending := hending
  quiet := hquiet
  closing := hclosing
  length := by rw [hroles, hkinds]; exact h.length
  awaits k kind hk := by
    rw [hkinds]
    exact h.awaits k kind ((hawaits k kind).mp hk)
  agrees k role kind hrole hkind := by
    rw [hroles] at hrole
    rw [hkinds] at hkind
    rcases h.agrees k role kind hrole hkind with hc | ⟨hr, ha, hk⟩ | ⟨hr, hk, hb⟩
    · exact .inl hc
    · exact .inr (.inl ⟨hr, (hawaits k kind).mpr ha, hk⟩)
    · refine .inr (.inr ⟨hr, hk, ?_⟩)
      rw [hbinding]
      exact hb.imp_right (Reports.mono hproblems)

/-- Another state of the tokenizer in which the same is being read. -/
theorem Follows.frame {t t' : Tokenizer} {s s' : Parse} {o : Outline} (h : Follows t s o) (hsame : SameRoles s s')
    (htag : t'.state.inTag = t.state.inTag) (hend : t'.state = .endTag ↔ t.state = .endTag) :
    Follows t' s' o := by
  refine h.change rfl ?_ ?_ ?_ ?_ ?_ ?_ hsame.roles (fun k kind => hsame.awaits) hsame.endBinding hsame.problems
  · rw [hsame.attr]
    exact h.attr
  · rw [hsame.tag, htag]
    exact h.tag
  · rw [htag]
    exact h.inside
  · rw [hsame.endStart, h.ending]
    by_cases heq : t.state = .endTag
    · simp [heq, hend.mpr heq]
    · have hne : t'.state ≠ .endTag := fun hend' => heq (hend.mp hend')
      simp [heq, hne]
  · rw [hsame.endBinding, hsame.endDropped]
    exact fun hne => h.quiet fun heq => hne (hend.mpr heq)
  · rw [hsame.endBinding, hsame.endStart]
    exact h.closing

/-! ## Section 3: Inside a tag -/

/-- A change of the tag that keeps its holes. -/
theorem awaits_withTag {s : Parse} {f : MutableTag → MutableTag}
    (hf : ∀ tag, (f tag).attributes = tag.attributes ∧ (f tag).droppedBindings = tag.droppedBindings ∧
      (f tag).binding = tag.binding) (k : Nat) (kind : BindingKind) :
    (s.withTag f).Awaits k kind ↔ s.Awaits k kind := by
  have hpending : (s.withTag f).pendingAttributes = s.pendingAttributes := by
    unfold pendingAttributes withTag
    cases s.tag <;> simp [hf]
  constructor
  · intro h
    cases h with
    | value hk => exact .value (hpending ▸ hk)
    | component tag ht hk =>
      obtain ⟨tag', ht', rfl⟩ := Option.map_eq_some_iff.mp ht
      exact .component tag' ht' ((hf tag').2.2 ▸ hk)
    | dropped tag ht hk =>
      obtain ⟨tag', ht', rfl⟩ := Option.map_eq_some_iff.mp ht
      exact .dropped tag' ht' ((hf tag').2.1 ▸ hk)
    | closing hk => exact .closing hk
    | ending hk => exact .ending hk
  · intro h
    cases h with
    | value hk => exact .value (hpending.symm ▸ hk)
    | component tag ht hk =>
      exact .component (f tag) (by simp [withTag, ht]) ((hf tag).2.2.symm ▸ hk)
    | dropped tag ht hk =>
      exact .dropped (f tag) (by simp [withTag, ht]) ((hf tag).2.1.symm ▸ hk)
    | closing hk => exact .closing hk
    | ending hk => exact .ending hk

/-- A change of the attribute that keeps its holes. -/
theorem awaits_withAttr {s : Parse} {f : MutableAttribute → MutableAttribute}
    (hf : ∀ attr, (f attr).bindings = attr.bindings) (k : Nat) (kind : BindingKind) :
    (s.withAttr f).Awaits k kind ↔ s.Awaits k kind := by
  have hpending : (s.withAttr f).pendingAttributes = s.pendingAttributes := by
    unfold pendingAttributes withAttr
    cases s.attr <;> simp [hf]
  constructor
  · intro h
    cases h with
    | value hk => exact .value (hpending ▸ hk)
    | component tag ht hk => exact .component tag ht hk
    | dropped tag ht hk => exact .dropped tag ht hk
    | closing hk => exact .closing hk
    | ending hk => exact .ending hk
  · intro h
    cases h with
    | value hk => exact .value (hpending.symm ▸ hk)
    | component tag ht hk => exact .component tag ht hk
    | dropped tag ht hk => exact .dropped tag ht hk
    | closing hk => exact .closing hk
    | ending hk => exact .ending hk

/-- The holes of an attribute that ends are those of its tag. -/
theorem awaits_closeAttribute {s : Parse} (htag : s.attr.isSome → s.tag.isSome) (stop : Location) (k : Nat)
    (kind : BindingKind) : (s.closeAttribute stop).Awaits k kind ↔ s.Awaits k kind := by
  unfold closeAttribute
  cases hattr : s.attr with
  | none =>
    have hsame : SameRoles s { s with attr := none } := ⟨rfl, rfl, hattr.symm, rfl, rfl, rfl, fun _ => id⟩
    exact hsame.awaits
  | some attr =>
    obtain ⟨tag, ht⟩ := Option.isSome_iff_exists.mp (htag (by rw [hattr]; rfl))
    rw [ht]
    simp only
    constructor
    · intro h
      cases h with
      | value hk => exact .value (by simpa [pendingAttributes, ht, hattr] using hk)
      | component tag' ht' hk =>
        cases ht'
        exact .component tag ht hk
      | dropped tag' ht' hk =>
        cases ht'
        exact .dropped tag ht hk
      | closing hk => exact .closing hk
      | ending hk => exact .ending hk
    · intro h
      cases h with
      | value hk => exact .value (by simpa [pendingAttributes, ht, hattr] using hk)
      | component tag' ht' hk =>
        cases ht.symm.trans ht'
        exact .component _ rfl hk
      | dropped tag' ht' hk =>
        cases ht.symm.trans ht'
        exact .dropped _ rfl hk
      | closing hk => exact .closing hk
      | ending hk => exact .ending hk

theorem closeAttribute_spec (s : Parse) (stop : Location) :
    (s.closeAttribute stop).attr = none ∧ (s.closeAttribute stop).tag.isSome = s.tag.isSome ∧
    (s.closeAttribute stop).endStart = s.endStart ∧ (s.closeAttribute stop).endBinding = s.endBinding ∧
    (s.closeAttribute stop).endDropped = s.endDropped ∧ (s.closeAttribute stop).roles = s.roles ∧
    (s.closeAttribute stop).problems = s.problems := by
  unfold closeAttribute
  split
  · rename_i ht
    simp [ht]
  · exact ⟨rfl, rfl, rfl, rfl, rfl, rfl, rfl⟩

/-- The attribute ends in the tag. -/
theorem Follows.closeAttribute {t t' : Tokenizer} {s : Parse} {o : Outline} (h : Follows t s o) (stop : Location)
    (htag : t'.state.inTag = t.state.inTag) (hend : t'.state = .endTag ↔ t.state = .endTag) :
    Follows t' (s.closeAttribute stop) { o with opened := false } := by
  obtain ⟨hattr, hsome, hstart, hbinding, hdropped, hroles, hproblems⟩ := closeAttribute_spec s stop
  have hinside : s.attr.isSome → s.tag.isSome := by
    intro hs
    rw [h.tag]
    exact h.inside (h.attr ▸ hs)
  refine h.change rfl (by rw [hattr]; rfl) ?_ nofun ?_ ?_ ?_ hroles (awaits_closeAttribute hinside stop) hbinding
    (fun p hp => hproblems ▸ hp)
  · rw [hsome, htag]
    exact h.tag
  · rw [hstart, h.ending]
    by_cases heq : t.state = .endTag
    · simp [heq, hend.mpr heq]
    · have hne : t'.state ≠ .endTag := fun hend' => heq (hend.mp hend')
      simp [heq, hne]
  · rw [hbinding, hdropped]
    exact fun hne => h.quiet fun heq => hne (hend.mpr heq)
  · rw [hbinding, hstart]
    exact h.closing

/-- A step inside a start tag that moves no hole. -/
theorem Follows.within {t t' : Tokenizer} {s s' : Parse} {o : Outline} (h : Follows t s o)
    (hin : t.state.inTag = true) (hin' : t'.state.inTag = true) (hattr : s'.attr.isSome = s.attr.isSome)
    (htag : s'.tag.isSome = s.tag.isSome) (hstart : s'.endStart = s.endStart)
    (hbinding : s'.endBinding = s.endBinding) (hdropped : s'.endDropped = s.endDropped)
    (hroles : s'.roles = s.roles) (hproblems : s'.problems = s.problems)
    (hawaits : ∀ k kind, s'.Awaits k kind ↔ s.Awaits k kind) : Follows t' s' o := by
  have hne : t.state ≠ .endTag := by rintro heq; simp [heq, State.inTag] at hin
  have hne' : t'.state ≠ .endTag := by rintro heq; simp [heq, State.inTag] at hin'
  refine h.change rfl (hattr.trans h.attr) ?_ (fun _ => hin') ?_ ?_ ?_ hroles hawaits hbinding (fun p hp => hproblems ▸ hp)
  · rw [htag, h.tag, hin, hin']
  · rw [hstart, h.ending]
    simp [hne, hne']
  · rw [hbinding, hdropped]
    exact fun _ => h.quiet hne
  · rw [hbinding, hstart]
    exact h.closing

theorem Follows.withTag {t t' : Tokenizer} {s : Parse} {o : Outline} (h : Follows t s o)
    (hin : t.state.inTag = true) (hin' : t'.state.inTag = true) {f : MutableTag → MutableTag}
    (hf : ∀ tag, (f tag).attributes = tag.attributes ∧ (f tag).droppedBindings = tag.droppedBindings ∧
      (f tag).binding = tag.binding) : Follows t' (s.withTag f) o :=
  h.within hin hin' rfl Option.isSome_map rfl rfl rfl rfl rfl (awaits_withTag hf)

theorem Follows.withAttr {t t' : Tokenizer} {s : Parse} {o : Outline} (h : Follows t s o)
    (hin : t.state.inTag = true) (hin' : t'.state.inTag = true) {f : MutableAttribute → MutableAttribute}
    (hf : ∀ attr, (f attr).bindings = attr.bindings) : Follows t' (s.withAttr f) o :=
  h.within hin hin' Option.isSome_map rfl rfl rfl rfl rfl rfl (awaits_withAttr hf)

/-- An attribute without holes begins. -/
theorem Follows.openAttribute {t t' : Tokenizer} {s : Parse} {o : Outline} (h : Follows t s o)
    (hin : t.state.inTag = true) (hin' : t'.state.inTag = true) (hnone : s.attr = none) {attr : MutableAttribute}
    (hattr : attr.bindings = []) : Follows t' { s with attr := some attr } { o with opened := true } := by
  have hne : t.state ≠ .endTag := by rintro heq; simp [heq, State.inTag] at hin
  have hne' : t'.state ≠ .endTag := by rintro heq; simp [heq, State.inTag] at hin'
  have hpending : ({ s with attr := some attr } : Parse).pendingAttributes = s.pendingAttributes := by
    simp [pendingAttributes, hnone, hattr]
  refine h.change rfl rfl (by rw [h.tag, hin, hin']) (fun _ => hin') ?_ (fun _ => h.quiet hne) h.closing rfl ?_ rfl
    (fun _ => id)
  · rw [h.ending]
    simp [hne, hne']
  · intro k kind
    constructor
    · rintro (hk | ⟨tag, ht, hk⟩ | ⟨tag, ht, hk⟩ | hk | hk)
      · exact .value (hpending ▸ hk)
      · exact .component tag ht hk
      · exact .dropped tag ht hk
      · exact .closing hk
      · exact .ending hk
    · rintro (hk | ⟨tag, ht, hk⟩ | ⟨tag, ht, hk⟩ | hk | hk)
      · exact .value (hpending.symm ▸ hk)
      · exact .component tag ht hk
      · exact .dropped tag ht hk
      · exact .closing hk
      · exact .ending hk

/-! ## Section 4: Roles that are settled -/

def setAll (role : BindingRole) (roles : List BindingRole) (indices : List Nat) : List BindingRole :=
  indices.foldl (fun roles k => roles.set k role) roles

@[simp] theorem length_setAll (role : BindingRole) (roles : List BindingRole) (indices : List Nat) :
    (setAll role roles indices).length = roles.length := by
  unfold setAll
  induction indices generalizing roles with
  | nil => rfl
  | cons k rest ih => rw [List.foldl_cons, ih, List.length_set]

/-- A hole that is set has the role. -/
theorem getElem?_setAll {role role' : BindingRole} {roles : List BindingRole} {indices : List Nat} {k : Nat}
    (h : (setAll role roles indices)[k]? = some role') :
    k ∈ indices ∧ role' = role ∨ k ∉ indices ∧ roles[k]? = some role' := by
  induction indices generalizing roles with
  | nil => exact .inr ⟨List.not_mem_nil, h⟩
  | cons first rest ih =>
    rcases ih h with ⟨hk, hrole⟩ | ⟨hk, hset⟩
    · exact .inl ⟨List.mem_cons_of_mem _ hk, hrole⟩
    · by_cases heq : first = k
      · rw [List.getElem?_set, if_pos heq] at hset
        split at hset
        · exact .inl ⟨heq ▸ List.mem_cons_self, (Option.some.inj hset).symm⟩
        · cases hset
      · rw [List.getElem?_set_ne heq] at hset
        exact .inr ⟨by simpa [hk] using Ne.symm heq, hset⟩

theorem setRoles_eq (s : Parse) (indices : List Nat) (role : BindingRole) :
    s.setRoles indices role = { s with roles := setAll role s.roles indices } := by
  unfold setRoles setAll
  induction indices generalizing s with
  | nil => rfl
  | cons k rest ih => rw [List.foldl_cons, ih, List.foldl_cons]; rfl

theorem SameRoles.withRoles {s s' : Parse} (h : SameRoles s s') (roles : List BindingRole) :
    SameRoles { s with roles } { s' with roles } :=
  ⟨.refl _, h.tag, h.attr, h.endStart, h.endBinding, h.endDropped, h.problems⟩

/-- The roles of the holes of a start tag. -/
def settled (current : MutableTag) (roles : List BindingRole) : List BindingRole :=
  let values := current.attributes.flatMap (·.bindings)
  match current.binding with
  | some binding => setAll .attribute (roles.set binding (.tag false)) values
  | none => setAll (.dropped .tag) (setAll .attribute roles values) current.droppedBindings

theorem same_finishStartTag {s : Parse} {current : MutableTag} (htag : s.tag = some current) (stop : Location) :
    SameRoles { s with tag := none, roles := settled current s.roles } (s.finishStartTag toLowerCase stop) := by
  simp only [finishStartTag, htag, settled]
  cases hbinding : current.binding with
  | some binding =>
    simp only [finishComponent, setRoles_eq, setRole]
    split
    · exact same_addChild _ _
    · exact same_stack _ _
  | none =>
    simp only [finishElement, setRoles_eq]
    have himplied := same_popImplied (toLowerCase current.tag) current.start s.stack.length { s with tag := none }
    generalize popImplied (toLowerCase current.tag) current.start s.stack.length { s with tag := none } = p at himplied
    rw [himplied.roles]
    have hsettled := himplied.withRoles
      (setAll (.dropped .tag) (setAll .attribute s.roles (current.attributes.flatMap (·.bindings)))
        current.droppedBindings)
    split_ifs
    · exact hsettled.trans (same_addChild _ _)
    · exact hsettled.trans ((same_addChild _ _).trans (same_problem _ _ _ _))
    · exact hsettled.trans (same_addChild _ _)
    · exact hsettled.trans (same_stack _ _)

/-- A settled role is that of the hole's kind. -/
theorem settled_spec {s : Parse} {current : MutableTag} (htag : s.tag = some current) {k : Nat} {role : BindingRole}
    (h : (settled current s.roles)[k]? = some role) :
    (∃ kind, s.Awaits k kind ∧ Corresponds role kind) ∨
      s.roles[k]? = some role ∧ k ∉ current.attributes.flatMap (·.bindings) ∧ current.binding ≠ some k := by
  have hvalue : k ∈ current.attributes.flatMap (·.bindings) → s.Awaits k .attribute := fun hk =>
    .value (List.mem_append_left _ (by rw [htag]; exact hk))
  unfold settled at h
  cases hbinding : current.binding with
  | some binding =>
    simp only [hbinding] at h
    rcases getElem?_setAll h with ⟨hk, rfl⟩ | ⟨hk, hset⟩
    · exact .inl ⟨_, hvalue hk, trivial⟩
    · by_cases heq : binding = k
      · rw [List.getElem?_set, if_pos heq] at hset
        split at hset
        · cases hset
          exact .inl ⟨_, .component current htag (by rw [hbinding, heq]), rfl⟩
        · cases hset
      · rw [List.getElem?_set_ne heq] at hset
        exact .inr ⟨hset, hk, by simpa using heq⟩
  | none =>
    simp only [hbinding] at h
    rcases getElem?_setAll h with ⟨hk, rfl⟩ | ⟨hk, hset⟩
    · exact .inl ⟨_, .dropped current htag hk, trivial⟩
    · rcases getElem?_setAll hset with ⟨hk', rfl⟩ | ⟨hk', hset'⟩
      · exact .inl ⟨_, hvalue hk', trivial⟩
      · exact .inr ⟨hset', hk', nofun⟩

/-- The roles of the holes of a start tag are settled when it ends. -/
theorem Follows.finishStartTag {t t' : Tokenizer} {s : Parse} {o : Outline} (h : Follows t s o)
    (hin : t.state.inTag = true) (hnone : s.attr = none) (hin' : t'.state.inTag = false)
    (hne' : t'.state ≠ .endTag) (stop : Location) : Follows t' (s.finishStartTag toLowerCase stop) o := by
  obtain ⟨current, htag⟩ := Option.isSome_iff_exists.mp (h.tag.trans hin)
  have hne : t.state ≠ .endTag := by rintro heq; simp [heq, State.inTag] at hin
  obtain ⟨hbinding, hdropped⟩ := h.quiet hne
  have hopened : o.opened = false := by rw [← h.attr, hnone]; rfl
  have hsame := same_finishStartTag toLowerCase htag stop
  have hlen : (settled current s.roles).length = s.roles.length := by
    unfold settled
    cases current.binding <;> simp
  constructor
  · rw [hsame.attr, ← h.attr]
  · rw [hsame.tag, hin']
    rfl
  · rw [hopened]
    nofun
  · rw [hsame.endStart, h.ending]
    simp [hne, hne']
  · rw [hsame.endBinding, hsame.endDropped]
    exact fun _ => ⟨hbinding, hdropped⟩
  · rw [hsame.endBinding, hbinding]
    nofun
  · rw [hsame.roles, hlen]
    exact h.length
  · intro k kind hk
    -- nothing waits any more
    cases hsame.awaits.mp hk with
    | value hin => exact absurd hin (by simp [pendingAttributes, hnone])
    | component tag ht _ => cases ht
    | dropped tag ht _ => cases ht
    | closing hin => exact absurd (hbinding.symm.trans hin) nofun
    | ending hin => exact absurd (hdropped ▸ hin) List.not_mem_nil
  · intro k role kind hrole hkind
    rw [hsame.roles] at hrole
    rcases settled_spec htag hrole with ⟨kind', hwaits, hcorr⟩ | ⟨hold, hvalue, hcomponent⟩
    · have heq : kind = kind' := Option.some.inj (hkind.symm.trans (h.awaits k kind' hwaits))
      exact .inl (heq ▸ hcorr)
    · rcases h.agrees k role kind hold hkind with hc | ⟨-, hwaits, hk⟩ | ⟨hr, hk, hb⟩
      · exact .inl hc
      · -- the hole would have been settled
        exfalso
        rcases hwaits with hk' | ⟨tag, ht, hk'⟩ | ⟨tag, ht, hk'⟩ | hk' | hk'
        · exact hvalue (by simpa [pendingAttributes, htag, hnone] using hk')
        · cases htag.symm.trans ht
          exact hcomponent hk'
        · rcases hk with hk | hk <;> cases hk
        · rcases hk with hk | hk <;> cases hk
        · rcases hk with hk | hk <;> cases hk
      · refine .inr (.inr ⟨hr, hk, .inr ?_⟩)
        rcases hb with hb | hb
        · exact absurd (hbinding.symm.trans hb) nofun
        · exact Reports.mono (s := { s with tag := none, roles := settled current s.roles }) hsame.problems hb

/-- The end tag's roles; the closing tag of a component needs an open one. -/
theorem finishEndTag_spec {s : Parse} {start : Location} (hstart : s.endStart = some start) (stop : Location) :
    ∃ roles, SameRoles { s with roles, endStart := none, endText := [], endDropped := [], endBinding := none }
        (s.finishEndTag toLowerCase stop) ∧ roles.length = s.roles.length ∧
      ∀ k role, roles[k]? = some role →
        k ∈ s.endDropped ∧ role = .dropped .endTag ∨
        s.endBinding = some k ∧ (role = .tag true ∨ role = .dropped .endTag ∧
          ∃ p ∈ (s.finishEndTag toLowerCase stop).problems,
            p.code = .unexpectedComponentEnd ∧ p.range.start = start) ∨
        s.roles[k]? = some role ∧ s.endBinding ≠ some k := by
  have hset : ∀ {role k role'}, ∀ roles : List BindingRole, (roles.set k role)[k]? = some role' → role' = role := by
    intro role k role' roles hk
    rw [List.getElem?_set, if_pos rfl] at hk
    split at hk
    · exact (Option.some.inj hk).symm
    · cases hk
  simp only [finishEndTag, hstart, setRoles_eq]
  cases hbinding : s.endBinding with
  | none =>
    refine ⟨setAll (.dropped .endTag) s.roles s.endDropped, ?_, length_setAll _ _ _, ?_⟩
    · simp only [finishElementEnd]
      split
      · exact same_problem _ _ _ _
      · exact (same_popAll _ _ _).trans (same_popClosed _ _ _)
    · intro k role hrole
      rcases getElem?_setAll hrole with ⟨hk, rfl⟩ | ⟨-, hold⟩
      · exact .inl ⟨hk, rfl⟩
      · exact .inr (.inr ⟨hold, nofun⟩)
  | some binding =>
    simp only [finishComponentEnd]
    generalize hq : (if isBlank s.endText then _ else _) = q
    have hsame : SameRoles { s with
        roles := setAll (.dropped .endTag) s.roles s.endDropped, endStart := none, endText := [], endDropped := []
        endBinding := none } q := by
      rw [← hq]
      split
      · exact .rfl
      · exact same_problem _ _ _ _
    have hother : ∀ role k role', k ≠ binding → (q.roles.set binding role)[k]? = some role' →
        k ∈ s.endDropped ∧ role' = .dropped .endTag ∨ s.roles[k]? = some role' := by
      intro role k role' hne hk
      rw [List.getElem?_set_ne (Ne.symm hne), hsame.roles] at hk
      rcases getElem?_setAll hk with hin | ⟨-, hold⟩
      · exact .inl hin
      · exact .inr hold
    split
    · refine ⟨q.roles.set binding (.dropped .endTag), ?_, ?_, ?_⟩
      · exact (hsame.trans (same_problem _ _ _ _)).withRoles _
      · rw [List.length_set, hsame.roles]
        exact length_setAll _ _ _
      · intro k role hrole
        by_cases heq : k = binding
        · subst heq
          refine .inr (.inl ⟨rfl, .inr ⟨hset _ hrole, ?_⟩⟩)
          exact ⟨⟨.unexpectedComponentEnd, ⟨start, stop⟩⟩, by simp [setRole, problem], rfl, rfl⟩
        · rcases hother _ k role heq hrole with hin | hold
          · exact .inl hin
          · exact .inr (.inr ⟨hold, by simpa using Ne.symm heq⟩)
    · rename_i above _
      have hpopped := same_popAll above q start
      refine ⟨q.roles.set binding (.tag true), ?_, ?_, ?_⟩
      · have hboth := (hsame.trans hpopped).withRoles (q.roles.set binding (.tag true))
        refine hboth.trans (.trans ?_ (same_popClosed _ _ _))
        rw [setRole, hpopped.roles]
        exact .rfl
      · rw [List.length_set, hsame.roles]
        exact length_setAll _ _ _
      · intro k role hrole
        by_cases heq : k = binding
        · subst heq
          exact .inr (.inl ⟨rfl, .inl (hset _ hrole)⟩)
        · rcases hother _ k role heq hrole with hin | hold
          · exact .inl hin
          · exact .inr (.inr ⟨hold, by simpa using Ne.symm heq⟩)

theorem Follows.finishEndTag {t t' : Tokenizer} {s : Parse} {o : Outline} (h : Follows t s o)
    (hstate : t.state = .endTag) (hstate' : t'.state = .data) (stop : Location) :
    Follows t' (s.finishEndTag toLowerCase stop) o := by
  have hstart : s.endStart.isSome = true := by rw [h.ending, hstate]; rfl
  obtain ⟨start, hstart⟩ := Option.isSome_iff_exists.mp hstart
  obtain ⟨roles, hsame, hlen, hroles⟩ := finishEndTag_spec toLowerCase hstart stop
  have hnotag : s.tag = none := by simpa [hstate, State.inTag] using h.tag
  have hopened : o.opened = false := by
    by_contra hne
    simpa [hstate, State.inTag] using h.inside (by simpa using hne)
  have hnoattr : s.attr = none := by simpa [hopened] using h.attr
  constructor
  · rw [hsame.attr, ← h.attr]
  · rw [hsame.tag, hstate', hnotag]
    rfl
  · rw [hopened]
    nofun
  · rw [hsame.endStart, hstate']
    rfl
  · rw [hsame.endBinding, hsame.endDropped]
    exact fun _ => ⟨rfl, rfl⟩
  · rw [hsame.endBinding]
    nofun
  · rw [hsame.roles]
    exact hlen.trans h.length
  · intro k kind hk
    cases hsame.awaits.mp hk with
    | value hin => exact absurd hin (by simp [pendingAttributes, hnotag, hnoattr])
    | component tag ht _ => exact absurd (hnotag.symm.trans ht) nofun
    | dropped tag ht _ => exact absurd (hnotag.symm.trans ht) nofun
    | closing hin => cases hin
    | ending hin => exact absurd hin List.not_mem_nil
  · intro k role kind hrole hkind
    rw [hsame.roles] at hrole
    rcases hroles k role hrole with ⟨hin, rfl⟩ | ⟨hclosing, hcases⟩ | ⟨hold, hother⟩
    · have heq : kind = .element := Option.some.inj (hkind.symm.trans (h.awaits k _ (.ending hin)))
      exact .inl (heq ▸ trivial)
    · have heq : kind = .tag true := Option.some.inj (hkind.symm.trans (h.awaits k _ (.closing hclosing)))
      subst heq
      rcases hcases with rfl | ⟨rfl, p, hp, hcode, hrange⟩
      · exact .inl rfl
      · obtain ⟨start', hstart', hstring⟩ := h.closing k hclosing
        cases hstart.symm.trans hstart'
        exact .inr (.inr ⟨rfl, rfl, .inr ⟨p, hp, hcode, by rw [hrange, hstring]⟩⟩)
    · rcases h.agrees k role kind hold hkind with hc | ⟨-, hwaits, hk⟩ | ⟨hr, hk, hb⟩
      · exact .inl hc
      · exfalso
        cases hwaits with
        | value hin => exact absurd hin (by simp [pendingAttributes, hnotag, hnoattr])
        | component tag ht _ => exact absurd (hnotag.symm.trans ht) nofun
        | dropped tag ht _ => exact absurd (hnotag.symm.trans ht) nofun
        | closing hin => exact hother hin
        | ending hin => rcases hk with hk | hk <;> cases hk
      · refine .inr (.inr ⟨hr, hk, .inr ?_⟩)
        rcases hb with hb | hb
        · exact absurd hb hother
        · exact Reports.mono (s := s) hsame.problems hb

/-! ## Section 5: A step -/

/-- A start tag without holes begins, or one whose class is the next hole. -/
theorem Follows.beginTag {t t' : Tokenizer} {s : Parse} {o : Outline} (h : Follows t s o)
    (hout : t.state.inTag = false) (hne : t.state ≠ .endTag) (hin' : t'.state.inTag = true) (start : Location) :
    Follows t' { s with tag := some ⟨none, start, [], [], [], false⟩ } o := by
  have hnone : s.tag = none := by simpa [hout] using h.tag
  have hopened : o.opened = false := by
    by_contra hne
    simpa [hout] using h.inside (by simpa using hne)
  have hne' : t'.state ≠ .endTag := by rintro heq; simp [heq, State.inTag] at hin'
  refine h.change rfl h.attr hin'.symm (fun _ => hin') ?_ (fun _ => h.quiet hne) h.closing rfl ?_ rfl (fun _ => id)
  · rw [h.ending]
    simp [hne, hne']
  · intro k kind
    constructor
    · rintro (hk | ⟨tag, ht, hk⟩ | ⟨tag, ht, hk⟩ | hk | hk)
      · exact .value (by simpa [pendingAttributes, hnone] using hk)
      · cases ht
        cases hk
      · cases ht
        cases hk
      · exact .closing hk
      · exact .ending hk
    · rintro (hk | ⟨tag, ht, hk⟩ | ⟨tag, ht, hk⟩ | hk | hk)
      · exact .value (by simpa [pendingAttributes, hnone] using hk)
      · exact absurd (hnone.symm.trans ht) nofun
      · exact absurd (hnone.symm.trans ht) nofun
      · exact .closing hk
      · exact .ending hk

theorem Follows.beginEnd {t t' : Tokenizer} {s : Parse} {o : Outline} (h : Follows t s o)
    (hout : t.state.inTag = false) (hne : t.state ≠ .endTag) (hend : t'.state = .endTag) (start : Location) :
    Follows t' (s.beginEnd start) o := by
  have hopened : o.opened = false := by
    by_contra hne
    simpa [hout] using h.inside (by simpa using hne)
  obtain ⟨hbinding, -⟩ := h.quiet hne
  refine h.change rfl h.attr ?_ (by rw [hopened]; nofun) (by rw [hend]; rfl) (absurd hend) ?_ rfl ?_ rfl (fun _ => id)
  · rw [hend]
    exact h.tag.trans hout
  · intro k hk
    exact absurd (hbinding.symm.trans hk) nofun
  · intro k kind
    exact ⟨Awaits.congr rfl rfl rfl rfl, Awaits.congr rfl rfl rfl rfl⟩

theorem Follows.record {s : Parse} {o : Outline} {i : Nat} {str : Units} {t : Tokenizer} {j ch : Nat}
    (hch : str[j]? = some ch) (h : Follows t s o) (next : Nat) :
    Follows (step toLowerCase t str j ch).1
      (s.record toLowerCase i str t.state (step toLowerCase t str j ch).1 j ch next)
      { o with opened := opensAttribute t.state (step toLowerCase t str j ch).1.state o.opened } := by
  have hstep := (step_spec toLowerCase hch t).state
  have hbetween := step_between toLowerCase str t j ch
  generalize (step toLowerCase t str j ch).1 = t' at *
  cases hstate : t.state with
  | data =>
    rw [hstate] at hstep
    simp only [Parse.record, opensAttribute]
    have hflush := same_flushText s i j
    split
    · rename_i hto
      exact h.frame (same_addText _ _ _ _) (by rw [hto, hstate]) (by rw [hto, hstate])
    · have hout : t.state.inTag = false := by rw [hstate]; rfl
      have hne : t.state ≠ .endTag := by rw [hstate]; rintro ⟨⟩
      have hflushed : Follows t (s.flushText i j) o := h.frame hflush rfl .rfl
      split
      · rename_i hto
        exact hflushed.beginTag hout hne (by rw [hto]; rfl) _
      · split
        · rename_i hto
          exact hflushed.beginEnd hout hne hto _
        · have hcomment : t'.state = .comment ∨ t'.state = .bogusComment := by
            simp only [State.next, List.mem_cons, List.not_mem_nil, or_false] at hstep
            tauto
          refine hflushed.frame ⟨rfl, rfl, rfl, rfl, rfl, rfl, fun _ => id⟩ ?_ ?_ <;>
            rcases hcomment with hto | hto <;> simp [hto, hstate, State.inTag]
  | tagName =>
    rw [hstate] at hstep
    have hin : t.state.inTag = true := by rw [hstate]; rfl
    have hin' : t'.state.inTag = true := by
      simp only [State.next, List.mem_cons, List.not_mem_nil, or_false] at hstep
      rcases hstep with hto | hto <;> rw [hto] <;> rfl
    simp only [Parse.record, opensAttribute]
    split
    · exact h.withTag hin hin' fun _ => ⟨rfl, rfl, rfl⟩
    · exact h.within hin hin' rfl rfl rfl rfl rfl rfl rfl fun _ _ => .rfl
  | beforeAttrName | afterAttrName =>
    have hin : t.state.inTag = true := by rw [hstate]; rfl
    have hclosed : ∀ stop, Follows t (s.closeAttribute stop) { o with opened := false } := fun stop =>
      h.closeAttribute stop rfl .rfl
    simp only [Parse.record, opensAttribute]
    rcases hbetween (by simp [hstate]) with ⟨-, hto⟩ | ⟨-, hto⟩ | ⟨-, hto⟩ | ⟨-, hto⟩ | hto
    · rw [if_pos hto, if_neg (by rcases hto with hto | hto <;> rw [hto] <;> rintro ⟨⟩), if_pos hto]
      have hnone := (closeAttribute_spec s ⟨i, j⟩).1
      exact (hclosed _).finishStartTag toLowerCase hin hnone (by rcases hto with hto | hto <;> rw [hto] <;> rfl)
        (by rcases hto with hto | hto <;> rw [hto] <;> rintro ⟨⟩) _
    · simp only [hto, reduceCtorEq, or_false, if_false]
      exact h.withTag hin (by rw [hto]; rfl) fun _ => ⟨rfl, rfl, rfl⟩
    · simp only [hto, reduceCtorEq, or_false, if_false, if_true]
      have hvalue : Follows t' (s.withAttr fun attr => { attr with hasValue := true }) o :=
        h.withAttr hin (by rw [hto]; rfl) fun _ => rfl
      exact hvalue.withTag (by rw [hto]; rfl) (by rw [hto]; rfl) fun _ => ⟨rfl, rfl, rfl⟩
    · rw [hstate] at hto
      simp only [hto, reduceCtorEq, or_false, if_false]
      exact h.withTag hin (by rw [hto]; rfl) fun _ => ⟨rfl, rfl, rfl⟩
    · simp only [hto, reduceCtorEq, or_false, if_false, if_true]
      have hnone := (closeAttribute_spec s ⟨i, j⟩).1
      have hopen : Follows t'
          { s.closeAttribute ⟨i, j⟩ with attr := some ⟨[ch], ⟨i, j⟩, none, false, none, [[]], []⟩ }
          { o with opened := true } :=
        (hclosed ⟨i, j⟩).openAttribute hin (by rw [hto]; rfl) hnone rfl
      exact hopen.withTag (by rw [hto]; rfl) (by rw [hto]; rfl) fun _ => ⟨rfl, rfl, rfl⟩
  | attrName =>
    rw [hstate] at hstep
    have hin : t.state.inTag = true := by rw [hstate]; rfl
    have hin' : t'.state.inTag = true := by
      simp only [State.next, List.mem_cons, List.not_mem_nil, or_false] at hstep
      rcases hstep with hto | hto | hto | hto <;> rw [hto] <;> rfl
    simp only [Parse.record, opensAttribute]
    split
    · rename_i hto
      rw [if_neg (by rw [hto]; rintro ⟨⟩)]
      exact h.withAttr hin hin' fun _ => rfl
    · have hnamed : Follows t' (s.withAttr fun attr =>
          { attr with nameStop := some ⟨i, j⟩, hasValue := attr.hasValue || t'.state == .beforeAttrValue }) o :=
        h.withAttr hin hin' fun _ => rfl
      split
      · exact hnamed.closeAttribute _ rfl .rfl
      · exact hnamed
  | beforeAttrValue =>
    rw [hstate] at hstep
    have hin : t.state.inTag = true := by rw [hstate]; rfl
    simp only [Parse.record, opensAttribute]
    split
    · rename_i hto
      rw [if_neg (by simp [hto])]
      exact h.withAttr hin (by rw [hto]; rfl) fun _ => rfl
    · split
      · rename_i hto
        rw [if_neg (by simp [hto])]
        exact h.withAttr hin (by rw [hto]; rfl) fun _ => rfl
      · split
        · rename_i hto
          have hnone := (closeAttribute_spec s ⟨i, j⟩).1
          have hclosed : Follows t (s.closeAttribute ⟨i, j⟩) { o with opened := false } :=
            h.closeAttribute _ rfl .rfl
          exact hclosed.finishStartTag toLowerCase hin hnone (by rcases hto with hto | hto <;> rw [hto] <;> rfl)
            (by rcases hto with hto | hto <;> rw [hto] <;> rintro ⟨⟩) _
        · have hto : t'.state = .beforeAttrValue := by
            simp only [State.next, List.mem_cons, List.not_mem_nil, or_false] at hstep
            tauto
          exact h.within hin (by rw [hto]; rfl) rfl rfl rfl rfl rfl rfl rfl fun _ _ => .rfl
  | attrValueQuoted =>
    rw [hstate] at hstep
    have hin : t.state.inTag = true := by rw [hstate]; rfl
    simp only [State.next, List.mem_cons, List.not_mem_nil, or_false] at hstep
    simp only [Parse.record, opensAttribute]
    rcases hstep with hto | hto
    · simp only [hto, reduceCtorEq, if_false, if_true]
      exact h.withAttr hin (by rw [hto]; rfl) fun _ => rfl
    · simp only [hto, reduceCtorEq, if_false, if_true]
      exact h.closeAttribute _ (by rw [hto, hstate]; rfl) (by simp [hto, hstate])
  | attrValueUnquoted =>
    rw [hstate] at hstep
    have hin : t.state.inTag = true := by rw [hstate]; rfl
    simp only [State.next, List.mem_cons, List.not_mem_nil, or_false] at hstep
    simp only [Parse.record, opensAttribute]
    rcases hstep with hto | hto
    · simp only [hto, reduceCtorEq, if_false, if_true]
      exact h.withAttr hin (by rw [hto]; rfl) fun _ => rfl
    · simp only [hto, reduceCtorEq, if_false, if_true]
      exact h.closeAttribute _ (by rw [hto, hstate]; rfl) (by simp [hto, hstate])
  | endTag =>
    rw [hstate] at hstep
    simp only [State.next, List.mem_cons, List.not_mem_nil, or_false] at hstep
    simp only [Parse.record, opensAttribute]
    rcases hstep with hto | hto
    · rw [if_pos hto]
      exact h.frame ⟨rfl, rfl, rfl, rfl, rfl, rfl, fun _ => id⟩ (by rw [hto, hstate]) (by rw [hto, hstate])
    · rw [if_neg (by rw [hto]; rintro ⟨⟩)]
      have hfresh : Follows t { s with endFresh := false } o :=
        h.frame ⟨rfl, rfl, rfl, rfl, rfl, rfl, fun _ => id⟩ rfl .rfl
      exact hfresh.finishEndTag toLowerCase hstate hto _
  | comment | bogusComment =>
    rw [hstate] at hstep
    simp only [State.next, List.mem_cons, List.not_mem_nil, or_false] at hstep
    have hframe : ∀ {s'}, SameRoles s s' → Follows t' s' o := by
      intro s' hsame
      refine h.frame hsame ?_ ?_ <;> rcases hstep with hto | hto <;> simp [hto, hstate, State.inTag]
    simp only [Parse.record, opensAttribute]
    split
    · split
      · have hclosed : ∀ q : Parse, SameRoles q { q with comment := none } := fun _ =>
          ⟨rfl, rfl, rfl, rfl, rfl, rfl, fun _ => id⟩
        exact hframe ((same_addChild _ _).trans (hclosed _))
      · exact hframe .rfl
    · exact hframe .rfl
  | rawText =>
    rw [hstate] at hstep
    simp only [State.next, List.mem_cons, List.not_mem_nil, or_false] at hstep
    simp only [Parse.record, opensAttribute]
    rcases hstep with hto | hto
    · rw [if_pos hto]
      exact h.frame (same_addText _ _ _ _) (by rw [hto, hstate]) (by rw [hto, hstate])
    · rw [if_neg (by rw [hto]; rintro ⟨⟩)]
      have hflushed : Follows t (s.flushText i j) o := h.frame (same_flushText s i j) rfl .rfl
      exact hflushed.beginEnd (by rw [hstate]; rfl) (by rw [hstate]; rintro ⟨⟩) hto _

/-! ## Section 6: A hole -/

/-- The hole `i` gets a role, and may wait to be settled. -/
theorem Follows.bind {t t' : Tokenizer} {s s' : Parse} {o : Outline} {i : Nat} (h : Follows t s o)
    (hi : o.kinds.length = i) {role : BindingRole} {kind : BindingKind} {opened : Bool}
    (hroles : s'.roles = s.roles ++ [role]) (hattr : s'.attr.isSome = opened)
    (htag : s'.tag.isSome = t'.state.inTag) (hinside : opened = true → t'.state.inTag = true)
    (hending : s'.endStart.isSome = (t'.state == .endTag))
    (hquiet : t'.state ≠ .endTag → s'.endBinding = none ∧ s'.endDropped = [])
    (hclosing : ∀ k, s'.endBinding = some k → ∃ start, s'.endStart = some start ∧ start.string = k)
    (hwaits : ∀ k kind', s'.Awaits k kind' → s.Awaits k kind' ∨ k = i ∧ kind' = kind)
    (hkeeps : ∀ k kind', s.Awaits k kind' → s'.Awaits k kind') (hagrees : s'.Agrees i role kind)
    (hbinding : ∀ k, s.endBinding = some k → s'.endBinding = some k)
    (hproblems : ∀ p ∈ s.problems, p ∈ s'.problems) : Follows t' s' ⟨opened, o.kinds ++ [kind]⟩ where
  attr := hattr
  tag := htag
  inside := hinside
  ending := hending
  quiet := hquiet
  closing := hclosing
  length := by simp [hroles, h.length]
  awaits k kind' hk := by
    rcases hwaits k kind' hk with hold | ⟨rfl, rfl⟩
    · have hkind := h.awaits k kind' hold
      rw [List.getElem?_append_left (List.getElem?_eq_some_iff.mp hkind).choose]
      exact hkind
    · simp [← hi]
  agrees k role' kind' hrole hkind := by
    rw [hroles] at hrole
    by_cases hlt : k < o.kinds.length
    · rw [List.getElem?_append_left (h.length ▸ hlt)] at hrole
      rw [List.getElem?_append_left hlt] at hkind
      rcases h.agrees k role' kind' hrole hkind with hc | ⟨hr, ha, hk⟩ | ⟨hr, hk, hb⟩
      · exact .inl hc
      · exact .inr (.inl ⟨hr, hkeeps k kind' ha, hk⟩)
      · exact .inr (.inr ⟨hr, hk, hb.imp (hbinding k) (Reports.mono hproblems)⟩)
    · have heq : k = i := by
        have hk : k < (o.kinds ++ [kind]).length := (List.getElem?_eq_some_iff.mp hkind).choose
        rw [List.length_append, List.length_singleton] at hk
        omega
      subst heq
      simp only [← hi, List.getElem?_concat_length, Option.some.injEq] at hkind
      simp only [← hi, ← h.length, List.getElem?_concat_length, Option.some.injEq] at hrole
      exact hkind ▸ hrole ▸ hagrees

theorem awaits_addRole {s : Parse} {role : BindingRole} {k : Nat} {kind : BindingKind} :
    (s.addRole role).Awaits k kind ↔ s.Awaits k kind :=
  ⟨Awaits.congr rfl rfl rfl rfl, Awaits.congr rfl rfl rfl rfl⟩

/-- A hole outside of tags. -/
theorem Follows.bindFrame {t : Tokenizer} {s s' : Parse} {o : Outline} {i : Nat} (h : Follows t s o)
    (hi : o.kinds.length = i) (hsame : SameRoles s s') {role : BindingRole} {kind : BindingKind}
    (hcorr : Corresponds role kind) : Follows t (s'.addRole role) ⟨o.opened, o.kinds ++ [kind]⟩ := by
  have hframe := h.frame hsame rfl .rfl
  have hwaits : ∀ k kind', (s'.addRole role).Awaits k kind' ↔ s.Awaits k kind' := fun _ _ =>
    awaits_addRole.trans hsame.awaits
  refine h.bind hi ?_ hframe.attr hframe.tag h.inside hframe.ending hframe.quiet hframe.closing
    (fun k kind' hk => .inl ((hwaits k kind').mp hk)) (fun k kind' => (hwaits k kind').mpr) (.inl hcorr) ?_ hsame.problems
  · rw [addRole, hsame.roles]
  · intro k hk
    exact hsame.endBinding.trans hk

/-- The hole `i` is dropped from the start tag. -/
theorem awaits_drop {s : Parse} {i k : Nat} {kind : BindingKind} :
    (s.withTag fun tag => { tag with droppedBindings := tag.droppedBindings ++ [i] }).Awaits k kind ↔
      s.Awaits k kind ∨ s.tag.isSome ∧ k = i ∧ kind = .element := by
  have hpending : (s.withTag fun tag => { tag with droppedBindings := tag.droppedBindings ++ [i] }).pendingAttributes =
      s.pendingAttributes := by
    unfold pendingAttributes withTag
    cases s.tag <;> rfl
  constructor
  · intro h
    cases h with
    | value hk => exact .inl (.value (hpending ▸ hk))
    | component tag ht hk =>
      obtain ⟨tag', ht', rfl⟩ := Option.map_eq_some_iff.mp ht
      exact .inl (.component tag' ht' hk)
    | dropped tag ht hk =>
      obtain ⟨tag', ht', rfl⟩ := Option.map_eq_some_iff.mp ht
      rcases List.mem_append.mp hk with hk | hk
      · exact .inl (.dropped tag' ht' hk)
      · exact .inr ⟨by rw [ht']; rfl, List.mem_singleton.mp hk, rfl⟩
    | closing hk => exact .inl (.closing hk)
    | ending hk => exact .inl (.ending hk)
  · rintro (h | ⟨hsome, rfl, rfl⟩)
    · cases h with
      | value hk => exact .value (hpending.symm ▸ hk)
      | component tag ht hk => exact .component _ (Option.map_eq_some_iff.mpr ⟨tag, ht, rfl⟩) hk
      | dropped tag ht hk =>
        exact .dropped _ (Option.map_eq_some_iff.mpr ⟨tag, ht, rfl⟩) (List.mem_append_left _ hk)
      | closing hk => exact .closing hk
      | ending hk => exact .ending hk
    · obtain ⟨tag, ht⟩ := Option.isSome_iff_exists.mp hsome
      exact .dropped _ (Option.map_eq_some_iff.mpr ⟨tag, ht, rfl⟩)
        (List.mem_append_right _ (List.mem_singleton_self _))

theorem Follows.bindDropped {t : Tokenizer} {s : Parse} {o : Outline} {i : Nat} (h : Follows t s o)
    (hi : o.kinds.length = i) (hin : t.state.inTag = true) (start stop : Location) :
    Follows t
      (((s.withTag fun tag => { tag with droppedBindings := tag.droppedBindings ++ [i] }).addRole
        (.dropped .tag)).problem .droppedBinding start stop)
      ⟨o.opened, o.kinds ++ [.element]⟩ := by
  refine h.bind hi rfl h.attr (Option.isSome_map.trans h.tag) h.inside h.ending h.quiet h.closing ?_ ?_ (.inl trivial)
    (fun _ => id) (fun _ => List.mem_append_left _)
  · intro k kind hk
    rcases awaits_drop.mp (awaits_addRole.mp ((same_problem _ _ _ _).awaits.mp hk)) with hold | ⟨-, hk, hkind⟩
    · exact .inl hold
    · exact .inr ⟨hk, hkind⟩
  · intro k kind hk
    exact (same_problem _ _ _ _).awaits.mpr (awaits_addRole.mpr (awaits_drop.mpr (.inl hk)))

/-- The hole `i` is in the value of the attribute. -/
theorem awaits_value {s : Parse} {i k : Nat} {kind : BindingKind} :
    (s.withAttr fun attr =>
        { attr with bindings := attr.bindings ++ [i], segments := attr.segments ++ [[]] }).Awaits k kind ↔
      s.Awaits k kind ∨ s.attr.isSome ∧ k = i ∧ kind = .attribute := by
  constructor
  · intro h
    cases h with
    | value hk =>
      rcases List.mem_append.mp hk with hk | hk
      · exact .inl (.value (List.mem_append_left _ hk))
      · cases hattr : s.attr with
        | none => simp [withAttr, hattr] at hk
        | some attr =>
          simp only [withAttr, hattr, Option.map_some, Option.getD_some, List.mem_append, List.mem_singleton] at hk
          rcases hk with hk | hk
          · exact .inl (.value (List.mem_append_right _ (by rwa [hattr])))
          · exact .inr ⟨rfl, hk, rfl⟩
    | component tag ht hk => exact .inl (.component tag ht hk)
    | dropped tag ht hk => exact .inl (.dropped tag ht hk)
    | closing hk => exact .inl (.closing hk)
    | ending hk => exact .inl (.ending hk)
  · rintro (h | ⟨hsome, rfl, rfl⟩)
    · cases h with
      | value hk =>
        refine .value ?_
        rcases List.mem_append.mp hk with hk | hk
        · exact List.mem_append_left _ hk
        · refine List.mem_append_right _ ?_
          cases hattr : s.attr with
          | none => simp [hattr] at hk
          | some attr =>
            rw [hattr] at hk
            rw [withAttr, hattr]
            exact List.mem_append_left _ hk
      | component tag ht hk => exact .component tag ht hk
      | dropped tag ht hk => exact .dropped tag ht hk
      | closing hk => exact .closing hk
      | ending hk => exact .ending hk
    · obtain ⟨attr, hattr⟩ := Option.isSome_iff_exists.mp hsome
      refine .value (List.mem_append_right _ ?_)
      simp [withAttr, hattr]

theorem Follows.bindValue {t t' : Tokenizer} {s : Parse} {o : Outline} {i : Nat} (h : Follows t s o)
    (hi : o.kinds.length = i) (hin : t.state.inTag = true) (hin' : t'.state.inTag = true)
    (hattr : s.attr.isSome = true) :
    Follows t'
      ((s.withAttr fun attr =>
        { attr with bindings := attr.bindings ++ [i], segments := attr.segments ++ [[]] }).addRole (.dropped .tag))
      ⟨true, o.kinds ++ [.attribute]⟩ := by
  have hne : t.state ≠ .endTag := by rintro heq; simp [heq, State.inTag] at hin
  have hne' : t'.state ≠ .endTag := by rintro heq; simp [heq, State.inTag] at hin'
  refine h.bind hi rfl (Option.isSome_map.trans hattr) (by rw [hin', ← hin]; exact h.tag) (fun _ => hin') ?_
    (fun _ => h.quiet hne) h.closing ?_ ?_ ?_ (fun _ => id) (fun _ => id)
  · exact h.ending.trans (by simp [hne, hne'])
  · intro k kind hk
    rcases awaits_value.mp (awaits_addRole.mp hk) with hold | ⟨-, hk, hkind⟩
    · exact .inl hold
    · exact .inr ⟨hk, hkind⟩
  · intro k kind hk
    exact awaits_addRole.mpr (awaits_value.mpr (.inl hk))
  · exact .inr (.inl ⟨rfl, awaits_addRole.mpr (awaits_value.mpr (.inr ⟨hattr, rfl, rfl⟩)), .inl rfl⟩)

/-- The hole `i` is in an end tag. -/
theorem Follows.bindEnding {t : Tokenizer} {s : Parse} {o : Outline} {i : Nat} (h : Follows t s o)
    (hi : o.kinds.length = i) (hstate : t.state = .endTag) (start stop : Location) :
    Follows t
      (({ s with endDropped := s.endDropped ++ [i] }.addRole (.dropped .endTag)).problem .droppedBinding start stop)
      ⟨o.opened, o.kinds ++ [.element]⟩ := by
  refine h.bind hi rfl h.attr h.tag h.inside h.ending (absurd hstate) h.closing ?_ ?_ (.inl trivial) (fun _ => id)
    (fun _ => List.mem_append_left _)
  · intro k kind hk
    cases hk with
    | value hk => exact .inl (.value hk)
    | component tag ht hk => exact .inl (.component tag ht hk)
    | dropped tag ht hk => exact .inl (.dropped tag ht hk)
    | closing hk => exact .inl (.closing hk)
    | ending hk =>
      rcases List.mem_append.mp hk with hk | hk
      · exact .inl (.ending hk)
      · exact .inr ⟨List.mem_singleton.mp hk, rfl⟩
  · intro k kind hk
    cases hk with
    | value hk => exact .value hk
    | component tag ht hk => exact .component tag ht hk
    | dropped tag ht hk => exact .dropped tag ht hk
    | closing hk => exact .closing hk
    | ending hk => exact .ending (List.mem_append_left _ hk)

/-- The hole `i` is the class of a component's closing tag. -/
theorem Follows.bindClosing {t : Tokenizer} {s : Parse} {o : Outline} {i : Nat} (h : Follows t s o)
    (hi : o.kinds.length = i) (hstate : t.state = .data) (offset : Nat) :
    Follows { t with state := .endTag }
      { s.addRole (.dropped .endTag) with endStart := some ⟨i, offset⟩, endText := [], endBinding := some i }
      ⟨o.opened, o.kinds ++ [.tag true]⟩ := by
  obtain ⟨hbinding, hdropped⟩ := h.quiet (by rw [hstate]; nofun)
  have hinside : o.opened = true → State.endTag.inTag = true := fun hopened =>
    absurd (h.inside hopened) (by rw [hstate]; nofun)
  refine h.bind hi rfl h.attr (h.tag.trans (by rw [hstate]; rfl)) hinside rfl (absurd rfl) ?_ ?_ ?_ ?_ ?_ (fun _ => id)
  · intro k hk
    exact ⟨_, rfl, Option.some.inj hk⟩
  · intro k kind hk
    cases hk with
    | value hk => exact .inl (.value hk)
    | component tag ht hk => exact .inl (.component tag ht hk)
    | dropped tag ht hk => exact .inl (.dropped tag ht hk)
    | closing hk => exact .inr ⟨(Option.some.inj hk).symm, rfl⟩
    | ending hk => exact .inl (.ending hk)
  · intro k kind hk
    cases hk with
    | value hk => exact .value hk
    | component tag ht hk => exact .component tag ht hk
    | dropped tag ht hk => exact .dropped tag ht hk
    | closing hk => exact absurd (hbinding.symm.trans hk) nofun
    | ending hk => exact .ending hk
  · exact .inr (.inr ⟨rfl, rfl, .inl rfl⟩)
  · intro k hk
    exact absurd (hbinding.symm.trans hk) nofun

/-- The hole `i` is the class of a component's start tag. -/
theorem Follows.bindComponent {t : Tokenizer} {s : Parse} {o : Outline} {i : Nat} (h : Follows t s o)
    (hi : o.kinds.length = i) (hstate : t.state = .data) (start : Location) :
    Follows { t with state := .beforeAttrName, tagName := [] }
      { s.addRole (.dropped .tag) with tag := some ⟨some i, start, [], [], [], false⟩ }
      ⟨o.opened, o.kinds ++ [.tag false]⟩ := by
  have hnone : s.tag = none := by simpa [hstate, State.inTag] using h.tag
  refine h.bind hi rfl h.attr rfl (fun _ => rfl) (h.ending.trans (by rw [hstate]; rfl))
    (fun _ => h.quiet (by rw [hstate]; nofun)) h.closing ?_ ?_ ?_ (fun _ => id) (fun _ => id)
  · intro k kind hk
    cases hk with
    | value hk => exact .inl (.value (by simpa [pendingAttributes, hnone, addRole] using hk))
    | component tag ht hk =>
      cases ht
      exact .inr ⟨(Option.some.inj hk).symm, rfl⟩
    | dropped tag ht hk =>
      cases ht
      cases hk
    | closing hk => exact .inl (.closing hk)
    | ending hk => exact .inl (.ending hk)
  · intro k kind hk
    cases hk with
    | value hk => exact .value (by simpa [pendingAttributes, hnone, addRole] using hk)
    | component tag ht _ => exact absurd (hnone.symm.trans ht) nofun
    | dropped tag ht _ => exact absurd (hnone.symm.trans ht) nofun
    | closing hk => exact .closing hk
    | ending hk => exact .ending hk
  · exact .inr (.inl ⟨rfl, .component _ rfl rfl, .inr rfl⟩)

theorem Follows.hole {t : Tokenizer} {s : Parse} {o : Outline} {i : Nat} (h : Follows t s o)
    (hi : o.kinds.length = i) (str : Units) :
    (hole i str t s).1 = resume t (kindOf str t.state o.opened) ∧
    Follows (hole i str t s).1 (hole i str t s).2
      ⟨keepsAttribute t.state o.opened, o.kinds ++ [kindOf str t.state o.opened]⟩ := by
  cases hstate : t.state with
  | data =>
    have htrim : ∀ n, SameRoles s ((s.trimText n).flushText i (str.length - n)) := by
      intro n
      have hsame : SameRoles s (s.trimText n) := ⟨rfl, rfl, rfl, rfl, rfl, rfl, fun _ => id⟩
      exact hsame.trans (same_flushText _ _ _)
    simp only [Parse.hole, hstate, kindOf, keepsAttribute]
    split
    · exact ⟨rfl, (h.frame (htrim 2) rfl .rfl).bindClosing hi hstate _⟩
    · split
      · exact ⟨rfl, (h.frame (htrim 1) rfl .rfl).bindComponent hi hstate _⟩
      · exact ⟨rfl, h.bindFrame hi ((same_flushText _ _ _).trans (same_addChild _ _)) trivial⟩
  | rawText =>
    simp only [Parse.hole, hstate, kindOf, keepsAttribute]
    exact ⟨rfl, h.bindFrame hi ((same_flushText _ _ _).trans (same_addChild _ _)) trivial⟩
  | comment | bogusComment =>
    simp only [Parse.hole, hstate, kindOf, keepsAttribute]
    have hcomment : SameRoles s { s with comment := s.comment.map fun comment => (comment.1, comment.2 ++ [i]) } :=
      ⟨rfl, rfl, rfl, rfl, rfl, rfl, fun _ => id⟩
    have hcorr : Corresponds (.dropped .comment) .comment := trivial
    exact ⟨rfl, (h.bindFrame hi hcomment hcorr).frame (same_problem _ _ _ _) rfl .rfl⟩
  | beforeAttrValue | attrValueQuoted | attrValueUnquoted =>
    have hin : t.state.inTag = true := by rw [hstate]; rfl
    cases hattr : s.attr with
    | some attr =>
      have hopened : o.opened = true := by rw [← h.attr, hattr]; rfl
      simp only [Parse.hole, hstate, kindOf, keepsAttribute, hattr, hopened, if_true, reduceCtorEq, if_false]
      exact ⟨by simp [resume, hstate], h.bindValue hi hin (by simp [hstate, State.inTag]) (by rw [hattr]; rfl)⟩
    | none =>
      have hopened : o.opened = false := by rw [← h.attr, hattr]; rfl
      simp only [Parse.hole, hstate, kindOf, keepsAttribute, hattr, hopened, Bool.false_eq_true, if_false]
      have hdropped := h.bindDropped hi hin ⟨i, str.length⟩ ⟨i + 1, 0⟩
      rw [hopened] at hdropped
      exact ⟨rfl, hdropped⟩
  | endTag =>
    simp only [Parse.hole, hstate, kindOf, keepsAttribute]
    exact ⟨rfl, h.bindEnding hi hstate _ _⟩
  | attrName | afterAttrName =>
    simp only [Parse.hole, hstate, kindOf, keepsAttribute]
    have hin : t.state.inTag = true := by rw [hstate]; rfl
    have hnamed : Follows t (s.withAttr fun attr => { attr with nameStop := some ⟨i, str.length⟩ }) o :=
      h.withAttr hin hin fun _ => rfl
    have hclosed := fun stop => hnamed.closeAttribute stop rfl (Iff.refl (t.state = .endTag))
    exact ⟨rfl, (hclosed ⟨i, str.length⟩).bindDropped hi hin _ _⟩
  | tagName | beforeAttrName =>
    simp only [Parse.hole, hstate, kindOf, keepsAttribute]
    exact ⟨rfl, h.bindDropped hi (by rw [hstate]; rfl) _ _⟩

/-! ## Section 7: The end of the template -/

/-- The roles are those of the kinds, but for closing tags of components that the
    parser reports. -/
def Settled (s : Parse) (kinds : List BindingKind) : Prop :=
  s.roles.length = kinds.length ∧
  ∀ k role kind, s.roles[k]? = some role → kinds[k]? = some kind →
    Corresponds role kind ∨ role = .dropped .endTag ∧ kind = .tag true ∧
      (s.Reports .unexpectedComponentEnd k ∨ s.Reports .unterminated k)

theorem Follows.settled {t : Tokenizer} {s s' : Parse} {o : Outline} (h : Follows t s o)
    (hout : t.state.inTag = false) (hsame : SameRoles s s')
    (hreports : ∀ k, s.endBinding = some k → s'.Reports .unterminated k) : s'.Settled o.kinds := by
  have hnotag : s.tag = none := by simpa [hout] using h.tag
  have hopened : o.opened = false := by
    by_contra hne
    simpa [hout] using h.inside (by simpa using hne)
  have hnoattr : s.attr = none := by simpa [hopened] using h.attr
  refine ⟨by rw [hsame.roles]; exact h.length, ?_⟩
  intro k role kind hrole hkind
  rw [hsame.roles] at hrole
  rcases h.agrees k role kind hrole hkind with hc | ⟨-, hwaits, hk⟩ | ⟨hr, hk, hb⟩
  · exact .inl hc
  · exfalso
    cases hwaits with
    | value hin => exact absurd hin (by simp [pendingAttributes, hnotag, hnoattr])
    | component tag ht _ => exact absurd (hnotag.symm.trans ht) nofun
    | dropped tag ht _ => exact absurd (hnotag.symm.trans ht) nofun
    | closing hin => rcases hk with hk | hk <;> cases hk
    | ending hin => rcases hk with hk | hk <;> cases hk
  · refine .inr ⟨hr, hk, ?_⟩
    rcases hb with hb | hb
    · exact .inr (hreports k hb)
    · exact .inl (Reports.mono hsame.problems hb)

theorem Follows.finish {t : Tokenizer} {s : Parse} {o : Outline} (h : Follows t s o) (stop : Location) :
    (s.finish toLowerCase t stop).Settled o.kinds := by
  have hquiet : t.state ≠ .endTag → ∀ q : Parse, ∀ k, s.endBinding = some k → q.Reports .unterminated k := by
    intro hne q k hk
    exact absurd ((h.quiet hne).1.symm.trans hk) nofun
  unfold Parse.finish
  cases hstate : t.state with
  | data | rawText =>
    exact h.settled (by rw [hstate]; rfl) (same_popAll _ _ _) (hquiet (by rw [hstate]; nofun) _)
  | comment | bogusComment =>
    exact h.settled (by rw [hstate]; rfl) ((same_problem _ _ _ _).trans (same_popAll _ _ _))
      (hquiet (by rw [hstate]; nofun) _)
  | endTag =>
    obtain ⟨start, hstart⟩ := Option.isSome_iff_exists.mp (h.ending.trans (by rw [hstate]; rfl))
    simp only [hstart]
    have hproblem := same_problem s .unterminated start stop
    generalize hp : s.problem .unterminated start stop = p at hproblem
    have hpopped := same_popAll p.stack.length p stop
    refine h.settled (by rw [hstate]; rfl) (hproblem.trans hpopped) ?_
    intro k hk
    obtain ⟨start', hstart', hstring⟩ := h.closing k hk
    cases hstart.symm.trans hstart'
    have hreport : p.Reports .unterminated k :=
      ⟨⟨.unterminated, ⟨start, stop⟩⟩, by rw [← hp]; exact List.mem_append_right _ (List.mem_singleton_self _),
        rfl, hstring⟩
    exact Reports.mono hpopped.problems hreport
  | tagName | beforeAttrName | attrName | afterAttrName | beforeAttrValue | attrValueQuoted | attrValueUnquoted =>
    have hin : t.state.inTag = true := by rw [hstate]; rfl
    obtain ⟨tag, htag⟩ := Option.isSome_iff_exists.mp (h.tag.trans hin)
    simp only [htag]
    have hclosed : Follows t (s.closeAttribute stop) { o with opened := false } := h.closeAttribute stop rfl .rfl
    have hnone := (closeAttribute_spec s stop).1
    have hreported : Follows t ((s.closeAttribute stop).problem .unterminated tag.start stop)
        { o with opened := false } := hclosed.frame (same_problem _ _ _ _) rfl .rfl
    -- the tag ends as if in text
    have hdata : createTokenizer.state ≠ .endTag := nofun
    have hended : Follows createTokenizer
        (((s.closeAttribute stop).problem .unterminated tag.start stop).finishStartTag toLowerCase stop)
        { o with opened := false } := hreported.finishStartTag toLowerCase hin hnone rfl hdata stop
    refine hended.settled rfl (same_popAll _ _ _) ?_
    intro k hk
    exact absurd ((hended.quiet hdata).1.symm.trans hk) nofun

end Parse

/-- The roles of the parser are those of the outline's kinds. -/
theorem parseTemplate_settled (strings : List Units) (svg : Bool) {kinds : List BindingKind}
    (hkinds : outline toLowerCase strings = some kinds) :
    ∃ parsed s, parseTemplate toLowerCase strings svg = some parsed ∧ parsed.bindings = s.roles ∧
      parsed.problems = s.problems ∧ Parse.Settled s kinds := by
  by_cases hinput : strings = []
  · subst hinput
    cases hkinds
    exact ⟨_, .initial svg, rfl, rfl, rfl, rfl, nofun⟩
  obtain ⟨⟨t, s⟩, hs⟩ := Reader.strings_some toLowerCase (Parse.reader toLowerCase) 0 strings createTokenizer
    (.initial svg)
  have hinitial : Parse.Follows createTokenizer (.initial svg) ⟨false, []⟩ := by
    refine ⟨rfl, rfl, nofun, rfl, fun _ => ⟨rfl, rfl⟩, nofun, rfl, ?_, nofun⟩
    rintro k kind (hk | ⟨tag, ht, hk⟩ | ⟨tag, ht, hk⟩ | hk | hk) <;> trivial
  obtain ⟨str, s, o, -, rfl, ho, hbefore, -⟩ := Reader.strings_related toLowerCase (Parse.reader toLowerCase)
    Outline.reader strings (fun i _ t s o => Parse.Follows t s o ∧ o.kinds.length = i)
    (fun i str t j ch s o _ hch h => ⟨h.1.record toLowerCase hch _, h.2⟩)
    (fun i str t s o _ _ h => by
      obtain ⟨htok, hfollows⟩ := h.1.hole h.2 str
      refine ⟨htok, hfollows, ?_⟩
      show (o.kinds ++ [_]).length = i + 1
      rw [List.length_append, h.2, List.length_singleton]) hinput ⟨hinitial, rfl⟩ hs
  change Outline.reader.strings toLowerCase 0 strings createTokenizer ⟨false, []⟩ = some (t, o) at ho
  rw [outline, ho] at hkinds
  cases hkinds
  have hfollows : Parse.Follows t (s.flushText (strings.length - 1) str.length) o :=
    hbefore.frame (Parse.same_flushText _ _ _) rfl .rfl
  let stop : Location := ⟨strings.length - 1, (strings.getLast?.map List.length).getD 0⟩
  let finished := (s.flushText (strings.length - 1) str.length).finish toLowerCase t stop
  refine ⟨⟨finished.root, finished.roles, finished.problems⟩, finished, ?_, rfl, rfl, hfollows.finish toLowerCase stop⟩
  rw [parseTemplate, hs]
  rfl

/-- The parser and the analysis give each hole the same kind of position.  Only the
    hole of a closing tag that the parser reports as unexpected or unterminated is
    dropped by the parser. -/
theorem roles_agree (strings : List Units) (svg : Bool) (scopeAttr : Units) :
    ∃ analysis parsed, analyzeTemplate toLowerCase strings scopeAttr = some analysis ∧
      parseTemplate toLowerCase strings svg = some parsed ∧
      analysis.bindings.length = strings.length - 1 ∧ parsed.bindings.length = strings.length - 1 ∧
      ∀ k role info, parsed.bindings[k]? = some role → analysis.bindings[k]? = some info →
        Corresponds role info.kind ∨
        role = .dropped .endTag ∧ info.kind = .tag true ∧
          ∃ problem ∈ parsed.problems,
            (problem.code = .unexpectedComponentEnd ∨ problem.code = .unterminated) ∧
            problem.range.start.string = k := by
  obtain ⟨analysis, kinds, hanalysis, houtline, hkinds⟩ := analyzeTemplate_kinds toLowerCase strings scopeAttr
  obtain ⟨parsed, s, hparsed, hbindings, hproblems, hlen, hsettled⟩ :=
    parseTemplate_settled toLowerCase strings svg houtline
  have hcount := outline_length toLowerCase houtline
  refine ⟨analysis, parsed, hanalysis, hparsed, ?_, by rw [hbindings, hlen, hcount], ?_⟩
  · rw [← hcount, ← hkinds, List.length_map]
  · intro k role info hrole hinfo
    rw [hbindings] at hrole
    have hkind : kinds[k]? = some info.kind := by rw [← hkinds, List.getElem?_map, hinfo]; rfl
    rcases hsettled k role info.kind hrole hkind with hc | ⟨hr, hk, hreports⟩
    · exact .inl hc
    · refine .inr ⟨hr, hk, ?_⟩
      rw [hproblems]
      rcases hreports with ⟨p, hp, hcode, hstart⟩ | ⟨p, hp, hcode, hstart⟩
      · exact ⟨p, hp, .inl hcode, hstart⟩
      · exact ⟨p, hp, .inr hcode, hstart⟩

/-- The analysis takes a closing tag that closes nothing for one of a component. -/
theorem closing_tag_disagrees :
    (analyzeTemplate id [units "</", units ">"] []).map (·.bindings.map BindingInfo.kind) = some [.tag true] ∧
      (parseTemplate id [units "</", units ">"] false).map (·.bindings) = some [.dropped .endTag] ∧
      ¬ Corresponds (.dropped .endTag) (.tag true) := by
  refine ⟨by decide, by decide, id⟩

end Cossack.Renderer.Html
