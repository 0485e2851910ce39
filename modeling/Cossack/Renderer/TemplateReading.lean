import Cossack.Renderer.HtmlPartition
import Cossack.Renderer.TemplateParse

/-! # Reading a template ends, the same way for every reader

    What a reader keeps decides the tokenizer only through whether an attribute is
    open, so the analysis and the parser are compared through the outline, a reader
    that keeps nothing else. -/

namespace Cossack.Renderer.Html

variable (toLowerCase : Units → Units)

/-! ## Section 1: The loops end -/

/-- How often the characters from `j` on can still be read. -/
def remaining (str : Units) (t : Tokenizer) (j : Nat) : Nat :=
  2 * (str.length - j) + if t.state.leaves then 1 else 0

theorem remaining_step {str : Units} {j ch : Nat} (h : str[j]? = some ch) (t : Tokenizer) :
    remaining str (step toLowerCase t str j ch).1 (step toLowerCase t str j ch).2 < remaining str t j := by
  have hspec := step_spec toLowerCase h t
  have hj : j < str.length := (List.getElem?_eq_some_iff.mp h).choose
  unfold remaining
  rcases hspec.progress with hlt | ⟨heq, hleaves, hstate⟩
  · have hbound := hspec.bound
    split <;> split <;> omega
  · rw [heq, hstate, hleaves]
    simp [State.leaves]

section
variable {S : Type} {r : Reader S}

theorem Reader.string_some (i : Nat) (str : Units) {fuel : Nat} {t : Tokenizer} {j : Nat}
    (hfuel : remaining str t j < fuel) (s : S) : ∃ result, r.string toLowerCase i str fuel t j s = some result := by
  induction fuel generalizing t j s with
  | zero => exact absurd hfuel (Nat.not_lt_zero _)
  | succ fuel ih =>
    rw [Reader.string]
    cases hch : str[j]? with
    | none => exact ⟨_, rfl⟩
    | some ch =>
      have hless := remaining_step toLowerCase hch t
      exact ih (Nat.lt_of_lt_of_le hless (Nat.le_of_lt_succ hfuel)) _

theorem remaining_lt_fuelFor (str : Units) (t : Tokenizer) : remaining str t 0 < fuelFor str := by
  unfold remaining fuelFor
  split <;> omega

theorem Reader.strings_some (r : Reader S) (i : Nat) (input : List Units) (t : Tokenizer) (s : S) :
    ∃ result, r.strings toLowerCase i input t s = some result := by
  induction input generalizing i t s with
  | nil => exact ⟨_, rfl⟩
  | cons str rest ih =>
    obtain ⟨⟨t', s'⟩, hstring⟩ := Reader.string_some toLowerCase (r := r) i str (remaining_lt_fuelFor str t) s
    cases rest with
    | nil => exact ⟨_, by rw [Reader.strings, hstring]; rfl⟩
    | cons next rest =>
      rw [Reader.strings, hstring]
      exact ih _ _ _

end

/-! ## Section 2: Two readers -/

section
variable {S S' : Type} {r : Reader S} {r' : Reader S'}

theorem Reader.string_related {i : Nat} {str : Units} {rel : Nat → Tokenizer → S → S' → Prop}
    (hrecord : ∀ t j ch s s', str[j]? = some ch → rel j t s s' →
      rel (step toLowerCase t str j ch).2 (step toLowerCase t str j ch).1
        (r.record i str t.state (step toLowerCase t str j ch).1 j ch (step toLowerCase t str j ch).2 s)
        (r'.record i str t.state (step toLowerCase t str j ch).1 j ch (step toLowerCase t str j ch).2 s'))
    {fuel : Nat} {t : Tokenizer} {j : Nat} (hj : j ≤ str.length) {s : S} {s' : S'} (hrel : rel j t s s')
    {t₁ : Tokenizer} {s₁ : S} (h : r.string toLowerCase i str fuel t j s = some (t₁, s₁)) :
    ∃ s₁', r'.string toLowerCase i str fuel t j s' = some (t₁, s₁') ∧ rel str.length t₁ s₁ s₁' := by
  induction fuel generalizing t j s s' with
  | zero => cases h
  | succ fuel ih =>
    rw [Reader.string] at h ⊢
    cases hch : str[j]? with
    | none =>
      rw [hch] at h
      cases h
      have heq : j = str.length := Nat.le_antisymm hj (List.getElem?_eq_none_iff.mp hch)
      exact ⟨s', rfl, heq ▸ hrel⟩
    | some ch =>
      rw [hch] at h
      exact ih (step_spec toLowerCase hch t).bound (hrecord t j ch s s' hch hrel) h

/-- Readers that are related after every step and every hole are before the end;
    `i` is the string being read, and `j` the place in it. -/
theorem Reader.strings_related (r : Reader S) (r' : Reader S') (input : List Units)
    (rel : Nat → Nat → Tokenizer → S → S' → Prop)
    (hrecord : ∀ i str t j ch s s', input[i]? = some str → str[j]? = some ch → rel i j t s s' →
      rel i (step toLowerCase t str j ch).2 (step toLowerCase t str j ch).1
        (r.record i str t.state (step toLowerCase t str j ch).1 j ch (step toLowerCase t str j ch).2 s)
        (r'.record i str t.state (step toLowerCase t str j ch).1 j ch (step toLowerCase t str j ch).2 s'))
    (hhole : ∀ i str t s s', input[i]? = some str → i + 1 < input.length → rel i str.length t s s' →
      (r.hole i str t s).1 = (r'.hole i str t s').1 ∧
      rel (i + 1) 0 (r.hole i str t s).1 (r.hole i str t s).2 (r'.hole i str t s').2)
    (hinput : input ≠ []) {t : Tokenizer} {s : S} {s' : S'} (hrel : rel 0 0 t s s')
    {t₁ : Tokenizer} {s₁ : S} (h : r.strings toLowerCase 0 input t s = some (t₁, s₁)) :
    ∃ str s₂ s₂', input.getLast? = some str ∧ s₁ = r.last (input.length - 1) str s₂ ∧
      r'.strings toLowerCase 0 input t s' = some (t₁, r'.last (input.length - 1) str s₂') ∧
      rel (input.length - 1) str.length t₁ s₂ s₂' := by
  suffices hfrom : ∀ rest i, input.drop i = rest → rest ≠ [] → ∀ {t s s'}, rel i 0 t s s' →
      ∀ {t₁ s₁}, r.strings toLowerCase i rest t s = some (t₁, s₁) →
      ∃ str s₂ s₂', rest.getLast? = some str ∧ s₁ = r.last (input.length - 1) str s₂ ∧
        r'.strings toLowerCase i rest t s' = some (t₁, r'.last (input.length - 1) str s₂') ∧
        rel (input.length - 1) str.length t₁ s₂ s₂' from hfrom input 0 rfl hinput hrel h
  intro rest
  induction rest with
  | nil => exact fun _ _ hne => absurd rfl hne
  | cons str rest ih =>
    intro i hdrop _ t s s' hrel t₁ s₁ h
    have hstr : input[i]? = some str := by rw [← List.head?_drop, hdrop]; rfl
    have hlen : input.length = i + (rest.length + 1) := by
      have hlen := congrArg List.length hdrop
      rw [List.length_drop, List.length_cons] at hlen
      omega
    cases rest with
    | nil =>
      rw [Reader.strings] at h ⊢
      obtain ⟨⟨t₂, s₂⟩, hstring, heq⟩ := Option.map_eq_some_iff.mp h
      cases heq
      obtain ⟨s₂', hstring', hrel'⟩ := Reader.string_related toLowerCase
        (fun t j ch s s' => hrecord i str t j ch s s' hstr) (Nat.zero_le _) hrel hstring
      have hi : input.length - 1 = i := by
        rw [List.length_nil] at hlen
        omega
      rw [hi]
      exact ⟨str, s₂, s₂', rfl, rfl, by rw [hstring']; rfl, hrel'⟩
    | cons next rest =>
      rw [Reader.strings] at h ⊢
      obtain ⟨⟨t₂, s₂⟩, hstring, hnext⟩ := Option.bind_eq_some_iff.mp h
      obtain ⟨s₂', hstring', hrel'⟩ := Reader.string_related toLowerCase
        (fun t j ch s s' => hrecord i str t j ch s s' hstr) (Nat.zero_le _) hrel hstring
      have hmore : i + 1 < input.length := by
        rw [hlen, List.length_cons]
        omega
      obtain ⟨htok, hrel₂⟩ := hhole i str t₂ s₂ s₂' hstr hmore hrel'
      have hrest : input.drop (i + 1) = next :: rest := by rw [← List.tail_drop, hdrop]; rfl
      rw [hstring']
      simp only [Option.bind_some] at hnext ⊢
      rw [← htok]
      exact ih (i + 1) hrest nofun hrel₂ hnext

end

/-! ## Section 3: The outline -/

/-- The kinds of `BindingInfo`. -/
inductive BindingKind where
  | node
  | attribute
  | rawText
  | comment
  | element
  | tag (closing : Bool)
  deriving DecidableEq

def BindingInfo.kind : BindingInfo → BindingKind
  | .node => .node
  | .attribute _ => .attribute
  | .rawText _ _ => .rawText
  | .comment => .comment
  | .element => .element
  | .tag closing => .tag closing

/-- Whether an attribute is open after a step from `before` to `after`. -/
def opensAttribute (before after : State) (opened : Bool) : Bool :=
  match before with
  | .beforeAttrName | .afterAttrName =>
      if after = .attrName then true else if after = .data ∨ after = .rawText then false else opened
  | .attrName | .attrValueQuoted | .attrValueUnquoted => if after = .beforeAttrName then false else opened
  | .beforeAttrValue => if after = .data ∨ after = .rawText then false else opened
  | _ => opened

/-- The kind of a hole after `str`. -/
def kindOf (str : Units) (state : State) (opened : Bool) : BindingKind :=
  match state with
  | .data =>
      if endsWith str (units "</") then .tag true else if endsWith str (units "<") then .tag false else .node
  | .comment | .bogusComment => .comment
  | .rawText => .rawText
  | .beforeAttrValue | .attrValueQuoted | .attrValueUnquoted => if opened then .attribute else .element
  | _ => .element

/-- The tokenizer after the hole. -/
def resume (t : Tokenizer) (kind : BindingKind) : Tokenizer :=
  match kind with
  | .tag true => { t with state := .endTag }
  | .tag false => { t with state := .beforeAttrName, tagName := [] }
  | .attribute => if t.state = .beforeAttrValue then { t with state := .attrValueUnquoted } else t
  | _ => t

def keepsAttribute (state : State) (opened : Bool) : Bool :=
  match state with
  | .attrName | .afterAttrName => false
  | _ => opened

structure Outline where
  opened : Bool
  kinds : List BindingKind

def Outline.reader : Reader Outline where
  record _ _ before t _ _ _ s := { s with opened := opensAttribute before t.state s.opened }
  hole _ str t s :=
    let kind := kindOf str t.state s.opened
    (resume t kind, ⟨keepsAttribute t.state s.opened, s.kinds ++ [kind]⟩)
  last _ _ s := s

/-- The kinds of the holes of a template. -/
def outline (input : List Units) : Option (List BindingKind) :=
  (Outline.reader.strings toLowerCase 0 input createTokenizer ⟨false, []⟩).map fun (_, s) => s.kinds

theorem Outline.string_kinds {i : Nat} {str : Units} {fuel : Nat} {t t' : Tokenizer} {j : Nat} {o o' : Outline}
    (h : Outline.reader.string toLowerCase i str fuel t j o = some (t', o')) : o'.kinds = o.kinds := by
  induction fuel generalizing t j o with
  | zero => cases h
  | succ fuel ih =>
    rw [Reader.string] at h
    cases hch : str[j]? with
    | none =>
      rw [hch] at h
      cases h
      rfl
    | some ch =>
      rw [hch] at h
      let after := (step toLowerCase t str j ch).1
      exact ih (o := { o with opened := opensAttribute t.state after.state o.opened }) h

/-- Each hole has a kind. -/
theorem Outline.strings_length {i : Nat} {str : Units} {rest : List Units} {t t' : Tokenizer} {o o' : Outline}
    (h : Outline.reader.strings toLowerCase i (str :: rest) t o = some (t', o')) :
    o'.kinds.length = o.kinds.length + rest.length := by
  induction rest generalizing i str t o with
  | nil =>
    rw [Reader.strings] at h
    obtain ⟨⟨t₂, o₂⟩, hstring, heq⟩ := Option.map_eq_some_iff.mp h
    cases heq
    show o₂.kinds.length = _
    rw [Outline.string_kinds toLowerCase hstring]
    rfl
  | cons next rest ih =>
    rw [Reader.strings] at h
    obtain ⟨⟨t₂, o₂⟩, hstring, hnext⟩ := Option.bind_eq_some_iff.mp h
    rw [ih hnext]
    show (o₂.kinds ++ [_]).length + _ = _
    rw [Outline.string_kinds toLowerCase hstring]
    simp only [List.length_append, List.length_cons, List.length_nil]
    omega

theorem outline_length {input : List Units} {kinds : List BindingKind} (h : outline toLowerCase input = some kinds) :
    kinds.length = input.length - 1 := by
  unfold outline at h
  obtain ⟨⟨t, o⟩, ho, rfl⟩ := Option.map_eq_some_iff.mp h
  cases input with
  | nil =>
    cases ho
    rfl
  | cons str rest =>
    rw [Outline.strings_length toLowerCase ho]
    simp

/-- What a character between attributes leads to. -/
theorem step_between (str : Units) (t : Tokenizer) (j ch : Nat)
    (h : t.state = .beforeAttrName ∨ t.state = .afterAttrName) :
    let after := (step toLowerCase t str j ch).1.state
    (ch = 62 ∧ (after = .data ∨ after = .rawText)) ∨ (ch = 47 ∧ after = .beforeAttrName) ∨
      (ch = 61 ∧ after = .beforeAttrValue) ∨ (isSpace ch ∧ after = t.state) ∨ after = .attrName := by
  have hend := endStartTag_state t
  obtain ⟨state, tagName, rawTextTag, quote, commentTail⟩ := t
  rcases h with rfl | rfl
  all_goals simp only [step]
  all_goals split_ifs <;> simp_all
  all_goals tauto

/-! ## Section 4: The analysis follows the outline -/

namespace Analysis

def kinds (s : Analysis) : List BindingKind := s.bindings.map BindingInfo.kind

/-- An attribute is open in both, and the bindings have the same kinds. -/
def Follows (s : Analysis) (o : Outline) : Prop := s.attr.isSome = o.opened ∧ s.kinds = o.kinds

theorem kind_withAttribute (f : AttributeBinding → AttributeBinding) (info : BindingInfo) :
    (info.withAttribute f).kind = info.kind := by
  cases info <;> rfl

theorem kinds_modify (bindings : List BindingInfo) (k : Nat) (f : AttributeBinding → AttributeBinding) :
    (bindings.modify k (·.withAttribute f)).map BindingInfo.kind = bindings.map BindingInfo.kind := by
  apply List.ext_getElem?
  intro n
  simp only [List.getElem?_map, List.getElem?_modify]
  cases bindings[n]? with
  | none => rfl
  | some info =>
    by_cases hk : k = n
    · simp [hk, kind_withAttribute]
    · simp [hk]

theorem closeAttribute_spec (s : Analysis) (i e : Nat) :
    (s.closeAttribute toLowerCase i e).attr = none ∧ (s.closeAttribute toLowerCase i e).kinds = s.kinds := by
  unfold closeAttribute
  split
  · exact ⟨‹_›, rfl⟩
  · split
    · split <;> exact ⟨rfl, rfl⟩
    · split
      · refine ⟨rfl, ?_⟩
        show List.map BindingInfo.kind (if _ then _ else _) = _
        rw [apply_ite (List.map BindingInfo.kind), kinds_modify, ite_self]
        rfl
      · exact ⟨rfl, rfl⟩

theorem tagEnded_spec (s : Analysis) (i : Nat) (t : Tokenizer) :
    (s.tagEnded toLowerCase i t).attr = none ∧ (s.tagEnded toLowerCase i t).kinds = s.kinds := by
  obtain ⟨hattr, hkinds⟩ := closeAttribute_spec toLowerCase s i 0
  refine ⟨hattr, ?_⟩
  rw [← hkinds]
  simp only [tagEnded, kinds]
  generalize (s.closeAttribute toLowerCase i 0).tagBindings = indices
  generalize (s.closeAttribute toLowerCase i 0).bindings = bindings
  induction indices generalizing bindings with
  | nil => rfl
  | cons k rest ih => rw [List.foldl_cons, ih, kinds_modify]

theorem note_spec {s : Analysis} {o : Outline} (h : s.Follows o) (scopeAttr : Units) (i : Nat) (str : Units)
    {j ch : Nat} (hch : str[j]? = some ch) (t : Tokenizer) (next : Nat) :
    (s.note toLowerCase scopeAttr i str t.state (step toLowerCase t str j ch).1 j ch next).Follows
      { o with opened := opensAttribute t.state (step toLowerCase t str j ch).1.state o.opened } := by
  have hstep := (step_spec toLowerCase hch t).state
  have hbetween := step_between toLowerCase str t j ch
  generalize (step toLowerCase t str j ch).1 = t' at *
  obtain ⟨hattr, hkinds⟩ := h
  have hclose := closeAttribute_spec toLowerCase s i
  have hended := tagEnded_spec toLowerCase s i t'
  cases hstate : t.state with
  | data =>
    simp only [note]
    split <;> exact ⟨hattr, hkinds⟩
  | tagName =>
    simp only [note]
    split <;> exact ⟨hattr, hkinds⟩
  | beforeAttrName | afterAttrName =>
    rw [hstate] at hbetween
    simp only [note, opensAttribute]
    split
    · exact ⟨rfl, (hclose j).2.trans hkinds⟩
    · rename_i hname
      rcases hbetween (by simp) with ⟨rfl, hto⟩ | ⟨rfl, hto⟩ | ⟨rfl, hto⟩ | ⟨hspace, hto⟩ | hto
      · rw [if_pos hto]
        simp only [isSpace]
        rcases hto with hto | hto <;> simp [hto, Follows, hended, hkinds]
      · simpa [hto, isSpace, Follows, hattr, kinds] using hkinds
      · simpa [hto, isSpace, Follows, hattr, kinds] using hkinds
      · simpa [hto, hspace, Follows, hattr, kinds] using hkinds
      · exact absurd hto hname
  | attrName =>
    simp only [note, opensAttribute]
    split
    · rename_i hto
      simpa [hto, Follows, hattr, kinds] using hkinds
    · split
      · rename_i hto
        simpa [hto, Follows, hattr, kinds] using hkinds
      · split
        · exact ⟨by simp [hclose j], (hclose j).2.trans hkinds⟩
        · exact ⟨hattr, hkinds⟩
  | beforeAttrValue =>
    simp only [note, opensAttribute]
    split
    · rename_i hto
      simpa [hto, Follows, hattr, kinds] using hkinds
    · split
      · have hagain := tagEnded_spec toLowerCase (s.closeAttribute toLowerCase i j) i t'
        exact ⟨by simp [hagain.1], hagain.2.trans ((hclose j).2.trans hkinds)⟩
      · exact ⟨hattr, hkinds⟩
  | attrValueQuoted =>
    simp only [note, opensAttribute]
    split
    · exact ⟨by simp [hclose (j + 1)], (hclose (j + 1)).2.trans hkinds⟩
    · exact ⟨hattr, hkinds⟩
  | attrValueUnquoted =>
    simp only [note, opensAttribute]
    split
    · exact ⟨by simp [hclose j], (hclose j).2.trans hkinds⟩
    · exact ⟨hattr, hkinds⟩
  | rawText =>
    simp only [note]
    split <;> exact ⟨hattr, hkinds⟩
  | endTag | comment | bogusComment => exact ⟨hattr, hkinds⟩

theorem classify_spec {s : Analysis} {o : Outline} (h : s.Follows o) (i : Nat) (str : Units) (t : Tokenizer) :
    (classify toLowerCase i str t s).1 = resume t (kindOf str t.state o.opened) ∧
    (classify toLowerCase i str t s).2.Follows
      ⟨keepsAttribute t.state o.opened, o.kinds ++ [kindOf str t.state o.opened]⟩ := by
  obtain ⟨hattr, hkinds⟩ := h
  have hbind : ∀ info, (s.bind info).kinds = o.kinds ++ [info.kind] := by
    intro info
    simp [bind, kinds, ← hkinds]
  cases hstate : t.state with
  | data =>
    simp only [classify, hstate, kindOf]
    split
    · exact ⟨rfl, hattr, hbind _⟩
    · split
      · exact ⟨rfl, hattr, hbind _⟩
      · exact ⟨rfl, hattr, hbind _⟩
  | comment | bogusComment | tagName | beforeAttrName | endTag =>
    simp only [classify, hstate, kindOf]
    exact ⟨rfl, hattr, hbind _⟩
  | rawText =>
    simp only [classify, hstate, kindOf]
    exact ⟨rfl, hattr, hbind _⟩
  | attrName | afterAttrName =>
    have hclose := closeAttribute_spec toLowerCase (s.bind .element) i 0
    simp only [classify, hstate, kindOf]
    exact ⟨rfl, by simp [hclose.1, keepsAttribute], hclose.2.trans (hbind _)⟩
  | beforeAttrValue | attrValueQuoted | attrValueUnquoted =>
    cases hopen : s.attr with
    | none =>
      rw [hopen] at hattr
      simp only [classify, hstate, kindOf, hopen, ← hattr]
      exact ⟨rfl, by simp [bind, hopen, keepsAttribute], hbind _⟩
    | some opened =>
      rw [hopen] at hattr
      simp only [classify, hstate, kindOf, hopen, ← hattr]
      refine ⟨by simp [resume, hstate], by simp [bindAttribute, keepsAttribute], ?_⟩
      simp [bindAttribute, kinds, BindingInfo.kind, ← hkinds]

end Analysis

/-- The bindings of the analysis have the kinds of the outline. -/
theorem analyzeTemplate_kinds (input : List Units) (scopeAttr : Units) :
    ∃ a kinds, analyzeTemplate toLowerCase input scopeAttr = some a ∧ outline toLowerCase input = some kinds ∧
      a.bindings.map BindingInfo.kind = kinds := by
  obtain ⟨⟨t, s⟩, hs⟩ := Reader.strings_some toLowerCase (Analysis.reader toLowerCase scopeAttr) 0 input
    createTokenizer (.initial (input.length - 1))
  by_cases hinput : input = []
  · subst hinput
    exact ⟨_, [], rfl, rfl, rfl⟩
  have hfollows : (Analysis.initial (input.length - 1)).Follows ⟨false, []⟩ := ⟨rfl, rfl⟩
  obtain ⟨_, s, o, -, rfl, ho, -, hkinds⟩ := Reader.strings_related toLowerCase
    (Analysis.reader toLowerCase scopeAttr) Outline.reader input (fun _ _ _ s o => Analysis.Follows s o)
    (fun i str t j ch s o _ hch h => Analysis.note_spec toLowerCase h scopeAttr i str hch t _)
    (fun i str t s o _ _ h => Analysis.classify_spec toLowerCase h i str t) hinput hfollows hs
  refine ⟨⟨s.push.strings, s.bindings, s.attributeGroups⟩, o.kinds, ?_, ?_, hkinds⟩
  · rw [analyzeTemplate, hs]
    rfl
  · rw [outline, ho]
    rfl

end Cossack.Renderer.Html
