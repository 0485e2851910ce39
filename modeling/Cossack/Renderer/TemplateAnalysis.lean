import Cossack.Renderer.HtmlTokenizer

/-! # The analysis of a template

    A template is its static strings, with a hole between each two.  The analysis
    and the parser run the same loops around the tokenizer's `step`; what each
    does after a step, at a hole and after the last string makes a `Reader`. -/

namespace Cossack.Renderer.Html

/-! ## Section 1: Reading a template -/

structure Reader (S : Type) where
  /-- After a step over the character `ch` at `j` of the string `i`, from the state
      `before`. -/
  record : (i : Nat) → (str : Units) → (before : State) → (t : Tokenizer) → (j ch next : Nat) → S → S
  /-- At the hole after the string `i`. -/
  hole : (i : Nat) → (str : Units) → Tokenizer → S → Tokenizer × S
  last : (i : Nat) → (str : Units) → S → S

section
variable (toLowerCase : Units → Units) {S : Type}

/-- The loop over one string, for at most `fuel` characters that are read. -/
def Reader.string (r : Reader S) (i : Nat) (str : Units) : Nat → Tokenizer → Nat → S → Option (Tokenizer × S)
  | 0, _, _, _ => none
  | fuel + 1, t, j, s =>
      match str[j]? with
      | none => some (t, s)
      | some ch =>
          let (t', next) := step toLowerCase t str j ch
          r.string i str fuel t' next (r.record i str t.state t' j ch next s)

/-- A character is read at most twice. -/
def fuelFor (str : Units) : Nat := 2 * str.length + 2

/-- The loop over the strings, from the string `i` on. -/
def Reader.strings (r : Reader S) : Nat → List Units → Tokenizer → S → Option (Tokenizer × S)
  | _, [], t, s => some (t, s)
  | i, [str], t, s =>
      (r.string toLowerCase i str (fuelFor str) t 0 s).map fun (t, s) => (t, r.last i str s)
  | i, str :: next :: rest, t, s =>
      (r.string toLowerCase i str (fuelFor str) t 0 s).bind fun (t, s) =>
        let (t, s) := r.hole i str t s
        r.strings (i + 1) (next :: rest) t s

end

/-- `str.endsWith(suffix)` -/
def endsWith (str suffix : Units) : Bool := suffix.isSuffixOf str

/-! ## Section 2: Bindings -/

structure AttributeBinding where
  name : Units
  start : Bool
  whole : Bool
  quote : Option Char
  prefixStart : Option Nat
  directValue : Bool
  tagString : Nat
  tagOffset : Nat
  tagEnd : Option (Nat × Nat)

inductive BindingInfo where
  | node
  | attribute (binding : AttributeBinding)
  | rawText (tag : Units) (first : Bool)
  | comment
  | element
  | tag (closing : Bool)

/-- A change of the binding, which is one of an attribute. -/
def BindingInfo.withAttribute (f : AttributeBinding → AttributeBinding) : BindingInfo → BindingInfo
  | .attribute binding => .attribute (f binding)
  | info => info

def BindingInfo.quote : BindingInfo → Option Char
  | .attribute binding => binding.quote
  | _ => none

structure AttributeGroup where
  indices : List Nat
  prefixText : Units
  suffixLength : Nat

structure OpenAttribute where
  name : Units
  stringIndex : Nat
  nameStart : Nat
  spaceStart : Nat
  indices : List Nat
  prefixText : Units

/-- The variables of `analyzeTemplate`; the string being written is `out`. -/
structure Analysis where
  rawTextEmpty : Bool
  valueEmpty : Bool
  attr : Option OpenAttribute
  spaceStart : Option Nat
  tagBindings : List Nat
  tagHasStaticValue : Bool
  tagString : Nat
  tagOffset : Nat
  out : Units
  strings : List Units
  bindings : List BindingInfo
  attributeGroups : List (Option AttributeGroup)

namespace Analysis

/-- There is an entry of `attributeGroups` for each of the `holes`. -/
def initial (holes : Nat) : Analysis where
  rawTextEmpty := true
  valueEmpty := true
  attr := none
  spaceStart := none
  tagBindings := []
  tagHasStaticValue := false
  tagString := 0
  tagOffset := 0
  out := []
  strings := []
  bindings := []
  attributeGroups := List.replicate holes none

variable (toLowerCase : Units → Units)

/-- The group of an attribute that was opened in the string of its first binding. -/
def closeGroup (s : Analysis) (i endInThisString : Nat) (attr : OpenAttribute) (first : Nat) : Analysis :=
  let last := attr.indices.getLastD first
  let suffixLength := if i = last + 1 then endInThisString else 0
  let quote := (s.bindings[first]?).bind BindingInfo.quote
  let partial? := 1 < attr.indices.length || suffixLength != (if quote.isSome then 1 else 0)
  { s with
    attributeGroups := s.attributeGroups.set first (some ⟨attr.indices, attr.prefixText, suffixLength⟩)
    bindings :=
      if partial? then s.bindings.modify first (·.withAttribute fun binding => { binding with whole := false })
      else s.bindings }

def closeAttribute (s : Analysis) (i endInThisString : Nat) : Analysis :=
  match s.attr with
  | none => s
  | some attr =>
      let s := { s with attr := none }
      match attr.indices with
      | [] =>
          if toLowerCase attr.name = units "value" then { s with tagHasStaticValue := true } else s
      | first :: _ => if attr.stringIndex = first then s.closeGroup i endInThisString attr first else s

/-- The `>` of a start tag was read. -/
def tagEnded (s : Analysis) (i : Nat) (t : Tokenizer) : Analysis :=
  let s := s.closeAttribute toLowerCase i 0
  let directValue :=
    t.tagName != units "textarea" && t.tagName != units "select" && !s.tagHasStaticValue
  let resolve (bindings : List BindingInfo) (k : Nat) :=
    bindings.modify k (·.withAttribute fun binding => { binding with directValue, tagEnd := some (i, s.out.length) })
  { s with
    bindings := s.tagBindings.foldl resolve s.bindings
    tagBindings := []
    rawTextEmpty := if t.state = .rawText then true else s.rawTextEmpty }

/-- The bookkeeping after a step, before the characters are copied. -/
def note (scopeAttr : Units) (i : Nat) (str : Units) (before : State) (t : Tokenizer) (j ch next : Nat)
    (s : Analysis) : Analysis :=
  match before with
  | .data =>
      if t.state = .tagName then
        { s with tagBindings := [], tagHasStaticValue := false, tagString := i, tagOffset := s.out.length }
      else s
  | .tagName =>
      if t.state = .tagName then s else { s with out := s.out ++ scopeAttr, spaceStart := none }
  | .beforeAttrName | .afterAttrName =>
      if t.state = .attrName then
        let s := s.closeAttribute toLowerCase i j
        let start := s.out.length
        { s with attr := some ⟨[ch], i, start, s.spaceStart.getD start, [], []⟩, spaceStart := none }
      else if isSpace ch then { s with spaceStart := s.spaceStart.or (some s.out.length) }
      else if ch = 47 then { s with spaceStart := none }
      else if t.state = .beforeAttrValue then s
      else s.tagEnded toLowerCase i t
  | .attrName =>
      if t.state = .attrName then
        { s with attr := s.attr.map fun attr => { attr with name := attr.name ++ slice str j next } }
      else if t.state = .afterAttrName then { s with spaceStart := some s.out.length }
      else if t.state = .beforeAttrName then { s.closeAttribute toLowerCase i j with spaceStart := none }
      else s
  | .beforeAttrValue =>
      if t.state = .attrValueQuoted then { s with valueEmpty := true }
      else if t.state = .data ∨ t.state = .rawText then
        (s.closeAttribute toLowerCase i j).tagEnded toLowerCase i t
      else s
  | .attrValueQuoted =>
      if t.state = .beforeAttrName then { s.closeAttribute toLowerCase i (j + 1) with spaceStart := none }
      else { s with valueEmpty := false }
  | .attrValueUnquoted =>
      if t.state = .beforeAttrName then { s.closeAttribute toLowerCase i j with spaceStart := none } else s
  | .rawText => if t.state = .rawText then { s with rawTextEmpty := false } else s
  | .endTag | .comment | .bogusComment => s

def record (scopeAttr : Units) (i : Nat) (str : Units) (before : State) (t : Tokenizer) (j ch next : Nat)
    (s : Analysis) : Analysis :=
  let s := s.note toLowerCase scopeAttr i str before t j ch next
  { s with out := s.out ++ slice str j next }

def bind (s : Analysis) (info : BindingInfo) : Analysis := { s with bindings := s.bindings ++ [info] }

/-- A hole in the value of the open attribute. -/
def bindAttribute (s : Analysis) (i : Nat) (t : Tokenizer) (opened : OpenAttribute) : Analysis :=
  let quoted := t.state == .attrValueQuoted
  let start := (t.state == .beforeAttrValue || (quoted && s.valueEmpty)) && opened.stringIndex == i
  let opened :=
    if opened.indices = [] ∧ opened.stringIndex = i then
      { opened with prefixText := s.out.drop opened.spaceStart }
    else opened
  { s with
    attr := some { opened with indices := opened.indices ++ [i] }
    bindings := s.bindings ++ [.attribute
      { name := opened.name, start, whole := start, quote := if quoted then some t.quote else none,
        prefixStart := if start then some opened.nameStart else none, directValue := false,
        tagString := s.tagString, tagOffset := s.tagOffset, tagEnd := none }]
    tagBindings := s.tagBindings ++ [i]
    valueEmpty := false }

/-- Classify the binding that follows the string `i`. -/
def classify (i : Nat) (str : Units) (t : Tokenizer) (s : Analysis) : Tokenizer × Analysis :=
  match t.state with
  | .data =>
      if endsWith str (units "</") then ({ t with state := .endTag }, s.bind (.tag true))
      else if endsWith str (units "<") then
        ({ t with state := .beforeAttrName, tagName := [] },
          { s.bind (.tag false) with
            tagBindings := [], tagHasStaticValue := false, tagString := i, tagOffset := s.out.length - 1,
            spaceStart := none })
      else (t, s.bind .node)
  | .comment | .bogusComment => (t, s.bind .comment)
  | .rawText => (t, { s.bind (.rawText t.rawTextTag s.rawTextEmpty) with rawTextEmpty := false })
  | .beforeAttrValue | .attrValueQuoted | .attrValueUnquoted =>
      match s.attr with
      | none => (t, s.bind .element)
      | some opened =>
          (if t.state = .beforeAttrValue then { t with state := .attrValueUnquoted } else t,
            s.bindAttribute i t opened)
  | .attrName | .afterAttrName => (t, (s.bind .element).closeAttribute toLowerCase i 0)
  | .tagName | .beforeAttrName | .endTag => (t, s.bind .element)

/-- The string is finished. -/
def push (s : Analysis) : Analysis := { s with strings := s.strings ++ [s.out], out := [] }

def reader (scopeAttr : Units) : Reader Analysis where
  record := record toLowerCase scopeAttr
  hole i str t s :=
    let (t, s) := classify toLowerCase i str t s
    (t, s.push)
  last _ _ s := s.push

end Analysis

structure TemplateAnalysis where
  strings : List Units
  bindings : List BindingInfo
  attributeGroups : List (Option AttributeGroup)

variable (toLowerCase : Units → Units)

/-- `scopeAttr` is empty without a scope. -/
def analyzeTemplate (input : List Units) (scopeAttr : Units) : Option TemplateAnalysis :=
  ((Analysis.reader toLowerCase scopeAttr).strings toLowerCase 0 input createTokenizer
    (.initial (input.length - 1))).map fun (_, s) => ⟨s.strings, s.bindings, s.attributeGroups⟩

end Cossack.Renderer.Html
