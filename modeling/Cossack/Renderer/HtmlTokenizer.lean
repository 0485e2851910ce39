import Mathlib

/-! # The tokenizer of rendered markup

    `step` of the renderer's tokenizer and `forEachHtmlToken`, which drives it.
    A source is its UTF-16 code units.  `toLowerCase` is that of strings; nothing
    here depends on what it does. -/

namespace Cossack.Renderer.Html

/-! ## Section 1: The tokenizer -/

inductive State where
  | data
  | tagName
  | beforeAttrName
  | attrName
  | afterAttrName
  | beforeAttrValue
  | attrValueQuoted
  | attrValueUnquoted
  | endTag
  | comment
  | bogusComment
  | rawText
  deriving DecidableEq

abbrev Units := List Nat

def units (s : String) : Units := s.toList.map Char.toNat

def rawTextTags : List Units := ["script", "style", "textarea", "title"].map units

instance decidableMemUnits (name : Units) (names : List Units) : Decidable (name ∈ names) :=
  decidable_of_iff (names.contains name = true) List.contains_iff_mem

/-- The code unit at an index is this character. -/
def at? (str : Units) (j : Nat) (c : Char) : Bool := str[j]? == some c.toNat

def isSpace (ch : Nat) : Bool := ch = 32 || ch = 10 || ch = 9 || ch = 13 || ch = 12

def isAsciiAlpha (ch : Nat) : Bool := (97 ≤ ch && ch ≤ 122) || (65 ≤ ch && ch ≤ 90)

structure Tokenizer where
  state : State
  tagName : Units
  rawTextTag : Units
  quote : Char
  commentTail : Units

def createTokenizer : Tokenizer := ⟨.data, [], [], '"', []⟩

def endStartTag (t : Tokenizer) : Tokenizer :=
  if t.tagName ∈ rawTextTags then { t with state := .rawText, rawTextTag := t.tagName }
  else { t with state := .data }

/-- Up to the next `stop`, or the end of the string. -/
def runEnd (str : Units) (j : Nat) (stop : Char) : Nat :=
  j + (str.drop j).findIdx (· == stop.toNat)

def endsName (stopAtEquals : Bool) (code : Nat) : Bool :=
  isSpace code || code = 47 || code = 62 || (code = 61 && stopAtEquals)

def nameEnd (str : Units) (j : Nat) (stopAtEquals : Bool) : Nat :=
  j + (str.drop j).findIdx (endsName stopAtEquals)

/-- `str.slice(j, end)`. -/
def slice (str : Units) (j e : Nat) : Units := (str.drop j).take (e - j)

def lastTwo (s : Units) : Units := s.drop (s.length - 2)

variable (toLowerCase : Units → Units)

/-- The tokenizer after the character at `j`, which is `ch`, and the index of the
    next character to read. -/
def step (t : Tokenizer) (str : Units) (j ch : Nat) : Tokenizer × Nat :=
  match t.state with
  | .data =>
      if ch ≠ 60 then (t, runEnd str j '<')
      else if str[j + 1]?.any isAsciiAlpha then ({ t with state := .tagName, tagName := [] }, j + 1)
      else if at? str (j + 1) '/' && str[j + 2]?.any isAsciiAlpha then
        ({ t with state := .endTag }, j + 1)
      else if at? str (j + 1) '!' && at? str (j + 2) '-' && at? str (j + 3) '-' then
        ({ t with state := .comment, commentTail := units "--" }, j + 4)
      else if at? str (j + 1) '!' || at? str (j + 1) '?' ||
          (at? str (j + 1) '/' && str[j + 2]?.isSome) then
        ({ t with state := .bogusComment }, j + 1)
      else (t, j + 1)
  | .tagName =>
      let e := nameEnd str j false
      if e = j then ({ t with state := .beforeAttrName }, j)
      else ({ t with tagName := t.tagName ++ toLowerCase (slice str j e) }, e)
  | .beforeAttrName | .afterAttrName =>
      if ch = 62 then (endStartTag t, j + 1)
      else if ch = 47 then ({ t with state := .beforeAttrName }, j + 1)
      else if ch = 61 ∧ t.state = .afterAttrName then ({ t with state := .beforeAttrValue }, j + 1)
      else if isSpace ch then (t, j + 1)
      else ({ t with state := .attrName }, j + 1)
  | .attrName =>
      if isSpace ch then ({ t with state := .afterAttrName }, j + 1)
      else if ch = 47 ∨ ch = 62 then ({ t with state := .beforeAttrName }, j)
      else if ch = 61 then ({ t with state := .beforeAttrValue }, j + 1)
      else (t, nameEnd str j true)
  | .beforeAttrValue =>
      if ch = 34 then ({ t with quote := '"', state := .attrValueQuoted }, j + 1)
      else if ch = 39 then ({ t with quote := '\'', state := .attrValueQuoted }, j + 1)
      else if ch = 62 then (endStartTag t, j + 1)
      else if isSpace ch then (t, j + 1)
      else ({ t with state := .attrValueUnquoted }, j + 1)
  | .attrValueQuoted =>
      if ch ≠ t.quote.toNat then (t, runEnd str j t.quote)
      else ({ t with state := .beforeAttrName }, j + 1)
  | .attrValueUnquoted =>
      if isSpace ch ∨ ch = 62 then ({ t with state := .beforeAttrName }, j)
      else (t, if ch = 47 then j + 1 else nameEnd str j false)
  | .endTag | .bogusComment =>
      if ch ≠ 62 then (t, runEnd str j '>') else ({ t with state := .data }, j + 1)
  | .comment =>
      if ch = 62 ∧ t.commentTail = units "--" then ({ t with state := .data }, j + 1)
      else
        let e := max (runEnd str j '>') (j + 1)
        ({ t with commentTail := lastTwo (t.commentTail ++ slice str (max j (e - 2)) e) }, e)
  | .rawText =>
      if ch ≠ 60 then (t, runEnd str j '<')
      else
        let tag := t.rawTextTag
        let after := str[j + 2 + tag.length]?
        if at? str (j + 1) '/' &&
            toLowerCase (slice str (j + 2) (j + 2 + tag.length)) == tag &&
            after.all fun ch => isSpace ch || ch = 47 || ch = 62 then
          ({ t with state := .endTag }, j + 1)
        else (t, j + 1)

/-! ## Section 2: Tokens -/

structure HtmlAttribute where
  name : Units
  nameStart : Nat
  nameEnd : Option Nat
  valueStart : Option Nat
  valueEnd : Option Nat
  quote : Option Char

inductive TokenType where
  | text
  | rawText (tag : Units)
  | startTag (name : Units) (nameEnd : Nat) (attributes : List HtmlAttribute)
      (selfClosing closed : Bool)
  | endTag (name : Units) (nameEnd : Nat)
  | comment
  | other

structure HtmlToken where
  type : TokenType
  first : Nat
  last : Nat

/-- The variables of the scan, and the tokens it visited.  `attr` is the last of
    the `attributes`, where there is one. -/
structure Scan where
  t : Tokenizer
  first : Nat
  nameEnd : Option Nat
  attributes : List HtmlAttribute
  slash : Bool
  tokens : List HtmlToken

namespace Scan

def initial : Scan := ⟨createTokenizer, 0, none, [], false, []⟩

def visit (s : Scan) (type : TokenType) (first last : Nat) : Scan :=
  { s with tokens := s.tokens ++ [⟨type, first, last⟩] }

/-- A change of `attr`. -/
def withAttr (s : Scan) (f : HtmlAttribute → HtmlAttribute) : Scan :=
  { s with attributes := s.attributes.modifyLast f }

def startTag (s : Scan) (e : Nat) (closed : Bool) : Scan :=
  let s := s.withAttr fun attr =>
    { attr with
      nameEnd := attr.nameEnd.or (some e)
      valueEnd := if attr.valueStart.isSome then attr.valueEnd.or (some e) else attr.valueEnd }
  s.visit (.startTag s.t.tagName (s.nameEnd.getD e) s.attributes (closed && s.slash) closed) s.first e

/-- A token that ends before the next character. -/
def close (s : Scan) (type : TokenType) (next : Nat) : Scan :=
  { s.visit type s.first next with first := next }

/-- The end of the name of an end tag. -/
def endTagName (source : Units) (first next : Nat) : Nat :=
  first + 2 + (slice source (first + 2) next).findIdx fun ch =>
    isSpace ch || ch = 47 || ch = 62

/-- The body of the loop after the step of the tokenizer, whose state was
    `before`. -/
def record (source : Units) (before : State) (j ch next : Nat) (s : Scan) : Scan :=
  match before with
  | .data =>
      if s.t.state = .data then s
      else
        let s := if s.first < j then s.visit .text s.first j else s
        if s.t.state = .tagName then
          { s with first := j, nameEnd := none, attributes := [], slash := false }
        else { s with first := j }
  | .rawText =>
      if s.t.state = .endTag then
        let s := if s.first < j then s.visit (.rawText s.t.rawTextTag) s.first j else s
        { s with first := j }
      else s
  | .endTag =>
      if s.t.state = .data then
        let e := endTagName source s.first next
        s.close (.endTag (toLowerCase (slice source (s.first + 2) e)) e) next
      else s
  | .comment => if s.t.state = .data then s.close .comment next else s
  | .bogusComment => if s.t.state = .data then s.close .other next else s
  | .tagName => if s.t.state = .tagName then s else { s with nameEnd := some j }
  | .beforeAttrName | .afterAttrName =>
      let s :=
        if s.t.state = .attrName then
          { s with attributes := s.attributes ++ [⟨[], j, none, none, none, none⟩] }
        else if s.t.state = .data ∨ s.t.state = .rawText then
          { s.startTag next true with first := next }
        else s
      { s with slash := ch = 47 }
  | .attrName =>
      if s.t.state = .attrName then s
      else s.withAttr fun attr =>
        { attr with nameEnd := some j, name := slice source attr.nameStart j }
  | .beforeAttrValue =>
      if s.attributes = [] then s
      else if s.t.state = .attrValueQuoted then
        s.withAttr fun attr => { attr with quote := some s.t.quote, valueStart := some (j + 1) }
      else if s.t.state = .attrValueUnquoted then
        s.withAttr fun attr => { attr with valueStart := some j }
      else if s.t.state = .data ∨ s.t.state = .rawText then
        let s := s.withAttr fun attr => { attr with valueStart := some j, valueEnd := some j }
        { s.startTag next true with first := next }
      else s
  | .attrValueQuoted | .attrValueUnquoted =>
      if s.t.state = .beforeAttrName then s.withAttr fun attr => { attr with valueEnd := some j }
      else s

/-- The body of the loop for the character `ch` at `j`. -/
def advance (s : Scan) (source : Units) (j ch : Nat) : Scan × Nat :=
  let (t, next) := step toLowerCase s.t source j ch
  (record toLowerCase source s.t.state j ch next { s with t := t }, next)

/-- The loop, for at most `fuel` characters that are read. -/
def run (source : Units) : Nat → Scan → Nat → Option Scan
  | 0, s, j => if source.length ≤ j then some s else none
  | fuel + 1, s, j =>
      match source[j]? with
      | none => some s
      | some ch =>
          let (s, next) := s.advance toLowerCase source j ch
          run source fuel s next

/-- What is left at the end of the source. -/
def finish (s : Scan) (source : Units) : Scan :=
  let e := source.length
  if s.first < e then
    match s.t.state with
    | .data => s.visit .text s.first e
    | .rawText => s.visit (.rawText s.t.rawTextTag) s.first e
    | .tagName | .beforeAttrName | .attrName | .afterAttrName | .beforeAttrValue
    | .attrValueQuoted | .attrValueUnquoted =>
        let s := s.withAttr fun attr =>
          if attr.name = [] then
            { attr with name := slice source attr.nameStart (attr.nameEnd.getD e) }
          else attr
        s.startTag e false
    | _ => s.visit .other s.first e
  else s

end Scan

/-- The tokens that are visited, in order, where the loop ends within `fuel`
    characters. -/
def forEachHtmlToken (source : Units) (fuel : Nat) : Option (List HtmlToken) :=
  (Scan.run toLowerCase source fuel .initial 0).map fun s => (s.finish source).tokens

end Cossack.Renderer.Html
