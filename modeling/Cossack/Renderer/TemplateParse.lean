import Cossack.Renderer.TemplateAnalysis
import Mathlib

/-! # The tree of a template

    `parse`, which reads a template with the same tokenizer into elements,
    component tags, text and bindings.  A node is added to its parent when it is
    closed; the open ones are on a stack.  The texts of the problems, and the
    rules on attributes that only report some, are left out. -/

namespace Cossack.Renderer.Html

/-! ## Section 1: Nodes -/

structure Location where
  string : Nat
  offset : Nat

structure Range where
  start : Location
  stop : Location

structure TemplateAttribute where
  name : Units
  range : Range
  nameRange : Range
  hasValue : Bool
  quote : Option Char
  segments : List Units
  bindings : List Nat

inductive Namespace where
  | html
  | svg
  | mathml
  deriving DecidableEq

/-- What elements and component tags have in common; `selfClosing` is a `/>`. -/
structure TagNode where
  attributes : List TemplateAttribute
  droppedBindings : List Nat
  start : Location
  startTag : Range
  selfClosing : Bool
  inNamespace : Namespace

inductive TemplateNode where
  | element (tag name : Units) (closed : Bool) (node : TagNode) (children : List TemplateNode) (stop : Location)
  | component (binding : Nat) (closed : Option (Nat × Location)) (node : TagNode)
      (children : List TemplateNode) (stop : Location)
  | text (text : Units) (range : Range)
  | binding (binding : Nat) (rawText : Bool)
  | comment (range : Range) (bindings : List Nat)

inductive DropReason where
  | comment
  | tag
  | endTag
  deriving DecidableEq

inductive BindingRole where
  | node
  | rawText
  | attribute
  | tag (closing : Bool)
  | dropped (reason : DropReason)
  deriving DecidableEq

inductive ProblemCode where
  | unterminated
  | droppedBinding
  | unclosedElement
  | unexpectedEndTag
  | selfClosingElement
  | unclosedComponent
  | unexpectedComponentEnd

structure Problem where
  code : ProblemCode
  range : Range

/-! ## Section 2: The HTML parser's rules -/

def voidElements : List Units :=
  ["area", "base", "br", "col", "embed", "hr", "img", "input", "link", "meta", "source", "track", "wbr"].map units

def optionalEndTag : List Units :=
  ["html", "head", "body", "p", "li", "dt", "dd", "rt", "rp", "optgroup", "option", "colgroup", "caption",
    "thead", "tbody", "tfoot", "tr", "td", "th"].map units

def closesP : List Units :=
  ["address", "article", "aside", "blockquote", "details", "dialog", "div", "dl", "fieldset", "figcaption",
    "figure", "footer", "form", "h1", "h2", "h3", "h4", "h5", "h6", "header", "hgroup", "hr", "main", "menu",
    "nav", "ol", "p", "pre", "search", "section", "table", "ul"].map units

def tableSections : List Units := ["thead", "tbody", "tfoot"].map units

/-- A start tag `next` ends the open element. -/
def impliesEnd (opened next : Units) : Bool :=
  if opened = units "p" then next ∈ closesP
  else if opened = units "li" then next = units "li"
  else if opened ∈ ["dt", "dd"].map units then next ∈ ["dt", "dd"].map units
  else if opened ∈ ["rt", "rp"].map units then next ∈ ["rt", "rp"].map units
  else if opened = units "option" then next ∈ ["option", "optgroup"].map units
  else if opened = units "optgroup" then next = units "optgroup"
  else if opened ∈ ["td", "th"].map units then next ∈ ["td", "th", "tr"].map units ∨ next ∈ tableSections
  else if opened = units "tr" then next = units "tr" ∨ next ∈ tableSections
  else if opened ∈ tableSections then next ∈ tableSections
  else false

def childNamespace (parent : Namespace) (parentName : Units) : Namespace :=
  if parent = .svg ∧ parentName ∈ ["foreignobject", "desc", "title"].map units then .html else parent

def elementNamespace (inherited : Namespace) (name : Units) : Namespace :=
  match inherited with
  | .html => if name = units "svg" then .svg else if name = units "math" then .mathml else .html
  | _ => inherited

/-- What `\s` matches and `trim` removes. -/
def isWhitespace (ch : Nat) : Bool :=
  (9 ≤ ch && ch ≤ 13) || ch = 32 || ch = 160 || ch = 0x1680 || (0x2000 ≤ ch && ch ≤ 0x200a) || ch = 0x2028 ||
    ch = 0x2029 || ch = 0x202f || ch = 0x205f || ch = 0x3000 || ch = 0xfeff

def isBlank (text : Units) : Bool := text.all isWhitespace

/-! ## Section 3: The parser -/

/-- The attribute being read; its name ends where `nameStop` says, once it has. -/
structure MutableAttribute where
  name : Units
  start : Location
  nameStop : Option Location
  hasValue : Bool
  quote : Option Char
  segments : List Units
  bindings : List Nat

/-- The start tag being read; `binding` is that of a component's class. -/
structure MutableTag where
  binding : Option Nat
  start : Location
  tag : Units
  attributes : List TemplateAttribute
  droppedBindings : List Nat
  slash : Bool

inductive OpenKind where
  | element (tag name : Units)
  | component (binding : Nat)

/-- An open element or component, and the namespace of its content. -/
structure Container where
  kind : OpenKind
  node : TagNode
  content : Namespace
  children : List TemplateNode

def Container.isComponent (c : Container) : Bool :=
  match c.kind with
  | .component _ => true
  | .element _ _ => false

/-- The variables of `parse`; the innermost container comes first, and `root`
    are the children of the outermost. -/
structure Parse where
  problems : List Problem
  roles : List BindingRole
  root : List TemplateNode
  rootNamespace : Namespace
  stack : List Container
  text : Option (Location × Units)
  tag : Option MutableTag
  attr : Option MutableAttribute
  endStart : Option Location
  endText : Units
  endFresh : Bool
  endBinding : Option Nat
  endDropped : List Nat
  comment : Option (Location × List Nat)

namespace Parse

def initial (svg : Bool) : Parse where
  problems := []
  roles := []
  root := []
  rootNamespace := if svg then .svg else .html
  stack := []
  text := none
  tag := none
  attr := none
  endStart := none
  endText := []
  endFresh := false
  endBinding := none
  endDropped := []
  comment := none

def problem (s : Parse) (code : ProblemCode) (start stop : Location) : Parse :=
  { s with problems := s.problems ++ [⟨code, ⟨start, stop⟩⟩] }

def addChild (s : Parse) (child : TemplateNode) : Parse :=
  match s.stack with
  | [] => { s with root := s.root ++ [child] }
  | top :: rest => { s with stack := { top with children := top.children ++ [child] } :: rest }

/-- The namespace of the content of the top container. -/
def content (s : Parse) : Namespace :=
  match s.stack with
  | [] => s.rootNamespace
  | top :: _ => top.content

def flushText (s : Parse) (string stop : Nat) : Parse :=
  let flushed := { s with text := none }
  match s.text with
  | some (start, text) =>
      if start.offset < stop then
        flushed.addChild (.text text ⟨⟨string, start.offset⟩, ⟨string, stop⟩⟩)
      else flushed
  | none => flushed

def addText (s : Parse) (string offset : Nat) (chunk : Units) : Parse :=
  match s.text with
  | some (start, text) =>
      if start.string = string then { s with text := some (start, text ++ chunk) }
      else { s with text := some (⟨string, offset⟩, chunk) }
  | none => { s with text := some (⟨string, offset⟩, chunk) }

def closeAttribute (s : Parse) (stop : Location) : Parse :=
  match s.attr, s.tag with
  | some attr, some tag =>
      let nameStop := attr.nameStop.getD stop
      let closed : TemplateAttribute :=
        { name := attr.name, range := ⟨attr.start, if attr.hasValue then stop else nameStop⟩
          nameRange := ⟨attr.start, nameStop⟩, hasValue := attr.hasValue, quote := attr.quote
          segments := attr.segments, bindings := attr.bindings }
      { s with attr := none, tag := some { tag with attributes := tag.attributes ++ [closed] } }
  | _, _ => { s with attr := none }

/-- A container, as a node that ends at `stop`. -/
def close (c : Container) (closing : Option (Nat × Location)) (closed : Bool) (stop : Location) : TemplateNode :=
  match c.kind with
  | .element tag name => .element tag name closed c.node c.children stop
  | .component binding => .component binding closing c.node c.children stop

def unclosed (s : Parse) (c : Container) : Parse :=
  match c.kind with
  | .component _ => s.problem .unclosedComponent c.node.startTag.start c.node.startTag.stop
  | .element _ name =>
      if c.node.inNamespace ≠ .html ∨ name ∉ optionalEndTag then
        s.problem .unclosedElement c.node.startTag.start c.node.startTag.stop
      else s

/-- Pop the top container, which no tag of its own closed. -/
def pop (s : Parse) (stop : Location) (report : Bool) : Parse :=
  match s.stack with
  | [] => s
  | top :: rest =>
      let popped := { s with stack := rest }.addChild (close top none false stop)
      if report then popped.unclosed top else popped

def popAll : Nat → Parse → Location → Parse
  | 0, s, _ => s
  | n + 1, s, stop => popAll n (s.pop stop true) stop

/-- Pop the top container at its closing tag. -/
def popClosed (s : Parse) (closing : Option (Nat × Location)) (stop : Location) : Parse :=
  match s.stack with
  | [] => s
  | top :: rest => { s with stack := rest }.addChild (close top closing true stop)

/-- Open elements that a start tag `name` ends. -/
def popImplied (name : Units) (stop : Location) : Nat → Parse → Parse
  | 0, s => s
  | n + 1, s =>
      match s.stack with
      | [] => s
      | top :: _ =>
          match top.kind with
          | .element _ opened =>
              if top.node.inNamespace = .html ∧ impliesEnd opened name then
                popImplied name stop n (s.pop stop false)
              else s
          | .component _ => s

def setRole (s : Parse) (role : BindingRole) (index : Nat) : Parse := { s with roles := s.roles.set index role }

def setRoles (s : Parse) (indices : List Nat) (role : BindingRole) : Parse :=
  indices.foldl (fun s index => s.setRole role index) s

variable (toLowerCase : Units → Units)

def finishComponent (s : Parse) (current : MutableTag) (binding : Nat) (stop : Location) : Parse :=
  let node : TagNode :=
    { attributes := current.attributes, droppedBindings := current.droppedBindings, start := current.start
      startTag := ⟨current.start, stop⟩, selfClosing := current.slash, inNamespace := s.content }
  let s := s.setRole (.tag false) binding
  let s := s.setRoles (current.attributes.flatMap (·.bindings)) .attribute
  if current.slash then s.addChild (.component binding none node [] stop)
  else { s with stack := ⟨.component binding, node, s.content, []⟩ :: s.stack }

def finishElement (s : Parse) (current : MutableTag) (stop : Location) : Parse :=
  let name := toLowerCase current.tag
  let s := popImplied name current.start s.stack.length s
  let inNamespace := elementNamespace s.content name
  let isVoid := inNamespace = .html ∧ name ∈ voidElements
  let node : TagNode :=
    { attributes := current.attributes, droppedBindings := current.droppedBindings, start := current.start
      startTag := ⟨current.start, stop⟩, selfClosing := current.slash, inNamespace }
  let s := s.setRoles (current.attributes.flatMap (·.bindings)) .attribute
  let s := s.setRoles current.droppedBindings (.dropped .tag)
  let closed := s.addChild (.element current.tag name true node [] stop)
  if isVoid then closed
  else if current.slash then
    if inNamespace = .html then closed.problem .selfClosingElement current.start stop else closed
  else { s with stack := ⟨.element current.tag name, node, childNamespace inNamespace name, []⟩ :: s.stack }

def finishStartTag (s : Parse) (stop : Location) : Parse :=
  match s.tag with
  | none => s
  | some current =>
      let s := { s with tag := none }
      match current.binding with
      | some binding => s.finishComponent current binding stop
      | none => s.finishElement toLowerCase current stop

/-- The closing tag of a component, whose class is the value of `binding`. -/
def finishComponentEnd (s : Parse) (start stop : Location) (blank : Bool) (binding : Nat) : Parse :=
  let s := if blank then s else s.problem .droppedBinding start stop
  match s.stack.findIdx? (·.isComponent) with
  | none => (s.problem .unexpectedComponentEnd start stop).setRole (.dropped .endTag) binding
  | some above => ((popAll above s start).setRole (.tag true) binding).popClosed (some (binding, start)) stop

/-- The end tag of an element. -/
def finishElementEnd (s : Parse) (start stop : Location) (written : Units) : Parse :=
  let name := toLowerCase written
  let isNamed (c : Container) : Bool :=
    match c.kind with
    | .element _ opened => opened == name
    | .component _ => false
  match s.stack.findIdx? isNamed with
  | none => s.problem .unexpectedEndTag start stop
  | some above => (popAll above s start).popClosed none stop

def finishEndTag (s : Parse) (stop : Location) : Parse :=
  match s.endStart with
  | none => s
  | some start =>
      let content := s.endText
      let binding := s.endBinding
      let s := s.setRoles s.endDropped (.dropped .endTag)
      let s := { s with endStart := none, endText := [], endDropped := [], endBinding := none }
      match binding with
      | some binding => s.finishComponentEnd start stop (isBlank content) binding
      | none =>
          s.finishElementEnd toLowerCase start stop
            (content.takeWhile fun ch => !(isWhitespace ch || ch = 47 || ch = 62))

/-- Change the attribute being read. -/
def withAttr (s : Parse) (f : MutableAttribute → MutableAttribute) : Parse := { s with attr := s.attr.map f }

def withTag (s : Parse) (f : MutableTag → MutableTag) : Parse := { s with tag := s.tag.map f }

/-- More text of the value, after its last binding. -/
def addSegment (chunk : Units) (attr : MutableAttribute) : MutableAttribute :=
  { attr with segments := attr.segments.modifyLast (· ++ chunk) }

/-- An end tag has begun. -/
def beginEnd (s : Parse) (start : Location) : Parse := { s with endStart := some start, endFresh := true }

def record (i : Nat) (str : Units) (before : State) (t : Tokenizer) (j ch next : Nat) (s : Parse) : Parse :=
  let here : Location := ⟨i, j⟩
  match before with
  | .data =>
      if t.state = .data then s.addText i j (slice str j next)
      else
        let s := s.flushText i j
        if t.state = .tagName then { s with tag := some ⟨none, here, [], [], [], false⟩ }
        else if t.state = .endTag then s.beginEnd here
        else { s with comment := some (here, []) }
  | .tagName =>
      if t.state = .tagName then s.withTag fun tag => { tag with tag := tag.tag ++ slice str j next } else s
  | .beforeAttrName | .afterAttrName =>
      if t.state = .data ∨ t.state = .rawText then
        (s.closeAttribute here).finishStartTag toLowerCase ⟨i, j + 1⟩
      else
        let s :=
          if t.state = .attrName then
            { s.closeAttribute here with attr := some ⟨[ch], here, none, false, none, [[]], []⟩ }
          else if t.state = .beforeAttrValue then s.withAttr fun attr => { attr with hasValue := true }
          else s
        s.withTag fun tag => { tag with slash := ch = 47 }
  | .attrName =>
      if t.state = .attrName then s.withAttr fun attr => { attr with name := attr.name ++ slice str j next }
      else
        let s := s.withAttr fun attr =>
          { attr with
            nameStop := some here, hasValue := attr.hasValue || t.state == .beforeAttrValue }
        if t.state = .beforeAttrName then s.closeAttribute here else s
  | .beforeAttrValue =>
      if t.state = .attrValueQuoted then s.withAttr fun attr => { attr with quote := some t.quote }
      else if t.state = .attrValueUnquoted then s.withAttr (addSegment (slice str j next))
      else if t.state = .data ∨ t.state = .rawText then
        (s.closeAttribute here).finishStartTag toLowerCase ⟨i, j + 1⟩
      else s
  | .attrValueQuoted =>
      if t.state = .attrValueQuoted then s.withAttr (addSegment (slice str j next))
      else s.closeAttribute ⟨i, j + 1⟩
  | .attrValueUnquoted =>
      if t.state = .attrValueUnquoted then s.withAttr (addSegment (slice str j next))
      else s.closeAttribute here
  | .endTag =>
      if t.state = .endTag then
        let chunk := slice str j next
        -- the `<` opened the end tag; its `/` is skipped
        let read := if s.endFresh ∧ at? chunk 0 '/' then chunk.drop 1 else chunk
        { s with endText := s.endText ++ read, endFresh := false }
      else { s with endFresh := false }.finishEndTag toLowerCase ⟨i, j + 1⟩
  | .comment | .bogusComment =>
      match s.comment with
      | some (start, bindings) =>
          if t.state = .data then { s.addChild (.comment ⟨start, ⟨i, next⟩⟩ bindings) with comment := none } else s
      | none => s
  | .rawText =>
      if t.state = .rawText then s.addText i j (slice str j next) else (s.flushText i j).beginEnd here

def addRole (s : Parse) (role : BindingRole) : Parse := { s with roles := s.roles ++ [role] }

/-- Text without its last characters. -/
def trimText (s : Parse) (n : Nat) : Parse :=
  { s with text := s.text.map fun (start, text) => (start, text.take (text.length - n)) }

/-- Classify the binding between the string `i` and the next. -/
def hole (i : Nat) (str : Units) (t : Tokenizer) (s : Parse) : Tokenizer × Parse :=
  let here : Location := ⟨i, str.length⟩
  let after : Location := ⟨i + 1, 0⟩
  match t.state with
  | .data =>
      if endsWith str (units "</") then
        let s := (s.trimText 2).flushText i (str.length - 2)
        ({ t with state := .endTag },
          { s.addRole (.dropped .endTag) with
            endStart := some ⟨i, str.length - 2⟩, endText := [], endBinding := some i })
      else if endsWith str (units "<") then
        let s := (s.trimText 1).flushText i (str.length - 1)
        ({ t with state := .beforeAttrName, tagName := [] },
          { s.addRole (.dropped .tag) with tag := some ⟨some i, ⟨i, str.length - 1⟩, [], [], [], false⟩ })
      else (t, ((s.flushText i str.length).addChild (.binding i false)).addRole .node)
  | .rawText => (t, ((s.flushText i str.length).addChild (.binding i true)).addRole .rawText)
  | .comment | .bogusComment =>
      let s := { s with comment := s.comment.map fun (start, bindings) => (start, bindings ++ [i]) }
      (t, (s.addRole (.dropped .comment)).problem .droppedBinding here after)
  | .beforeAttrValue | .attrValueQuoted | .attrValueUnquoted =>
      match s.attr with
      | some _ =>
          let s := s.withAttr fun attr =>
            { attr with bindings := attr.bindings ++ [i], segments := attr.segments ++ [[]] }
          (if t.state = .beforeAttrValue then { t with state := .attrValueUnquoted } else t,
            s.addRole (.dropped .tag))
      | none =>
          let s := s.withTag fun tag => { tag with droppedBindings := tag.droppedBindings ++ [i] }
          (t, (s.addRole (.dropped .tag)).problem .droppedBinding here after)
  | .endTag =>
      (t, ({ s with endDropped := s.endDropped ++ [i] }.addRole (.dropped .endTag)).problem .droppedBinding here after)
  | .attrName | .afterAttrName =>
      let s := (s.withAttr fun attr => { attr with nameStop := some here }).closeAttribute here
      let s := s.withTag fun tag => { tag with droppedBindings := tag.droppedBindings ++ [i] }
      (t, (s.addRole (.dropped .tag)).problem .droppedBinding here after)
  | .tagName | .beforeAttrName =>
      let s := s.withTag fun tag => { tag with droppedBindings := tag.droppedBindings ++ [i] }
      (t, (s.addRole (.dropped .tag)).problem .droppedBinding here after)

def reader : Reader Parse where
  record := record toLowerCase
  hole := hole
  last i str s := s.flushText i str.length

/-- What the strings left open. -/
def finish (s : Parse) (t : Tokenizer) (stop : Location) : Parse :=
  let s :=
    match t.state with
    | .data | .rawText => s
    | .comment | .bogusComment => s.problem .unterminated ((s.comment.map Prod.fst).getD stop) stop
    | .endTag =>
        match s.endStart with
        | some start => s.problem .unterminated start stop
        | none => s
    | _ =>
        match s.tag with
        | some tag => ((s.closeAttribute stop).problem .unterminated tag.start stop).finishStartTag toLowerCase stop
        | none => s
  popAll s.stack.length s stop

end Parse

structure ParsedTemplate where
  nodes : List TemplateNode
  bindings : List BindingRole
  problems : List Problem

variable (toLowerCase : Units → Units)

def parseTemplate (strings : List Units) (svg : Bool) : Option ParsedTemplate :=
  ((Parse.reader toLowerCase).strings toLowerCase 0 strings createTokenizer (.initial svg)).map fun (t, s) =>
    let stop : Location := ⟨strings.length - 1, (strings.getLast?.map List.length).getD 0⟩
    let s := s.finish toLowerCase t stop
    ⟨s.root, s.roles, s.problems⟩

end Cossack.Renderer.Html
