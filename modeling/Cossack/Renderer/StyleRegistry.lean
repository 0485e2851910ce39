import Cossack.Lib.Runs

/-! # The registry of component styles

    `renderer/src/style-registry.ts`: each document or shadow root has one style
    element for each scope in use there, with a count of the uses.  Acquisitions
    resolve at the end of a render or in a microtask, releases in a macrotask.
    Others may change the documents meanwhile. -/

namespace Cossack.Renderer.StyleRegistry

/-! ## Section 1: Documents -/

/-- A document or a shadow root. -/
inductive StyleRoot where
  | document (n : Nat)
  | shadow (n : Nat)
  deriving DecidableEq

/-- A style element with its scope id, or another node with the style elements inside it. -/
inductive Node where
  | style (element : Nat) (scopeId : String)
  | other (inside : List (Nat × String))

def Node.styles : Node → List (Nat × String)
  | .style element scopeId => [(element, scopeId)]
  | .other inside => inside

/-- What a root holds: the children of `head` and the nodes after it; the children of a
shadow root are its `nodes`. -/
structure Content where
  documentElement : Bool
  head : Option (List Node)
  nodes : List Node

/-- The style elements in tree order. -/
def Content.styles (c : Content) : List (Nat × String) :=
  (c.head.getD []).flatMap Node.styles ++ c.nodes.flatMap Node.styles

/-- `querySelector` for the style element of a scope. -/
def Content.querySelector (c : Content) (scopeId : String) : Option Nat :=
  (c.styles.find? fun style => style.2 = scopeId).map Prod.fst

def Node.remove (element : Nat) : Node → Option Node
  | .style el scopeId => if el = element then none else some (.style el scopeId)
  | .other inside => some (.other (inside.filter fun style => style.1 ≠ element))

/-- `element.remove()`. -/
def Content.remove (c : Content) (element : Nat) : Content :=
  { c with
    head := c.head.map fun nodes => nodes.filterMap (Node.remove element)
    nodes := c.nodes.filterMap (Node.remove element) }

/-- `(root.head ?? root.documentElement)?.appendChild(element)`: a document without an
element takes none. -/
def Content.append (c : Content) (node : Node) : Content :=
  match c.head with
  | some nodes => { c with head := some (nodes ++ [node]) }
  | none => if c.documentElement then { c with nodes := c.nodes ++ [node] } else c

def Node.isManaged (managed : List Nat) : Node → Bool
  | .style element _ => managed.contains element
  | .other _ => false

/-- `insertBefore`, after the component styles at the start of a shadow root. -/
def Content.insert (c : Content) (managed : List Nat) (node : Node) : Content :=
  { c with nodes := c.nodes.takeWhile (Node.isManaged managed) ++
      node :: c.nodes.dropWhile (Node.isManaged managed) }

/-! ## Section 2: Uses and entries -/

/-- A node of a template instance: the root it is in, if that is a document or a shadow
root, and the document it belongs to. -/
structure Anchor where
  root : Option StyleRoot
  connected : Bool
  ownerDocument : Nat

structure StyleUse where
  scopeId : String
  anchor : Anchor
  root : Option StyleRoot
  released : Bool

structure StyleEntry where
  count : Nat
  element : Nat

/-- `owned` keeps each element that was created or adopted, with its root and scope. -/
structure State where
  uses : List StyleUse
  pending : List Nat
  releases : List (StyleRoot × String)
  registries : StyleRoot → String → Option StyleEntry
  managedStyles : List Nat
  resolveScheduled : Bool
  releaseScheduled : Bool
  dom : StyleRoot → Content
  nextElement : Nat
  owned : List (Nat × StyleRoot × String)

def styleRootOf (anchor : Anchor) (final : Bool) : Option StyleRoot :=
  match anchor.root with
  | some root => some root
  | none => if final then some (.document anchor.ownerDocument) else none

def setEntry (registries : StyleRoot → String → Option StyleEntry) (root : StyleRoot) (scopeId : String)
    (entry : Option StyleEntry) : StyleRoot → String → Option StyleEntry :=
  fun r id => if r = root ∧ id = scopeId then entry else registries r id

/-- `createStyle`. -/
def createStyle (managed : List Nat) (root : StyleRoot) (c : Content) (node : Node) : Content :=
  match root with
  | .document _ => c.append node
  | .shadow _ => c.insert managed node

/-- The new entry of `attach`: the element that is there, or a new one. -/
def State.register (s : State) (root : StyleRoot) (scopeId : String) : State :=
  match (s.dom root).querySelector scopeId with
  | some existing =>
      { s with
        managedStyles := existing :: s.managedStyles
        registries := setEntry s.registries root scopeId (some ⟨0, existing⟩)
        owned := (existing, root, scopeId) :: s.owned }
  | none =>
      { s with
        dom := fun r => if r = root then
          createStyle s.managedStyles root (s.dom root) (.style s.nextElement scopeId) else s.dom r
        managedStyles := s.nextElement :: s.managedStyles
        registries := setEntry s.registries root scopeId (some ⟨0, s.nextElement⟩)
        nextElement := s.nextElement + 1
        owned := (s.nextElement, root, scopeId) :: s.owned }

/-- `entry.count++`. -/
def State.increment (s : State) (root : StyleRoot) (scopeId : String) : State :=
  let entry := (s.registries root scopeId).map fun entry => { entry with count := entry.count + 1 }
  { s with registries := setEntry s.registries root scopeId entry }

def State.attach (s : State) (i : Nat) (use : StyleUse) (root : StyleRoot) : State :=
  let s := if (s.registries root use.scopeId).isSome then s else s.register root use.scopeId
  let s := s.increment root use.scopeId
  { s with uses := s.uses.set i { use with root := some root } }

/-- One round of the loop over `pending`. -/
def State.resolveUse (final : Bool) (s : State) (i : Nat) : State :=
  match s.uses[i]? with
  | none => s
  | some use =>
      match styleRootOf use.anchor final with
      | none => s
      | some root => { s with pending := s.pending.erase i }.attach i use root

def State.resolvePending (s : State) (final : Bool) : State := s.pending.foldl (State.resolveUse final) s

/-- One round of the loop over a batch of releases. -/
def State.dropUse (s : State) (released : StyleRoot × String) : State :=
  match s.registries released.1 released.2 with
  | none => s
  | some entry =>
      if 0 < entry.count - 1 then
        { s with registries :=
            setEntry s.registries released.1 released.2 (some { entry with count := entry.count - 1 }) }
      else
        { s with
          registries := setEntry s.registries released.1 released.2 none
          managedStyles := s.managedStyles.erase entry.element
          dom := fun r => (s.dom r).remove entry.element }

def State.applyReleases (s : State) : State :=
  let s := { s with releaseScheduled := false }.resolvePending true
  s.releases.foldl State.dropUse { s with releases := [] }

/-! ## Section 3: Steps -/

inductive Event where
  /-- `acquireStyle`. -/
  | acquire (scopeId : String) (anchor : Anchor)
  /-- `flushStyleAcquisitions`. -/
  | flush
  /-- The callback of `queueMicrotask`. -/
  | microtask
  /-- The callback of `setTimeout`. -/
  | macrotask
  /-- `releaseStyle`. -/
  | release (i : Nat)
  /-- `updateStyleRoot`. -/
  | update (i : Nat)
  /-- The anchor of a use is moved, or is another node. -/
  | move (i : Nat) (anchor : Anchor)
  /-- Others change the documents; their new elements come before `next`. -/
  | edit (dom : StyleRoot → Content) (next : Nat)

def State.acquire (s : State) (scopeId : String) (anchor : Anchor) : State :=
  { s with
    uses := s.uses ++ [⟨scopeId, anchor, none, false⟩]
    pending := s.pending ++ [s.uses.length]
    resolveScheduled := true }

def State.release (s : State) (i : Nat) (use : StyleUse) : State :=
  if use.released then s
  else
    match use.root with
    | none =>
        { s with
          uses := s.uses.set i { use with released := true }
          pending := s.pending.erase i }
    | some root =>
        { s with
          uses := s.uses.set i { use with released := true, root := none }
          releases := s.releases ++ [(root, use.scopeId)]
          releaseScheduled := true }

def State.update (s : State) (i : Nat) (use : StyleUse) : State :=
  if use.released || !use.anchor.connected then s
  else
    match use.root, use.anchor.root with
    | some old, some root =>
        if root = old then s
        else
          { s with
            releases := s.releases ++ [(old, use.scopeId)]
            releaseScheduled := true }.attach i use root
    | _, _ => s

def step (s : State) : Event → Option State
  | .acquire scopeId anchor => some (s.acquire scopeId anchor)
  | .flush => some (s.resolvePending false)
  | .microtask =>
      if s.resolveScheduled then some ({ s with resolveScheduled := false }.resolvePending true) else none
  | .macrotask => if s.releaseScheduled then some s.applyReleases else none
  | .release i => (s.uses[i]?).map (s.release i)
  | .update i => (s.uses[i]?).map (s.update i)
  | .move i anchor => (s.uses[i]?).map fun use => { s with uses := s.uses.set i { use with anchor := anchor } }
  | .edit dom next => some { s with dom := dom, nextElement := next }

/-- No use and no entry; the documents are as they were served. -/
def initial (dom : StyleRoot → Content) (next : Nat) : State :=
  { uses := [], pending := [], releases := [], registries := fun _ _ => none, managedStyles := [],
    resolveScheduled := false, releaseScheduled := false, dom, nextElement := next, owned := [] }

/-- An element is in one place, and those below `next` are all there are. -/
structure Documents (dom : StyleRoot → Content) (next : Nat) : Prop where
  unique : ∀ el root scopeId root' scopeId', (el, scopeId) ∈ (dom root).styles →
    (el, scopeId') ∈ (dom root').styles → root = root' ∧ scopeId = scopeId'
  known : ∀ el root scopeId, (el, scopeId) ∈ (dom root).styles → el < next

/-- Others leave every element of the registry where it is. -/
def Undisturbed (s : State) : Event → Prop
  | .edit dom next => Documents dom next ∧ s.nextElement ≤ next ∧
      ∀ el root scopeId, (el, root, scopeId) ∈ s.owned →
        ∀ root' scopeId', (el, scopeId') ∈ (dom root').styles ↔ (el, scopeId') ∈ (s.dom root').styles
  | _ => True

/-- The root can take a style element: all but a document without an element can. -/
def HasPlace (dom : StyleRoot → Content) : StyleRoot → Prop
  | .document n => (dom (.document n)).head.isSome = true ∨ (dom (.document n)).documentElement = true
  | .shadow _ => True

end Cossack.Renderer.StyleRegistry
