import Cossack.Lib.JsObjects

/-! # Form data

    `forms.ts`: bracket keys are split into segments, and values are assigned
    along them in a tree that starts with one object.  What the assignment
    walks through and stores into is recorded beside the heap. -/

namespace Cossack.Core

open JsObjects

/-! ## Section 1: Keys -/

inductive PathSegment where
  | name (s : String)
  /-- `ARRAY_NEXT`. -/
  | next
  deriving DecidableEq

/-- The bracket groups of a key; `inner` is what an open bracket holds so far,
    last character first. -/
def bracketSegments : Option (List Char) → List Char → List PathSegment
  | _, [] => []
  | none, c :: rest => bracketSegments (if c = '[' then some [] else none) rest
  | some inner, c :: rest =>
      if c = ']' then
        (if inner = [] then .next else .name (String.ofList inner.reverse)) ::
          bracketSegments none rest
      else bracketSegments (some (c :: inner)) rest

/-- `parseKeyPath`. -/
def parseKeyPath (key : String) : List PathSegment :=
  let leading := key.toList.takeWhile (· != '[')
  (if leading = [] then [] else [.name (String.ofList leading)]) ++
    bracketSegments none (key.toList.dropWhile (· != '['))

/-! ## Section 2: Assignment along a path -/

/-- A value of the form: a text, or a `File`. -/
inductive FormValue where
  | text (s : String)
  | file (r : Ref)

def FormValue.value : FormValue → JsValue
  | .text s => .text (JsString.utf16 s)
  | .file r => .ref r

/-- A value that becomes the container, or an object that is stored into. -/
inductive Access where
  | container (v : JsValue)
  | store (v : JsValue)
  deriving DecidableEq

/-- What an assignment did, up to the error it throws. -/
structure Walk where
  heap : Heap
  accesses : List Access
  error : Option String

def Walk.after (accesses : List Access) (walk : Walk) : Walk :=
  { walk with accesses := accesses ++ walk.accesses }

variable (realm : Realm)

/-- One assignment or `push`, into `target`. -/
def stores (target : JsValue) (effect : Effect) : Walk := ⟨effect.heap, [.store target], effect.error⟩

/-- The new container for what follows: an array for a positional segment. -/
def createChild (nextSeg : PathSegment) : JsObject :=
  if nextSeg = .next then arrayOf realm [] else bareObject

/-- `String(arr.length - 1)`. -/
def lastKey (heap : Heap) (arr : JsValue) : Except String String :=
  match get realm heap arr "length" with
  | .number 0 | .null => .ok "-1"
  | .number (n + 1) => .ok (toString n)
  | .undefined => .ok "NaN"
  | length => realm.indexBefore heap length

/-- `arr[arr.length - 1]`. -/
def lastElement (heap : Heap) (arr : JsValue) : Except String JsValue :=
  (lastKey realm heap arr).map (get realm heap arr)

/-- `canMerge`. -/
def canMerge (heap : Heap) (last : JsValue) (nextSeg : PathSegment) : Except String Bool :=
  match nextSeg with
  | .next => .ok false
  | .name nextKey =>
      if last ≠ .undefined ∧ isObject heap last ∧ ¬ isArray heap last then
        (hasProperty realm heap last nextKey).map (!·)
      else .ok false

/-- `assignPath` from `container` on. -/
def assignPath (heap : Heap) (container : JsValue) (value : JsValue) : List PathSegment → Walk
  | [] => ⟨heap, [], none⟩
  | [.next] => stores container (push realm heap container value)
  | .next :: nextSeg :: rest =>
      match lastElement realm heap container with
      | .error message => ⟨heap, [], some message⟩
      | .ok last =>
          match canMerge realm heap last nextSeg with
          | .error message => ⟨heap, [], some message⟩
          | .ok true =>
              (assignPath heap last value (nextSeg :: rest)).after [.container last]
          | .ok false =>
              let slot : JsValue := .ref heap.length
              let pushed := push realm (heap ++ [createChild realm nextSeg]) container slot
              match pushed.error with
              | some _ => stores container pushed
              | none =>
                  (assignPath pushed.heap slot value (nextSeg :: rest)).after
                    [.store container, .container slot]
  | [.name seg] =>
      let existing := get realm heap container seg
      if isNullish existing then stores container (assign realm heap container seg value)
      else if isArray heap existing then stores existing (push realm heap existing value)
      else
        stores container
          (assign realm (heap ++ [arrayOf realm [existing, value]]) container seg (.ref heap.length))
  | .name seg :: nextSeg :: rest =>
      let child := get realm heap container seg
      if isNullish child then
        let created : JsValue := .ref heap.length
        let assigned := assign realm (heap ++ [createChild realm nextSeg]) container seg created
        match assigned.error with
        | some _ => stores container assigned
        | none =>
            (assignPath assigned.heap created value (nextSeg :: rest)).after
              [.store container, .container created]
      else (assignPath heap child value (nextSeg :: rest)).after [.container child]

/-! ## Section 3: All pairs -/

/-- The assignments of the pairs, in order.  An array in a record is spread over
    its key, and a value without a key is ignored. -/
def assignments (pairs : List (String × List FormValue)) : List (List PathSegment × FormValue) :=
  pairs.flatMap fun pair =>
    if parseKeyPath pair.1 = [] then [] else pair.2.map fun value => (parseKeyPath pair.1, value)

/-- Assign one value after the other until one throws. -/
def assignAll (root : JsValue) (heap : Heap) : List (List PathSegment × FormValue) → Walk
  | [] => ⟨heap, [], none⟩
  | (segments, value) :: rest =>
      let walk := assignPath realm heap root value.value segments
      match walk.error with
      | some _ => walk
      | none => (assignAll root walk.heap rest).after walk.accesses

/-- `parseFormData`: the tree is the object at the end of `heap`. -/
def parseFormData (heap : Heap) (pairs : List (String × List FormValue)) : Walk :=
  assignAll realm (.ref heap.length) (heap ++ [bareObject]) (assignments pairs)

end Cossack.Core
