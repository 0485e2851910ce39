import Cossack.Lib.Entries
import Cossack.Lib.JsString
import Mathlib

/-! # JavaScript objects

    A heap of objects with prototypes, and what strict code does to them:
    property lookup, assignment and `push`.  An object is known by its place in
    the heap, and objects are created at its end. -/

namespace JsObjects

abbrev Ref := Nat

/-- Strings are lists of UTF-16 code units. -/
inductive JsValue where
  | undefined
  | null
  | number (n : Nat)
  | text (units : List Nat)
  | ref (r : Ref)
  deriving DecidableEq

inductive Property where
  | data (value : JsValue) (writable : Bool)
  /-- An accessor without a setter. -/
  | getter (read : JsValue → JsValue)
  /-- The accessor `__proto__`. -/
  | prototypeAccessor

/-- An object; an array is one with a `length`, and its elements are the
    properties that are array indices. -/
structure JsObject where
  prototype : Option Ref
  properties : List (String × Property)
  length : Option Nat
  callable : Bool

abbrev Heap := List JsObject

/-- The built-in objects that lookups and calls refer to. -/
structure Realm where
  arrayPrototype : Ref
  stringPrototype : Ref
  numberPrototype : Ref
  arrayPush : Ref
  /-- `String(length - 1)` of a `length` that is no number, or the error it
      throws. -/
  indexBefore : Heap → JsValue → Except String String

/-! ## Section 1: Lookup -/

/-- The array index a property key is, if it is one. -/
def arrayIndex (key : String) : Option Nat :=
  let n := key.toList.foldl (fun n c => 10 * n + (c.toNat - 48)) 0
  if toString n = key ∧ n < 4294967295 then some n else none

def ownProperty (o : JsObject) (key : String) : Option Property :=
  match o.length with
  | some n => if key = "length" then some (.data (.number n) true) else Entries.get o.properties key
  | none => Entries.get o.properties key

/-- The property of the object or of the first object on its prototype chain
    that has it. -/
def findProperty (heap : Heap) : Nat → Option Ref → String → Option Property
  | 0, _, _ => none
  | _, none, _ => none
  | fuel + 1, some r, key =>
      match heap[r]? with
      | none => none
      | some o =>
          match ownProperty o key with
          | some p => some p
          | none => findProperty heap fuel o.prototype key

def lookup (realm : Realm) (heap : Heap) (v : JsValue) (key : String) : Option Property :=
  match v with
  | .undefined | .null => none
  | .number _ => findProperty heap heap.length (some realm.numberPrototype) key
  | .ref r => findProperty heap heap.length (some r) key
  | .text units =>
      if key = "length" then some (.data (.number units.length) false)
      else
        match (arrayIndex key).bind (units[·]?) with
        | some unit => some (.data (.text [unit]) false)
        | none => findProperty heap heap.length (some realm.stringPrototype) key

/-- `Object.getPrototypeOf`. -/
def prototypeOf (realm : Realm) (heap : Heap) : JsValue → JsValue
  | .undefined | .null => .null
  | .number _ => .ref realm.numberPrototype
  | .text _ => .ref realm.stringPrototype
  | .ref r => ((heap[r]?).bind JsObject.prototype).elim .null .ref

/-- `v[key]`. -/
def get (realm : Realm) (heap : Heap) (v : JsValue) (key : String) : JsValue :=
  match lookup realm heap v key with
  | none => .undefined
  | some (.data value _) => value
  | some (.getter read) => read v
  | some .prototypeAccessor => prototypeOf realm heap v

def isNullish (v : JsValue) : Bool := v == .undefined || v == .null

/-- `Array.isArray`. -/
def isArray (heap : Heap) : JsValue → Bool
  | .ref r => ((heap[r]?).bind JsObject.length).isSome
  | _ => false

/-- `typeof v === 'object'`. -/
def isObject (heap : Heap) : JsValue → Bool
  | .null => true
  | .ref r => (heap[r]?).any fun o => !o.callable
  | _ => false

/-- `key in v`. -/
def hasProperty (realm : Realm) (heap : Heap) (v : JsValue) (key : String) : Except String Bool :=
  match v with
  | .ref _ => .ok (lookup realm heap v key).isSome
  | _ => .error "TypeError"

/-! ## Section 2: Assignment -/

/-- Whether `r` is on the prototype chain of `p`. -/
def inherits (heap : Heap) (r : Ref) : Nat → Option Ref → Bool
  | 0, _ => false
  | _, none => false
  | fuel + 1, some p => p == r || inherits heap r fuel ((heap[p]?).bind JsObject.prototype)

/-- A data property of the object itself; an index past the end makes an array
    longer. -/
def JsObject.define (o : JsObject) (key : String) (value : JsValue) : JsObject :=
  { o with
    properties := Entries.set o.properties key (.data value true)
    length := o.length.map fun n => (arrayIndex key).elim n fun i => max n (i + 1) }

/-- The heap after an assignment or a call, and the error it throws. -/
structure Effect where
  heap : Heap
  error : Option String

def Effect.throw (heap : Heap) (message : String) : Effect := ⟨heap, some message⟩

def update (heap : Heap) (r : Ref) (change : JsObject → JsObject) : Heap := heap.modify r change

/-- `v[key] = value` in strict code.  Nothing here assigns a number to the
    length of an array. -/
def assign (realm : Realm) (heap : Heap) (v : JsValue) (key : String) (value : JsValue) : Effect :=
  match v, lookup realm heap v key with
  | _, some (.data _ false) | _, some (.getter _) => .throw heap "TypeError"
  | .ref r, some .prototypeAccessor =>
      match value with
      | .ref p =>
          if inherits heap r heap.length (some p) then .throw heap "TypeError"
          else ⟨update heap r fun o => { o with prototype := some p }, none⟩
      | .null => ⟨update heap r fun o => { o with prototype := none }, none⟩
      | _ => ⟨heap, none⟩
  | _, some .prototypeAccessor => ⟨heap, none⟩
  | .ref r, _ =>
      if isArray heap v && key == "length" then .throw heap "RangeError"
      else ⟨update heap r (·.define key value), none⟩
  | _, _ => .throw heap "TypeError"

/-- `v.push(value)`; what is no array has no such method. -/
def push (realm : Realm) (heap : Heap) (v : JsValue) (value : JsValue) : Effect :=
  match v, get realm heap v "push" with
  | .ref r, .ref method =>
      match (heap[r]?).bind JsObject.length with
      | none => .throw heap "TypeError"
      | some n =>
          if method = realm.arrayPush then
            ⟨update heap r (·.define (toString n) value),
              if n < 4294967295 then none else some "RangeError"⟩
          else .throw heap "TypeError"
  | _, _ => .throw heap "TypeError"

/-- `Object.create(null)`. -/
def bareObject : JsObject := { prototype := none, properties := [], length := none, callable := false }

/-- `[...items]`. -/
def arrayOf (realm : Realm) (items : List JsValue) : JsObject :=
  { prototype := some realm.arrayPrototype
    properties := items.mapIdx fun i item => (toString i, .data item true)
    length := some items.length
    callable := false }

/-! ## Section 3: Heaps without dangling references -/

def Live (size : Nat) (v : JsValue) : Prop := ∀ r, v = .ref r → r < size

def Property.Live (size : Nat) : Property → Prop
  | .data value _ => JsObjects.Live size value
  | .getter read => ∀ v, JsObjects.Live size (read v)
  | .prototypeAccessor => True

structure JsObject.Live (size : Nat) (o : JsObject) : Prop where
  prototype : ∀ p, o.prototype = some p → p < size
  properties : ∀ key property, Entries.get o.properties key = some property → property.Live size

structure Realm.Live (realm : Realm) (size : Nat) : Prop where
  arrays : realm.arrayPrototype < size
  strings : realm.stringPrototype < size
  numbers : realm.numberPrototype < size

/-- All references of the heap lead to objects of it. -/
def Sound (heap : Heap) : Prop :=
  ∀ (r : Ref) (o : JsObject), heap[r]? = some o → o.Live heap.length

theorem Live.mono {size size' : Nat} {v : JsValue} (h : Live size v) (hle : size ≤ size') :
    Live size' v := fun r heq => Nat.lt_of_lt_of_le (h r heq) hle

theorem Property.Live.mono {size size' : Nat} {property : Property} (h : property.Live size)
    (hle : size ≤ size') : property.Live size' := by
  cases property with
  | data value writable => exact JsObjects.Live.mono h hle
  | getter read => exact fun v => (h v).mono hle
  | prototypeAccessor => trivial

theorem JsObject.Live.mono {size size' : Nat} {o : JsObject} (h : o.Live size)
    (hle : size ≤ size') : o.Live size' where
  prototype := fun p heq => Nat.lt_of_lt_of_le (h.prototype p heq) hle
  properties := fun key property hget => (h.properties key property hget).mono hle

theorem Realm.Live.mono {realm : Realm} {size size' : Nat} (h : realm.Live size)
    (hle : size ≤ size') : realm.Live size' where
  arrays := Nat.lt_of_lt_of_le h.arrays hle
  strings := Nat.lt_of_lt_of_le h.strings hle
  numbers := Nat.lt_of_lt_of_le h.numbers hle

theorem live_primitive {size : Nat} {v : JsValue} (h : ∀ r, v ≠ .ref r) : Live size v :=
  fun r heq => absurd heq (h r)

theorem live_ref {size r : Nat} (h : r < size) : Live size (.ref r) := by
  rintro r' ⟨⟩
  exact h

section Sound

variable {realm : Realm} {heap : Heap}

theorem ownProperty_live {o : JsObject} {size : Nat} (h : o.Live size) {key : String}
    {property : Property} (hown : ownProperty o key = some property) : property.Live size := by
  unfold ownProperty at hown
  split at hown
  · split at hown
    · cases hown
      exact live_primitive fun r heq => (by cases heq)
    · exact h.properties key property hown
  · exact h.properties key property hown

theorem findProperty_live (h : Sound heap) {fuel : Nat} {start : Option Ref} {key : String}
    {property : Property} (hfind : findProperty heap fuel start key = some property) :
    property.Live heap.length := by
  induction fuel generalizing start with
  | zero => exact nomatch hfind
  | succ fuel ih =>
    cases start with
    | none => exact nomatch hfind
    | some r =>
      unfold findProperty at hfind
      cases hget : heap[r]? with
      | none =>
        rw [hget] at hfind
        exact nomatch hfind
      | some o =>
        simp only [hget] at hfind
        cases hown : ownProperty o key with
        | none =>
          rw [hown] at hfind
          exact ih hfind
        | some own =>
          rw [hown] at hfind
          cases hfind
          exact ownProperty_live (h r o hget) hown

theorem lookup_live (h : Sound heap) {v : JsValue} {key : String} {property : Property}
    (hfind : lookup realm heap v key = some property) : property.Live heap.length := by
  cases v with
  | undefined | null => exact nomatch hfind
  | number | ref => exact findProperty_live h hfind
  | text units =>
    unfold lookup at hfind
    simp only at hfind
    split at hfind
    · cases hfind
      exact live_primitive fun r heq => (nomatch heq)
    · split at hfind
      · cases hfind
        exact live_primitive fun r heq => (nomatch heq)
      · exact findProperty_live h hfind

theorem prototypeOf_live (h : Sound heap) (hrealm : realm.Live heap.length) (v : JsValue) :
    Live heap.length (prototypeOf realm heap v) := by
  cases v with
  | undefined | null => exact live_primitive fun r heq => (nomatch heq)
  | number => exact live_ref hrealm.numbers
  | text => exact live_ref hrealm.strings
  | ref r =>
    show Live heap.length (((heap[r]?).bind JsObject.prototype).elim .null .ref)
    cases hbind : (heap[r]?).bind JsObject.prototype with
    | none => exact live_primitive fun r heq => (nomatch heq)
    | some p =>
      obtain ⟨o, hget, hprototype⟩ := Option.bind_eq_some_iff.mp hbind
      exact live_ref ((h r o hget).prototype p hprototype)

theorem get_live (h : Sound heap) (hrealm : realm.Live heap.length) (v : JsValue) (key : String) :
    Live heap.length (get realm heap v key) := by
  unfold get
  cases hfind : lookup realm heap v key with
  | none => exact live_primitive fun r heq => (nomatch heq)
  | some property =>
    have hproperty := lookup_live h hfind
    cases property with
    | data value writable => exact hproperty
    | getter read => exact hproperty v
    | prototypeAccessor => exact prototypeOf_live h hrealm v

theorem sound_append (h : Sound heap) {o : JsObject} (ho : o.Live (heap.length + 1)) :
    Sound (heap ++ [o]) := by
  intro r o' hget
  rw [List.length_append, List.length_singleton]
  rcases Nat.lt_trichotomy r heap.length with hlt | rfl | hgt
  · rw [List.getElem?_append_left hlt] at hget
    exact (h r o' hget).mono (Nat.le_succ _)
  · rw [List.getElem?_concat_length] at hget
    cases hget
    exact ho
  · rw [List.getElem?_eq_none (by rw [List.length_append, List.length_singleton]; omega)] at hget
    exact nomatch hget

theorem update_length (heap : Heap) (r : Ref) (change : JsObject → JsObject) :
    (update heap r change).length = heap.length := List.length_modify _ _ _

theorem sound_update (h : Sound heap) {r : Ref} {change : JsObject → JsObject}
    (hchange : ∀ o, o.Live heap.length → (change o).Live heap.length) :
    Sound (update heap r change) := by
  intro r' o' hget
  rw [update_length]
  unfold update at hget
  rw [List.getElem?_modify] at hget
  obtain ⟨o, ho, rfl⟩ := Option.map_eq_some_iff.mp hget
  by_cases heq : r = r'
  · rw [if_pos heq]
    exact hchange o (h r' o ho)
  · rw [if_neg heq]
    exact h r' o ho

theorem define_live {o : JsObject} {size : Nat} (h : o.Live size) {value : JsValue}
    (hvalue : Live size value) (key : String) : (o.define key value).Live size where
  prototype := h.prototype
  properties := by
    intro k property hget
    change Entries.get (Entries.set o.properties key (.data value true)) k = some property at hget
    by_cases hk : key = k
    · subst hk
      rw [Entries.get_set_self] at hget
      cases hget
      exact hvalue
    · rw [Entries.get_set_of_ne _ _ hk] at hget
      exact h.properties k property hget

/-! ## Section 4: What an assignment leaves as it is -/

/-- An effect on `v` alone, after which no reference dangles. -/
structure Effect.OnlyOn (effect : Effect) (heap : Heap) (v : JsValue) : Prop where
  length : effect.heap.length = heap.length
  sound : Sound effect.heap
  frame : ∀ r, v ≠ .ref r → effect.heap[r]? = heap[r]?

theorem throw_onlyOn (h : Sound heap) (v : JsValue) (message : String) :
    (Effect.throw heap message).OnlyOn heap v := ⟨rfl, h, fun _ _ => rfl⟩

theorem update_onlyOn (h : Sound heap) {r : Ref} {change : JsObject → JsObject}
    (hchange : ∀ o, o.Live heap.length → (change o).Live heap.length) (error : Option String) :
    Effect.OnlyOn ⟨update heap r change, error⟩ heap (.ref r) where
  length := update_length heap r change
  sound := sound_update h hchange
  frame := by
    intro r' hne
    have hr : r ≠ r' := fun heq => hne (congrArg JsValue.ref heq)
    show (heap.modify r change)[r']? = heap[r']?
    rw [List.getElem?_modify]
    simp [hr]

theorem assign_onlyOn (h : Sound heap) (v : JsValue) (key : String) {value : JsValue}
    (hvalue : Live heap.length value) : (assign realm heap v key value).OnlyOn heap v := by
  unfold assign
  split
  · exact throw_onlyOn h _ _
  · exact throw_onlyOn h _ _
  · split
    · next p =>
      split
      · exact throw_onlyOn h _ _
      · apply update_onlyOn h
        intro o ho
        refine ⟨?_, ho.properties⟩
        rintro p' ⟨⟩
        exact hvalue p rfl
    · apply update_onlyOn h
      intro o ho
      exact ⟨fun _ heq => (nomatch heq), ho.properties⟩
    · exact ⟨rfl, h, fun _ _ => rfl⟩
  · exact ⟨rfl, h, fun _ _ => rfl⟩
  · split
    · exact throw_onlyOn h _ _
    · exact update_onlyOn h (fun o ho => define_live ho hvalue key) none
  · exact throw_onlyOn h _ _

theorem push_onlyOn (h : Sound heap) (v : JsValue) {value : JsValue}
    (hvalue : Live heap.length value) : (push realm heap v value).OnlyOn heap v := by
  unfold push
  split
  · split
    · exact throw_onlyOn h _ _
    · split
      · exact update_onlyOn h (fun o ho => define_live ho hvalue _) _
      · exact throw_onlyOn h _ _
  · exact throw_onlyOn h _ _

end Sound

/-! ## Section 5: Properties that nothing has -/

/-- No object that inherits from `r` through objects below `size` has `key`. -/
def Lacks (heap : Heap) (size : Nat) (r : Ref) (key : String) : Prop :=
  ∃ chain : Ref → Prop, chain r ∧ ∀ r, chain r → r < size ∧
    ∀ o, heap[r]? = some o → ownProperty o key = none ∧ ∀ p, o.prototype = some p → chain p

theorem Lacks.findProperty {heap : Heap} {size : Nat} {r : Ref} {key : String}
    (h : Lacks heap size r key) (fuel : Nat) : findProperty heap fuel (some r) key = none := by
  obtain ⟨chain, hr, hchain⟩ := h
  induction fuel generalizing r with
  | zero => rfl
  | succ fuel ih =>
    unfold JsObjects.findProperty
    cases hget : heap[r]? with
    | none => rfl
    | some o =>
      obtain ⟨hown, hprototype⟩ := (hchain r hr).2 o hget
      simp only [hown]
      cases hp : o.prototype with
      | none => cases fuel <;> rfl
      | some p => exact ih (hprototype p hp)

theorem Lacks.unchanged {heap heap' : Heap} {size : Nat} {r : Ref} {key : String}
    (h : Lacks heap size r key) (hsame : ∀ r < size, heap'[r]? = heap[r]?) :
    Lacks heap' size r key := by
  obtain ⟨chain, hr, hchain⟩ := h
  refine ⟨chain, hr, fun r hr => ⟨(hchain r hr).1, ?_⟩⟩
  rw [hsame r (hchain r hr).1]
  exact (hchain r hr).2

end JsObjects
