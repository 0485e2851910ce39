import Mathlib.Logic.Function.Basic
import Mathlib.Data.List.Basic

/-! # Store proxies

    `createStoreProxy` wraps the raw object of a store and, when they are read, its
    children.  Each proxy keeps the path its object was first read at and reports
    that path and the property whenever a write through it changes something.
    Array methods run on the proxy, so all they do goes through its traps. -/

namespace StoreProxy

/-! ## Section 1: Raw objects -/

abbrev Ref := Nat

inductive Key where
  | index (i : Nat)
  | name (s : String)
  deriving DecidableEq

/-- `String(prop)`. -/
def Key.text : Key → List Char
  | .index i => (toString i).toList
  | .name s => s.toList

abbrev Key.length : Key := .name "length"

/-- Values up to `===`, `NaN` being the same as itself.  What is neither a plain
    object nor an array is a scalar. -/
inductive Value (α : Type) where
  | undefined
  | number (n : Nat)
  | scalar (a : α)
  | object (r : Ref)
  deriving DecidableEq

/-- What the language says of scalars: their members, such as the length of a
    string, and the length a value that is no number gives an array. -/
structure Runtime (α : Type) where
  member : α → Key → Value α
  toLength : Value α → Option Nat

variable {α : Type}

/-- A plain object, or an array when it has a length. -/
structure Obj (α : Type) where
  slots : Key → Option (Value α)
  length : Option Nat
  /-- The elements of an array lie below its length. -/
  bounded : ∀ n i, length = some n → n ≤ i → slots (.index i) = none

namespace Obj

/-- `Reflect.get`. -/
def get (o : Obj α) (key : Key) : Value α :=
  if o.length.isSome ∧ key = .length then .number (o.length.getD 0)
  else (o.slots key).getD .undefined

/-- How long an array is once it has the slot. -/
def grown (n : Nat) : Key → Nat
  | .index i => max n (i + 1)
  | .name _ => n

def put (o : Obj α) (key : Key) (v : Value α) : Obj α where
  slots := Function.update o.slots key (some v)
  length := o.length.map (grown · key)
  bounded := by
    intro n i hn hi
    obtain ⟨m, hm, rfl⟩ := Option.map_eq_some_iff.mp hn
    cases key with
    | index j =>
      have hle : m ≤ i ∧ j + 1 ≤ i := Nat.max_le.mp hi
      have hne : Key.index i ≠ .index j := by
        rintro ⟨⟩
        omega
      rw [Function.update_of_ne hne]
      exact o.bounded m i hm hle.1
    | name s =>
      have hne : Key.index i ≠ .name s := by simp
      rw [Function.update_of_ne hne]
      exact o.bounded m i hm hi

/-- An array with its length assigned: what lies past it goes. -/
def setLength (o : Obj α) (n : Nat) : Obj α where
  slots
    | .index i => if i < n then o.slots (.index i) else none
    | .name s => o.slots (.name s)
  length := some n
  bounded := by
    rintro m i ⟨⟩ hi
    exact if_neg (Nat.not_lt.mpr hi)

/-- `Reflect.set` of a raw object; a value that is no length is a `RangeError`. -/
def set (runtime : Runtime α) (o : Obj α) (key : Key) (v : Value α) : Option (Obj α) :=
  if o.length.isSome ∧ key = .length then
    match v with
    | .number n => some (o.setLength n)
    | v => (runtime.toLength v).map o.setLength
  else some (o.put key v)

/-- `Reflect.deleteProperty`; the length of an array stays. -/
def deleteProperty (o : Obj α) (key : Key) : Option (Obj α) :=
  if o.length.isSome ∧ key = .length then none
  else some
    { slots := Function.update o.slots key none
      length := o.length
      bounded := by
        intro n i hn hi
        by_cases h : Key.index i = key
        · rw [h, Function.update_self]
        · rw [Function.update_of_ne h]
          exact o.bounded n i hn hi }

/-! The effect of each on what is read. -/

section Reading

variable {o : Obj α} {key other : Key} {v : Value α}

theorem get_of_ne_length (h : key ≠ .length) : o.get key = (o.slots key).getD .undefined :=
  if_neg fun hlength => h hlength.2

@[simp] theorem get_index (i : Nat) : o.get (.index i) = (o.slots (.index i)).getD .undefined :=
  get_of_ne_length (by simp)

theorem get_length {n : Nat} (h : o.length = some n) : o.get .length = .number n := by
  simp [get, h]

theorem get_of_plain (h : o.length = none) : o.get key = (o.slots key).getD .undefined := by
  simp [get, h]

theorem put_slots_self : (o.put key v).slots key = some v := Function.update_self ..

theorem put_slots_of_ne (h : other ≠ key) : (o.put key v).slots other = o.slots other :=
  Function.update_of_ne h ..

@[simp] theorem put_length : (o.put key v).length = o.length.map (grown · key) := rfl

theorem put_get_self (h : o.length = none ∨ key ≠ .length) : (o.put key v).get key = v := by
  rcases h with h | h
  · rw [get_of_plain (by simp [h]), put_slots_self]
    rfl
  · rw [get_of_ne_length h, put_slots_self]
    rfl

/-- Another slot is read as before, and so is the length of an array that does not
    grow. -/
theorem put_get_of_ne (hne : other ≠ key)
    (hgrow : other ≠ .length ∨ o.length.map (grown · key) = o.length) :
    (o.put key v).get other = o.get other := by
  rcases hgrow with h | h
  · rw [get_of_ne_length h, get_of_ne_length h, put_slots_of_ne hne]
  · unfold get
    rw [put_length, h, put_slots_of_ne hne]

theorem setLength_get_index {n i : Nat} (h : n ≤ i → o.get (.index i) = .undefined) :
    (o.setLength n).get (.index i) = o.get (.index i) := by
  by_cases hi : i < n
  · simp [setLength, hi]
  · have hnone : (o.setLength n).get (.index i) = .undefined := by simp [setLength, hi]
    rw [hnone, h (Nat.not_lt.mp hi)]

theorem setLength_get_name {n : Nat} {s : String} (h : Key.name s ≠ .length) :
    (o.setLength n).get (.name s) = o.get (.name s) := by
  rw [get_of_ne_length h, get_of_ne_length h]
  rfl

theorem set_of_ne_length {runtime : Runtime α} (h : key ≠ .length) :
    o.set runtime key v = some (o.put key v) :=
  if_neg fun hlength => h hlength.2

theorem set_of_plain {runtime : Runtime α} (h : o.length = none) :
    o.set runtime key v = some (o.put key v) := by
  simp [set, h]

end Reading

end Obj

/-! ## Section 2: Proxies and their traps -/

/-- A store with the proxies of one trigger: `inner` has the base path of each raw
    object that has a proxy. -/
structure Store (α : Type) where
  storeKey : List Char
  root : Ref
  heap : Ref → Obj α
  inner : Ref → Option (List Char)

/-- `` `${basePath}.${String(prop)}` ``. -/
def childPath (basePath : List Char) (key : Key) : List Char := basePath ++ '.' :: key.text

/-- An object that has a proxy keeps it. -/
def Store.createStoreProxy (s : Store α) (target : Ref) (basePath : List Char) : Store α :=
  match s.inner target with
  | some _ => s
  | none => { s with inner := Function.update s.inner target (some basePath) }

/-- Something runs on the proxy of a target: the store, and what it has reported. -/
structure Call (α : Type) where
  store : Store α
  reported : List (List Char)

namespace Call

variable [DecidableEq α] (runtime : Runtime α) (target : Ref) (basePath : List Char)

def object (c : Call α) : Obj α := c.store.heap target

def write (c : Call α) (o : Obj α) : Call α :=
  { c with store := { c.store with heap := Function.update c.store.heap target o } }

def report (c : Call α) (key : Key) : Call α :=
  { c with reported := c.reported ++ [childPath basePath key] }

/-- The `get` trap: a child gets its proxy when it is first read. -/
def get (c : Call α) (key : Key) : Call α :=
  match (c.object target).get key with
  | .object r => { c with store := c.store.createStoreProxy r (childPath basePath key) }
  | _ => c

/-- The `set` trap. -/
def set (c : Call α) (key : Key) (v : Value α) : Call α :=
  match (c.object target).set runtime key v with
  | none => c
  | some o =>
      if (c.object target).get key = v then c.write target o
      else (c.write target o).report basePath key

/-- The `deleteProperty` trap. -/
def delete (c : Call α) (key : Key) : Call α :=
  match (c.object target).deleteProperty key with
  | none => c
  | some o => (c.write target o).report basePath key

/-- `HasProperty` of an element; there is no trap for it. -/
def has (c : Call α) (i : Nat) : Bool := ((c.object target).slots (.index i)).isSome

/-- One element takes the place of another, or leaves a hole there. -/
def move (c : Call α) (source dest : Nat) : Call α :=
  if c.has target source then
    (c.get target basePath (.index source)).set runtime target basePath (.index dest)
      ((c.object target).get (.index source))
  else c.delete target basePath (.index dest)

/-- A turn of the loop of `reverse`. -/
def swap (c : Call α) (lower upper : Nat) : Call α :=
  let lowerValue := (c.object target).get (.index lower)
  let upperValue := (c.object target).get (.index upper)
  match c.has target lower, c.has target upper with
  | true, true =>
      let c := (c.get target basePath (.index lower)).get target basePath (.index upper)
      (c.set runtime target basePath (.index lower) upperValue).set runtime target basePath
        (.index upper) lowerValue
  | false, true =>
      let c := c.get target basePath (.index upper)
      (c.set runtime target basePath (.index lower) upperValue).delete target basePath
        (.index upper)
  | true, false =>
      let c := c.get target basePath (.index lower)
      (c.delete target basePath (.index lower)).set runtime target basePath (.index upper)
        lowerValue
  | false, false => c

end Call

/-! ## Section 3: Array methods -/

/-- What a method does to the proxy it runs on. -/
inductive Access (α : Type) where
  | get (key : Key)
  | set (key : Key) (v : Value α)
  | delete (key : Key)
  | move (source dest : Nat)
  | swap (lower upper : Nat)

/-- The loop of `splice` over what follows the deleted part, which moves to its new
    place: from its start when the array gets shorter, from its end when it gets
    longer. -/
def spliceMoves (len start deleteCount itemCount : Nat) : List (Access α) :=
  let indices := List.range (len - deleteCount - start)
  let move k := .move (start + k + deleteCount) (start + k + itemCount)
  if itemCount < deleteCount then
    indices.map move ++
      (List.range (deleteCount - itemCount)).map fun k => .delete (.index (len - 1 - k))
  else if deleteCount < itemCount then indices.reverse.map move
  else []

/-- What `splice` does to the elements of an array of length `len`. -/
def spliceLoops (len start deleteCount : Nat) (items : List (Value α)) : List (Access α) :=
  (List.range deleteCount).map (fun k => .get (.index (start + k))) ++
    spliceMoves len start deleteCount items.length ++
    items.mapIdx fun k item => .set (.index (start + k)) item

/-- `splice` from `start` on.  `push`, `pop`, `shift` and `unshift` do the same at one
    end of the array. -/
def splicing (len start deleteCount : Nat) (items : List (Value α)) : List (Access α) :=
  spliceLoops len start deleteCount items ++
    [.set .length (.number (len - deleteCount + items.length))]

inductive Operation (α : Type) where
  | assign (key : Key) (v : Value α)
  | delete (key : Key)
  | push (items : List (Value α))
  | pop
  | shift
  | unshift (items : List (Value α))
  | splice (start : Int) (deleteCount : Option Int) (items : List (Value α))
  /-- The elements in the order the comparison gives them. -/
  | sort (order : List (Value α))
  | reverse

/-- `actualStart` of `splice`. -/
def actualStart (len : Nat) (start : Int) : Nat :=
  if start < 0 then (len + start).toNat else min start.toNat len

/-- `actualDeleteCount` of `splice`. -/
def actualDeleteCount (len : Nat) (start : Int) : Option Int → Nat
  | none => len - actualStart len start
  | some count => min count.toNat (len - actualStart len start)

/-- The part of an array that an operation takes out and what it puts there, if it
    does so. -/
def Operation.splice? (len : Nat) : Operation α → Option (Nat × Nat × List (Value α))
  | .push items => some (len, 0, items)
  | .pop => some (len - 1, min len 1, [])
  | .shift => some (0, min len 1, [])
  | .unshift items => some (0, 0, items)
  | .splice start deleteCount items =>
      some (actualStart len start, actualDeleteCount len start deleteCount, items)
  | _ => none

/-- What an operation on an object does; an object that is no array has none of the
    methods. -/
def Operation.accesses (o : Obj α) : Operation α → List (Access α)
  | .assign key v => [.set key v]
  | .delete key => [.delete key]
  | .sort order =>
      match o.length with
      | none => []
      | some len =>
          ((List.range len).filter fun k => (o.slots (.index k)).isSome).map (.get <| .index ·) ++
            order.mapIdx (fun k v => .set (.index k) v) ++
            (List.range (len - order.length)).map fun k => .delete (.index (order.length + k))
  | .reverse =>
      match o.length with
      | none => []
      | some len => (List.range (len / 2)).map fun lower => .swap lower (len - lower - 1)
  | op =>
      match o.length with
      | none => []
      | some len =>
          match op.splice? len with
          | none => []
          | some (start, deleteCount, items) => splicing len start deleteCount items

section Run

variable [DecidableEq α] (runtime : Runtime α) (target : Ref) (basePath : List Char)

def Access.run (c : Call α) : Access α → Call α
  | .get key => c.get target basePath key
  | .set key v => c.set runtime target basePath key v
  | .delete key => c.delete target basePath key
  | .move source dest => c.move runtime target basePath source dest
  | .swap lower upper => c.swap runtime target basePath lower upper

def Call.run (c : Call α) (accesses : List (Access α)) : Call α :=
  accesses.foldl (Access.run runtime target basePath) c

/-- An operation on the proxy of an object: what it reports, and the store after
    it. -/
def operate (s : Store α) (target : Ref) (op : Operation α) : Call α :=
  match s.inner target with
  | none => ⟨s, []⟩
  | some basePath =>
      (Call.mk s []).run runtime target basePath (op.accesses (s.heap target))

end Run

/-! ## Section 4: What the traps leave as it was -/

/-- Two stores differ at most in one raw object and in the proxies there are. -/
structure Store.SameBut (target : Ref) (s s' : Store α) : Prop where
  storeKey : s'.storeKey = s.storeKey
  root : s'.root = s.root
  others : ∀ r, r ≠ target → s'.heap r = s.heap r

theorem Store.SameBut.refl (target : Ref) (s : Store α) : s.SameBut target s := ⟨rfl, rfl, fun _ _ => rfl⟩

theorem Store.SameBut.trans {target : Ref} {s s' s'' : Store α} (h : s.SameBut target s')
    (h' : s'.SameBut target s'') : s.SameBut target s'' :=
  ⟨h'.storeKey.trans h.storeKey, h'.root.trans h.root, fun r hr => (h'.others r hr).trans (h.others r hr)⟩

section Traps

variable {target : Ref} {basePath : List Char} {c : Call α} {key : Key} {o : Obj α}

theorem Store.createStoreProxy_same (s : Store α) (r : Ref) (basePath : List Char) :
    (s.createStoreProxy r basePath).storeKey = s.storeKey ∧
      (s.createStoreProxy r basePath).root = s.root ∧
      (s.createStoreProxy r basePath).heap = s.heap := by
  unfold createStoreProxy
  cases s.inner r <;> exact ⟨rfl, rfl, rfl⟩

theorem Call.get_same : c.store.SameBut target (c.get target basePath key).store := by
  unfold get
  split
  next r _ =>
    obtain ⟨hkey, hroot, hheap⟩ := c.store.createStoreProxy_same r (childPath basePath key)
    exact ⟨hkey, hroot, fun r _ => congrFun hheap r⟩
  next => exact .refl target c.store

@[simp] theorem Call.get_reported : (c.get target basePath key).reported = c.reported := by
  unfold get
  split <;> rfl

@[simp] theorem Call.get_object : (c.get target basePath key).object target = c.object target := by
  unfold get
  split
  · exact congrFun (Store.createStoreProxy_same c.store _ _).2.2 target
  · rfl

@[simp] theorem Call.write_object : (c.write target o).object target = o := Function.update_self ..

@[simp] theorem Call.write_reported : (c.write target o).reported = c.reported := rfl

@[simp] theorem Call.report_object : (c.report basePath key).object target = c.object target := rfl

@[simp] theorem Call.report_reported :
    (c.report basePath key).reported = c.reported ++ [childPath basePath key] := rfl

theorem Call.write_same : c.store.SameBut target (c.write target o).store :=
  ⟨rfl, rfl, fun _ hr => Function.update_of_ne hr ..⟩

end Traps

end StoreProxy
