import Cossack.Lib.Entries
import Cossack.Lib.JsonTree
import Cossack.Lib.Sequences

/-! # The ledger of optimistic calls

    `optimistic-state.ts` for one component.  Field values are plain trees and
    opaque values; two values are the same here when `equal` says so, so a
    plain object is the list of its properties in key order.  Properties of the
    component store what is assigned to them.  A handler is the sequence of the
    assignments and operations it makes. -/

namespace Cossack.Core

/-- What optimistic operations and state frames use of the numbers. -/
class JsNumber (N : Type) extends Add N where
  isFinite : N → Bool
  /-- The number as a cursor, when it is a safe integer and not negative. -/
  safeNat : N → Option Nat

/-- Whole numbers below the range of doubles, to evaluate the model. -/
instance : JsNumber Int where
  isFinite n := decide (n.natAbs.log2 < 1024)
  safeNat n := if 0 ≤ n && n.natAbs.log2 < 53 then some n.natAbs else none

/-- A field value: JSON data, and values that are no plain data (`undefined`,
    functions, class instances) as leaves. -/
abbrev Value (N L : Type) := JsonTree N L

variable {N L : Type} [JsNumber N] [DecidableEq N] [DecidableEq L]

/-! ## Section 1: Values and operations -/

inductive OptimisticOperation (N L : Type) where
  | increment (amount : N)
  | append (value : Value N L)
  | remove (value : Value N L)

mutual
/-- `copy`: the same value, unless an object or array lies below the limit. -/
def copyAt (depth : Nat) (value : Value N L) : Except String (Value N L) :=
  match value with
  | .null => .ok .null
  | .bool b => .ok (.bool b)
  | .num n => .ok (.num n)
  | .str s => .ok (.str s)
  | .leaf l => .ok (.leaf l)
  | .arr items =>
      if depth > 256 then .error "Optimistic field snapshot exceeds maximum depth."
      else (copyItems (depth + 1) items).map .arr
  | .obj entries =>
      if depth > 256 then .error "Optimistic field snapshot exceeds maximum depth."
      else (copyEntries (depth + 1) entries).map .obj

def copyItems (depth : Nat) : List (Value N L) → Except String (List (Value N L))
  | [] => .ok []
  | value :: rest => do
      let value' ← copyAt depth value
      let rest' ← copyItems depth rest
      return value' :: rest'

def copyEntries (depth : Nat) : List (String × Value N L) → Except String (List (String × Value N L))
  | [] => .ok []
  | (key, value) :: rest => do
      let value' ← copyAt depth value
      let rest' ← copyEntries depth rest
      return (key, value') :: rest'
end

def copy (value : Value N L) : Except String (Value N L) := copyAt 0 value

def editError (detail : String) : String := "[Cossack] Invalid optimistic edit: " ++ detail

mutual
/-- `operationValue`: finite plain data within the limit. -/
def operationValueAt (depth : Nat) (value : Value N L) : Except String (Value N L) :=
  match value with
  | .null => .ok .null
  | .bool b => .ok (.bool b)
  | .str s => .ok (.str s)
  | .num n =>
      if JsNumber.isFinite n then .ok (.num n)
      else .error (editError
        "operation values must be finite, plain data within the depth limit.")
  | .leaf _ => .error (editError "operation values must be acyclic plain objects or arrays.")
  | .arr items =>
      if depth > 256 then
        .error (editError "operation values must be finite, plain data within the depth limit.")
      else (operationItems (depth + 1) items).map .arr
  | .obj entries =>
      if depth > 256 then
        .error (editError "operation values must be finite, plain data within the depth limit.")
      else (operationEntries (depth + 1) entries).map .obj

def operationItems (depth : Nat) : List (Value N L) → Except String (List (Value N L))
  | [] => .ok []
  | value :: rest => do
      let value' ← operationValueAt depth value
      let rest' ← operationItems depth rest
      return value' :: rest'

def operationEntries (depth : Nat) :
    List (String × Value N L) → Except String (List (String × Value N L))
  | [] => .ok []
  | (key, value) :: rest => do
      let value' ← operationValueAt depth value
      let rest' ← operationEntries depth rest
      return (key, value') :: rest'
end

def operationValue (value : Value N L) : Except String (Value N L) := operationValueAt 0 value

/-- One round of `applyOperations`. -/
def applyOperation (value : Value N L) : OptimisticOperation N L → Except String (Value N L)
  | .increment amount =>
      match value with
      | .num n =>
          if JsNumber.isFinite n && JsNumber.isFinite (n + amount) then .ok (.num (n + amount))
          else .error (editError "increment requires a finite number and finite result.")
      | _ => .error (editError "increment requires a finite number and finite result.")
  | .append item =>
      match value with
      | .arr items => (copy item).map fun copied => .arr (items ++ [copied])
      | _ => .error (editError "append requires an array.")
  | .remove item =>
      match value with
      | .arr items => .ok (.arr (items.erase item))
      | _ => .error (editError "remove requires an array.")

def applyOperations (value : Value N L) (operations : List (OptimisticOperation N L)) :
    Except String (Value N L) :=
  operations.foldlM applyOperation value

/-! ## Section 2: The ledger -/

/-- The contribution of a call to a field.  A call is known by its sequence,
    which no other call or local edit of the ledger has. -/
structure Change (N L : Type) where
  sequence : Nat
  value : Value N L
  operations : Option (List (OptimisticOperation N L))

structure OwnedField (N L : Type) where
  base : Value N L
  sequence : Nat
  changes : List (Change N L)
  displayed : Value N L
  localEdit : Option (Change N L)

structure OptimisticCall where
  id : Nat
  sequence : Nat
  fields : List String

structure Ledger (N L : Type) where
  clock : Nat
  calls : List OptimisticCall
  fields : List (String × OwnedField N L)

/-- A component: its properties, the ledger while calls are pending, and the
    number of calls begun so far. -/
structure Component (N L : Type) where
  target : String → Value N L
  ledger : Option (Ledger N L)
  begun : Nat

def assign (target : String → Value N L) (key : String) (value : Value N L) :
    String → Value N L := fun k => if k = key then value else target k

def findCall (ledger : Ledger N L) (id : Nat) : Option OptimisticCall :=
  ledger.calls.find? (·.id == id)

/-- `changes.sort((a, b) => a.sequence - b.sequence)`, the local edit included. -/
def contributions (field : OwnedField N L) : List (Change N L) :=
  Sequences.sorted Change.sequence (field.changes ++ field.localEdit.toList)

/-- The loop of `write` over the sorted contributions. -/
def replay (sequence : Nat) (value : Value N L) : List (Change N L) → Except String (Value N L)
  | [] => .ok value
  | change :: rest =>
      if change.sequence ≤ sequence then replay sequence value rest
      else
        match change.operations with
        | some operations => do replay sequence (← applyOperations value operations) rest
        | none => replay sequence change.value rest

def shown (field : OwnedField N L) : Except String (Value N L) :=
  replay field.sequence field.base (contributions field)

/-- `write`: what the property `current` becomes, and the field.  The setter's
    own `noteOptimisticWrite` returns at once, because the ledger is writing. -/
def write (current : Value N L) (field : OwnedField N L) :
    Except String (Value N L × OwnedField N L) := do
  let value ← shown field
  let current' := if current = value then current else value
  return (current', { field with displayed := current' })

def setField (ledger : Ledger N L) (key : String) (field : OwnedField N L) : Ledger N L :=
  { ledger with fields := Entries.set ledger.fields key field }

/-- `noteOptimisticWrite` outside of a write and of a handler. -/
def noteOptimisticWrite (target : String → Value N L) (ledger : Ledger N L) (key : String) :
    Ledger N L :=
  match Entries.get ledger.fields key with
  | none => ledger
  | some field =>
      setField { ledger with clock := ledger.clock + 1 } key
        { field with
          localEdit := some { sequence := ledger.clock + 1, value := target key, operations := none }
          displayed := target key }

/-- A setter of the component: a local edit. -/
def localEdit (c : Component N L) (key : String) (value : Value N L) : Component N L :=
  let target := assign c.target key value
  { c with target := target, ledger := c.ledger.map fun l => noteOptimisticWrite target l key }

def observeExternal (target : String → Value N L) (ledger : Ledger N L) (key : String) :
    Ledger N L :=
  match Entries.get ledger.fields key with
  | none => ledger
  | some field =>
      if target key = field.displayed then ledger else noteOptimisticWrite target ledger key

/-! ## Section 3: Handlers -/

inductive HandlerAction (N L : Type) where
  | assign (key : String) (value : Value N L)
  /-- An operation; `caught` when the handler catches its error. -/
  | record (key : String) (operation : OptimisticOperation N L) (caught : Bool)

/-- What a synchronous handler does, and whether it throws in the end. -/
structure Handler (N L : Type) where
  actions : List (HandlerAction N L)
  throws : Bool

/-- The state of a running handler. -/
structure Capture (N L : Type) where
  target : String → Value N L
  operations : List (String × List (OptimisticOperation N L))

def checkedOperation : OptimisticOperation N L → Except String (OptimisticOperation N L)
  | .increment amount =>
      if JsNumber.isFinite amount then .ok (.increment amount)
      else .error (editError "increment amount must be finite.")
  | .append value => (operationValue value).map .append
  | .remove value => (operationValue value).map .remove

/-- `recordOptimisticOperation`. -/
def recordOptimisticOperation (before : List (String × Value N L)) (capture : Capture N L)
    (key : String) (operation : OptimisticOperation N L) : Except String (Capture N L) := do
  match Entries.get before key with
  | none => .error (editError ("'" ++ key ++ "' is not an initialized reactive field."))
  | some start =>
      let operations := (Entries.get capture.operations key).getD []
      if capture.target key ≠ (← applyOperations start operations) then
        .error (editError ("do not mix direct assignments and operations on '" ++ key ++
          "' in one handler."))
      else
        let recorded ← checkedOperation operation
        let next ← applyOperations (capture.target key) [recorded]
        return {
          target := assign capture.target key next
          operations := Entries.set capture.operations key (operations ++ [recorded]) }

/-- The actions up to the first error the handler does not catch; `true` when
    there is one. -/
def runActions (before : List (String × Value N L)) :
    List (HandlerAction N L) → Capture N L → Capture N L × Bool
  | [], capture => (capture, false)
  | .assign key value :: rest, capture =>
      runActions before rest { capture with target := assign capture.target key value }
  | .record key operation caught :: rest, capture =>
      match recordOptimisticOperation before capture key operation with
      | .ok capture' => runActions before rest capture'
      | .error _ => if caught then runActions before rest capture else (capture, true)

/-- The bookkeeping of one call over the captured fields. -/
structure Captured (N L : Type) where
  fields : List (String × OwnedField N L)
  touched : List String
  failed : Bool

/-- `next`, checked against the recorded operations. -/
def capturedValue (key : String) (start current : Value N L)
    (operations : Option (List (OptimisticOperation N L))) : Except String (Value N L) := do
  let next ← copy current
  match operations with
  | none => return next
  | some operations =>
      if next ≠ (← applyOperations start operations) then
        .error (editError ("do not mix direct assignments and operations on '" ++ key ++
          "' in one handler."))
      else return next

def newField (start : Value N L) : OwnedField N L :=
  { base := start, sequence := 0, changes := [], displayed := start, localEdit := none }

/-- A field that the handler changed, with the contribution of the call; `true`
    when its value is rejected. -/
def captureField (sequence : Nat) (capture : Capture N L) (key : String) (start : Value N L)
    (owned : Option (OwnedField N L)) : OwnedField N L × Bool :=
  let field := owned.getD (newField start)
  let operations := Entries.get capture.operations key
  match capturedValue key start (capture.target key) operations with
  | .ok next =>
      ({ field with
          changes := field.changes ++ [{ sequence, value := next, operations }]
          displayed := next }, false)
  | .error _ => (field, true)

/-- `!operations && equal(value, target[key])` does not hold. -/
def touches (capture : Capture N L) (key : String) (start : Value N L) : Bool :=
  !((Entries.get capture.operations key).isNone && decide (start = capture.target key))

/-- The loop over `before` once the handler has returned. -/
def captureFields (sequence : Nat) (capture : Capture N L) :
    List (String × Value N L) → Captured N L → Captured N L
  | [], done => done
  | (key, start) :: rest, done =>
      if touches capture key start then
        let captured := captureField sequence capture key start (Entries.get done.fields key)
        captureFields sequence capture rest
          { fields := Entries.set done.fields key captured.1
            touched := done.touched ++ [key]
            failed := done.failed || captured.2 }
      else captureFields sequence capture rest done

/-- `changes.delete(call)`. -/
def dropChange (field : OwnedField N L) (sequence : Nat) : OwnedField N L :=
  { field with changes := field.changes.filter (·.sequence != sequence) }

/-- An update of one field and of its property, and the error it throws. -/
abbrev FieldUpdate (N L : Type) :=
  Value N L → OwnedField N L → Value N L × OwnedField N L × Option String

/-- Update the fields `keys` one after the other until an update throws;
    `observe` is `observeExternal` before each of them. -/
def eachField (observe : Bool) (update : FieldUpdate N L) :
    List String → (String → Value N L) → Ledger N L → (String → Value N L) × Ledger N L × Option String
  | [], target, ledger => (target, ledger, none)
  | key :: rest, target, ledger =>
      let ledger := if observe then observeExternal target ledger key else ledger
      match Entries.get ledger.fields key with
      | none => eachField observe update rest target ledger
      | some field =>
          let updated := update (target key) field
          let target := assign target key updated.1
          let ledger := setField ledger key updated.2.1
          match updated.2.2 with
          | none => eachField observe update rest target ledger
          | some message => (target, ledger, some message)

/-- `changes.delete(call)` and `write`. -/
def withdrawChange (sequence : Nat) : FieldUpdate N L := fun current field =>
  let field := dropChange field sequence
  match write current field with
  | .ok (current', field') => (current', field', none)
  | .error message => (current, field, some message)

def observeAll (target : String → Value N L) (ledger : Ledger N L) : Ledger N L :=
  (ledger.fields.map Prod.fst).foldl (observeExternal target) ledger

/-- `keys.map(key => [key, copy(target[key])])`. -/
def snapshotFields (target : String → Value N L) (keys : List String) :
    Except String (List (String × Value N L)) :=
  keys.mapM fun key => (copy (target key)).map fun value => (key, value)

/-- `beginOptimisticCall`, and the error it throws.  The call is known by its
    number; `keys` are the reactive fields of the component. -/
def beginOptimisticCall (c : Component N L) (handler : Option (Handler N L)) (keys : List String) :
    Component N L × Option String :=
  let ledger := observeAll c.target (c.ledger.getD { clock := 0, calls := [], fields := [] })
  let sequence := ledger.clock + 1
  let idle : OptimisticCall := { id := c.begun, sequence, fields := [] }
  let plain : Component N L :=
    { target := c.target
      ledger := some { ledger with clock := sequence, calls := ledger.calls ++ [idle] }
      begun := c.begun + 1 }
  match handler, snapshotFields c.target keys with
  | none, _ => (plain, none)
  | some _, .error _ => (plain, none)
  | some handler, .ok before =>
      let ran := runActions before handler.actions { target := c.target, operations := [] }
      let captured := captureFields sequence ran.1 before
        { fields := ledger.fields, touched := [], failed := ran.2 || handler.throws }
      if captured.failed then
        let withdrawn := eachField false (withdrawChange sequence) captured.touched ran.1.target
          { clock := sequence, calls := ledger.calls ++ [idle], fields := captured.fields }
        -- `call.fields.clear()` is not reached when a `write` throws
        let touched := if withdrawn.2.2.isSome then captured.touched else []
        ({ target := withdrawn.1
           ledger := some { withdrawn.2.1 with
             calls := ledger.calls ++ [{ idle with fields := touched }] }
           begun := c.begun + 1 }, withdrawn.2.2)
      else
        ({ target := ran.1.target
           ledger := some
             { clock := sequence
               calls := ledger.calls ++ [{ idle with fields := captured.touched }]
               fields := captured.fields }
           begun := c.begun + 1 }, none)

/-! ## Section 4: Frames and settlement -/

/-- `field.local = undefined` when the call is no older than the edit. -/
def releaseEdit (field : OwnedField N L) (sequence : Nat) : OwnedField N L :=
  { field with
    localEdit := field.localEdit.filter fun edit => decide (sequence < edit.sequence) }

/-- The base an authoritative value gives the field. -/
def rebase (field : OwnedField N L) (value : Value N L) (call : Option OptimisticCall)
    (echo : Bool) : Except String (OwnedField N L) :=
  match call with
  | none => if echo then .ok field else (copy value).map fun base => { field with base }
  | some call =>
      if echo || decide (call.sequence < field.sequence) then .ok field
      else
        (copy value).map fun base =>
          releaseEdit { field with base, sequence := call.sequence } call.sequence

/-- The result of `applyOptimisticState`: whether the field is owned, or the
    error it throws. -/
abbrev Applied := Except String Bool

/-- `applyOptimisticState`.  `call` is `none` for a broadcast; a call that has
    settled owns nothing. -/
def applyOptimisticState (c : Component N L) (key : String) (value : Value N L)
    (call : Option Nat) (echo : Bool) : Component N L × Applied :=
  match c.ledger with
  | none => (c, .ok false)
  | some ledger =>
      let active := call.bind (findCall ledger)
      if call.isSome && active.isNone then (c, .ok false)
      else
        match Entries.get ledger.fields key with
        | none => (c, .ok false)
        | some _ =>
            let ledger := observeExternal c.target ledger key
            match Entries.get ledger.fields key with
            | none => (c, .ok false)
            | some field =>
                match rebase field value active echo with
                | .error message => ({ c with ledger := some ledger }, .error message)
                | .ok field =>
                    match write (c.target key) field with
                    | .error message =>
                        ({ c with ledger := some (setField ledger key field) }, .error message)
                    | .ok (current, field) =>
                        ({ c with
                            target := assign c.target key current
                            ledger := some (setField ledger key field) }, .ok true)

/-- The commit of a direct assignment in `finishOptimisticCall`. -/
def commitDirect (field : OwnedField N L) (call : OptimisticCall) (change : Option (Change N L)) :
    Except String (OwnedField N L) :=
  match change with
  | none => .ok field
  | some change =>
      if change.operations.isNone && decide (field.sequence < call.sequence) then
        (copy change.value).map fun base => { field with base, sequence := call.sequence }
      else .ok field

def findChange (field : OwnedField N L) (sequence : Nat) : Option (Change N L) :=
  field.changes.find? (·.sequence == sequence)

/-- The field as the `try` block of `finishOptimisticCall` leaves it for `write`. -/
def settledField (call : OptimisticCall) (success : Bool) (field : OwnedField N L) :
    Except String (OwnedField N L) := do
  let change := findChange field call.sequence
  let committed ← if success then commitDirect field call change else .ok field
  if success && (change.bind Change.operations).isSome then return committed
  else
    let released := if success then releaseEdit committed call.sequence else committed
    return dropChange released call.sequence

/-- The `try` and `finally` blocks of `finishOptimisticCall` for one field; its
    errors are logged. -/
def settleField (call : OptimisticCall) (success : Bool) : FieldUpdate N L := fun current field =>
  match settledField call success field with
  | .error _ => (current, dropChange field call.sequence, none)
  | .ok field' =>
      match write current field' with
      | .error _ => (current, field', none)
      | .ok (current', field'') => (current', field'', none)

/-- `finishOptimisticCall` up to the deletion of the ledger. -/
def settleCall (c : Component N L) (id : Nat) (success : Bool) : Component N L :=
  match c.ledger with
  | none => c
  | some ledger =>
      match findCall ledger id with
      | none => c
      | some call =>
          let settled := eachField true (settleField call success) call.fields c.target
            { ledger with calls := ledger.calls.filter (·.id != id) }
          { c with target := settled.1, ledger := some settled.2.1 }

/-- `if (!ledger.calls.size) ledgers.delete(target)`. -/
def releaseLedger (c : Component N L) : Component N L :=
  { c with ledger := c.ledger.filter fun ledger => !ledger.calls.isEmpty }

def finishOptimisticCall (c : Component N L) (id : Nat) (success : Bool) : Component N L :=
  match c.ledger.bind (findCall · id) with
  | none => c
  | some _ => releaseLedger (settleCall c id success)

/-- `field.changes.has(call)`. -/
def hasChange (ledger : Ledger N L) (call : OptimisticCall) (key : String) : Bool :=
  match Entries.get ledger.fields key with
  | none => false
  | some field => (findChange field call.sequence).isSome

/-- `confirmOptimisticFields`: an older snapshot of a call, and the error it
    throws. -/
def confirmOptimisticFields (c : Component N L) (id : Nat) (keys : List String) :
    Component N L × Option String :=
  match c.ledger with
  | none => (c, none)
  | some ledger =>
      match findCall ledger id with
      | none => (c, none)
      | some call =>
          let confirmed := eachField true (withdrawChange call.sequence)
            (keys.filter (hasChange ledger call)) c.target ledger
          ({ c with target := confirmed.1, ledger := some confirmed.2.1 }, confirmed.2.2)

end Cossack.Core
