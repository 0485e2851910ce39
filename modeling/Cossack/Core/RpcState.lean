import Cossack.Core.OptimisticState
import Cossack.Core.RpcFiles

/-! # State frames of a call

    `createStateApplier` of `rpc-state.ts`: a response or stream state of one
    call is applied field by field.  A JSON text is the value it denotes. -/

namespace Cossack.Core

variable {N L : Type} [JsNumber N] [DecidableEq N] [DecidableEq L]

/-! ## Section 1: Transport snapshots -/

/-- How a value that is no plain data crosses the transport: its JSON form,
    `none` for `undefined`, or the reason why it cannot. -/
abbrev LeafForm (N L : Type) := L → Except String (Option (Json N))

def unsupported (path reason : String) : RpcError :=
  .unsupported ((if path = "" then "(root)" else path) ++ " (" ++ reason ++ ")")

mutual
/-- `snapshotValue` on a field value; `none` is `undefined`. -/
def snapshotStateAt (leafForm : LeafForm N L) (path : String) (depth : Nat) (value : Value N L) :
    Except RpcError (Option (Json N)) :=
  if depth > maximumDepth then .error (unsupported path "maximum depth exceeded")
  else
    match value with
    | .null => .ok (some .null)
    | .bool b => .ok (some (.bool b))
    | .num n =>
        if JsNumber.isFinite n then .ok (some (.num n))
        else .error (unsupported path "non-finite number")
    | .str s => .ok (some (.str s))
    | .leaf l => (leafForm l).mapError (unsupported path)
    | .arr items => (snapshotStateItems leafForm path 0 (depth + 1) items).map fun items =>
        some (.arr items)
    | .obj entries => (snapshotStateEntries leafForm path (depth + 1) entries).map fun entries =>
        some (.obj entries)

/-- `undefined` in an array becomes `null`. -/
def snapshotStateItems (leafForm : LeafForm N L) (path : String) (index depth : Nat) :
    List (Value N L) → Except RpcError (List (Json N))
  | [] => .ok []
  | value :: rest => do
      let form ← snapshotStateAt leafForm (path ++ "[" ++ toString index ++ "]") depth value
      let rest' ← snapshotStateItems leafForm path (index + 1) depth rest
      return form.getD .null :: rest'

/-- Properties that are `undefined` are left out. -/
def snapshotStateEntries (leafForm : LeafForm N L) (path : String) (depth : Nat) :
    List (String × Value N L) → Except RpcError (List (String × Json N))
  | [] => .ok []
  | (key, value) :: rest => do
      let form ← snapshotStateAt leafForm (if path = "" then key else path ++ "." ++ key) depth value
      let rest' ← snapshotStateEntries leafForm path depth rest
      return (form.map fun json => (key, json)).toList ++ rest'
end

/-- `snapshotTransportState({ [key]: value })[key]`. -/
def snapshotTransportState (leafForm : LeafForm N L) (key : String) (value : Value N L) :
    Except RpcError (Option (Json N)) :=
  snapshotStateAt leafForm ("state." ++ key) 1 value

/-! ## Section 2: The applier -/

def reservedStateKeys : List String := ["loading", "isServer", "params"]

def isStateKey (key : String) : Bool :=
  !key.startsWith "_cossack_" && !reservedStateKeys.contains key

inductive ApplyError where
  | edit (message : String)
  | rpc (error : RpcError)

/-- A component, what the request of the call sent, and the SSE cursor of the
    last snapshot. -/
structure Client (N L : Type) where
  component : Component N L
  requestState : List (String × Option (Json N))
  cursor : Option Nat

/-- The call of an applier, and what its publications wrote. -/
structure Applier (N : Type) where
  call : OptimisticCall
  published : List (String × Json N)

/-- A state object; its keys are distinct. -/
abbrev Frame (N L : Type) := { entries : List (String × Value N L) // (entries.map Prod.fst).Nodup }

/-- The result of a check of the SSE cursor: `false` for an older snapshot. -/
def acceptSseCursor (client : Client N L) (state : List (String × Value N L)) :
    Client N L × Except RpcError Bool :=
  match Entries.get state "_cossack_sse_cursor" with
  | none => (client, .ok true)
  | some value =>
      let cursor := match value with
        | .num n => JsNumber.safeNat n
        | _ => none
      match cursor with
      | none => (client, .error ⟨"COSSACK_RPC_RESPONSE_INVALID", "Invalid SSE snapshot cursor."⟩)
      | some cursor =>
          if client.cursor.any fun latest => decide (cursor ≤ latest) then (client, .ok false)
          else ({ client with cursor := some cursor }, .ok true)

/-- `transportJsonEqual` with a form that was sent.  A value without a form is
    not identical to a snapshot. -/
def transportJsonEqual (live : Except RpcError (Option (Json N))) (sent : Option (Json N)) : Bool :=
  match live with
  | .ok form => decide (form = sent)
  | .error _ => false

/-- `requestState[key] = snapshotTransportState({ [key]: component[key] })[key]`. -/
def advance (leafForm : LeafForm N L) (client : Client N L) (key : String) :
    Client N L × Option RpcError :=
  match snapshotTransportState leafForm key (client.component.target key) with
  | .ok form => ({ client with requestState := Entries.set client.requestState key form }, none)
  | .error error => (client, some error)

/-- A publication of the call reached the component before the frame: a field
    that still holds it is no local edit. -/
def advancePublished (leafForm : LeafForm N L) (applier : Applier N) (client : Client N L) :
    List String → Client N L
  | [] => client
  | key :: rest =>
      let published := Entries.get applier.published key
      let live := snapshotTransportState leafForm key (client.component.target key)
      if published.isSome && (Entries.get client.requestState key).isSome &&
          transportJsonEqual live published then
        advancePublished leafForm applier (advance leafForm client key).1 rest
      else advancePublished leafForm applier client rest

/-- `!wasSent || transportJsonEqual(component[key], …, requestState[key], …)`. -/
def isCurrent (leafForm : LeafForm N L) (client : Client N L) (key : String) : Bool :=
  match Entries.get client.requestState key with
  | none => true
  | some sent =>
      transportJsonEqual (snapshotTransportState leafForm key (client.component.target key)) sent

def ownsOptimisticField (c : Component N L) (key : String) (call : Nat) : Bool :=
  match c.ledger with
  | none => false
  | some ledger => (findCall ledger call).isSome && (Entries.get ledger.fields key).isSome

/-- The frame echoes what the request sent of another call's field. -/
def isEcho (leafForm : LeafForm N L) (applier : Applier N) (client : Client N L) (key : String)
    (value : Value N L) : Bool :=
  match Entries.get client.requestState key with
  | none => false
  | some sent =>
      !applier.call.fields.contains key &&
        ownsOptimisticField client.component key applier.call.id &&
        transportJsonEqual (snapshotTransportState leafForm key value) sent

/-- One round of the loop over a frame; `true` when the field can be advanced.
    `setState` is the setter of the component. -/
def applyEntry (leafForm : LeafForm N L) (applier : Applier N) (client : Client N L) (key : String)
    (value : Value N L) : Client N L × Except String Bool :=
  let current := isCurrent leafForm client key
  let echo := isEcho leafForm applier client key value
  let applied := applyOptimisticState client.component key value (some applier.call.id) echo
  match applied.2 with
  | .error message => ({ client with component := applied.1 }, .error message)
  | .ok owned =>
      if !owned && current then
        ({ client with component := localEdit applied.1 key value }, .ok current)
      else ({ client with component := applied.1 }, .ok current)

/-- The loop over a frame that is not older; the keys that can be advanced. -/
def applyEntries (leafForm : LeafForm N L) (applier : Applier N) :
    List (String × Value N L) → Client N L → List String → Client N L × Except String (List String)
  | [], client, applicable => (client, .ok applicable)
  | (key, value) :: rest, client, applicable =>
      if isStateKey key then
        let applied := applyEntry leafForm applier client key value
        match applied.2 with
        | .error message => (applied.1, .error message)
        | .ok current =>
            applyEntries leafForm applier rest applied.1
              (if current then applicable ++ [key] else applicable)
      else applyEntries leafForm applier rest client applicable

def advanceAll (leafForm : LeafForm N L) :
    List String → Client N L → Client N L × Option RpcError
  | [], client => (client, none)
  | key :: rest, client =>
      match advance leafForm client key with
      | (client, none) => advanceAll leafForm rest client
      | (client, some error) => (client, some error)

/-- An older snapshot applies nothing; it only confirms the fields of the call. -/
def confirmEntries (leafForm : LeafForm N L) (applier : Applier N)
    (state : List (String × Value N L)) (client : Client N L) :
    Client N L × Except String (List String) :=
  let keys := (state.map Prod.fst).filter isStateKey
  let applicable := keys.filter (isCurrent leafForm client)
  let confirmed := confirmOptimisticFields client.component applier.call.id keys
  ({ client with component := confirmed.1 },
    match confirmed.2 with
    | some message => .error message
    | none => .ok applicable)

/-- The applier of `createStateApplier`, and the error it throws. -/
def applyState (leafForm : LeafForm N L) (applier : Applier N) (client : Client N L)
    (state : Frame N L) : Client N L × Option ApplyError :=
  let advanced := advancePublished leafForm applier client (state.1.map Prod.fst)
  let accepted := acceptSseCursor advanced state.1
  match accepted.2 with
  | .error error => (accepted.1, some (.rpc error))
  | .ok newer =>
      let applied :=
        if newer then applyEntries leafForm applier state.1 accepted.1 []
        else confirmEntries leafForm applier state.1 accepted.1
      match applied.2 with
      | .error message => (applied.1, some (.edit message))
      | .ok applicable =>
          match advanceAll leafForm applicable applied.1 with
          | (client, none) => (client, none)
          | (client, some error) => (client, some (.rpc error))

end Cossack.Core
