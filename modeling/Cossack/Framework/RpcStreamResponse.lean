import Cossack.Core.RpcStream
import Cossack.Lib.JsonPrint
import Cossack.Lib.Utf8Encoder

/-! # The RPC stream of a response

    `createRpcStreamResponse` with its `encode`, and `snapshotRpcFrame`.  What the
    action yields, throws and leaves as its state comes as a list of pulls; what
    `snapshotRpcValue` makes of a value is part of the pull.  The abort signal and
    the log are left out. -/

namespace Cossack.Framework.RpcStreamResponse

open JsonText
open Cossack.Core.RpcStream (maxFrameBytes)

/-! ## Section 1: Values -/

/-- A string, by its UTF-16 code units. -/
structure Text where
  units : List Nat
  bounded : ∀ u ∈ units, u < 0x10000

def Text.of (s : String) : Text := ⟨JsString.utf16 s, fun _ h => utf16_lt h⟩

/-- A value as JSON has it. -/
structure Data where
  json : Json
  valid : Valid json

/-- What `snapshotRpcValue` returns, where `none` is undefined, or the message of the
    error it throws. -/
abbrev Snapshot := Except Text (Option Data)

/-- The own properties of an object with their snapshots. -/
structure Fields where
  members : List (Text × Snapshot)
  distinct : (members.map fun m => m.1.units).Nodup

/-- What is read of an error that was thrown. -/
structure Thrown where
  isActionValidationError : Bool
  isClientVisibleError : Bool
  /-- The code of an `RpcError`. -/
  rpcCode : Option Text
  message : Text
  fieldErrors : Snapshot

def rpcError (code : String) (message : Text) : Thrown where
  isActionValidationError := false
  isClientVisibleError := false
  rpcCode := some (.of code)
  message := message
  fieldErrors := .ok none

def serializationFailed (message : Text) : Thrown := rpcError "COSSACK_RPC_SERIALIZATION_FAILED" message

def tooLarge : Thrown :=
  rpcError "COSSACK_RPC_STREAM_TOO_LARGE" (.of "RPC stream frame exceeds the byte limit.")

/-! ## Section 2: Frames -/

def key (s : String) : List Nat := JsString.utf16 s

/-- The snapshot of an object leaves out what is undefined. -/
def snapshotMembers : List (Text × Snapshot) → Except Text (List (List Nat × Json))
  | [] => pure []
  | (name, snapshot) :: rest => do
      let value ← snapshot
      let rest ← snapshotMembers rest
      match value with
      | none => pure rest
      | some data => pure ((name.units, data.json) :: rest)

/-- `{ ...fields, [name]: value }` -/
def assign (name : Text) (value : Snapshot) : List (Text × Snapshot) → List (Text × Snapshot)
  | [] => [(name, value)]
  | m :: rest => if m.1.units = name.units then (name, value) :: rest else m :: assign name value rest

def optional (name : String) (value : Option Json) : List (List Nat × Json) :=
  value.toList.map fun v => (key name, v)

/-- The fields that every frame begins with. -/
def metadata (type : String) (requestId : Text) : List (List Nat × Json) :=
  [(key "v", .num ⟨false, 1, 0⟩), (key "type", .str (JsString.utf16 type)),
    (key "requestId", .str requestId.units)]

/-- What one pull finds: the result of `iterator.next()`, the state with `onState` done, the
    cursor and the state of the scope. -/
structure Turn where
  done : Bool
  value : Snapshot
  state : Except Thrown Fields
  cursor : Option Decimal
  scopeState : Option (Except Thrown Fields)

def cursorField : Text := .of "_cossack_sse_cursor"

def withCursor (cursor : Option Decimal) (state : Fields) : List (Text × Snapshot) :=
  match cursor with
  | none => state.members
  | some n => assign cursorField (.ok (some ⟨.num n, by simp [Valid]⟩)) state.members

def snapshotScope : Option Fields → Except Text (Option (List (List Nat × Json)))
  | none => pure none
  | some fields => (snapshotMembers fields.members).map some

/-- `snapshotRpcFrame` of a yield or done frame. -/
def snapshotValueFrame (type : String) (requestId : Text) (value : Snapshot)
    (state : List (Text × Snapshot)) (scopeState : Option Fields) :
    Except Text (List (List Nat × Json)) := do
  let value ← value
  let state ← snapshotMembers state
  let scope ← snapshotScope scopeState
  pure (metadata type requestId ++ optional "value" (value.map Data.json) ++
    [(key "state", .obj state)] ++ optional "scopeState" (scope.map .obj))

def errorCode (error : Thrown) : Text :=
  if error.isActionValidationError then .of "COSSACK_VALIDATION_FAILED"
  else if error.isClientVisibleError then .of "COSSACK_RPC_CLIENT_ERROR"
  else error.rpcCode.getD (.of "COSSACK_RPC_INTERNAL_ERROR")

def errorFieldErrors (error : Thrown) : Snapshot :=
  if error.isActionValidationError || error.rpcCode.isSome then error.fieldErrors else .ok none

def errorMessage (error : Thrown) : Text :=
  if error.isClientVisibleError || error.rpcCode.isSome then error.message
  else .of "Internal Server Error"

/-- `snapshotRpcFrame` of an error frame. -/
def snapshotErrorFrame (requestId : Text) (error : Thrown) : Except Text (List (List Nat × Json)) := do
  let fieldErrors ← errorFieldErrors error
  pure (metadata "error" requestId ++ [(key "code", .str (errorCode error).units)] ++
    optional "fieldErrors" (fieldErrors.map Data.json) ++
    [(key "message", .str (errorMessage error).units)])

/-! ## Section 3: The body -/

/-- A frame and its line. -/
structure Emitted where
  fields : List (List Nat × Json)
  bytes : List UInt8

def line (fields : List (List Nat × Json)) : List UInt8 := Utf8.encode (print (.obj fields)) ++ [10]

/-- `encode`; the evidence of a development build is left out where it does not fit. -/
def encode (fields : List (List Nat × Json)) (development : Option Text) : Except Thrown Emitted :=
  let bytes := line fields
  if maxFrameBytes < bytes.length - 1 then throw tooLarge
  else
    match development with
    | none => pure ⟨fields, bytes⟩
    | some trace =>
        let candidate := fields ++ [(key "developmentTrace", .str trace.units)]
        if trace.units ≠ [] ∧ (line candidate).length - 1 + 64 ≤ maxFrameBytes then
          pure ⟨candidate, line candidate⟩
        else pure ⟨fields, bytes⟩

structure Options where
  requestId : Text
  /-- The error that the cleanup throws, by whether the iterator had finished. -/
  cleanup : Bool → Option Thrown
  /-- In a development build: by whether the action succeeded and the cleanup failed. -/
  developmentTrace : Option (Bool → Bool → Text)

/-- `getScopeState()`, where there is one. -/
def Turn.scope (turn : Turn) : Except Thrown (Option Fields) :=
  match turn.scopeState with
  | none => pure none
  | some scope => scope.map some

/-- The part of a pull that may throw. -/
def Options.turn (o : Options) (turn : Turn) : Except Thrown Emitted := do
  let state ← turn.state
  let scope ← turn.scope
  let frame ← (snapshotValueFrame (if turn.done then "done" else "yield") o.requestId turn.value
    (withCursor turn.cursor state) scope).mapError serializationFailed
  let emitted ← encode frame none
  if turn.done then
    match o.cleanup true with
    | some error => throw error
    | none =>
        match o.developmentTrace with
        | none => pure emitted
        | some trace => encode frame (some (trace true false))
  else pure emitted

/-- The `catch` of a pull. -/
def Options.failed (o : Options) (finished : Bool) (error : Thrown) : Except Thrown Emitted := do
  let cleanupFailed := (o.cleanup finished).isSome
  let frame ← (snapshotErrorFrame o.requestId error).mapError serializationFailed
  encode frame (o.developmentTrace.map fun trace => trace false cleanupFailed)

/-- How the body ends: with a done frame, with an error frame, or not at all, because the
    error frame cannot be sent or there were no more pulls. -/
inductive Ending where
  | finished
  | failed (error : Thrown)
  | broken
  | pending

structure Body where
  frames : List Emitted
  ending : Ending

/-- `finished` after a pull. -/
def hasFinished : Except Thrown Turn → Bool
  | .ok turn => turn.done
  | .error _ => false

/-- The pulls of the stream, one after the other; `error` is thrown by `iterator.next()`. -/
def Options.pulls (o : Options) : List (Except Thrown Turn) → Body
  | [] => ⟨[], .pending⟩
  | pull :: rest =>
      match pull.bind o.turn with
      | .ok frame =>
          if hasFinished pull then ⟨[frame], .finished⟩
          else
            let body := o.pulls rest
            ⟨frame :: body.frames, body.ending⟩
      | .error error =>
          match o.failed (hasFinished pull) error with
          | .ok frame => ⟨[frame], .failed error⟩
          | .error _ => ⟨[], .broken⟩

def Body.bytes (body : Body) : List UInt8 := body.frames.flatMap Emitted.bytes

/-- The last frame was sent. -/
def Body.closed (body : Body) : Bool :=
  match body.ending with
  | .finished | .failed _ => true
  | _ => false

/-! ## Section 4: The response -/

def isHttpSpace (unit : Nat) : Bool := unit = 9 || unit = 10 || unit = 13 || unit = 32

/-- The value of a header is stripped; `none` where it cannot be one. -/
def headerValue (units : List Nat) : Option (List Nat) :=
  let value := (units.dropWhile isHttpSpace).reverse.dropWhile isHttpSpace |>.reverse
  if value.all fun u => u ≤ 0xFF && u ≠ 0 && u ≠ 10 && u ≠ 13 then some value else none

/-- The `X-Cossack-Request-Id` of the response, and its body. -/
def createRpcStreamResponse (o : Options) (pulls : List (Except Thrown Turn)) :
    Option (List Nat × Body) :=
  (headerValue o.requestId.units).map fun header => (header, o.pulls pulls)

end Cossack.Framework.RpcStreamResponse
