import Cossack.Lib.JsonText
import Cossack.Lib.Utf8

/-! # The RPC stream reader

    `readRpcStream` with `parseFrame` and `validateRpcFrame`, on the chunks of a
    response body.  The generator's values are collected; what it ends with is
    the withheld frame or an error.  The abort signal is left out. -/

namespace Cossack.Core.RpcStream

open JsonText

/-! ## Section 1: Frames -/

def maxFrameBytes : Nat := 1024 * 1024

structure RpcError where
  code : String
  message : String
  requestId : Option (List Nat)

def streamInvalid (message : String) : RpcError := ⟨"COSSACK_RPC_STREAM_INVALID", message, none⟩

inductive FrameType where
  | yield
  | done
  | error
  deriving DecidableEq

/-- A frame as it was parsed, with the two fields the reader looks at. -/
structure RpcStreamFrame where
  fields : List (List Nat × JsonText.Json)
  type : FrameType
  requestId : List Nat

def frameType : Option JsonText.Json → Option FrameType
  | some (.str units) =>
      if units = JsString.utf16 "yield" then some .yield
      else if units = JsString.utf16 "done" then some .done
      else if units = JsString.utf16 "error" then some .error
      else none
  | _ => none

/-- `!units.trim()`; white space is never a surrogate. -/
def isBlank (units : List Nat) : Bool := units.all fun unit => JsString.isSpace (Char.ofNat unit)

def isObject : Option JsonText.Json → Bool
  | some (.obj _) => true
  | _ => false

def isString : Option JsonText.Json → Bool
  | some (.str _) => true
  | _ => false

def isNonBlank : Option JsonText.Json → Bool
  | some (.str units) => !isBlank units
  | _ => false

/-- What a frame carries beside its type and its id. -/
def carries (fields : List (List Nat × JsonText.Json)) : FrameType → Bool
  | .error =>
      isNonBlank (lookup fields "code") && isString (lookup fields "message") &&
        ((lookup fields "fieldErrors").isNone || isObject (lookup fields "fieldErrors"))
  | _ =>
      isObject (lookup fields "state") &&
        ((lookup fields "scopeState").isNone || isObject (lookup fields "scopeState"))

def validateRpcFrame (frame : JsonText.Json) : Except RpcError RpcStreamFrame :=
  let malformed := streamInvalid "Unsupported or malformed RPC stream frame."
  match frame with
  | .obj fields =>
      match lookup fields "v", lookup fields "requestId", frameType (lookup fields "type") with
      | some (.num v), some (.str requestId), some type =>
          if v.isOne && !isBlank requestId && carries fields type then .ok ⟨fields, type, requestId⟩
          else .error malformed
      | _, _, _ => .error malformed
  | _ => .error malformed

def parseFrame (bytes : List UInt8) : Except RpcError RpcStreamFrame :=
  match (Utf8.decodeText bytes).bind parse with
  | none => .error (streamInvalid "Invalid RPC stream frame.")
  | some frame => validateRpcFrame frame

/-! ## Section 2: The reader -/

/-- The variables of the generator, and what it has yielded. -/
structure Reader where
  buffer : List UInt8
  size : Nat
  terminal : Bool
  completion : Option RpcStreamFrame
  requestId : Option (List Nat)
  yielded : List RpcStreamFrame

/-- The reader stopped with an error, after it had yielded these. -/
structure Failure where
  yielded : List RpcStreamFrame
  error : RpcError

/-- An error as the `catch` passes it on, with the id that is known by then. -/
def Reader.fail (s : Reader) (error : RpcError) : Failure :=
  ⟨s.yielded, { error with requestId := s.requestId.or error.requestId }⟩

def networkFailed : RpcError :=
  ⟨"COSSACK_RPC_NETWORK_FAILED", "RPC stream failed. The server outcome is unknown and is never retried.",
    none⟩

/-- `buffer.set(part, offset)`, which throws where the part does not fit. -/
def setBytes (buffer part : List UInt8) (offset : Nat) : Option (List UInt8) :=
  if offset + part.length ≤ buffer.length then
    some (buffer.take offset ++ part ++ buffer.drop (offset + part.length))
  else none

def Reader.append (s : Reader) (part : List UInt8) : Except Failure Reader :=
  if s.terminal ∧ part ≠ [] then
    .error (s.fail (streamInvalid "RPC stream contains data after its result."))
  else
    let nextSize := s.size + part.length
    if maxFrameBytes < nextSize then
      .error (s.fail
        ⟨"COSSACK_RPC_STREAM_TOO_LARGE", "RPC stream frame exceeds the byte limit.", none⟩)
    else
      let buffer :=
        if s.buffer.length < nextSize then
          let grown := List.replicate (min maxFrameBytes (max nextSize (s.buffer.length * 2))) 0
          setBytes grown (s.buffer.take s.size) 0
        else some s.buffer
      match buffer.bind fun buffer => setBytes buffer part s.size with
      | none => .error (s.fail networkFailed)
      | some buffer => .ok { s with buffer := buffer, size := nextSize }

def Reader.decode (s : Reader) : Except Failure Reader :=
  if s.terminal then
    .error (s.fail (streamInvalid "RPC stream contains frames after its result."))
  else
    match parseFrame (s.buffer.take s.size) with
    | .error error => .error (s.fail error)
    | .ok frame =>
        -- an id that is known was never empty
        if s.requestId ≠ none ∧ s.requestId ≠ some frame.requestId then
          .error (s.fail (streamInvalid "RPC stream contains inconsistent frames."))
        else
          let s := { s with size := 0, requestId := some frame.requestId }
          if frame.type = .yield then .ok { s with yielded := s.yielded ++ [frame] }
          else .ok { s with terminal := true, completion := some frame }

/-- The loop over a chunk; `part` is what it holds since the last line feed. -/
def Reader.chunk (s : Reader) (part : List UInt8) : List UInt8 → Except Failure Reader
  | [] => s.append part
  | byte :: rest =>
      if byte ≠ 10 then s.chunk (part ++ [byte]) rest
      else do
        let s ← s.append part
        let s ← s.decode
        s.chunk [] rest

def Reader.chunks (s : Reader) : List (List UInt8) → Except Failure Reader
  | [] => .ok s
  | value :: rest => do
      let s ← s.chunk [] value
      s.chunks rest

/-- The body ends, or reading it fails. -/
inductive BodyEnd where
  | done
  | failed

structure Outcome where
  yielded : List RpcStreamFrame
  completion : Option RpcStreamFrame
  error : Option RpcError

def Failure.outcome (f : Failure) : Outcome := ⟨f.yielded, none, some f.error⟩

def truncated (message : String) : RpcError := ⟨"COSSACK_RPC_STREAM_TRUNCATED", message, none⟩

def Reader.finish (s : Reader) : BodyEnd → Outcome
  | .failed => (s.fail networkFailed).outcome
  | .done =>
      if s.size ≠ 0 then (s.fail (truncated "RPC stream ended inside a frame.")).outcome
      else if s.terminal = false then
        (s.fail (truncated "RPC stream ended without a result.")).outcome
      else ⟨s.yielded, s.completion, none⟩

/-- An empty header is none. -/
def Reader.start (header : Option (List Nat)) : Reader where
  buffer := List.replicate 4096 0
  size := 0
  terminal := false
  completion := none
  requestId := header.filter (· ≠ [])
  yielded := []

def readRpcStream (header : Option (List Nat)) (body : Option (List (List UInt8) × BodyEnd)) : Outcome :=
  let s := Reader.start header
  match body with
  | none => (s.fail (streamInvalid "RPC stream has no response body.")).outcome
  | some (chunks, bodyEnd) =>
      match s.chunks chunks with
      | .error failure => failure.outcome
      | .ok s => s.finish bodyEnd

end Cossack.Core.RpcStream
