import Cossack.Core.RpcStream
import Cossack.Lib.JsonPrint
import Cossack.Lib.Utf8Encoder
import Cossack.Lib.Runs

/-! # Request-scoped calls on a realtime socket

    The pending calls of one socket, the frame queue of each call, and the async
    generator that consumes it.  Everything that can happen to them is an event;
    between the event that answers a pull and the one that resumes the generator
    any other event may come. -/

namespace Cossack.Core.SocketCalls

open Cossack.Core.RpcStream (RpcStreamFrame FrameType validateRpcFrame maxFrameBytes)
open JsonText

/-! ## Section 1: The frame queue -/

abbrev RequestId := List Nat

/-- A frame that came over the wire, or one that reports a local failure. -/
inductive Frame where
  | received (frame : RpcStreamFrame)
  | failure (requestId : RequestId) (code message : String)

def Frame.isYield : Frame → Bool
  | .received frame => frame.type == .yield
  | .failure .. => false

/-- `resolvers` counts the pulls that wait. -/
structure SocketFrameQueue where
  frames : List (Frame × Nat)
  bytes : Int
  failed : Bool
  resolvers : Nat

def maxFrames : Nat := 256

def maxBytes : Int := 4 * 1024 * 1024

def SocketFrameQueue.new : SocketFrameQueue := ⟨[], 0, false, 0⟩

/-- The queue after it failed, and what each waiting pull resolves to. -/
def SocketFrameQueue.fail (q : SocketFrameQueue) (frame : Frame) : SocketFrameQueue × List Frame :=
  if q.failed then (q, [])
  else (⟨[(frame, 0)], 0, true, 0⟩, List.replicate q.resolvers frame)

def bufferExceeded (requestId : RequestId) : Frame :=
  .failure requestId "COSSACK_RPC_BUFFER_EXCEEDED" "RPC consumer fell behind the bounded realtime buffer."

def SocketFrameQueue.push (q : SocketFrameQueue) (frame : RpcStreamFrame) (bytes : Nat) :
    SocketFrameQueue × List Frame :=
  if q.failed then (q, [])
  else
    match q.resolvers with
    | waiting + 1 => ({ q with resolvers := waiting }, [.received frame])
    | 0 =>
        if maxFrames ≤ q.frames.length ∨ maxBytes < q.bytes + bytes then
          q.fail (bufferExceeded frame.requestId)
        else
          ({ q with frames := q.frames ++ [(.received frame, bytes)], bytes := q.bytes + bytes }, [])

/-- Without a queued frame the pull waits. -/
def SocketFrameQueue.next (q : SocketFrameQueue) : SocketFrameQueue × Option Frame :=
  match q.frames with
  | queued :: rest => ({ q with frames := rest, bytes := q.bytes - queued.2 }, some queued.1)
  | [] => ({ q with resolvers := q.resolvers + 1 }, none)

/-! ## Section 2: One call -/

/-- Where the generator `operation` stands. -/
inductive Generator where
  | created
  | suspended
  | waiting
  | received (frame : Frame)
  | finished

/-- `delivered` is what the pulls resolved to, `arrived` the valid yield frames
    the socket received for the call. -/
structure Call where
  queue : SocketFrameQueue
  generator : Generator
  delivered : List Frame
  arrived : List RpcStreamFrame

def Call.new : Call := ⟨.new, .created, [], []⟩

/-- The pull that waits is answered. -/
def Call.answer (c : Call) (frame : Frame) : Call :=
  match c.generator with
  | .waiting => { c with generator := .received frame, delivered := c.delivered ++ [frame] }
  | _ => c

def Call.settle (c : Call) (result : SocketFrameQueue × List Frame) : Call :=
  result.2.foldl Call.answer { c with queue := result.1 }

def Call.push (c : Call) (frame : RpcStreamFrame) (bytes : Nat) : Call :=
  c.settle (c.queue.push frame bytes)

def Call.fail (c : Call) (frame : Frame) : Call := c.settle (c.queue.fail frame)

/-- `await queue.next()`. -/
def Call.pull (c : Call) : Call :=
  match c.queue.next with
  | (queue, some frame) =>
      { c with queue, generator := .received frame, delivered := c.delivered ++ [frame] }
  | (queue, none) => { c with queue, generator := .waiting }

def Call.note (c : Call) (frame : RpcStreamFrame) : Call :=
  { c with arrived := c.arrived ++ [frame] }

/-! ## Section 3: The socket -/

/-- `pending` are the keys of the map of sinks, in its order. -/
structure Socket where
  pending : List RequestId
  calls : RequestId → Option Call

def Socket.new : Socket := ⟨[], fun _ => none⟩

def Socket.modify (s : Socket) (requestId : RequestId) (f : Call → Call) : Socket :=
  { s with calls := Function.update s.calls requestId ((s.calls requestId).map f) }

def Socket.delete (s : Socket) (requestId : RequestId) : Socket :=
  { s with pending := s.pending.filter (· != requestId) }

def transportClosed (requestId : RequestId) : Frame :=
  .failure requestId "COSSACK_RPC_TRANSPORT_CLOSED"
    "The realtime connection closed before the call finished. The server result is unknown."

def failPendingSocketCalls (s : Socket) : Socket :=
  { s.pending.foldl (fun s requestId => s.modify requestId (Call.fail · (transportClosed requestId))) s with
    pending := [] }

/-- The UTF-8 size of the received text, or of the frame serialized again. -/
def wireBytes (data : JsonText.Json) (raw : Option (List Char)) : Nat :=
  (Utf8.encode (raw.getD (print data))).length

/-- A frame that may be pushed, or the error it is turned into. -/
def checkFrame (data : JsonText.Json) (raw : Option (List Char)) : Except RpcStream.RpcError RpcStreamFrame := do
  let frame ← validateRpcFrame data
  if wireBytes data raw > maxFrameBytes then
    .error ⟨"COSSACK_RPC_STREAM_TOO_LARGE", "RPC frame exceeds the byte limit.", none⟩
  else .ok frame

/-- The string `requestId` of an object. -/
def requestIdOf : JsonText.Json → Option RequestId
  | .obj fields =>
      match lookup fields "requestId" with
      | some (.str requestId) => some requestId
      | _ => none
  | _ => none

def routeSocketFrame (s : Socket) (data : JsonText.Json) (raw : Option (List Char)) : Socket :=
  match requestIdOf data with
  | none => s
  | some requestId =>
      if requestId ∈ s.pending then
        match checkFrame data raw with
        | .ok frame =>
            let pushed := s.modify requestId (Call.push · frame (wireBytes data raw))
            if frame.type = .yield then pushed else pushed.delete requestId
        | .error error =>
            -- the sink is called with `interrupted`, so the queued frames go
            (s.modify requestId (Call.fail · (.failure requestId error.code error.message))).delete requestId
      else s

/-- The valid yield frame a message carries. -/
def validYield (data : JsonText.Json) (raw : Option (List Char)) : Option RpcStreamFrame :=
  match checkFrame data raw with
  | .ok frame => if frame.type = .yield then some frame else none
  | .error _ => none

/-- A message enters the log of the call it is addressed to, pending or not. -/
def Socket.note (s : Socket) (data : JsonText.Json) (raw : Option (List Char)) : Socket :=
  match validYield data raw with
  | some frame => s.modify frame.requestId (Call.note · frame)
  | none => s

/-! ## Section 4: Events -/

inductive Event where
  /-- A call with a fresh id; `ws.send` may throw. -/
  | dispatch (requestId : RequestId) (sent : Bool)
  | message (data : JsonText.Json) (raw : Option (List Char))
  | close
  /-- The consumer asks for the next value. -/
  | pull (requestId : RequestId)
  /-- The generator goes on after an answered pull; `apply` may throw. -/
  | resume (requestId : RequestId) (applied : Bool)
  /-- The consumer returns or throws into the generator. -/
  | finish (requestId : RequestId)
  /-- Cancellation, the deadline, and the abort that follows a failed queue. -/
  | cancel (requestId : RequestId) (code message : String)

/-- The `finally` block deletes the call's sink. -/
def Socket.finally (s : Socket) (requestId : RequestId) : Socket :=
  (s.modify requestId fun c => { c with generator := .finished }).delete requestId

def Socket.step (s : Socket) : Event → Option Socket
  | .dispatch requestId sent =>
      match s.calls requestId with
      | some _ => none
      | none =>
          if sent then
            some ⟨s.pending ++ [requestId], Function.update s.calls requestId (some .new)⟩
          else some s
  | .message data raw => some (routeSocketFrame (s.note data raw) data raw)
  | .close => some (failPendingSocketCalls s)
  | .pull requestId =>
      match (s.calls requestId).map Call.generator with
      | some .created | some .suspended => some (s.modify requestId Call.pull)
      | _ => none
  | .resume requestId applied =>
      match (s.calls requestId).map Call.generator with
      | some (.received frame) =>
          if applied && frame.isYield then
            some (s.modify requestId fun c => { c with generator := .suspended })
          else some (s.finally requestId)
      | _ => none
  | .finish requestId =>
      match (s.calls requestId).map Call.generator with
      -- a generator that never started runs no `finally`
      | some .created => some (s.modify requestId fun c => { c with generator := .finished })
      | some .suspended => some (s.finally requestId)
      | _ => none
  | .cancel requestId code message =>
      some ((s.modify requestId (Call.fail · (.failure requestId code message))).delete requestId)

/-- Every order of events on a new socket. -/
def Reachable : Socket → Prop := Runs.Run Socket.step Runs.Free Socket.new

end Cossack.Core.SocketCalls
