import Cossack.Lib.Coalescing
import Cossack.Lib.Records
import Cossack.Lib.Runs

/-! # Delivery to a socket

    The queue of one peer of `SocketDeliveryQueue`, from the first frame that is
    queued for it until the peer is removed.  A text that is written is known by
    the data it stands for. -/

namespace Cossack.Core.SocketDelivery

/-! ## Section 1: Frames -/

/-- A property of a message.  A value of another kind than a string or an object
    is only passed on. -/
inductive Field (V : Type) where
  | text (s : String)
  | record (r : Record V)
  | other (v : V)

inductive SocketFrame (V : Type) where
  | message (fields : Record (Field V))
  /-- An already-encoded string. -/
  | encoded (text : String)

inductive FrameKind where
  | state
  | action
  | other
  deriving DecidableEq

variable {V J : Type}

def typeOf : SocketFrame V → Option String
  | .encoded _ => none
  | .message fields =>
      match fields.get "type" with
      | some (.text type) => some type
      | _ => none

/-- `message.state`, where that is an object. -/
def stateRecord : SocketFrame V → Option (Record V)
  | .encoded _ => none
  | .message fields =>
      match fields.get "state" with
      | some (.record state) => some state
      | _ => none

def frameKind (message : SocketFrame V) : FrameKind :=
  if typeOf message = some "client-action" then .action
  else if typeOf message = some "state-update" ∧ (stateRecord message).isSome then .state
  else .other

/-- The data in the text of a field, where the value has a text. -/
def Field.encode (json : V → Option J) : Field V → Option (Field J)
  | .text s => some (.text s)
  | .record r => some (.record (r.mapSome json))
  | .other v => (json v).map .other

/-- `JSON.stringify(message)`: a property whose value has no text is left out, at
    every level.  `json` is the text of a value within a message or a state. -/
def encode (json : V → Option J) : SocketFrame V → SocketFrame J
  | .message fields => .message (fields.mapSome (Field.encode json))
  | .encoded text => .encoded text

/-- The message that stands for two updates of the state. -/
def mergeFields (previous next : Record (Field V)) (previousState nextState : Record V) :
    Record (Field V) :=
  (previous.spread next).set "state" (.record (previousState.spread nextState))

def merge : SocketFrame V → SocketFrame V → SocketFrame V
  | .message previous, .message next =>
      .message (mergeFields previous next
        ((stateRecord (.message previous)).getD .empty) ((stateRecord (.message next)).getD .empty))
  | _, next => next

/-! ## Section 2: The peer -/

/-- Where the drain loop of a peer stands. -/
inductive Drain (V : Type) where
  /-- No loop is active. -/
  | idle
  /-- Before the condition of the loop. -/
  | looping
  /-- Within `await authorize(…)`. -/
  | authorizing (batch : List (SocketFrame V))
  /-- The frames of the batch that are left to write. -/
  | writing (rest : List (SocketFrame V))

inductive Output (J : Type) where
  | frame (frame : SocketFrame J)
  /-- `AUTH_CHANGED`, the terminal frame of a connection that is retired. -/
  | authChanged
  | close (code : Nat) (reason : String)

structure Peer (V J : Type) where
  frames : List (SocketFrame V)
  retired : Bool
  drain : Drain V
  /-- The queue of the client is not this one any more. -/
  removed : Bool
  /-- What `isOpen(client)` gives. -/
  isOpen : Bool
  /-- What was done to the socket. -/
  output : List (Output J)
  /-- The frames that were sent to the peer, and the batches that were
      authorized, so far. -/
  sent : List (SocketFrame V)
  authorized : List (List (SocketFrame V))

namespace Peer

def initial : Peer V J := ⟨[], false, .idle, false, true, [], [], []⟩

/-- A connection that gets frames: neither retired nor closed. -/
def live (p : Peer V J) : Bool := !p.retired && p.isOpen

def quiescent (p : Peer V J) : Bool :=
  match p.drain with
  | .idle => p.frames.isEmpty
  | _ => false

/-- The frames that were written. -/
def written (p : Peer V J) : List (SocketFrame J) :=
  p.output.filterMap fun
    | .frame frame => some frame
    | _ => none

def retire (p : Peer V J) (code : Nat) (reason : String) (authorizationChanged : Bool) : Peer V J :=
  if p.retired then p
  else
    let farewell : List (Output J) :=
      if authorizationChanged then
        (if p.isOpen then [.authChanged] else []) ++ [.close 1008 "Realtime authorization changed"]
      else [.close code reason]
    { p with retired := true, frames := [], output := p.output ++ farewell }

/-- The `finally` block of the loop. -/
def finish (p : Peer V J) : Peer V J :=
  { p with frames := if p.retired then [] else p.frames, drain := .idle }

/-- A frame that the queue takes in starts the loop if none is active. -/
def wake (p : Peer V J) : Peer V J :=
  match p.drain with
  | .idle => { p with drain := .looping }
  | _ => p

/-- The last queued frame, where the message is merged into it. -/
def pendingUpdate (frames : List (SocketFrame V)) (message : SocketFrame V) :
    Option (SocketFrame V) :=
  if frameKind message = .state then frames.getLast?.filter (frameKind · = .state) else none

def enqueue (maxPending : Nat) (p : Peer V J) (message : SocketFrame V) : Peer V J :=
  match pendingUpdate p.frames message with
  | some last => { p with frames := p.frames.dropLast ++ [merge last message] }.wake
  | none =>
      if maxPending ≤ p.frames.length then p.retire 1013 "Realtime delivery queue is full" false
      else { p with frames := p.frames ++ [message] }.wake

/-- The number of frames in the next batch. -/
def batchSize (frames : List (SocketFrame V)) : Nat :=
  match frames.findIdx? fun frame => frameKind frame = .action with
  | some 0 => 1
  | some actionAt => actionAt
  | none => frames.length

/-- The condition of the loop, and the batch it takes. -/
def next (p : Peer V J) : Peer V J :=
  if p.retired || p.frames.isEmpty then p.finish
  else
    let size := batchSize p.frames
    let batch := p.frames.take size
    let p := { p with frames := p.frames.drop size }
    if p.isOpen then { p with drain := .authorizing batch } else p

end Peer

inductive Event (V : Type) where
  /-- `send`, with an authorizer or without one. -/
  | send (message : SocketFrame V) (authorize : Bool)
  /-- The loop goes on. -/
  | drain
  /-- The authorizer has settled: with `true` or not, and having run the
      operation or not. -/
  | settled (allowed operationRan : Bool)
  /-- The loop throws, and the error handler deals with that or throws again. -/
  | fail (handled : Bool)
  | retire (code : Nat) (reason : String) (authorizationChanged : Bool)
  | remove
  /-- The socket is closed. -/
  | closed

variable (json : V → Option J) (maxPending : Nat)

open Peer in
def step (p : Peer V J) : Event V → Option (Peer V J)
  | .send message false =>
      some (if p.isOpen then { p with output := p.output ++ [.frame (encode json message)] } else p)
  | .send message true =>
      if p.removed then none
      else
        let p := { p with sent := p.sent ++ [message] }
        some (if p.retired then p else p.enqueue maxPending message)
  | .drain =>
      match p.drain with
      | .idle | .authorizing _ => none
      | .looping => some p.next
      | .writing [] => some { p with drain := .looping }
      | .writing (frame :: rest) =>
          -- `break`, and on with the outer loop
          if p.retired || !p.isOpen then some { p with drain := .looping }
          else some { p with drain := .writing rest, output := p.output ++ [.frame (encode json frame)] }
  | .settled allowed operationRan =>
      match p.drain with
      | .authorizing batch =>
          if allowed && operationRan then
            some { p with drain := .writing batch, authorized := p.authorized ++ [batch] }
          else some (p.retire 1008 "Realtime authorization changed" true).finish
      | _ => none
  | .fail handled =>
      match p.drain with
      | .idle => none
      | _ =>
          some (if handled then p.retire 1011 "Realtime delivery failed" false else p).finish
  | .retire code reason authorizationChanged => some (p.retire code reason authorizationChanged)
  | .remove => some { p with retired := true, removed := true, frames := [] }
  | .closed => some { p with isOpen := false }

end Cossack.Core.SocketDelivery
