import Cossack.Core.RpcStream

/-! # The event log of a Durable Object

    The storage of `SseDurableObject` with `publish`, `broadcast` and
    `#readUpdates`, and one subscriber behind `handleCoordinatorSubscription`.
    `correlated` is the text of a state with a request id.  Authorization that
    fails closes a connection, and a heartbeat is no frame. -/

namespace Cossack.Framework.SseLog

open Core.RpcStream (maxFrameBytes)

/-! ## Section 1: Storage -/

def maxEvents : Nat := 128

def maxLogBytes : Nat := maxFrameBytes

def maxEventName : Nat := 64

structure EventRow where
  cursor : Nat
  event : String
  data : String
  bytes : Nat
  deriving DecidableEq

structure Snapshot where
  state : String
  cursor : Nat
  deriving DecidableEq

/-- The tables: the snapshot, the events in the order of their cursors, and the
    last cursor that was given. -/
structure Storage where
  snapshot : Option Snapshot
  events : List EventRow
  sequence : Nat
  deriving DecidableEq

/-- The events, newest first, with the bytes down to each. -/
def totals (total : Nat) : List EventRow → List (EventRow × Nat)
  | [] => []
  | row :: rest => (row, total + row.bytes) :: totals (total + row.bytes) rest

/-- The cursors that are not deleted. -/
def keptCursors (events : List EventRow) : List Nat :=
  (((totals 0 events.reverse).filter fun row => row.2 ≤ maxLogBytes).take maxEvents).map fun row =>
    row.1.cursor

def trim (events : List EventRow) : List EventRow :=
  events.filter fun row => row.cursor ∈ keptCursors events

def Storage.nextRow (s : Storage) (event data : String) : EventRow :=
  ⟨s.sequence + 1, event, data, data.utf8ByteSize⟩

/-- The transaction of `#appendEvent`. -/
def Storage.appendEvent (s : Storage) (event data snapshotState : String) : Storage where
  snapshot := s.snapshot.map fun snapshot =>
    ⟨if event = "state-update" then snapshotState else snapshot.state, s.sequence + 1⟩
  events := trim (s.events ++ [s.nextRow event data])
  sequence := s.sequence + 1

def isJsonObject (text : String) : Bool := Core.RpcStream.isObject (JsonText.parse text.toList)

def validState (state : String) : Bool := state.utf8ByteSize ≤ maxFrameBytes && isJsonObject state

def validRequestId : Option String → Bool
  | none => true
  | some id => !JsString.isBlank id && (JsString.utf16 id).length ≤ 128

def isNameChar (c : Char) : Bool := c.isAlphanum || c = ':' || c = '_' || c = '-'

def validEventName (event : String) : Bool :=
  event ≠ "" && event.length ≤ maxEventName && event.toList.all isNameChar

/-- What an event is stored as, where its arguments are valid. -/
structure Appended where
  event : String
  data : String
  snapshotState : String

def publish (correlated : String → String → String) (state : String) (requestId : Option String) :
    Option Appended :=
  let data := match requestId with
    | none => state
    | some id => correlated state id
  if validState state && validRequestId requestId && data.utf8ByteSize ≤ maxFrameBytes then
    some ⟨"state-update", data, state⟩
  else none

def broadcast (event data : String) : Option Appended :=
  if validEventName event && data.utf8ByteSize ≤ maxFrameBytes && isJsonObject data then
    some ⟨event, data, data⟩
  else none

structure Updates where
  snapshot : Snapshot
  resync : Bool
  events : List EventRow

/-- `#readUpdates`, which throws without a snapshot. -/
def Storage.readUpdates (s : Storage) (after : Nat) : Option Updates :=
  s.snapshot.map fun snapshot =>
    let oldest := s.events.head?.map EventRow.cursor
    let resync := decide (snapshot.cursor < after) || oldest.any fun oldest => after + 1 < oldest
    ⟨snapshot, resync, if resync then [] else s.events.filter fun row => after < row.cursor⟩

/-! ## Section 2: A subscriber -/

inductive Frame where
  | event (row : EventRow)
  | snapshot (state : String) (cursor : Nat)
  | resync (cursor : Nat)
  | connected (cursor : Nat)
  deriving DecidableEq

/-- The `id` line of a frame. -/
def Frame.id : Frame → Option Nat
  | .event row => some row.cursor
  | .snapshot _ cursor => some cursor
  | _ => none

/-- A long poll is held until it is woken. -/
inductive Wait where
  | none
  | held
  | woken
  deriving DecidableEq

/-- `opening`: the cursor is known, the first updates are not.  The frames of an
    open connection wait to be sent or are on the wire. -/
inductive Connection where
  | closed
  | opening (after : Nat)
  | opened (after : Nat) (pending wire : List Frame) (wait : Wait)
  deriving DecidableEq

/-- What a subscriber sees: a connection begins after a cursor, brings frames, and
    is lost. -/
inductive Sight where
  | start (cursor : Nat)
  | frame (frame : Frame)
  | lost
  deriving DecidableEq

/-- The scope and one subscriber.  `query` is the cursor in the address it connects
    to, `lastId` the last id it received.  `first` and `appended` are the history:
    the first state, and each event with the state that held after it. -/
structure System where
  storage : Storage
  first : Option String
  appended : List (EventRow × Option String)
  query : Option Nat
  lastId : Option Nat
  connection : Connection
  seen : List Sight
  deriving DecidableEq

def System.initial (query : Option Nat) : System where
  storage := ⟨none, [], 0⟩
  first := none
  appended := []
  query := query
  lastId := none
  connection := .closed
  seen := []

inductive Event where
  | initialized (state : String)
  | publish (state : String) (requestId : Option String)
  | broadcast (event data : String)
  | connect
  | opened
  | send
  | receive
  | poll (mayWait : Bool)
  | wake
  | resume
  | disconnect

def Connection.wake : Connection → Connection
  | .opened after pending wire .held => .opened after pending wire .woken
  | connection => connection

/-- The event is stored and every held poll is woken; without a snapshot the call
    throws after that. -/
def System.append (s : System) (event : Appended) : System :=
  let storage := s.storage.appendEvent event.event event.data event.snapshotState
  { s with
    storage := storage
    appended := s.appended ++
      [(s.storage.nextRow event.event event.data, storage.snapshot.map Snapshot.state)]
    connection := s.connection.wake }

/-- The frames of a reply to a poll, and the cursor after them. -/
def Updates.answer (u : Updates) (after : Nat) : Nat × List Frame :=
  if u.resync then
    (u.snapshot.cursor, [.resync u.snapshot.cursor, .snapshot u.snapshot.state u.snapshot.cursor])
  else ((u.events.getLast?.map EventRow.cursor).getD after, u.events.map .event)

/-- The frames a connection begins with. -/
def Updates.opening (u : Updates) : List Frame :=
  (if u.resync then [.resync u.snapshot.cursor] else u.events.map .event) ++
    [.snapshot u.snapshot.state u.snapshot.cursor, .connected u.snapshot.cursor]

def System.answered (s : System) (u : Updates) (after : Nat) (wire : List Frame) : System :=
  { s with connection := .opened (u.answer after).1 (u.answer after).2 wire .none }

def step (correlated : String → String → String) (s : System) : Event → Option System
  | .initialized state =>
      if validState state then
        match s.storage.snapshot with
        | some _ => some s
        | none => some { s with
            storage := { s.storage with snapshot := some ⟨state, 0⟩ }
            first := some state }
      else none
  | .publish state requestId => (publish correlated state requestId).map s.append
  | .broadcast event data => (broadcast event data).map s.append
  | .connect =>
      match s.connection, s.storage.snapshot with
      | .closed, some snapshot =>
          let after := (s.lastId.or s.query).getD snapshot.cursor
          some { s with connection := .opening after, seen := s.seen ++ [.start after] }
      | _, _ => none
  | .opened =>
      match s.connection with
      | .opening after => (s.storage.readUpdates after).map fun u =>
          { s with connection := .opened u.snapshot.cursor u.opening [] .none }
      | _ => none
  | .send =>
      match s.connection with
      | .opened after (frame :: pending) wire wait =>
          some { s with connection := .opened after pending (wire ++ [frame]) wait }
      | _ => none
  | .receive =>
      match s.connection with
      | .opened after pending (frame :: wire) wait =>
          some { s with
            connection := .opened after pending wire wait
            lastId := frame.id.or s.lastId
            seen := s.seen ++ [.frame frame] }
      | _ => none
  | .poll mayWait =>
      match s.connection with
      | .opened after [] wire .none => (s.storage.readUpdates after).map fun u =>
          if u.resync || !u.events.isEmpty then s.answered u after wire
          else if mayWait then { s with connection := .opened after [] wire .held }
          else s
      | _ => none
  | .wake =>
      match s.connection with
      | .opened _ _ _ .held => some { s with connection := s.connection.wake }
      | _ => none
  | .resume =>
      match s.connection with
      | .opened after _ wire .woken => (s.storage.readUpdates after).map fun u =>
          s.answered u after wire
      | _ => none
  | .disconnect =>
      match s.connection with
      | .closed => none
      | _ => some { s with connection := .closed, seen := s.seen ++ [.lost] }

/-! ## Section 3: What a subscriber should see -/

/-- The state that held after the first `n` events. -/
def System.stateAt (s : System) (n : Nat) : Option String :=
  if n = 0 then s.first else s.appended[n - 1]?.bind Prod.snd

/-- `last`: the last id.  `position`: what the connection has brought the
    subscriber to.  `resynced`: a state is to come that may skip events. -/
structure View where
  last : Option Nat
  position : Option Nat
  resynced : Bool
  deriving DecidableEq

/-- A connection begins at the last id, where there is one; each event is the next
    one; and a state is the one of its cursor, which is the position but for a
    resync. -/
def System.see (s : System) (v : View) (sight : Sight) : Option View :=
  match sight, v.position with
  | .start cursor, _ =>
      if v.last = none ∨ v.last = some cursor then some ⟨v.last, some cursor, false⟩ else none
  | .lost, _ => some ⟨v.last, none, false⟩
  | .frame (.event row), some position =>
      if v.resynced = false ∧ row.cursor = position + 1 ∧
          s.appended[position]?.map Prod.fst = some row then
        some ⟨some row.cursor, some row.cursor, false⟩
      else none
  | .frame (.resync _), some _ => some { v with resynced := true }
  | .frame (.snapshot state cursor), some position =>
      if (v.resynced ∨ cursor = position) ∧ s.stateAt cursor = some state then
        some ⟨some cursor, some cursor, false⟩
      else none
  | .frame (.connected cursor), some position => if cursor = position then some v else none
  | .frame _, none => none

def System.watch (s : System) (v : View) : List Sight → Option View
  | [] => some v
  | sight :: rest => (s.see v sight).bind fun v => s.watch v rest

end Cossack.Framework.SseLog
