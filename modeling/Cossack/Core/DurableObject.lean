import Mathlib.Logic.Function.Basic
import Cossack.Lib.Runs
import Cossack.Lib.Turns

/-! # The object that hosts a realtime component

    `CossackDurableObject.ts`: upgrades, state requests and messages reach one
    object, which holds one component for all of its sockets.  They go on at
    each `await`; an event says which of them does, and how the awaited call of
    the platform or of the application ends.

    The requests are those that `fetch` found well formed. -/

namespace Cossack.Core.DurableObject

open Turns

variable {Path : Type}

/-! ## Section 1: What the object holds -/

/-- A constructed component, `__cossack_rpcOwner` and whether its page options
    say `stateful`. -/
structure Component (Path : Type) where
  id : Nat
  rpcOwner : Path
  stateful : Bool

/-- What restoration reads in the storage. -/
structure Stored (Path : Type) where
  stateful : Bool
  componentPath : Option Path
  url : Option String

/-- The component to restore: an empty `url` is none. -/
def Stored.restored (stored : Stored Path) : Option Path :=
  if stored.stateful && !(stored.url.getD "").isEmpty then stored.componentPath else none

/-- Where the operation that owns the initialization awaits.  `failing` and
    `discarding` await `disposeComponent`; `ended` is an operation whose promise
    has yet to settle. -/
inductive Body (Path : Type) where
  | idle
  | reading
  | looking (path : Path)
  | bootstrapping (component : Component Path)
  | initializing (component : Component Path)
  | storing (component : Component Path)
  | failing
  | discarding (path : Path)
  | ended (fulfilled : Bool)

/-- The component and the sockets, with what happened to them: the components
    disposed and those whose setup failed, the peers accepted and the messages
    served, each with the component hosted then. -/
structure Hosting (Path : Type) where
  componentInstance : Option (Component Path)
  body : Body Path
  stored : Stored Path
  sockets : List Nat
  components : Nat
  disposals : List Nat
  failures : List Nat
  acceptances : List (Nat × Option (Component Path))
  served : List (Nat × Component Path)

namespace Hosting

/-- `accepted`, and a socket's place in the log. -/
def accepted (h : Hosting Path) (socket : Nat) : Bool := h.acceptances.any (·.1 == socket)

/-- The operation goes on to `body`. -/
def next (h : Hosting Path) (body : Body Path) : Hosting Path := { h with body }

def acceptWebSocket (h : Hosting Path) (socket : Nat) : Hosting Path :=
  { h with sockets := h.sockets ++ [socket] }

/-- `acceptWebSocket` for a peer that joins. -/
def acceptPeer (h : Hosting Path) (socket : Nat) : Hosting Path :=
  { h.acceptWebSocket socket with
    acceptances := (socket, h.componentInstance) :: h.acceptances }

/-- `disposeComponent` after a failed setup; the error goes on afterwards. -/
def fail (h : Hosting Path) (c : Component Path) : Hosting Path :=
  { h with
    body := .failing
    disposals := c.id :: h.disposals
    failures := c.id :: h.failures }

/-- `publishComponent`, the last step of a setup. -/
def publishComponent (h : Hosting Path) (c : Component Path) : Hosting Path :=
  { h with componentInstance := some c, body := .ended true }

/-- The previous component of a stateless object without sockets. -/
def discard (h : Hosting Path) (c : Component Path) (path : Path) : Hosting Path :=
  { h with
    componentInstance := none
    body := .discarding path
    disposals := c.id :: h.disposals }

/-- A message reaches the component. -/
def serve (h : Hosting Path) (socket : Nat) (c : Component Path) : Hosting Path :=
  { h with served := (socket, c) :: h.served }

end Hosting

/-! ## Section 2: The operations -/

/-- The operation of `ensureComponentInstance` and that of `join`. -/
inductive Operation (Path : Type) where
  | restore
  | join (socket : Nat) (path : Path) (url : String)

/-- How an awaited call ends; an error of the code up to the next `await`
    counts as `rejected`.  `found` and `missing` are answers of the registry. -/
inductive Completion where
  | fulfilled
  | rejected
  | found (stateful : Bool)
  | missing
  deriving DecidableEq

variable [DecidableEq Path]

/-- An operation up to its first `await`. -/
def Hosting.start (h : Hosting Path) : Operation Path → Hosting Path
  | .restore =>
      match h.componentInstance with
      | some _ => h.next (.ended true)
      | none => h.next .reading
  | .join socket path _ =>
      match h.componentInstance with
      | none => h.next (.looking path)
      | some c =>
          if c.rpcOwner ≠ path then h.next (.ended true)
          else if !c.stateful && h.sockets.isEmpty then h.discard c path
          else (h.acceptPeer socket).next (.ended true)

/-- The component is ready: restoration renders and publishes it, a join accepts
    its peer as well before it gives up the initialization. -/
def Hosting.ready (h : Hosting Path) (c : Component Path) : Operation Path → Hosting Path
  | .restore => h.publishComponent c
  | .join socket _ _ => (h.publishComponent c).acceptPeer socket

/-- `storage.put` of a stateful component. -/
def Hosting.store (h : Hosting Path) : Operation Path → Hosting Path
  | .restore => h
  | .join _ path url => { h with stored := ⟨true, some path, some url⟩ }

/-- The operation from one `await` to the next.  A missing component also closes
    the sockets, whose close events follow. -/
def Hosting.resume (h : Hosting Path) (op : Operation Path) (completion : Completion) :
    Option (Hosting Path) :=
  match h.body, completion with
  | .reading, .fulfilled => some (h.next (h.stored.restored.elim (.ended true) .looking))
  | .reading, .rejected => some (h.next (.ended false))
  | .discarding path, .fulfilled => some (h.next (.looking path))
  | .looking path, .found stateful =>
      some { h with
        components := h.components + 1
        body := .bootstrapping ⟨h.components, path, stateful⟩ }
  | .looking _, .missing => some (h.next (.ended true))
  | .looking _, .rejected => some (h.next (.ended false))
  | .bootstrapping c, .fulfilled =>
      match op with
      | .restore => some (h.ready c op)
      | .join .. => some (h.next (.initializing c))
  | .initializing c, .fulfilled =>
      if c.stateful then some (h.next (.storing c)) else some (h.ready c op)
  | .storing c, .fulfilled => some ((h.store op).ready c op)
  | .bootstrapping c, .rejected => some (h.fail c)
  | .initializing c, .rejected => some (h.fail c)
  | .storing c, .rejected => some (h.fail c)
  | .failing, .fulfilled => some (h.next (.ended false))
  | _, _ => none

/-! ## Section 3: Requests -/

/-- `shared`: the owner of the upgrade is a layout or a component. -/
inductive Request (Path : Type) where
  | join (path : Path) (url : String) (shared : Bool)
  | state
  | message (socket : Nat)
  deriving DecidableEq

/-- Where a request awaits.  `authorizing`: `authorizeWebSocketPeer` before it
    calls `join`; `asking`: the `stateful` flag; `restoring` and `joining`:
    `initializeComponent`; `sending`: the first state frame.  `joined` is what
    `join` returned to the authorizer, `denied` an upgrade that is closed at
    once. -/
inductive Progress where
  | absent
  | authorizing
  | asking
  | restoring
  | ensured
  | joining
  | sending
  | joined (status : Nat)
  | answered (status : Nat)
  | rejected
  | denied
  | dispatched
  deriving DecidableEq

structure Host (Path : Type) where
  hosting : Hosting Path
  /-- `componentInitialization`, with the jobs that depend on it. -/
  turn : Turn
  requests : Nat → Option (Request Path)
  progress : Nat → Progress

/-- A new object over a storage, with the sockets that slept through its start. -/
def Host.opened (stored : Stored Path) (sockets : List Nat) : Host Path where
  hosting := ⟨none, .idle, stored, sockets, 0, [], [], [], []⟩
  turn := .free
  requests := fun _ => none
  progress := fun _ => .absent

inductive Event (Path : Type) where
  | arrive (id : Nat) (request : Request Path)
  /-- The authorizer calls the operation, or answers without it. -/
  | authorize (id : Nat)
  | refuse (id : Nat)
  | read (id : Nat) (fulfilled : Bool)
  | proceed (id : Nat)
  | job
  | resume (completion : Completion)
  | settle
  | sent (id : Nat) (fulfilled : Bool)
  | conclude (id : Nat) (authorized : Bool)
  | close (socket : Nat)
  deriving DecidableEq

namespace Host

def set (s : Host Path) (id : Nat) (progress : Progress) : Host Path :=
  { s with progress := Function.update s.progress id progress }

def host (s : Host Path) (hosting : Hosting Path) : Host Path := { s with hosting }

/-- `await initializeComponent(…)`. -/
def initializeComponent (s : Host Path) (id : Nat) (waiting : Progress) : Host Path :=
  { s.set id waiting with turn := enter s.turn id }

def ensureComponentInstance (s : Host Path) (id : Nat) : Host Path :=
  if s.hosting.componentInstance.isSome then s.set id .ensured
  else s.initializeComponent id .restoring

/-- The operation that a request brings to the initialization. -/
def operation (s : Host Path) (id : Nat) : Option (Operation Path) :=
  match s.progress id, s.requests id with
  | .restoring, _ => some .restore
  | .joining, some (.join path url _) => some (.join id path url)
  | _, _ => none

/-- What a request does after `ensureComponentInstance`. -/
def proceed (s : Host Path) (id : Nat) : Request Path → Host Path
  | .join path _ _ =>
      match s.hosting.componentInstance with
      | some c =>
          if c.rpcOwner ≠ path then s.set id (.joined 403) else s.initializeComponent id .joining
      | none => s.initializeComponent id .joining
  | .state => s.set id (.answered (if s.hosting.componentInstance.isSome then 200 else 404))
  | .message socket =>
      match s.hosting.componentInstance with
      | some c => (s.host (s.hosting.serve socket c)).set id .dispatched
      | none => s.set id .dispatched

/-- `join` after its operation. -/
def completeJoin (s : Host Path) (id : Nat) (path : Path) (shared : Bool) : Host Path :=
  match s.hosting.componentInstance with
  | none => s.set id (.joined 500)
  | some c =>
      if c.rpcOwner ≠ path then s.set id (.joined 403)
      else
        let s := if s.hosting.accepted id then s else s.host (s.hosting.acceptPeer id)
        if c.stateful || shared then s.set id .sending else s.set id (.joined 101)

/-- `initializeComponent` returns to a request, or throws. -/
def returned (s : Host Path) (id : Nat) (fulfilled : Bool) : Host Path :=
  if !fulfilled then s.set id .rejected
  else
    match s.progress id, s.requests id with
    | .restoring, _ => s.set id .ensured
    | .joining, some (.join path _ shared) => s.completeJoin id path shared
    | _, _ => s

def runJob (s : Host Path) : Turns.Effect → Host Path
  | .quiet => s
  | .started id => ((s.operation id).map fun op => s.host (s.hosting.start op)).getD s
  | .rejected id => s.set id .rejected
  | .returned id fulfilled => s.returned id fulfilled

/-- The request of an operation that has begun and whose promise is pending. -/
def owner (s : Host Path) : Option Nat :=
  s.turn.slot.bind fun p => if p.stage = .running then some p.caller else none

def arrive (s : Host Path) (id : Nat) (request : Request Path) : Host Path :=
  let s := { s with requests := Function.update s.requests id (some request) }
  match request with
  | .join .. => s.set id .authorizing
  | .state => s.set id .asking
  | .message _ => s.ensureComponentInstance id

/-- The storage told a state request whether the object is stateful. -/
def read (s : Host Path) (id : Nat) (fulfilled : Bool) : Host Path :=
  if !fulfilled then s.set id .rejected
  else if s.hosting.stored.stateful then s.ensureComponentInstance id
  else s.set id (.answered 200)

/-- The authorizer ends after `join` returned: a peer it turns down then is
    closed as well. -/
def conclude (s : Host Path) (id : Nat) (status : Nat) (authorized : Bool) : Host Path :=
  if authorized then s.set id (.answered status)
  else
    let hosting := if s.hosting.accepted id then s.hosting else s.hosting.acceptWebSocket id
    (s.host hosting).set id .denied

def step (s : Host Path) : Event Path → Option (Host Path)
  | .arrive id request =>
      if s.requests id = none ∧ s.progress id = .absent ∧ id ∉ s.hosting.sockets then
        some (s.arrive id request)
      else none
  | .authorize id =>
      if s.progress id = .authorizing then some (s.ensureComponentInstance id) else none
  | .refuse id =>
      if s.progress id = .authorizing then
        some ((s.host (s.hosting.acceptWebSocket id)).set id .denied)
      else none
  | .read id fulfilled => if s.progress id = .asking then some (s.read id fulfilled) else none
  | .proceed id =>
      if s.progress id = .ensured then (s.requests id).map (s.proceed id) else none
  | .job => (run s.turn).map fun next => runJob { s with turn := next.1 } next.2
  | .resume completion =>
      match s.owner.bind s.operation with
      | none => none
      | some op => (s.hosting.resume op completion).map s.host
  | .settle =>
      match s.hosting.body with
      | .ended fulfilled =>
          some { s.host (s.hosting.next .idle) with
            turn := Turns.settle s.turn fulfilled }
      | _ => none
  | .sent id fulfilled =>
      if s.progress id = .sending then
        some (s.set id (if fulfilled then .joined 101 else .rejected))
      else none
  | .conclude id authorized =>
      match s.progress id with
      | .joined status => some (s.conclude id status authorized)
      | _ => none
  | .close socket =>
      some (s.host { s.hosting with sockets := s.hosting.sockets.filter (· ≠ socket) })

end Host

end Cossack.Core.DurableObject
