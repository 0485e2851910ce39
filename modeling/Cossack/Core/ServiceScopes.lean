import Cossack.Lib.Entries
import Cossack.Lib.Runs
import Mathlib.Logic.Function.Basic

/-! # Service scopes

    The construction of a `ServiceScope` and `beginDisposal`.  A disposal that is
    running keeps its place in its two loops; the scopes that run are on a stack.
    While the top one calls a hook, the hook may construct and dispose scopes, so
    a hook is two events with anything between them.  Promises settle when the
    stack is empty.  The constructors of services do not touch scopes. -/

namespace Cossack.Core.ServiceScopes

abbrev ServiceClass := Nat

abbrev ScopeId := Nat

abbrev Instance := Nat

/-! ## Section 1: Instantiating the declarations -/

/-- The classes, and which of their parts throw while one scope is constructed.
    `borrows` is the container's `resolve`. -/
structure Classes where
  isService : ServiceClass → Bool
  paramTypes : ServiceClass → List ServiceClass
  constructs : ServiceClass → Bool
  boots : ServiceClass → Bool
  hydrates : ServiceClass → Bool
  borrows : ServiceClass → Bool

/-- The map `owned` of a scope under construction, and every instance that was
    made for it. -/
structure Building where
  owned : List (ServiceClass × Option Instance)
  next : Instance
  instances : List Instance

def Building.store (b : Building) (serviceClass : ServiceClass) (i : Instance) : Building :=
  { b with owned := Entries.set b.owned serviceClass (some i) }

/-- `new serviceClass(...)` -/
def Building.construct (b : Building) : Building :=
  { b with next := b.next + 1, instances := b.instances ++ [b.next] }

variable (classes : Classes) (inherited : ServiceClass → Option Instance)

/-- The dependencies in order; false when one throws. -/
def resolveDependencies (instantiate : ServiceClass → Building → Building × Option Instance) :
    List ServiceClass → Building → Building × Bool
  | [], b => (b, true)
  | dep :: deps, b =>
      if classes.isService dep then
        match Entries.get b.owned dep with
        | some (some _) => resolveDependencies instantiate deps b
        | some none =>
            match instantiate dep b with
            | (b, none) => (b, false)
            | (b, some i) =>
                if classes.boots dep then resolveDependencies instantiate deps (b.store dep i)
                else (b.store dep i, false)
        | none =>
            if (inherited dep).isSome || classes.borrows dep then resolveDependencies instantiate deps b
            else (b, false)
      else resolveDependencies instantiate deps b

/-- Every call resolves one more class of the scope, so that as many calls as
    there are declarations reach a class that is being resolved. -/
def instantiateOwned : Nat → List ServiceClass → ServiceClass → Building → Building × Option Instance
  | 0, _, _, b => (b, none)
  | fuel + 1, resolving, serviceClass, b =>
      if serviceClass ∈ resolving then (b, none)
      else
        match resolveDependencies classes inherited (instantiateOwned fuel (serviceClass :: resolving))
            (classes.paramTypes serviceClass) b with
        | (b, false) => (b, none)
        | (b, true) => if classes.constructs serviceClass then (b.construct, some b.next) else (b, none)

/-- The first loop of the constructor: reserve the declarations. -/
def reserve : List ServiceClass → Building → Building × Bool
  | [], b => (b, true)
  | serviceClass :: rest, b =>
      if serviceClass ∈ b.owned.map Prod.fst then (b, false)
      else if classes.isService serviceClass then
        reserve rest { b with owned := b.owned ++ [(serviceClass, none)] }
      else (b, false)

/-- The second one: instantiate, bootstrap and hydrate each of them. -/
def instantiateAll (fuel : Nat) : List ServiceClass → Building → Building × Bool
  | [], b => (b, true)
  | serviceClass :: rest, b =>
      match Entries.get b.owned serviceClass with
      | some none =>
          match instantiateOwned classes inherited fuel [] serviceClass b with
          | (b, none) => (b, false)
          | (b, some i) =>
              if classes.boots serviceClass && classes.hydrates serviceClass then
                instantiateAll fuel rest (b.store serviceClass i)
              else (b.store serviceClass i, false)
      | _ => if classes.hydrates serviceClass then instantiateAll fuel rest b else (b, false)

/-- The `try` block of the constructor; false when it throws. -/
def buildScope (declarations : List ServiceClass) (next : Instance) : Building × Bool :=
  match reserve classes declarations ⟨[], next, []⟩ with
  | (b, false) => (b, false)
  | (b, true) => instantiateAll classes inherited (declarations.length + 1) declarations b

/-! ## Section 2: Scopes -/

/-- Where `beginDisposal` of a scope stands: not begun, in the loop over the
    children, in the loop over the owned services, inside a hook, waiting for the
    promises it collected, or complete. -/
inductive Disposal where
  | idle
  | children (rest : List ScopeId)
  | entries (rest : List (ServiceClass × Option Instance))
  | hook (service : Instance) (rest : List (ServiceClass × Option Instance))
  | waiting (childDisposals : List ScopeId)
  | complete (childDisposals : List ScopeId)

/-- Who observes a disposal: `dispose` and the constructor log its errors,
    `disposeAsync` throws them. -/
inductive Caller where
  | dispose
  | disposeAsync
  | setup
  deriving DecidableEq

/-- An error names the service whose hook failed.  `pending` are the hooks whose
    promises have not settled; `instances` all the services made for the scope;
    `begun` the number of scopes there were when its disposal began. -/
structure Scope where
  parent : Option ScopeId
  constructed : Bool
  instances : List Instance
  owned : List (ServiceClass × Option Instance)
  children : List ScopeId
  childDisposals : List ScopeId
  disposal : Disposal
  begun : Nat
  pending : List Instance
  errors : List Instance
  observers : List Caller

def Scope.new (parent : Option ScopeId) (built : Building × Bool) : Scope where
  parent := parent
  constructed := built.2
  instances := built.1.instances
  owned := built.1.owned
  children := []
  childDisposals := []
  disposal := .idle
  begun := 0
  pending := []
  errors := []
  observers := []

/-- Reading `onDispose`: it is no function, the read throws, or it is called. -/
inductive Read where
  | absent
  | throws
  | function

/-- A service that a disposal reached. -/
structure Visit where
  scope : ScopeId
  service : Instance
  read : Read

/-- A continuation that ran with the errors of a disposal. -/
structure Report where
  scope : ScopeId
  caller : Caller
  errors : List Instance

/-- `visits` and `failures` log what the disposals did; `callers` every call that
    observes a disposal. -/
structure World where
  count : Nat
  scopes : ScopeId → Scope
  stack : List ScopeId
  next : Instance
  visits : List Visit
  failures : List (ScopeId × Instance)
  callers : List (ScopeId × Caller)
  reports : List Report

def World.new : World :=
  ⟨0, fun _ => .new none (⟨[], 0, []⟩, false), [], 0, [], [], [], []⟩

def World.modify (w : World) (s : ScopeId) (f : Scope → Scope) : World :=
  { w with scopes := Function.update w.scopes s (f (w.scopes s)) }

def World.modifyParent (w : World) (s : ScopeId) (f : Scope → Scope) : World :=
  match (w.scopes s).parent with
  | some p => w.modify p f
  | none => w

/-- `findDeclaration` from a scope on; a constructed scope has all its instances. -/
def World.findDeclaration (w : World) (serviceClass : ServiceClass) : Nat → Option ScopeId → Option Instance
  | _, none => none
  | 0, some _ => none
  | fuel + 1, some s =>
      match Entries.get (w.scopes s).owned serviceClass with
      | some entry => entry
      | none => w.findDeclaration serviceClass fuel (w.scopes s).parent

/-! ## Section 3: Disposal -/

/-- `beginDisposal` up to its first loop, when the scope is not disposed. -/
def World.begin (w : World) (s : ScopeId) : World :=
  let running := w.modify s fun scope => { scope with disposal := .children scope.children, begun := w.count }
  let known := running.modifyParent s fun parent =>
    { parent with childDisposals := parent.childDisposals.filter (· != s) ++ [s] }
  { known with stack := s :: w.stack }

def World.beginDisposal (w : World) (s : ScopeId) : World :=
  match (w.scopes s).disposal with
  | .idle => w.begin s
  | _ => w

/-- A call whose continuation gets the errors. -/
def World.observe (w : World) (s : ScopeId) (caller : Caller) : World :=
  let observed := w.modify s fun scope => { scope with observers := scope.observers ++ [caller] }
  { observed with callers := w.callers ++ [(s, caller)] }

def World.fail (w : World) (s : ScopeId) (i : Instance) : World :=
  let failed := w.modify s fun scope => { scope with errors := scope.errors ++ [i] }
  { failed with failures := w.failures ++ [(s, i)] }

def World.visit (w : World) (s : ScopeId) (i : Instance) (read : Read) : World :=
  { w with visits := w.visits ++ [⟨s, i, read⟩] }

def World.goto (w : World) (s : ScopeId) (disposal : Disposal) : World :=
  w.modify s fun scope => { scope with disposal }

/-- The end of `beginDisposal`: the promises of the children and of the hooks are
    collected. -/
def World.collect (w : World) (s : ScopeId) : World :=
  let collected := w.modify s fun scope =>
    { scope with owned := [], disposal := .waiting scope.childDisposals }
  let detached := collected.modifyParent s fun parent =>
    { parent with children := parent.children.filter (· != s) }
  { detached with stack := w.stack.tail }

/-- One step of the disposal on top of the stack. -/
def World.advance (w : World) (s : ScopeId) (read : Read) : Option World :=
  match (w.scopes s).disposal with
  | .children (child :: rest) => some ((w.goto s (.children rest)).beginDisposal child)
  | .children [] =>
      some (w.modify s fun scope => { scope with children := [], disposal := .entries scope.owned })
  | .entries ((_, none) :: rest) => some (w.goto s (.entries rest))
  | .entries ((_, some i) :: rest) =>
      match read with
      | .absent => some ((w.visit s i read).goto s (.entries rest))
      | .throws => some (((w.visit s i read).goto s (.entries rest)).fail s i)
      | .function => some ((w.visit s i read).goto s (.hook i rest))
  | .entries [] => some (w.collect s)
  | _ => none

inductive HookOutcome where
  | value
  | promise
  | throws

def World.hookReturns (w : World) (s : ScopeId) (outcome : HookOutcome) : Option World :=
  match (w.scopes s).disposal with
  | .hook i rest =>
      match outcome with
      | .value => some (w.goto s (.entries rest))
      | .promise =>
          some ((w.goto s (.entries rest)).modify s fun scope => { scope with pending := scope.pending ++ [i] })
      | .throws => some ((w.goto s (.entries rest)).fail s i)
  | _ => none

def Disposal.isComplete : Disposal → Bool
  | .complete _ => true
  | _ => false

/-- `Promise.all` has settled. -/
def World.complete (w : World) (s : ScopeId) : Option World :=
  match (w.scopes s).disposal with
  | .waiting waits =>
      if (w.scopes s).pending = [] ∧ ∀ c ∈ waits, (w.scopes c).disposal.isComplete then
        let errors := waits.flatMap fun c => (w.scopes c).errors
        let completed := w.modify s fun scope =>
          { scope with errors := scope.errors ++ errors, childDisposals := [], disposal := .complete waits }
        some (completed.modifyParent s fun parent =>
          { parent with childDisposals := parent.childDisposals.filter (· != s) })
      else none
  | _ => none

def World.report (w : World) (s : ScopeId) : Option World :=
  match (w.scopes s).disposal, (w.scopes s).observers with
  | .complete _, caller :: rest =>
      let observed := w.modify s fun scope => { scope with observers := rest }
      some { observed with reports := w.reports ++ [⟨s, caller, (w.scopes s).errors⟩] }
  | _, _ => none

/-! ## Section 4: Events -/

inductive Event where
  | construct (parent : Option ScopeId) (declarations : List ServiceClass) (classes : Classes)
  | dispose (s : ScopeId)
  | disposeAsync (s : ScopeId)
  | advance (read : Read)
  | hookReturns (outcome : HookOutcome)
  | settle (s : ScopeId) (i : Instance) (rejected : Bool)
  | complete (s : ScopeId)
  | report (s : ScopeId)

/-- Application code runs: no disposal does, or the one on top is in a hook. -/
def World.inUserCode (w : World) : Bool :=
  match w.stack with
  | [] => true
  | s :: _ =>
      match (w.scopes s).disposal with
      | .hook _ _ => true
      | _ => false

/-- A scope that application code can hold: its constructor has returned. -/
def World.known (w : World) (s : ScopeId) : Bool := s < w.count && (w.scopes s).constructed

def World.add (w : World) (parent : Option ScopeId) (declarations : List ServiceClass) (classes : Classes) :
    World :=
  let built := buildScope classes (fun c => w.findDeclaration c w.count parent) declarations w.next
  let added := { w with
    count := w.count + 1, scopes := Function.update w.scopes w.count (.new parent built), next := built.1.next }
  added.modifyParent w.count fun parent => { parent with children := parent.children ++ [w.count] }

def World.step (w : World) : Event → Option World
  | .construct parent declarations classes =>
      if w.inUserCode ∧ ∀ p, parent = some p → w.known p then
        let added := w.add parent declarations classes
        -- a constructor that throws disposes what it has built
        if (added.scopes w.count).constructed then some added
        else some ((added.beginDisposal w.count).observe w.count .setup)
      else none
  | .dispose s =>
      if w.inUserCode ∧ w.known s then
        match (w.scopes s).disposal with
        | .idle => some ((w.beginDisposal s).observe s .dispose)
        | _ => some w
      else none
  | .disposeAsync s =>
      if w.inUserCode ∧ w.known s then some ((w.beginDisposal s).observe s .disposeAsync) else none
  | .advance read =>
      match w.stack with
      | s :: _ => w.advance s read
      | [] => none
  | .hookReturns outcome =>
      match w.stack with
      | s :: _ => w.hookReturns s outcome
      | [] => none
  | .settle s i rejected =>
      if w.stack = [] ∧ i ∈ (w.scopes s).pending then
        let settled := w.modify s fun scope => { scope with pending := scope.pending.erase i }
        some (if rejected then settled.fail s i else settled)
      else none
  | .complete s => if w.stack = [] then w.complete s else none
  | .report s => if w.stack = [] then w.report s else none

/-- Every order of events from no scope at all. -/
def Reachable : World → Prop := Runs.Run World.step Runs.Free World.new

end Cossack.Core.ServiceScopes
