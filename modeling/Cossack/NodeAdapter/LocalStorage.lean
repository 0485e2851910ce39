import Cossack.Lib.PromiseChains
import Cossack.Lib.Runs
import Cossack.NodeAdapter.Manifests

/-! # The local storage provider

    `LocalStorageProvider` of `packages/node-adapter/src/storage.ts` over a file
    system.  Every `await` of a call is a phase: the step that is awaited ends with an
    answer, in any order among the calls, and may fail.  A signal may abort at any
    time; it is looked at where the source looks at it.

    A file keeps what it contains for those who have it open when its name is gone, a
    rename happens as a whole or not at all, and what is open is not reported
    missing. -/

namespace Cossack.NodeAdapter.LocalStorage

open PromiseChains (Chains)

/-! ## Section 1: Files -/

abbrev Bytes := List UInt8

structure Files where
  /-- `prefix.json` -/
  manifests : Text → Option Manifest
  /-- `prefix.uuid.json.tmp`, with no manifest inside while it is not written whole. -/
  temporaries : Name → Option (Option Manifest)
  /-- `prefix.uuid.blob` -/
  blobs : Name → Bool
  contents : Name → Bytes

namespace Files

variable (f : Files)

def create (name : Name) : Files :=
  { f with
    blobs := Function.update f.blobs name true
    contents := Function.update f.contents name [] }

def append (name : Name) (bytes : Bytes) : Files :=
  { f with contents := Function.update f.contents name (f.contents name ++ bytes) }

def unlink (name : Name) : Files := { f with blobs := Function.update f.blobs name false }

def write (name : Name) (content : Option Manifest) : Files :=
  { f with temporaries := Function.update f.temporaries name (some content) }

def unlinkTemporary (name : Name) : Files :=
  { f with temporaries := Function.update f.temporaries name none }

def unlinkManifest (keyPrefix : Text) : Files :=
  { f with manifests := Function.update f.manifests keyPrefix none }

/-- The temporary file gets the name of the manifest. -/
def rename (name : Name) (m : Manifest) : Files :=
  { f with
    manifests := Function.update f.manifests name.keyPrefix (some m)
    temporaries := Function.update f.temporaries name none }

end Files

/-! ## Section 2: Bodies -/

inductive Fault where
  /-- ENOENT -/
  | missing
  | other
  deriving DecidableEq

inductive Thrown where
  | abort
  | fault (fault : Fault)
  deriving DecidableEq

inductive Chunk where
  | bytes (bytes : Bytes)
  /-- No `Uint8Array`. -/
  | foreign
  deriving DecidableEq

inductive Body where
  /-- Another reader has it. -/
  | locked
  /-- What it still has to give, and how it fails after that. -/
  | readable (chunks : List Chunk) (failure : Option Thrown)
  | closed
  | errored (thrown : Thrown)
  deriving DecidableEq

inductive Read where
  | chunk (chunk : Chunk)
  | done
  | failed (thrown : Thrown)

namespace Body

def read : Body → Read × Body
  | .locked => (.failed (.fault .other), .locked)
  | .readable (chunk :: chunks) failure => (.chunk chunk, .readable chunks failure)
  | .readable [] none => (.done, .closed)
  | .readable [] (some e) => (.failed e, .errored e)
  | .closed => (.done, .closed)
  | .errored e => (.failed e, .errored e)

def cancel : Body → Body
  | .readable _ _ => .closed
  | body => body

def bytesOf : List Chunk → Option Bytes
  | [] => some []
  | .bytes bytes :: chunks => (bytesOf chunks).map (bytes ++ ·)
  | .foreign :: _ => none

/-- All that a body gives that ends well. -/
def whole : Body → Option Bytes
  | .readable chunks none => bytesOf chunks
  | .closed => some []
  | _ => none

end Body

/-! ## Section 3: Calls -/

inductive Operation where
  | put (options : StoragePutOptions) (body : Body)
  | head
  | get
  | delete

/-- An operation whose options have been checked. -/
inductive Work where
  | put (metadata : ObjectOptions) (given : Body)
  | head
  | get
  | delete

inductive Result where
  | stored (m : Manifest)
  | described (m : Option Manifest)
  /-- The body of a `get` reads the blob, which is open. -/
  | found (m : Option Manifest)
  /-- With the manifest that was unlinked. -/
  | removed (m : Option Manifest)
  /-- With an AbortError, or with a LocalStorageError. -/
  | rejected (aborted : Bool)

/-- The variables of a `put`; `bytes` has been given to the hash. -/
structure Writing where
  previous : Option Manifest
  name : Name
  bytes : Bytes

/-- What a call awaits. -/
inductive Phase where
  /-- `waitFor(previous, signal)` -/
  | waiting
  /-- `this.ready()` -/
  | preparing
  /-- `this.manifest(key, prefix)` -/
  | inspecting
  | opening (m : Manifest)
  | sizing (m : Manifest)
  /-- `file.close()` before an error goes on. -/
  | dropping (e : Thrown)
  | unlinking (m : Manifest)
  | unlinkingBlob (m : Manifest)
  | creating (w : Writing)
  | reading (w : Writing)
  | writing (w : Writing) (chunk rest : Bytes)
  | syncing (w : Writing)
  | closing (w : Writing)
  | creatingInfo (w : Writing) (m : Manifest)
  | writingInfo (w : Writing) (m : Manifest)
  | syncingInfo (w : Writing) (m : Manifest)
  | closingInfo (w : Writing) (m : Manifest)
  | publishing (w : Writing) (m : Manifest)
  | unlinkingPrevious (w : Writing) (previous m : Manifest)
  /-- `finally`: the open file is closed, -/
  | abandoning (w : Writing) (e : Thrown)
  /-- the temporary file is unlinked, -/
  | clearing (w : Writing) (published : Except Thrown Manifest)
  /-- and the blob. -/
  | discarding (w : Writing) (e : Thrown)
  | settled (result : Result)

def Phase.isSettled : Phase → Bool
  | .settled _ => true
  | _ => false

structure Call where
  key : Text
  work : Work
  /-- The signal is aborted. -/
  aborted : Bool
  /-- `work` runs for the second time. -/
  again : Bool
  body : Body
  phase : Phase

/-- How an awaited step ends. -/
inductive Answer where
  | ok (now : Nat)
  | wrote (count : Nat)
  /-- A file may have been created all the same. -/
  | failed (fault : Fault) (took : Bool)

namespace Call

variable (call : Call)

def settle (result : Result) : Call := { call with phase := .settled result }

/-- `catch` of `own`. -/
def raise : Thrown → Call
  | .abort => call.settle (.rejected true)
  | .fault .other => call.settle (.rejected false)
  | .fault .missing =>
      if call.again then call.settle (.rejected false)
      else if call.aborted then call.settle (.rejected true)
      else { call with again := true, phase := .preparing }

/-- `finally` of `put` before the manifest is published, with or without a reader and an
    open file. -/
def abandon (w : Writing) (reader opened : Bool) (e : Thrown) : Call :=
  { call with
    body := if reader then call.body.cancel else call.body
    phase := if opened then .abandoning w e else .clearing w (.error e) }

/-- `aborted(signal)` in `put`. -/
def orAbort (w : Writing) (opened : Bool) (phase : Phase) : Call :=
  if call.aborted then call.abandon w true opened .abort else { call with phase }

/-- What follows `manifest(key, prefix)`. -/
def inspected (p : Platform) (i : Nat) (m : Option Manifest) : Call :=
  match call.work with
  | .head => if call.aborted then call.raise .abort else call.settle (.described m)
  | .get =>
      match m with
      | none => call.settle (.found none)
      | some m => { call with phase := .opening m }
  | .delete =>
      if call.aborted then call.raise .abort
      else
        match m with
        | none => call.settle (.removed none)
        | some m => { call with phase := .unlinking m }
  | .put _ _ =>
      { call with phase := .creating ⟨m, ⟨p.keyPrefix call.key, .drawn i call.again⟩, []⟩ }

/-- A chunk has been read. -/
def received (size : Nat) (w : Writing) (body : Body) : Read → Call
  | .failed e => { call with body }.abandon w true true e
  | .chunk .foreign => { call with body }.abandon w true true (.fault .other)
  | .chunk (.bytes bytes) =>
      if size < w.bytes.length + bytes.length then { call with body }.abandon w true true (.fault .other)
      else if bytes = [] then { call with body }.orAbort w true (.reading w)
      else { call with body }.orAbort w true (.writing w bytes bytes)
  | .done =>
      if call.aborted then { call with body }.abandon w true true .abort
      else if w.bytes.length ≠ size then { call with body }.abandon w true true (.fault .other)
      else { call with body, phase := .syncing w }

end Call

/-! ## Section 4: Steps of a call -/

section steps

variable (p : Platform) (i : Nat) (files : Files) (call : Call)

def inspect : Answer → Option (Files × Call)
  | .ok _ =>
      match files.manifests (p.keyPrefix call.key) with
      | none => some (files, call.inspected p i none)
      | some m =>
          if readable p call.key m then some (files, call.inspected p i (some m))
          else some (files, call.raise (.fault .other))
  | .failed .missing _ => some (files, call.inspected p i none)
  | .failed .other _ => some (files, call.raise (.fault .other))
  | .wrote _ => none

/-- The steps of `get` after its manifest. -/
def openBlob (m : Manifest) : Answer → Option (Files × Call)
  | .ok _ =>
      if files.blobs m.file then some (files, { call with phase := .sizing m })
      else some (files, call.raise (.fault .missing))
  | .failed fault _ => some (files, call.raise (.fault fault))
  | .wrote _ => none

def sizeBlob (m : Manifest) : Answer → Option (Files × Call)
  | .ok _ =>
      if (files.contents m.file).length = m.size then some (files, call.settle (.found (some m)))
      else some (files, { call with phase := .dropping (.fault .other) })
  | .failed _ _ => some (files, { call with phase := .dropping (.fault .other) })
  | .wrote _ => none

def dropBlob (e : Thrown) : Answer → Option (Files × Call)
  | .ok _ => some (files, call.raise e)
  | .failed _ _ => some (files, call.raise (.fault .other))
  | .wrote _ => none

/-- The steps of `delete`. -/
def unlinkManifest (m : Manifest) : Answer → Option (Files × Call)
  | .ok _ =>
      some (files.unlinkManifest (p.keyPrefix call.key), { call with phase := .unlinkingBlob m })
  | .failed fault _ => some (files, call.raise (.fault fault))
  | .wrote _ => none

def unlinkBlob (m : Manifest) : Answer → Option (Files × Call)
  | .ok _ => some (files.unlink m.file, call.settle (.removed (some m)))
  | .failed _ _ => some (files, call.settle (.removed (some m)))
  | .wrote _ => none

/-- The steps of `put`. -/
def createBlob (w : Writing) : Answer → Option (Files × Call)
  | .ok _ =>
      if call.body = .locked then
        some (files.create w.name, call.abandon w false true (.fault .other))
      else some (files.create w.name, call.orAbort w true (.reading w))
  | .failed fault took =>
      some (if took then files.create w.name else files, call.abandon w false false (.fault fault))
  | .wrote _ => none

def readBody (size : Nat) (w : Writing) : Answer → Option (Files × Call)
  | .ok _ => some (files, call.received size w call.body.read.2 call.body.read.1)
  | _ => none

def writeChunk (w : Writing) (chunk rest : Bytes) : Answer → Option (Files × Call)
  | .wrote count =>
      if count = 0 then some (files, call.abandon w true true (.fault .other))
      else if rest.length ≤ count then
        let w' := { w with bytes := w.bytes ++ chunk }
        some (files.append w.name rest, call.orAbort w' true (.reading w'))
      else
        some (files.append w.name (rest.take count),
          call.orAbort w true (.writing w chunk (rest.drop count)))
  | .failed _ _ => some (files, call.abandon w true true (.fault .other))
  | .ok _ => none

/-- A step on an open file that goes on with the next one. -/
def proceed (w : Writing) (next : Phase) : Answer → Option (Files × Call)
  | .ok _ => some (files, { call with phase := next })
  | .failed _ _ => some (files, call.abandon w true true (.fault .other))
  | .wrote _ => none

/-- The blob is closed; the time is that of the object. -/
def closeBlob (metadata : ObjectOptions) (w : Writing) : Answer → Option (Files × Call)
  | .ok now =>
      if now ≤ maxSafe then
        some (files, { call with
          phase := .creatingInfo w (writtenManifest p call.key metadata w.bytes now w.name.uuid) })
      else none
  | .failed _ _ => some (files, call.abandon w true true (.fault .other))
  | .wrote _ => none

def createInfo (w : Writing) (m : Manifest) : Answer → Option (Files × Call)
  | .ok _ => some (files.write w.name none, { call with phase := .writingInfo w m })
  | .failed fault took =>
      some (if took then files.write w.name none else files,
        call.abandon w true false (.fault fault))
  | .wrote _ => none

def writeInfo (w : Writing) (m : Manifest) : Answer → Option (Files × Call)
  | .ok _ => some (files.write w.name (some m), { call with phase := .syncingInfo w m })
  | .failed _ _ => some (files, call.abandon w true true (.fault .other))
  | .wrote _ => none

def closeInfo (w : Writing) (m : Manifest) : Answer → Option (Files × Call)
  | .ok _ => some (files, call.orAbort w false (.publishing w m))
  | .failed _ _ => some (files, call.abandon w true true (.fault .other))
  | .wrote _ => none

def renameInfo (w : Writing) : Answer → Option (Files × Call)
  | .ok _ =>
      match files.temporaries w.name with
      | some (some m) =>
          some (files.rename w.name m, { call with
            phase :=
              match w.previous with
              | some previous => .unlinkingPrevious w previous m
              | none => .clearing w (.ok m) })
      | _ => some (files, call.abandon w true false (.fault .missing))
  | .failed fault _ => some (files, call.abandon w true false (.fault fault))
  | .wrote _ => none

def unlinkPrevious (w : Writing) (previous m : Manifest) : Answer → Option (Files × Call)
  | .ok _ => some (files.unlink previous.file, { call with phase := .clearing w (.ok m) })
  | .failed _ _ => some (files, { call with phase := .clearing w (.ok m) })
  | .wrote _ => none

def closeAbandoned (w : Writing) (e : Thrown) : Answer → Option (Files × Call)
  | .ok _ => some (files, { call with phase := .clearing w (.error e) })
  -- The rest of `finally` is left out.
  | .failed _ _ => some (files, call.raise (.fault .other))
  | .wrote _ => none

def cleared (w : Writing) : Except Thrown Manifest → Call
  | .ok m => call.settle (.stored m)
  | .error e => { call with phase := .discarding w e }

def clear (w : Writing) (published : Except Thrown Manifest) : Answer → Option (Files × Call)
  | .ok _ => some (files.unlinkTemporary w.name, cleared call w published)
  | .failed _ _ => some (files, cleared call w published)
  | .wrote _ => none

def discard (w : Writing) (e : Thrown) : Answer → Option (Files × Call)
  | .ok _ => some (files.unlink w.name, call.raise e)
  | .failed _ _ => some (files, call.raise e)
  | .wrote _ => none

def prepare : Answer → Option (Files × Call)
  | .ok _ => some (files, { call with phase := .inspecting })
  | .failed _ _ => some (files, call.settle (.rejected false))
  | .wrote _ => none

/-- Only a `put` writes. -/
def resumePut (metadata : ObjectOptions) (a : Answer) : Phase → Option (Files × Call)
  | .creating w => createBlob files call w a
  | .reading w => readBody files call metadata.size w a
  | .writing w chunk rest => writeChunk files call w chunk rest a
  | .syncing w => proceed files call w (.closing w) a
  | .closing w => closeBlob p files call metadata w a
  | .creatingInfo w m => createInfo files call w m a
  | .writingInfo w m => writeInfo files call w m a
  | .syncingInfo w m => proceed files call w (.closingInfo w m) a
  | .closingInfo w m => closeInfo files call w m a
  | .publishing w _ => renameInfo files call w a
  | .unlinkingPrevious w previous m => unlinkPrevious files call w previous m a
  | .abandoning w e => closeAbandoned files call w e a
  | .clearing w published => clear files call w published a
  | .discarding w e => discard files call w e a
  | _ => none

/-- The step that the call awaits ends. -/
def resume (a : Answer) : Option (Files × Call) :=
  match call.phase with
  | .preparing => prepare files call a
  | .inspecting => inspect p i files call a
  | .opening m => openBlob files call m a
  | .sizing m => sizeBlob files call m a
  | .dropping e => dropBlob files call e a
  | .unlinking m => unlinkManifest p files call m a
  | .unlinkingBlob m => unlinkBlob files call m a
  | phase =>
      match call.work with
      | .put metadata _ => resumePut p files call metadata a phase
      | _ => none

end steps

/-- The signal makes a call leave that waits for its turn or for its body. -/
def interrupt (call : Call) : Option Call :=
  if call.aborted then
    match call.phase with
    | .waiting => some (call.settle (.rejected true))
    | .reading w => some (call.abandon w true true .abort)
    | _ => none
  else none

/-! ## Section 5: The provider -/

structure Provider where
  files : Files
  locks : Chains Text
  calls : List Call

inductive Event where
  | call (operation : Operation) (key : Text) (aborted : Bool)
  | abort (i : Nat)
  /-- The tail of the call before is settled. -/
  | turn (i : Nat)
  | interrupt (i : Nat)
  | answer (i : Nat) (a : Answer)
  /-- The jobs of the promises. -/
  | settleTail (i : Nat)
  | sweepTail (i : Nat)

def Operation.checked : Operation → Option Work
  | .put options body => (metadataOptions options).map fun metadata => .put metadata body
  | .head => some .head
  | .get => some .get
  | .delete => some .delete

def Work.body : Work → Body
  | .put _ body => body
  | _ => .closed

namespace Provider

variable (s : Provider)

def setCall (i : Nat) (call : Call) : Provider :=
  { s with
    calls := s.calls.set i call
    locks := if call.phase.isSettled then s.locks.release i else s.locks }

/-- `own` up to its first `await`; a call with bad arguments rejects without a lock. -/
def own (p : Platform) (work : Work) (key : Text) (aborted : Bool) : Provider :=
  if validKey key && !aborted then
    { s with
      locks := s.locks.take (p.keyPrefix key)
      calls := s.calls ++ [⟨key, work, false, false, work.body, .waiting⟩] }
  else s

def turn (i : Nat) (call : Call) : Provider :=
  s.setCall i (if call.aborted then call.settle (.rejected true) else { call with phase := .preparing })

end Provider

def step (p : Platform) (s : Provider) : Event → Option Provider
  | .call operation key aborted =>
      match operation.checked with
      | some work => some (s.own p work key aborted)
      | none => some s
  | .abort i => some { s with calls := s.calls.modify i fun call => { call with aborted := true } }
  | .turn i =>
      match s.calls[i]? with
      | some call =>
          match call.phase with
          | .waiting => if s.locks.free i then some (s.turn i call) else none
          | _ => none
      | none => none
  | .interrupt i => (s.calls[i]?.bind interrupt).map (s.setCall i)
  | .answer i a =>
      match s.calls[i]? with
      | some call =>
          (resume p i s.files call a).map fun next => { s with files := next.1 }.setCall i next.2
      | none => none
  | .settleTail i => (s.locks.settle i).map fun locks => { s with locks }
  | .sweepTail i => (s.locks.sweep i).map fun locks => { s with locks }

end Cossack.NodeAdapter.LocalStorage
