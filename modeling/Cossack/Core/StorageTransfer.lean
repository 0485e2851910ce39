import Cossack.Core.SignedStorage
import Cossack.Lib.ReadableStreams
import Cossack.Lib.Runs

/-! # Sized storage transfers

    The stream that `transfer` puts between the body of an object and its consumer.
    Its pull algorithm is an async function: it runs until it waits for the source,
    goes on when the source has answered, and its promise is seen to settle later.
    Reads, cancels, aborts and `finish` fall between these steps, or within one, from
    the progress callback. -/

namespace Cossack.Core.StorageTransfer

open Cossack.Core.SignedStorage (StorageError)
open ReadableStreams
open Runs

abbrev Bytes := List UInt8

/-! ## Section 1: The transfer -/

/-- What the reader of the source answers. -/
inductive Item
  | bytes (chunk : Bytes)
  /-- A value that is no `Uint8Array`. -/
  | other
  | done
  | failed
  deriving DecidableEq

/-- The body as its reader sees it. -/
inductive Source
  | readable
  | closed
  | failed

/-- How far the call of the pull algorithm has come. -/
inductive Pull
  | idle
  | reading
  /-- The source has answered. -/
  | resumed (item : Item)
  /-- The progress callback is told of the chunk. -/
  | reporting (chunk : Bytes)
  | settled
  deriving DecidableEq

structure Transfer where
  expected : Option Nat
  aborted : Bool
  source : Source
  /-- `reader.cancel()` has been called. -/
  cancelled : Bool
  /-- How often the cancel algorithm of the source has run. -/
  released : Nat
  pull : Pull
  transferred : Nat
  ended : Bool
  disposed : Bool
  /-- `finish()` has been called. -/
  finished : Bool
  stream : ReadableStream Bytes StorageError
  /-- What the source has answered by itself. -/
  given : List Item

def abortedError : StorageError := ⟨"COSSACK_STORAGE_ABORTED", "The storage transfer was cancelled."⟩
def cancelledError : StorageError := ⟨"COSSACK_STORAGE_ABORTED", "The storage operation was cancelled."⟩
def sourceError : StorageError := ⟨"COSSACK_STORAGE_TRANSFER_FAILED", "The storage source failed."⟩
def transferError : StorageError := ⟨"COSSACK_STORAGE_TRANSFER_FAILED", "The storage transfer failed."⟩
def bodyError : StorageError := ⟨"COSSACK_STORAGE_BODY_INVALID", "Storage streams must yield byte chunks."⟩
def shortError : StorageError :=
  ⟨"COSSACK_STORAGE_SIZE_MISMATCH", "The body does not match its declared byte count."⟩
def longError : StorageError :=
  ⟨"COSSACK_STORAGE_SIZE_MISMATCH", "The body exceeds its declared byte count."⟩

namespace Transfer

def dispose (t : Transfer) : Transfer := { t with disposed := true }

/-- `reader.cancel()`.  A read of the source that is pending resolves as done. -/
def cancelReader (t : Transfer) : Transfer :=
  match t.source with
  | .readable =>
      { t with
        cancelled := true
        source := .closed
        released := t.released + 1
        pull := if t.pull = .reading then .resumed .done else t.pull }
  | _ => { t with cancelled := true }

/-- The listener of the signal. -/
def abort (t : Transfer) : Transfer :=
  let t := t.dispose.cancelReader
  { t with stream := t.stream.error abortedError }

def start (expected : Option Nat) (aborted : Bool) : Transfer :=
  let t : Transfer := ⟨expected, aborted, .readable, false, 0, .idle, 0, false, false, false, .new, []⟩
  if aborted then t.abort else t

/-- The catch block of the pull algorithm. -/
def fail (t : Transfer) (error : StorageError) : Transfer :=
  let t := t.dispose.cancelReader
  { t with stream := t.stream.error error, pull := .settled }

/-- The pull algorithm until it waits for the source. -/
def read (t : Transfer) : Transfer :=
  if t.aborted then t.fail cancelledError
  else
    match t.source with
    | .readable => { t with pull := .reading }
    | .closed => { t with pull := .resumed .done }
    | .failed => { t with pull := .resumed .failed }

/-- An operation of the stream, with the pull algorithm where it calls it. -/
def calls (t : Transfer) (r : ReadableStream Bytes StorageError × Bool) : Transfer :=
  if r.2 then { t with stream := r.1 }.read else { t with stream := r.1 }

end Transfer

/-- What the consumer, the owner of the signal and the caller of `transfer` can do. -/
inductive Act
  | read
  | cancel
  | abort
  | finish

/-- How the progress callback returns. -/
inductive Outcome
  | returns
  /-- With a StorageError, or with anything else. -/
  | throws (error : Option StorageError)

namespace Transfer

def act (t : Transfer) : Act → Transfer
  | .read => t.calls (t.stream.read 1)
  | .cancel =>
      let r := t.stream.cancel
      if r.2 then { t with stream := r.1 }.dispose.cancelReader else { t with stream := r.1 }
  | .abort =>
      if t.aborted then t
      else if t.disposed then { t with aborted := true }
      else { t with aborted := true }.abort
  | .finish =>
      let t := { t.dispose with finished := true }
      if t.ended then t else t.cancelReader

/-- The source has no more. -/
def finishSource (t : Transfer) : Transfer :=
  let t := { t with ended := true }.dispose
  if t.expected.isSome && t.expected ≠ some t.transferred then t.fail shortError
  else
    match t.stream.close with
    | none => t.fail transferError
    | some stream => { t with stream := stream, pull := .settled }

/-- The source has given a chunk.  What the progress callback does comes before the chunk
    is passed on; no pull is called then, as this one runs. -/
def receive (t : Transfer) (chunk : Bytes) (during : List Act) (outcome : Outcome) : Transfer :=
  let t := { t with transferred := t.transferred + chunk.length }
  if t.expected.any (· < t.transferred) then t.fail longError
  else
    let t := during.foldl act { t with pull := .reporting chunk }
    match outcome with
    | .throws error => t.fail (error.getD transferError)
    | .returns =>
        match t.stream.enqueue 1 chunk with
        | none => t.fail transferError
        | some r => { t with stream := r.1, pull := .settled }

/-- The pull algorithm after the source has answered. -/
def resume (t : Transfer) (item : Item) (during : List Act) (outcome : Outcome) : Transfer :=
  match item with
  | .failed => t.fail sourceError
  | .done => if t.aborted then t.fail cancelledError else t.finishSource
  | .other => if t.aborted then t.fail cancelledError else t.fail bodyError
  | .bytes chunk => if t.aborted then t.fail cancelledError else t.receive chunk during outcome

end Transfer

inductive Event
  | act (a : Act)
  /-- The promise of the start algorithm is seen to be fulfilled. -/
  | started
  /-- The source answers. -/
  | source (item : Item)
  | resume (during : List Act) (outcome : Outcome)
  /-- The promise of the pull algorithm is seen to be fulfilled. -/
  | pulled

/-- The source after an answer. -/
def Item.leaves : Item → Source
  | .done => .closed
  | .failed => .failed
  | _ => .readable

def step (t : Transfer) : Event → Option Transfer
  | .act a => some (t.act a)
  | .started => if t.stream.started then none else some (t.calls (t.stream.start 1))
  | .source item =>
      if t.pull = .reading then
        some { t with source := item.leaves, given := t.given ++ [item], pull := .resumed item }
      else none
  | .resume during outcome =>
      match t.pull with
      | .resumed item => some (t.resume item during outcome)
      | _ => none
  | .pulled => if t.pull = .settled then some ({ t with pull := .idle }.calls (t.stream.pulled 1)) else none

end Cossack.Core.StorageTransfer
