import Cossack.Lib.Entries
import Cossack.Lib.JsonQuote
import Cossack.Lib.Windows
import Mathlib

/-! # The rate-limit stores

    The hits of `InMemoryRateLimitStore`, `KvRateLimitStore` and
    `DurableObjectRateLimitStore` with the `fetch` and `alarm` of the objects
    behind the last.  A bucket of the first is in one list, oldest window first,
    under its own key.  KV may drop an entry once its time to live is over. -/

namespace Cossack.Core.RateLimit

open Windows (Counter)

/-! ## Section 1: Checks -/

inductive RateLimitError where
  | key
  | window
  | storageKey
  | counter
  | backend (status : Nat)
  deriving DecidableEq

def RateLimitError.message : RateLimitError → String
  | .key => "[Cossack] Rate-limit key must be a nonempty valid UTF-8 string of at most 512 bytes."
  | .window => "[Cossack] Rate-limit window must be positive integer milliseconds within the " ++
      "timestamp range."
  | .storageKey => "[Cossack] Rate-limit namespace and key exceed 512 UTF-8 bytes."
  | .counter => "[Cossack] Invalid rate-limit counter returned by storage."
  | .backend status => "[Cossack] Rate-limit backend returned HTTP " ++ toString status ++ "."

abbrev Reply := Except RateLimitError Counter

def maxAlarmTimestamp : Nat := 8640000000000000

def maxSafeInteger : Nat := 2 ^ 53 - 1

def validWindow (windowMs now : Nat) : Bool :=
  windowMs ≤ maxSafeInteger && 0 < windowMs && now + windowMs ≤ maxAlarmTimestamp

def validKey (key : String) : Bool := !JsString.isBlank key && key.utf8ByteSize ≤ 512

def readCounter (counter : Counter) : Reply :=
  if 0 < counter.count ∧ counter.count ≤ maxSafeInteger ∧ 0 < counter.resetAt ∧
      counter.resetAt ≤ maxAlarmTimestamp then .ok counter
  else .error .counter

/-- `JSON.stringify([namespace, key])`. -/
def framedKey (nameSpace key : String) : String :=
  String.ofList ('[' :: JsonText.quote (JsString.utf16 nameSpace) ++
    ',' :: JsonText.quote (JsString.utf16 key) ++ [']'])

def rateLimitStorageKey (nameSpace key : String) : Except RateLimitError String :=
  let framed := framedKey nameSpace key
  if 512 < framed.utf8ByteSize then .error .storageKey else .ok framed

/-- What every store checks first. -/
def assertHit (key : String) (windowMs now : Nat) : Except RateLimitError Unit :=
  if !validKey key then .error .key
  else if !validWindow windowMs now then .error .window
  else .ok ()

/-! ## Section 2: Memory -/

structure MemoryBucket where
  key : String
  count : Nat
  resetAt : Nat

/-- The buckets, oldest first, and the one the sweep examines next. -/
structure InMemoryRateLimitStore where
  maxEntries : Nat
  buckets : List MemoryBucket
  sweep : Option String

namespace InMemoryRateLimitStore

def create (maxEntries : Nat) : InMemoryRateLimitStore := ⟨maxEntries, [], none⟩

def get (s : InMemoryRateLimitStore) (key : String) : Option MemoryBucket :=
  s.buckets.find? fun bucket => bucket.key = key

def newer (s : InMemoryRateLimitStore) (key : String) : Option String :=
  ((s.buckets.dropWhile fun bucket => bucket.key ≠ key).drop 1).head?.map MemoryBucket.key

def remove (s : InMemoryRateLimitStore) (key : String) : InMemoryRateLimitStore :=
  { s with
    buckets := s.buckets.filter fun bucket => bucket.key ≠ key
    sweep := if s.sweep = some key then s.newer key else s.sweep }

/-- The buckets at the oldest end that are over, at most `n` of them. -/
def removeExpired (now : Nat) : Nat → InMemoryRateLimitStore → InMemoryRateLimitStore
  | 0, s => s
  | n + 1, s =>
      match s.buckets with
      | [] => s
      | oldest :: _ => if now < oldest.resetAt then s else removeExpired now n (s.remove oldest.key)

/-- At most `n` buckets are examined, from where the last sweep ended. -/
def sweepExpired (now : Nat) : Nat → InMemoryRateLimitStore → InMemoryRateLimitStore
  | 0, s => s
  | n + 1, s =>
      if s.buckets.length < s.maxEntries then s
      else
        match (s.sweep.bind s.get).or s.buckets.head? with
        | none => s
        | some bucket =>
            let s := { s with sweep := s.newer bucket.key }
            sweepExpired now n (if now < bucket.resetAt then s else s.remove bucket.key)

def makeRoom (s : InMemoryRateLimitStore) (now : Nat) : InMemoryRateLimitStore :=
  let s := s.removeExpired now s.buckets.length
  let s := s.sweepExpired now (min 8 s.buckets.length)
  match s.buckets with
  | [] => s
  | oldest :: _ => if s.buckets.length < s.maxEntries then s else s.remove oldest.key

/-- A new window joins the newest end. -/
def push (s : InMemoryRateLimitStore) (bucket : MemoryBucket) : InMemoryRateLimitStore :=
  { s with buckets := s.buckets ++ [bucket] }

def setCount (s : InMemoryRateLimitStore) (key : String) (count : Nat) : InMemoryRateLimitStore :=
  { s with
    buckets := s.buckets.map fun bucket =>
      if bucket.key = key then { bucket with count := count } else bucket }

def hit (s : InMemoryRateLimitStore) (key : String) (windowMs now : Nat) :
    Reply × InMemoryRateLimitStore :=
  let start := fun s : InMemoryRateLimitStore =>
    (.ok ⟨1, now + windowMs⟩, s.push ⟨key, 1, now + windowMs⟩)
  match assertHit key windowMs now with
  | .error e => (.error e, s)
  | .ok _ =>
      match s.get key with
      | some existing =>
          if now < existing.resetAt then
            match readCounter ⟨existing.count + 1, existing.resetAt⟩ with
            | .error e => (.error e, s)
            | .ok c => (.ok c, s.setCount key c.count)
          else start (s.remove key)
      | none => start (if s.maxEntries ≤ s.buckets.length then s.makeRoom now else s)

/-- What the store remembers. -/
def counters (s : InMemoryRateLimitStore) (key : String) : Option Counter :=
  (s.get key).map fun bucket => ⟨bucket.count, bucket.resetAt⟩

end InMemoryRateLimitStore

/-! ## Section 3: KV -/

structure KvEntry where
  counter : Counter
  expiresAt : Nat

structure KvRateLimitStore where
  nameSpace : String
  entries : List (String × KvEntry)

namespace KvRateLimitStore

/-- Seconds a counter is kept for. -/
def ttl (resetAt now : Nat) : Nat := max 60 ((resetAt - now + 999) / 1000)

def nextCounter (entry : Option Counter) (windowMs now : Nat) : Counter :=
  match entry with
  | some entry =>
      if now < entry.resetAt then ⟨entry.count + 1, entry.resetAt⟩ else ⟨1, now + windowMs⟩
  | none => ⟨1, now + windowMs⟩

def hit (s : KvRateLimitStore) (key : String) (windowMs now : Nat) : Reply × KvRateLimitStore :=
  match assertHit key windowMs now with
  | .error e => (.error e, s)
  | .ok _ =>
      match rateLimitStorageKey s.nameSpace key with
      | .error e => (.error e, s)
      | .ok kvKey =>
          let entry := (Entries.get s.entries kvKey).map KvEntry.counter
          match readCounter (nextCounter entry windowMs now) with
          | .error e => (.error e, s)
          | .ok next =>
              (.ok next, { s with
                entries := Entries.set s.entries kvKey ⟨next, now + ttl next.resetAt now * 1000⟩ })

/-- An entry whose time to live is over is dropped. -/
def expire (s : KvRateLimitStore) (kvKey : String) (now : Nat) : KvRateLimitStore :=
  match Entries.get s.entries kvKey with
  | some entry =>
      if now < entry.expiresAt then s else { s with entries := Entries.erase s.entries kvKey }
  | none => s

end KvRateLimitStore

/-! ## Section 4: Durable Objects -/

structure RateLimitDurableObject where
  counter : Option Counter
  alarmAt : Option Nat

namespace RateLimitDurableObject

def fetch (o : RateLimitDurableObject) (windowMs now : Nat) : Reply × RateLimitDurableObject :=
  if !validWindow windowMs now then (.error (.backend 400), o)
  else
    match o.counter with
    | none => (.ok ⟨1, now + windowMs⟩, ⟨some ⟨1, now + windowMs⟩, some (now + windowMs)⟩)
    | some previous =>
        if previous.resetAt ≤ now then
          (.ok ⟨1, now + windowMs⟩, ⟨some ⟨1, now + windowMs⟩, some (now + windowMs)⟩)
        else
          match readCounter ⟨previous.count + 1, previous.resetAt⟩ with
          | .error e => (.error e, o)
          | .ok next => (.ok next, { o with counter := some next })

def alarm (o : RateLimitDurableObject) (now : Nat) : RateLimitDurableObject :=
  match o.counter with
  | none => ⟨none, none⟩
  | some counter =>
      if counter.resetAt ≤ now then ⟨none, none⟩ else { o with alarmAt := some counter.resetAt }

end RateLimitDurableObject

/-- One object for each key. -/
structure DurableObjectRateLimitStore where
  objects : List (String × RateLimitDurableObject)

namespace DurableObjectRateLimitStore

def object (s : DurableObjectRateLimitStore) (key : String) : RateLimitDurableObject :=
  (Entries.get s.objects key).getD ⟨none, none⟩

def hit (s : DurableObjectRateLimitStore) (key : String) (windowMs now : Nat) :
    Reply × DurableObjectRateLimitStore :=
  match assertHit key windowMs now with
  | .error e => (.error e, s)
  | .ok _ =>
      let (reply, object) := (s.object key).fetch windowMs now
      (reply.bind readCounter, ⟨Entries.set s.objects key object⟩)

def alarm (s : DurableObjectRateLimitStore) (key : String) (now : Nat) :
    DurableObjectRateLimitStore :=
  ⟨Entries.set s.objects key ((s.object key).alarm now)⟩

end DurableObjectRateLimitStore

/-! ## Section 5: Runs -/

/-- A hit is for every store; an alarm is for the object of its key, and KV drops
    the entry of a storage key. -/
inductive Event where
  | hit (key : String) (windowMs : Nat)
  | alarm (key : String)
  | expire (kvKey : String)

/-- The replies of a store to events at their times. -/
def replies {S : Type} (step : S → Nat → Event → Option Reply × S) :
    S → List (Nat × Event) → List Reply
  | _, [] => []
  | s, (now, e) :: rest => (step s now e).1.toList ++ replies step (step s now e).2 rest

def InMemoryRateLimitStore.step (s : InMemoryRateLimitStore) (now : Nat) :
    Event → Option Reply × InMemoryRateLimitStore
  | .hit key windowMs => ((s.hit key windowMs now).1, (s.hit key windowMs now).2)
  | .alarm _ | .expire _ => (none, s)

def KvRateLimitStore.step (s : KvRateLimitStore) (now : Nat) :
    Event → Option Reply × KvRateLimitStore
  | .hit key windowMs => ((s.hit key windowMs now).1, (s.hit key windowMs now).2)
  | .alarm _ => (none, s)
  | .expire kvKey => (none, s.expire kvKey now)

def DurableObjectRateLimitStore.step (s : DurableObjectRateLimitStore) (now : Nat) :
    Event → Option Reply × DurableObjectRateLimitStore
  | .hit key windowMs => ((s.hit key windowMs now).1, (s.hit key windowMs now).2)
  | .alarm key => (none, s.alarm key now)
  | .expire _ => (none, s)

end Cossack.Core.RateLimit
