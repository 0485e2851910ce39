import Cossack.Framework.ExpiryLookup
import Cossack.Lib.Entries

/-! # The in-memory cache

    `InMemoryCacheStore` and what `cache-policy.ts` checks before a write.  A
    clock reading is an argument, and nothing is said about the order of readings.
    A key is a string without lone surrogates. -/

namespace Cossack.Framework.MemoryCache

open LinkedLists

/-! ## Section 1: What a write is given -/

/-- The arguments the constructor accepts. -/
structure Limits where
  maxEntries : Nat
  maxBytes : Nat
  entries_ok : 1 ≤ maxEntries ∧ maxEntries ≤ 100000
  bytes_ok : 1 ≤ maxBytes ∧ maxBytes ≤ 67108864

/-- A value as `JSON.stringify` takes it. -/
inductive Value where
  | undefined
  | unserializable
  | json (raw : String)

structure CacheEntry where
  key : String
  value : Value
  ttlMs : Option Int

structure PreparedCacheEntry where
  key : String
  raw : Option String
  expiresAt : Option Nat

def cacheKey (key : String) : Except String Unit :=
  if key.isEmpty || 512 < key.utf8ByteSize then
    .error "[Cossack] Cache keys must be nonempty valid UTF-8 strings of at most 512 bytes."
  else .ok ()

def ttlError : String :=
  "[Cossack] Cache ttlMs must be a nonnegative integer with a valid expiration timestamp."

def cacheExpiry (ttlMs : Option Int) (now : Nat) : Except String (Option Nat) :=
  match ttlMs with
  | none => .ok none
  | some ttlMs =>
      if ttlMs < 0 ∨ 2 ^ 53 ≤ ttlMs then .error ttlError
      else
        let expiresAt := now + ttlMs.toNat
        if 8640000000000000 < expiresAt then .error ttlError else .ok (some expiresAt)

def valueError : String := "[Cossack] Cache values must serialize to JSON of at most 1 MiB."

def cacheJsonValue : Value → Except String (Option String)
  | .undefined => .ok none
  | .unserializable => .error valueError
  | .json raw => if 1024 * 1024 < raw.utf8ByteSize then .error valueError else .ok (some raw)

/-- The entries of a batch, each with the clock reading of its check. -/
def prepareEach : Nat → List (CacheEntry × Nat) → Except String (List PreparedCacheEntry)
  | _, [] => .ok []
  | bytes, (entry, now) :: rest => do
      cacheKey entry.key
      let expiresAt ← cacheExpiry entry.ttlMs now
      let json ← cacheJsonValue entry.value
      let bytes := bytes + entry.key.utf8ByteSize + (json.map String.utf8ByteSize).getD 0 + 128
      if 2 * 1024 * 1024 < bytes then .error "[Cossack] Cache batch JSON exceeds 2 MiB."
      else
        let prepared ← prepareEach bytes rest
        .ok (⟨entry.key, json, expiresAt⟩ :: prepared)

def prepareCacheEntries (entries : List (CacheEntry × Nat)) :
    Except String (List PreparedCacheEntry) :=
  if 128 < entries.length then .error "[Cossack] Cache batches accept at most 128 entries."
  else prepareEach 0 entries

/-! ## Section 2: The store -/

def isExpired (expiresAt : Option Nat) (now : Nat) : Bool := expiresAt.any (· ≤ now)

structure Store where
  entries : List (String × MemoryEntry)
  expiry : ExpiryIndex
  /-- `older` and `newer`. -/
  links : Links MemoryEntry
  oldest : Option MemoryEntry
  newest : Option MemoryEntry
  bytes : Nat
  /-- The identity of the next entry that is made. -/
  fresh : Nat

namespace Store

def empty : Store := ⟨[], .empty, .empty, none, none, 0, 0⟩

def remove (s : Store) (e : MemoryEntry) : Store :=
  { s with
    oldest := match s.links.prev e with
      | some _ => s.oldest
      | none => s.links.next e
    newest := match s.links.next e with
      | some _ => s.newest
      | none => s.links.prev e
    links := s.links.unlink e
    expiry := if e.expiresAt.isSome then s.expiry.remove e else s.expiry
    entries := Entries.erase s.entries e.key
    bytes := s.bytes - e.bytes }

def removeKey (s : Store) (key : String) : Store :=
  match Entries.get s.entries key with
  | some e => s.remove e
  | none => s

/-- Mark an entry as the most recently used. -/
def touch (s : Store) (e : MemoryEntry) : Store :=
  if s.newest = some e then s
  else
    { s with
      oldest := match s.links.prev e with
        | some _ => s.oldest
        | none => s.links.next e
      links := (s.links.bypass e).append s.newest e
      newest := some e }

def flush (s : Store) : Store :=
  { s with entries := [], expiry := s.expiry.clear, oldest := none, newest := none, bytes := 0 }

variable (limits : Limits)

/-- Key plus value UTF-8 bytes. -/
def entryBytes (key : String) (raw : Option String) : Except String Nat :=
  match raw with
  | none => .ok 0
  | some raw =>
      let bytes := key.utf8ByteSize + raw.utf8ByteSize
      if limits.maxBytes < bytes then
        .error "[Cossack] Cache value exceeds this store maxBytes budget."
      else .ok bytes

/-- There is no room for an entry of so many bytes. -/
def full (s : Store) (bytes : Nat) : Bool :=
  limits.maxEntries ≤ s.entries.length || limits.maxBytes < s.bytes + bytes

/-- Every expired entry, of which there are less than `fuel`. -/
def removeExpired (now : Nat) : Nat → Store → Option Store
  | 0, _ => none
  | fuel + 1, s => do
      let (found, expiry) ← s.expiry.expired now expiryBuckets
      match found with
      | none => some { s with expiry := expiry }
      | some e => removeExpired now fuel ({ s with expiry := expiry }.remove e)

/-- The oldest entries until there is room, with those that went. -/
def evict (bytes : Nat) : Nat → Store → Option (Store × List MemoryEntry)
  | 0, _ => none
  | fuel + 1, s =>
      match s.oldest with
      | none => some (s, [])
      | some e =>
          if s.full limits bytes then
            (evict bytes fuel (s.remove e)).map fun (s, evicted) => (s, e :: evicted)
          else some (s, [])

/-- The end of `write`: a new entry, the most recently used. -/
def insert (s : Store) (key raw : String) (expiresAt : Option Nat) (bytes now : Nat) :
    Option Store :=
  let e : MemoryEntry := ⟨s.fresh, key, raw, expiresAt, bytes⟩
  (if expiresAt.isSome then s.expiry.add e now else some s.expiry).map fun expiry =>
    { s with
      links := s.links.append s.newest e
      oldest := match s.newest with
        | some _ => s.oldest
        | none => some e
      newest := some e
      entries := Entries.set s.entries key e
      expiry := expiry
      bytes := s.bytes + bytes
      fresh := s.fresh + 1 }

/-- Room for an entry, with the live entries that went for it. -/
def makeRoom (s : Store) (bytes now : Nat) : Option (Store × List MemoryEntry) :=
  if s.full limits bytes then do
    let s ← s.removeExpired now (s.entries.length + 1)
    s.evict limits bytes (s.entries.length + 1)
  else some (s, [])

def write (s : Store) (input : PreparedCacheEntry) (bytes now : Nat) :
    Option (Store × List MemoryEntry) :=
  let s := s.removeKey input.key
  match input.raw with
  | none => some (s, [])
  | some raw =>
      if isExpired input.expiresAt now then some (s, [])
      else do
        let (s, evicted) ← s.makeRoom limits bytes now
        let s ← s.insert input.key raw input.expiresAt bytes now
        some (s, evicted)

/-- The value of a key as a text, and the store after the lookup.  `parse` is
    `JSON.parse`. -/
def get {V : Type} (parse : String → Option V) (s : Store) (key : String) (now : Nat) :
    Option V × Store :=
  match Entries.get s.entries key with
  | none => (none, s)
  | some e =>
      if isExpired e.expiresAt now then (none, s.remove e)
      else
        match parse e.raw with
        | some value => (some value, s.touch e)
        | none => (none, s.remove e)

end Store

end Cossack.Framework.MemoryCache
