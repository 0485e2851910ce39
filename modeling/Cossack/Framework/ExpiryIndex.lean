import Cossack.Lib.LinkedLists
import Cossack.Lib.RadixBuckets

/-! # The expiry index

    `ExpiryIndex` of the in-memory cache: a radix heap of the entries that have a
    deadline.  Times are `Date.now()`, in milliseconds.  The fields of an entry
    that never change are part of its identity; those that do are maps from
    entries. -/

namespace Cossack.Framework.MemoryCache

open LinkedLists RadixBuckets

/-! ## Section 1: The index -/

structure MemoryEntry where
  id : Nat
  key : String
  raw : String
  expiresAt : Option Nat
  bytes : Nat
  deriving DecidableEq

/-- `entry.expiresAt!`. -/
def MemoryEntry.deadline (e : MemoryEntry) : Nat := e.expiresAt.getD 0

def expiryBuckets : Nat := 54

/-- Leading zeros of 32 bits. -/
def clz32 (n : Nat) : Nat := 32 - Nat.size (n % 2 ^ 32)

/-- One more than the highest bit in which `deadline` and `floor` differ; 0 when equal. -/
def expiryBucket (deadline floor : Nat) : Nat :=
  if deadline = floor then 0
  else
    let high := (deadline / 2 ^ 32) ^^^ (floor / 2 ^ 32)
    if high ≠ 0 then 64 - clz32 high else 32 - clz32 ((deadline ^^^ floor) % 2 ^ 32)

structure ExpiryIndex where
  buckets : Nat → Option MemoryEntry
  /-- `expiryPrevious` and `expiryNext`. -/
  links : Links MemoryEntry
  /-- `entry.expiryBucket`. -/
  bucketOf : MemoryEntry → Nat
  floor : Nat
  size : Nat

namespace ExpiryIndex

def empty : ExpiryIndex := ⟨fun _ => none, .empty, fun _ => 0, 0, 0⟩

def link (x : ExpiryIndex) (e : MemoryEntry) : ExpiryIndex :=
  let bucket := expiryBucket e.deadline x.floor
  { x with
    bucketOf := Function.update x.bucketOf e bucket
    links := x.links.push (x.buckets bucket) e
    buckets := Function.update x.buckets bucket (some e) }

def remove (x : ExpiryIndex) (e : MemoryEntry) : ExpiryIndex :=
  { x with
    buckets := match x.links.prev e with
      | some _ => x.buckets
      | none => Function.update x.buckets (x.bucketOf e) (x.links.next e)
    links := x.links.unlink e
    size := x.size - 1 }

/-- Link an entry and those behind it, of which there are at most `fuel`. -/
def relink : Nat → ExpiryIndex → Option MemoryEntry → Option ExpiryIndex
  | _, x, none => some x
  | 0, _, some _ => none
  | fuel + 1, x, some e => relink fuel (x.link e) (x.links.next e)

/-- An entry and those behind it, of which there are at most `fuel`. -/
def walk (x : ExpiryIndex) : Nat → Option MemoryEntry → Option (List MemoryEntry)
  | _, none => some []
  | 0, some _ => none
  | fuel + 1, some e => (walk x fuel (x.links.next e)).map (e :: ·)

def lowest (x : ExpiryIndex) : Option Nat :=
  (List.range expiryBuckets).find? fun index => (x.buckets index).isSome

/-- An entry whose deadline is at or before `now`, or `none` when none is, after
    at most `fuel` rounds. -/
def expired (now : Nat) : Nat → ExpiryIndex → Option (Option MemoryEntry × ExpiryIndex)
  | 0, _ => none
  | fuel + 1, x =>
      match x.lowest with
      | none => some (none, x)
      | some index =>
          if now < x.floor then some (none, x)
          else if index = 0 then some (x.buckets 0, x)
          else
            let span := 2 ^ (index - 1)
            let low := x.floor - x.floor % (2 * span) + span
            if now < low then some (none, x)
            else if low + span - 1 ≤ now then some (x.buckets index, x)
            else
              -- part of the bucket has expired: the bucket is split
              let raised := { x with floor := low, buckets := Function.update x.buckets index none }
              (relink x.size raised (x.buckets index)).bind (expired now fuel)

/-- Lower the floor to `now`, or to an earlier deadline still indexed. -/
def rebase (x : ExpiryIndex) (now : Nat) : Option ExpiryIndex :=
  ((List.range expiryBuckets).mapM fun index => x.walk x.size (x.buckets index)).map fun chains =>
    let entries := chains.flatten
    let floor := entries.foldl (fun floor e => min floor e.deadline) now
    entries.foldl link { x with buckets := fun _ => none, floor := floor }

/-- Index an entry whose deadline is after `now`. -/
def add (x : ExpiryIndex) (e : MemoryEntry) (now : Nat) : Option ExpiryIndex :=
  (if x.size = 0 then some { x with floor := now }
  else if e.deadline < x.floor then x.rebase now
  else some x).map fun x => { x with size := x.size + 1 }.link e

def clear (x : ExpiryIndex) : ExpiryIndex := { x with buckets := fun _ => none, size := 0 }

end ExpiryIndex

/-! ## Section 2: Buckets -/

theorem expiryBucket_eq {deadline floor : Nat} (hd : deadline < 2 ^ 53) (hf : floor < 2 ^ 53) :
    expiryBucket deadline floor = bucket deadline floor := by
  unfold expiryBucket
  by_cases heq : deadline = floor
  · rw [if_pos heq, bucket_eq_zero_iff.mpr heq]
  · rw [if_neg heq]
    have hhigh : (deadline / 2 ^ 32) ^^^ (floor / 2 ^ 32) = (deadline ^^^ floor) / 2 ^ 32 := by
      rw [← Nat.shiftRight_eq_div_pow, ← Nat.shiftRight_eq_div_pow, ← Nat.shiftRight_eq_div_pow,
        Nat.shiftRight_xor_distrib]
    have hx : deadline ^^^ floor < 2 ^ 53 := Nat.xor_lt_two_pow hd hf
    simp only [hhigh, bucket, clz32]
    generalize deadline ^^^ floor = x at hx
    by_cases hzero : x / 2 ^ 32 = 0
    · rw [if_neg (by simpa using hzero)]
      have hlt : x < 2 ^ 32 := (Nat.div_eq_zero_iff_lt (by decide)).mp hzero
      have hsize : Nat.size x ≤ 32 := Nat.size_le.mpr hlt
      rw [Nat.mod_eq_of_lt hlt, Nat.mod_eq_of_lt hlt]
      omega
    · rw [if_pos hzero]
      have hhlt : x / 2 ^ 32 < 2 ^ 21 := by
        rw [Nat.div_lt_iff_lt_mul (by decide)]
        exact hx
      have hsize : Nat.size (x / 2 ^ 32) ≤ 21 := Nat.size_le.mpr hhlt
      rw [Nat.mod_eq_of_lt (Nat.lt_trans hhlt (by decide))]
      have hiff : ∀ n, Nat.size x ≤ 32 + n ↔ Nat.size (x / 2 ^ 32) ≤ n := by
        intro n
        rw [Nat.size_le, Nat.size_le, Nat.div_lt_iff_lt_mul (by decide), ← Nat.pow_add,
          Nat.add_comm]
      have hle := (hiff _).mpr (Nat.le_refl _)
      have hpos : 32 < Nat.size x := by
        rw [Nat.lt_size]
        by_contra hlt
        exact hzero (Nat.div_eq_of_lt (by omega))
      have hge := (hiff (Nat.size x - 32)).mp (by omega)
      omega

end Cossack.Framework.MemoryCache
