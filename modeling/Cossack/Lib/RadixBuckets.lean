import Mathlib.Data.Nat.Bitwise
import Mathlib.Data.Nat.Size

/-! # Radix buckets

    Numbers that are at least a floor, sorted into buckets by the highest bit in
    which they differ from it.  Bucket 0 has the floor itself, and the numbers of
    a lower bucket are less than those of a higher one. -/

namespace RadixBuckets

/-- One more than the highest bit in which two numbers differ; 0 for equal ones. -/
def bucket (d floor : Nat) : Nat := Nat.size (d ^^^ floor)

/-- The least number of a bucket other than bucket 0. -/
def low (floor index : Nat) : Nat :=
  floor - floor % (2 * 2 ^ (index - 1)) + 2 ^ (index - 1)

/-- Numbers are in one bucket or a lower one when they agree above its bit. -/
theorem bucket_le_iff {d floor i : Nat} : bucket d floor ≤ i ↔ d / 2 ^ i = floor / 2 ^ i := by
  rw [bucket, Nat.size_le, ← Nat.div_eq_zero_iff_lt (Nat.two_pow_pos i), ← Nat.shiftRight_eq_div_pow,
    Nat.shiftRight_xor_distrib, Nat.xor_eq_zero_iff, Nat.shiftRight_eq_div_pow,
    Nat.shiftRight_eq_div_pow]

theorem bucket_eq_zero_iff {d floor : Nat} : bucket d floor = 0 ↔ d = floor := by
  rw [← Nat.le_zero, bucket_le_iff]
  simp

theorem bucket_le_of_lt {d floor i : Nat} (hd : d < 2 ^ i) (hfloor : floor < 2 ^ i) :
    bucket d floor ≤ i := by
  rw [bucket_le_iff, Nat.div_eq_of_lt hd, Nat.div_eq_of_lt hfloor]

variable {d floor index : Nat}

/-- Above its floor, a number of a bucket has the bucket's bit, which the floor
    has not. -/
theorem halves (hle : floor ≤ d) (hindex : bucket d floor = index + 1) :
    floor / 2 ^ index = 2 * (floor / 2 ^ (index + 1)) ∧
      d / 2 ^ index = 2 * (floor / 2 ^ (index + 1)) + 1 := by
  have hsame : d / 2 ^ (index + 1) = floor / 2 ^ (index + 1) := bucket_le_iff.mp (by omega)
  have hdiff : d / 2 ^ index ≠ floor / 2 ^ index := by
    intro heq
    have hle := bucket_le_iff.mpr heq
    omega
  have hmono : floor / 2 ^ index ≤ d / 2 ^ index := Nat.div_le_div_right hle
  have hfloor : floor / 2 ^ (index + 1) = floor / 2 ^ index / 2 := by
    rw [Nat.pow_succ, Nat.div_div_eq_div_mul]
  have hd : d / 2 ^ (index + 1) = d / 2 ^ index / 2 := by
    rw [Nat.pow_succ, Nat.div_div_eq_div_mul]
  omega

theorem low_eq (floor index : Nat) :
    low floor (index + 1) = (2 * (floor / 2 ^ (index + 1)) + 1) * 2 ^ index := by
  have hpow : 2 * 2 ^ (index + 1 - 1) = 2 ^ (index + 1) := by
    rw [Nat.add_sub_cancel, Nat.pow_succ, Nat.mul_comm]
  have hsub : floor - floor % 2 ^ (index + 1) = 2 ^ (index + 1) * (floor / 2 ^ (index + 1)) := by
    have hdiv := Nat.div_add_mod floor (2 ^ (index + 1))
    omega
  rw [low, hpow, hsub, Nat.add_sub_cancel, Nat.add_mul, Nat.one_mul, Nat.pow_succ]
  congr 1
  ac_rfl

/-- A bucket has the numbers from its least one on, as many as its bit says. -/
theorem bounds (hle : floor ≤ d) (hindex : bucket d floor = index + 1) :
    low floor (index + 1) ≤ d ∧ d < low floor (index + 1) + 2 ^ index := by
  obtain ⟨-, hd⟩ := halves hle hindex
  have hdiv := Nat.div_add_mod d (2 ^ index)
  have hmod := Nat.mod_lt d (Nat.two_pow_pos index)
  rw [low_eq, ← hd, Nat.mul_comm (d / 2 ^ index)]
  omega

/-- The least number of a bucket agrees with the floor above the bucket's bit. -/
theorem low_div {i : Nat} (hi : index + 1 ≤ i) : low floor (index + 1) / 2 ^ i = floor / 2 ^ i := by
  have hbase : low floor (index + 1) / 2 ^ (index + 1) = floor / 2 ^ (index + 1) := by
    generalize hq : floor / 2 ^ (index + 1) = q
    rw [low_eq, hq, Nat.pow_succ, Nat.mul_comm (2 ^ index) 2,
      Nat.mul_div_mul_right _ _ (Nat.two_pow_pos index)]
    omega
  obtain ⟨k, rfl⟩ := Nat.exists_eq_add_of_le hi
  rw [Nat.pow_add, ← Nat.div_div_eq_div_mul, hbase, Nat.div_div_eq_div_mul]

/-! ## Raising the floor -/

/-- The numbers of the bucket go into lower buckets. -/
theorem bucket_low (hle : floor ≤ d) (hindex : bucket d floor = index + 1) :
    bucket d (low floor (index + 1)) ≤ index := by
  obtain ⟨-, hd⟩ := halves hle hindex
  rw [bucket_le_iff, hd, low_eq, Nat.mul_div_cancel _ (Nat.two_pow_pos index)]

/-- The numbers of higher buckets stay where they are. -/
theorem bucket_low_of_lt (hlt : index + 1 < bucket d floor) :
    bucket d (low floor (index + 1)) = bucket d floor := by
  have hiff : ∀ i, index + 1 ≤ i →
      (bucket d (low floor (index + 1)) ≤ i ↔ bucket d floor ≤ i) := by
    intro i hi
    rw [bucket_le_iff, bucket_le_iff, low_div hi]
  have hge := (hiff (bucket d floor) (by omega)).mpr (Nat.le_refl _)
  have hbefore : ¬ bucket d (low floor (index + 1)) ≤ index + 1 := by
    rw [hiff (index + 1) (Nat.le_refl _)]
    omega
  have hle := (hiff (bucket d (low floor (index + 1))) (by omega)).mp (Nat.le_refl _)
  omega

/-- The numbers of higher buckets are greater than all of the bucket. -/
theorem low_add_le (hle : floor ≤ d) (hlt : index + 1 < bucket d floor) :
    low floor (index + 1) + 2 ^ index ≤ d := by
  obtain ⟨higher, hhigher⟩ : ∃ i, bucket d floor = i + 1 := ⟨bucket d floor - 1, by omega⟩
  have hne : d / 2 ^ (index + 1) ≠ floor / 2 ^ (index + 1) := by
    intro heq
    have hbucket := bucket_le_iff.mpr heq
    omega
  have hmono : floor / 2 ^ (index + 1) ≤ d / 2 ^ (index + 1) := Nat.div_le_div_right hle
  have hdiv := Nat.div_add_mod d (2 ^ (index + 1))
  have hstep : 2 ^ (index + 1) * (floor / 2 ^ (index + 1) + 1) ≤ 2 ^ (index + 1) * (d / 2 ^ (index + 1)) :=
    Nat.mul_le_mul_left _ (by omega)
  have hlow : low floor (index + 1) + 2 ^ index = 2 ^ (index + 1) * (floor / 2 ^ (index + 1) + 1) := by
    rw [low_eq, Nat.pow_succ]
    generalize floor / (2 ^ index * 2) = q
    rw [Nat.add_mul, Nat.one_mul, Nat.mul_add, Nat.mul_one, Nat.mul_assoc, Nat.add_assoc]
    have hcomm : 2 * (q * 2 ^ index) = 2 ^ index * 2 * q := by ac_rfl
    omega
  omega

end RadixBuckets
