import Cossack.Lib.JsonNumbers
import Mathlib

/-! # Safe integers

    The integer that a decimal is read as: a number is the double nearest to its
    decimal, ties going to the even one, and it is safe when it is an integer
    below `2^53` in size. -/

namespace JsonText

/-- The decimal of an integer. -/
def Decimal.ofInt (n : Int) : Decimal := ⟨n < 0, n.natAbs, 0⟩

def maxSafe : Nat := 2 ^ 53 - 1

/-- How many doubles there are in each unit step above `n`: `2^doublings n` of them. -/
def doublings (n : Nat) : Nat := if n = 0 then 1074 else 52 - Nat.log2 n

/-- Whether the double at the integer `n` has an even last digit. -/
def evenDouble (n : Nat) : Bool := n < 2 ^ 52 || n % 2 = 0

/-- The distance `rest / whole` from the integer `n` rounds to nothing, where the
doubles are `2^-gap` apart. -/
def rounds (n gap rest whole : Nat) : Bool :=
  rest * 2 ^ (gap + 1) < whole || (rest * 2 ^ (gap + 1) = whole && evenDouble n)

/-- The integer that the double nearest to `whole / part` is. -/
def nearest (whole part : Nat) : Option Nat :=
  let n := whole / part
  let rest := whole % part
  if maxSafe < n then none
  else if rounds n (doublings n) rest part then some n
  -- the step from 0 to 1 has its widest gaps below 1
  else if rounds (n + 1) (if n = 0 then 53 else doublings n) (part - rest) part then some (n + 1)
  else none

/-- The integer of a decimal, when `Number.isSafeInteger` holds of its number. -/
def Decimal.toSafeInteger (d : Decimal) : Option Int :=
  match nearest (d.coefficient * 10 ^ d.exponent.toNat) (10 ^ (-d.exponent).toNat) with
  | none => none
  | some n => if n ≤ maxSafe then some (if d.negative then -n else n) else none

example : Decimal.toSafeInteger ⟨false, 15, -1⟩ = none := by decide
example : Decimal.toSafeInteger ⟨false, 90071992547409905, -1⟩ = some 9007199254740990 := by decide
example : Decimal.toSafeInteger ⟨true, 9007199254740991, 0⟩ = some (-9007199254740991) := by decide
example : Decimal.toSafeInteger ⟨false, 9007199254740992, 0⟩ = none := by decide

theorem nearest_one {n : Nat} (h : n ≤ maxSafe) : nearest n 1 = some n := by
  unfold nearest
  simp only [Nat.div_one, Nat.mod_one]
  rw [if_neg (by omega), if_pos (by simp [rounds])]

theorem toSafeInteger_ofInt {n : Int} (h : n.natAbs ≤ maxSafe) :
    (Decimal.ofInt n).toSafeInteger = some n := by
  unfold Decimal.toSafeInteger Decimal.ofInt
  simp only [Int.toNat_zero, Nat.pow_zero, Nat.mul_one, Int.neg_zero]
  rw [nearest_one h]
  simp only [if_pos h, decide_eq_true_eq, Option.some.injEq]
  split <;> omega

/-- An integer is written in full, so that it is read as it was. -/
theorem canonical_ofInt {n : Int} (h : n.natAbs ≤ maxSafe) :
    (Decimal.ofInt n).canonical = Decimal.ofInt n := by
  unfold Decimal.canonical
  by_cases hzero : n.natAbs = 0
  · obtain rfl : n = 0 := by omega
    rfl
  have hmul := shortest_mul (Decimal.ofInt n)
  have hscale : (Decimal.ofInt n).scale = (trailingZeros n.natAbs : Int) := by
    simp [Decimal.scale, Decimal.ofInt]
  have hcoefficient : (Decimal.ofInt n).coefficient = n.natAbs := rfl
  rw [hcoefficient] at hmul ⊢
  have hlength : (Nat.toDigits 10 (Decimal.ofInt n).shortest).length + trailingZeros n.natAbs ≤ 21 := by
    -- the digits and the zeros are those of a number below `10^16`
    have hpos := shortest_pos (d := Decimal.ofInt n) hzero
    generalize (Decimal.ofInt n).shortest = s at hmul hpos ⊢
    generalize trailingZeros n.natAbs = z at hmul ⊢
    have hsmall : n.natAbs < 10 ^ 16 := by
      have : maxSafe < 10 ^ 16 := by decide
      omega
    by_contra hlong
    have hlow : 10 ^ ((Nat.toDigits 10 s).length - 1) ≤ s := by
      by_contra hlt
      have hlen := (Nat.length_toDigits_le_iff (b := 10) (n := s) (k := (Nat.toDigits 10 s).length - 1)
        (by decide) (by
          by_contra hk
          have hone : (Nat.toDigits 10 s).length = 1 ∨ (Nat.toDigits 10 s).length = 0 := by omega
          have hzero : (Nat.toDigits 10 s).length - 1 = 0 := by omega
          have : 10 ^ ((Nat.toDigits 10 s).length - 1) = 1 := congrArg (10 ^ ·) hzero
          omega)).mpr (by omega)
      have hne := Nat.toDigits_ne_nil (n := s) (b := 10)
      have := List.length_pos_iff.mpr hne
      omega
    have hbig : 10 ^ 16 ≤ s * 10 ^ z := by
      calc 10 ^ 16 ≤ 10 ^ ((Nat.toDigits 10 s).length - 1 + z) := Nat.pow_le_pow_right (by decide) (by omega)
        _ = 10 ^ ((Nat.toDigits 10 s).length - 1) * 10 ^ z := Nat.pow_add ..
        _ ≤ s * 10 ^ z := Nat.mul_le_mul_right _ hlow
    omega
  rw [if_neg hzero, hscale, if_pos ⟨by omega, by exact_mod_cast hlength⟩, Int.toNat_natCast, ← hmul]
  rfl

end JsonText
