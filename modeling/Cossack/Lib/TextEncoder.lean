import Cossack.Lib.JsonQuote
import Cossack.Lib.Utf8Encoder

/-! # The bytes of a string

    `TextEncoder` on any string of UTF-16 code units: a surrogate without a
    partner becomes U+FFFD. -/

namespace TextEncoder

open JsonText (isHigh isLow)

def replacement : Char := Char.ofNat 0xFFFD

def scalars : List Nat → List Char
  | high :: low :: rest =>
      if isHigh high && isLow low then
        Char.ofNat (0x10000 + (high - 0xD800) * 0x400 + (low - 0xDC00)) :: scalars rest
      else if isHigh high || isLow high then replacement :: scalars (low :: rest)
      else Char.ofNat high :: scalars (low :: rest)
  | [u] => if isHigh u || isLow u then [replacement] else [Char.ofNat u]
  | [] => []

def encode (units : List Nat) : List UInt8 := Utf8.encode (scalars units)

theorem scalars_cons {u : Nat} (h : (isHigh u || isLow u) = false) (rest : List Nat) :
    scalars (u :: rest) = Char.ofNat u :: scalars rest := by
  obtain ⟨hhigh, hlow⟩ := Bool.or_eq_false_iff.mp h
  cases rest with
  | nil => simp [scalars, hhigh, hlow]
  | cons low rest => simp [scalars, hhigh, hlow]

theorem isSurrogate_ascii {u : Nat} (h : u < 0x80) : (isHigh u || isLow u) = false := by
  simp only [isHigh, isLow, Bool.or_eq_false_iff, Bool.and_eq_false_iff, decide_eq_false_iff_not]
  omega

/-- The first character of a string that does not begin with this one. -/
theorem scalars_head {u v : Nat} (hu : u < 0x80) {rest : List Nat} (hrest : ∀ w ∈ v :: rest, w < 0x10000)
    {tail : List Char} (h : scalars (v :: rest) = Char.ofNat u :: tail) :
    v = u ∧ scalars rest = tail := by
  have hnat : ∀ n : Nat, n < 0x80 → (Char.ofNat n).toNat = n := fun n hn =>
    JsonText.toNat_ofNat (by omega)
  have hv : v < 0x10000 := hrest v (by simp)
  by_cases hs : (isHigh v || isLow v) = false
  · rw [scalars_cons hs] at h
    obtain ⟨hc, ht⟩ := List.cons.inj h
    simp only [isHigh, isLow, Bool.or_eq_false_iff, Bool.and_eq_false_iff, decide_eq_false_iff_not] at hs
    have hcode := congrArg Char.toNat hc
    rw [hnat u hu, JsonText.toNat_ofNat (by omega)] at hcode
    exact ⟨hcode, ht⟩
  · -- a surrogate gives a character that is not of ASCII
    exfalso
    have hlone : (isHigh v || isLow v) = true := (Bool.not_eq_false _).mp hs
    have hreplacement : replacement ≠ Char.ofNat u := by
      intro heq
      have hcode := congrArg Char.toNat heq
      rw [hnat u hu, replacement, JsonText.toNat_ofNat (by decide)] at hcode
      omega
    cases rest with
    | nil =>
      rw [scalars, if_pos hlone] at h
      exact hreplacement (List.cons.inj h).1
    | cons low rest =>
      rw [scalars] at h
      by_cases hpair : (isHigh v && isLow low) = true
      · rw [if_pos hpair] at h
        simp only [Bool.and_eq_true, isHigh, isLow, decide_eq_true_eq] at hpair
        have hcode := congrArg Char.toNat (List.cons.inj h).1
        rw [hnat u hu, JsonText.toNat_ofNat (by omega)] at hcode
        omega
      · rw [if_neg hpair, if_pos hlone] at h
        exact hreplacement (List.cons.inj h).1

/-- A string of ASCII is told from every other string by its bytes. -/
theorem encode_ascii_injective {ascii units : List Nat} (ha : ∀ u ∈ ascii, u < 0x80)
    (hu : ∀ u ∈ units, u < 0x10000) (h : encode units = encode ascii) : units = ascii := by
  have hscalars : scalars units = scalars ascii := by
    have hdecode := Utf8.decode_encode (scalars units)
    rw [show Utf8.encode (scalars units) = Utf8.encode (scalars ascii) from h,
      Utf8.decode_encode] at hdecode
    exact (Option.some.inj hdecode).symm
  clear h
  induction ascii generalizing units with
  | nil =>
    cases units with
    | nil => rfl
    | cons v rest =>
      exfalso
      have hnil : scalars (v :: rest) = [] := hscalars
      cases rest with
      | nil =>
        rw [scalars] at hnil
        split at hnil <;> cases hnil
      | cons low rest =>
        rw [scalars] at hnil
        split at hnil
        · cases hnil
        · split at hnil <;> cases hnil
  | cons u ascii ih =>
    have hlt := ha u (by simp)
    rw [scalars_cons (isSurrogate_ascii hlt)] at hscalars
    cases units with
    | nil => cases hscalars
    | cons v rest =>
      obtain ⟨rfl, htail⟩ := scalars_head hlt hu hscalars
      rw [ih (fun w hw => ha w (by simp [hw])) (fun w hw => hu w (by simp [hw])) htail]

end TextEncoder
