import Cossack.Lib.JsonText
import Mathlib

/-! # JSON strings

    `JSON.stringify` of a string: quotes, back slashes, control characters and
    surrogates without a partner are escaped.  Reading the text gives the code
    units back, so different strings have different texts. -/

namespace JsonText

/-! ## Section 1: Printing -/

/-- The escapes of one letter. -/
def shortEscape : Nat → Option Char
  | 0x22 => some '"'
  | 0x5C => some '\\'
  | 8 => some 'b'
  | 9 => some 't'
  | 10 => some 'n'
  | 12 => some 'f'
  | 13 => some 'r'
  | _ => none

def hexEscape (u : Nat) : List Char :=
  ['\\', 'u', Nat.digitChar (u / 4096), Nat.digitChar (u / 256 % 16), Nat.digitChar (u / 16 % 16),
    Nat.digitChar (u % 16)]

def isHigh (u : Nat) : Bool := 0xD800 ≤ u && u < 0xDC00

def isLow (u : Nat) : Bool := 0xDC00 ≤ u && u < 0xE000

/-- A code unit that is no part of a pair. -/
def printUnit (u : Nat) : List Char :=
  match shortEscape u with
  | some c => ['\\', c]
  | none => if u < 0x20 || isHigh u || isLow u then hexEscape u else [Char.ofNat u]

def printUnits : List Nat → List Char
  | high :: low :: rest =>
      if isHigh high && isLow low then
        Char.ofNat (0x10000 + (high - 0xD800) * 0x400 + (low - 0xDC00)) :: printUnits rest
      else printUnit high ++ printUnits (low :: rest)
  | [u] => printUnit u
  | [] => []

def quote (units : List Nat) : List Char := '"' :: printUnits units ++ ['"']

/-! ## Section 2: Reading it back -/

theorem hexDigit_digitChar {d : Nat} (h : d < 16) : hexDigit (Nat.digitChar d) = some d := by
  have hall : ∀ d < 16, hexDigit (Nat.digitChar d) = some d := by decide
  exact hall d h

theorem hexUnit_digits {u : Nat} (h : u < 0x10000) :
    hexUnit (Nat.digitChar (u / 4096)) (Nat.digitChar (u / 256 % 16)) (Nat.digitChar (u / 16 % 16))
      (Nat.digitChar (u % 16)) = some u := by
  have h₁ : u / 4096 < 16 := by omega
  have h₂ : u / 256 % 16 < 16 := Nat.mod_lt _ (by decide)
  have h₃ : u / 16 % 16 < 16 := Nat.mod_lt _ (by decide)
  have h₄ : u % 16 < 16 := Nat.mod_lt _ (by decide)
  simp only [hexUnit, hexDigit_digitChar h₁, hexDigit_digitChar h₂, hexDigit_digitChar h₃,
    hexDigit_digitChar h₄, Option.bind_eq_bind, Option.bind_some, Option.pure_def]
  congr 1
  omega

theorem shortEscape_cases {u : Nat} {c : Char} (h : shortEscape u = some c) :
    c ≠ 'u' ∧ escape c = some u := by
  unfold shortEscape at h
  split at h <;> cases h <;> decide

theorem toNat_ofNat {u : Nat} (h : u < 0xD800 ∨ 0xDFFF < u ∧ u < 0x110000) :
    (Char.ofNat u).toNat = u := by
  have hvalid : Nat.isValidChar u := h
  simp [Char.ofNat, hvalid, Char.toNat, Char.ofNatAux, UInt32.toNat]

/-- A character that needs no escape is read as its code units. -/
theorem string_char {c : Char} (s : List Char) (hlow : 0x20 ≤ c.toNat) (hquote : c ≠ '"')
    (hslash : c ≠ '\\') :
    string (c :: s) = (string s).map fun r => (JsString.units c ++ r.1, r.2) := by
  rw [string]
  · rw [if_neg (by rintro (h | h) <;> [omega; exact hslash h])]
    cases string s <;> rfl
  all_goals simp_all

theorem string_printUnit {u : Nat} (h : u < 0x10000) (s : List Char) :
    string (printUnit u ++ s) = (string s).map fun r => (u :: r.1, r.2) := by
  unfold printUnit
  split
  · rename_i c hshort
    obtain ⟨hne, hescape⟩ := shortEscape_cases hshort
    rw [List.cons_append, List.cons_append, List.nil_append, string]
    · rw [hescape]
      cases string s <;> rfl
    · simp_all
  · rename_i hshort
    split
    · simp only [hexEscape, List.cons_append, List.nil_append, string, hexUnit_digits h]
      cases string s <;> rfl
    · rename_i hplain
      simp only [Bool.or_eq_true, decide_eq_true_eq, not_or, isHigh, isLow, Bool.and_eq_true,
        Nat.not_lt] at hplain
      have hnat : (Char.ofNat u).toNat = u := toNat_ofNat (by omega)
      have hunits : JsString.units (Char.ofNat u) = [u] := by
        rw [JsString.units, hnat, if_pos h]
      rw [List.cons_append, List.nil_append, string_char s (by omega), hunits]
      · rfl
      · intro heq
        rw [heq] at hnat
        subst hnat
        cases hshort
      · intro heq
        rw [heq] at hnat
        subst hnat
        cases hshort

theorem string_printUnits (units : List Nat) (h : ∀ u ∈ units, u < 0x10000) (s : List Char) :
    string (printUnits units ++ '"' :: s) = some (units, s) := by
  fun_induction printUnits units with
  | case1 high low rest hpair ih =>
    simp only [Bool.and_eq_true, isHigh, isLow, decide_eq_true_eq] at hpair
    obtain ⟨⟨hh, hh'⟩, hl, hl'⟩ := hpair
    generalize hn : 0x10000 + (high - 0xD800) * 0x400 + (low - 0xDC00) = n
    have hlarge : 0x10000 ≤ n := by omega
    have hnat : (Char.ofNat n).toNat = n := toNat_ofNat (by omega)
    have hhigh : 0xD800 + (n - 0x10000) / 0x400 = high := by omega
    have hlow : 0xDC00 + (n - 0x10000) % 0x400 = low := by omega
    have hunits : JsString.units (Char.ofNat n) = [high, low] := by
      rw [JsString.units, hnat, if_neg (Nat.not_lt.mpr hlarge), hhigh, hlow]
    rw [List.cons_append, string_char _ (by omega), ih fun u hu => h u (by simp [hu]), hunits]
    · rfl
    · intro heq
      rw [heq] at hnat
      have h34 : ('"' : Char).toNat = 34 := rfl
      omega
    · intro heq
      rw [heq] at hnat
      have h92 : ('\\' : Char).toNat = 92 := rfl
      omega
  | case2 high low rest hpair ih =>
    rw [List.append_assoc, string_printUnit (h high (by simp)), ih fun u hu => h u (by simp_all)]
    rfl
  | case3 u =>
    rw [string_printUnit (h u (by simp))]
    rfl
  | case4 => rfl

theorem printUnits_injective {xs ys : List Nat} (hx : ∀ u ∈ xs, u < 0x10000)
    (hy : ∀ u ∈ ys, u < 0x10000) {s t : List Char}
    (h : printUnits xs ++ '"' :: s = printUnits ys ++ '"' :: t) : xs = ys ∧ s = t := by
  have hread := string_printUnits xs hx s
  rw [h, string_printUnits ys hy t] at hread
  obtain ⟨rfl, rfl⟩ := Prod.mk.inj (Option.some.inj hread)
  exact ⟨rfl, rfl⟩

theorem utf16_lt {s : String} {u : Nat} (h : u ∈ JsString.utf16 s) : u < 0x10000 := by
  obtain ⟨c, -, hu⟩ := List.mem_flatMap.mp h
  have hc := JsString.toNat_cases c
  unfold JsString.units at hu
  split at hu <;> simp at hu <;> omega

end JsonText
