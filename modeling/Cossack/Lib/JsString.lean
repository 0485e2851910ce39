import Mathlib.Data.List.Lex

/-! # JavaScript strings

    Character classes, number texts and the order of strings in JavaScript,
    which compares UTF-16 code units. -/

namespace JsString

/-- The characters `String.prototype.trim` and `\s` take as white space. -/
def isSpace (c : Char) : Bool :=
  let n := c.toNat
  (9 ≤ n && n ≤ 13) || n == 32 || n == 0xA0 || n == 0x1680 || (0x2000 ≤ n && n ≤ 0x200A) ||
    n == 0x2028 || n == 0x2029 || n == 0x202F || n == 0x205F || n == 0x3000 || n == 0xFEFF

/-- `!s.trim()`. -/
def isBlank (s : String) : Bool := s.toList.all isSpace

theorem toList_toString (n : Nat) : (toString n).toList = Nat.toDigits 10 n := by
  show (Nat.repr n).toList = _
  simp [Nat.repr]

theorem toString_injective {m n : Nat} (h : toString m = toString n) : m = n := by
  have hlist : Nat.toDigits 10 m = Nat.toDigits 10 n := by
    rw [← toList_toString, ← toList_toString, h]
  rw [← Nat.ofDigitChars_ten_toDigits (n := m), hlist, Nat.ofDigitChars_ten_toDigits]

theorem digits_ne_nil (n : Nat) : (toString n).toList ≠ [] := by
  rw [toList_toString]
  exact Nat.toDigits_ne_nil

theorem all_isDigit (n : Nat) : (toString n).toList.all Char.isDigit = true := by
  rw [toList_toString, List.all_eq_true]
  exact fun c hc => Nat.isDigit_of_mem_toDigits (by decide) (by decide) hc

/-! ## The order of strings -/

/-- The UTF-16 code units of a character. -/
def units (c : Char) : List Nat :=
  if c.toNat < 0x10000 then [c.toNat]
  else [0xD800 + (c.toNat - 0x10000) / 0x400, 0xDC00 + (c.toNat - 0x10000) % 0x400]

def utf16 (s : String) : List Nat := s.toList.flatMap units

/-- `a < b` on strings. -/
def lt (a b : String) : Bool := decide (utf16 a < utf16 b)

/-- A character is no surrogate. -/
theorem toNat_cases (c : Char) : c.toNat < 0xD800 ∨ 0xDFFF < c.toNat ∧ c.toNat < 0x110000 :=
  c.valid

/-- Code units are read back one character at a time. -/
theorem units_append_inj {c d : Char} {s t : List Nat} (h : units c ++ s = units d ++ t) :
    c = d ∧ s = t := by
  have hc := toNat_cases c
  have hd := toNat_cases d
  have hchar : c.toNat = d.toNat → c = d := fun heq => Char.ext (UInt32.toNat_inj.mp heq)
  by_cases hcs : c.toNat < 0x10000 <;> by_cases hds : d.toNat < 0x10000
  · simp only [units, hcs, hds, if_true, List.cons_append, List.nil_append, List.cons.injEq] at h
    exact ⟨hchar h.1, h.2⟩
  · simp only [units, hcs, hds, if_true, if_false, List.cons_append, List.nil_append,
      List.cons.injEq] at h
    omega
  · simp only [units, hcs, hds, if_true, if_false, List.cons_append, List.nil_append,
      List.cons.injEq] at h
    omega
  · simp only [units, hcs, hds, if_false, List.cons_append, List.nil_append, List.cons.injEq] at h
    exact ⟨hchar (by omega), h.2.2⟩

theorem flatMap_units_injective : ∀ {s t : List Char}, s.flatMap units = t.flatMap units → s = t
  | [], [], _ => rfl
  | [], d :: t, h => by
    rw [List.flatMap_nil, List.flatMap_cons] at h
    unfold units at h
    split at h <;> simp at h
  | c :: s, [], h => by
    rw [List.flatMap_nil, List.flatMap_cons] at h
    unfold units at h
    split at h <;> simp at h
  | c :: s, d :: t, h => by
    rw [List.flatMap_cons, List.flatMap_cons] at h
    obtain ⟨hcd, hst⟩ := units_append_inj h
    rw [hcd, flatMap_units_injective hst]

theorem utf16_injective {a b : String} (h : utf16 a = utf16 b) : a = b :=
  String.toList_inj.mp (flatMap_units_injective h)

/-- `String.prototype.localeCompare` where only its order of distinct strings
    matters: a total order. -/
structure Collation where
  le : String → String → Bool
  total : ∀ a b, (le a b || le b a) = true
  trans : ∀ a b c, le a b = true → le b c = true → le a c = true
  antisymm : ∀ a b, le a b = true → le b a = true → a = b

/-- Strings compared by code point. -/
def codePointOrder : Collation where
  le a b := decide (a ≤ b)
  total a b := by simpa using String.le_total a b
  trans a b c := by simpa using String.le_trans
  antisymm a b := by simpa using String.le_antisymm

end JsString
