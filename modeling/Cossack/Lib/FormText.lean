import Cossack.Lib.Lines
import Cossack.Lib.Utf8Encoder

/-! # Form-urlencoded text

    `decodeURIComponent`, the percent encoding of `URLSearchParams`, and query
    texts as parts between ampersands. -/

namespace FormText

/-! ## Section 1: Percent escapes -/

def hexValue (c : Char) : Option Nat :=
  if '0' ≤ c ∧ c ≤ '9' then some (c.toNat - '0'.toNat)
  else if 'A' ≤ c ∧ c ≤ 'F' then some (c.toNat - 'A'.toNat + 10)
  else if 'a' ≤ c ∧ c ≤ 'f' then some (c.toNat - 'a'.toNat + 10)
  else none

def hexDigit (n : Nat) : Char := if n < 10 then Char.ofNat ('0'.toNat + n) else Char.ofNat ('A'.toNat + (n - 10))

theorem hexValue_hexDigit : ∀ {n : Nat}, n < 16 → hexValue (hexDigit n) = some n := by decide

/-- The bytes a text stands for; none where a percent sign begins no escape. -/
def bytes : List Char → Option (List UInt8)
  | [] => some []
  | '%' :: high :: low :: rest =>
      match hexValue high, hexValue low with
      | some h, some l => (bytes rest).map (UInt8.ofNat (16 * h + l) :: ·)
      | _, _ => none
  | c :: rest => if c = '%' then none else (bytes rest).map (Utf8.encodeChar c ++ ·)

def decodeURIComponent (text : List Char) : Option (List Char) := (bytes text).bind Utf8.decode

theorem bytes_escape {h l : Nat} (hh : h < 16) (hl : l < 16) (rest : List Char) :
    bytes ('%' :: hexDigit h :: hexDigit l :: rest) =
      (bytes rest).map (UInt8.ofNat (16 * h + l) :: ·) := by
  rw [bytes, hexValue_hexDigit hh, hexValue_hexDigit hl]

theorem bytes_cons {c : Char} (h : c ≠ '%') (rest : List Char) :
    bytes (c :: rest) = (bytes rest).map (Utf8.encodeChar c ++ ·) := by
  rw [bytes, if_neg h]
  intro high low tail heq
  exact absurd heq h

/-! ## Section 2: The encoder -/

/-- The bytes that stand for themselves. -/
def isPlain (b : UInt8) : Bool :=
  (48 ≤ b && b ≤ 57) || (65 ≤ b && b ≤ 90) || (97 ≤ b && b ≤ 122) || b == 42 || b == 45 || b == 46 || b == 95

def encodeByte (b : UInt8) : List Char :=
  if b = 32 then ['+']
  else if isPlain b then [Char.ofNat b.toNat]
  else ['%', hexDigit (b.toNat / 16), hexDigit (b.toNat % 16)]

def encode (text : List Char) : List Char := (Utf8.encode text).flatMap encodeByte

def spaces (text : List Char) : List Char := text.map fun c => if c = '+' then ' ' else c

/-- What a query reader does with a key or a value. -/
def decode (text : List Char) : Option (List Char) := decodeURIComponent (spaces text)

/-- A character of encoded text. -/
def isEncoded (c : Char) : Bool :=
  c.isAlphanum || c == '*' || c == '-' || c == '.' || c == '_' || c == '+' || c == '%'

theorem byte_cases {motive : UInt8 → Prop} (h : ∀ n < 256, motive (UInt8.ofNat n)) (b : UInt8) : motive b := by
  have := h b.toNat (UInt8.toNat_lt b)
  rwa [UInt8.ofNat_toNat] at this

theorem isEncoded_encodeByte (b : UInt8) : (encodeByte b).all isEncoded = true := by
  have hall : ∀ n < 256, (encodeByte (UInt8.ofNat n)).all isEncoded = true := by decide +kernel
  exact byte_cases (motive := fun b => (encodeByte b).all isEncoded = true) hall b

theorem isEncoded_encode {text : List Char} {c : Char} (h : c ∈ encode text) : isEncoded c = true := by
  obtain ⟨b, -, hc⟩ := List.mem_flatMap.mp h
  exact List.all_eq_true.mp (isEncoded_encodeByte b) c hc

/-- A plain byte is a character of its own, and neither of the two signs. -/
theorem plain_byte (b : UInt8) : isPlain b = true →
    Utf8.encodeChar (Char.ofNat b.toNat) = [b] ∧ Char.ofNat b.toNat ≠ '%' ∧ Char.ofNat b.toNat ≠ '+' := by
  have hall : ∀ n < 256, isPlain (UInt8.ofNat n) = true →
      Utf8.encodeChar (Char.ofNat (UInt8.ofNat n).toNat) = [UInt8.ofNat n] ∧
      Char.ofNat (UInt8.ofNat n).toNat ≠ '%' ∧ Char.ofNat (UInt8.ofNat n).toNat ≠ '+' := by decide +kernel
  exact byte_cases (motive := fun b => isPlain b = true → Utf8.encodeChar (Char.ofNat b.toNat) = [b] ∧
    Char.ofNat b.toNat ≠ '%' ∧ Char.ofNat b.toNat ≠ '+') hall b

theorem hexDigit_ne_plus : ∀ {n : Nat}, n < 16 → hexDigit n ≠ '+' := by decide

theorem bytes_encodeByte (b : UInt8) (rest : List Char) :
    bytes (spaces (encodeByte b) ++ rest) = (bytes rest).map (b :: ·) := by
  unfold encodeByte
  split
  · rename_i hspace
    subst hspace
    exact bytes_cons (by decide) rest
  · split
    · rename_i hplain
      obtain ⟨hchar, hpercent, hplus⟩ := plain_byte b hplain
      show bytes ((if Char.ofNat b.toNat = '+' then ' ' else Char.ofNat b.toNat) :: rest) = _
      rw [if_neg hplus, bytes_cons hpercent, hchar]
      rfl
    · have hb : b.toNat < 256 := UInt8.toNat_lt b
      have hh : b.toNat / 16 < 16 := by omega
      have hl : b.toNat % 16 < 16 := by omega
      have hspaces : spaces ['%', hexDigit (b.toNat / 16), hexDigit (b.toNat % 16)] =
          ['%', hexDigit (b.toNat / 16), hexDigit (b.toNat % 16)] := by
        simp only [spaces, List.map_cons, List.map_nil, if_neg (hexDigit_ne_plus hh),
          if_neg (hexDigit_ne_plus hl)]
        rfl
      rw [hspaces]
      show bytes ('%' :: hexDigit (b.toNat / 16) :: hexDigit (b.toNat % 16) :: rest) = _
      rw [bytes_escape hh hl, Nat.div_add_mod, UInt8.ofNat_toNat]

theorem decode_encode (text : List Char) : decode (encode text) = some text := by
  have hbytes (bs : List UInt8) : bytes (spaces (bs.flatMap encodeByte)) = some bs := by
    induction bs with
    | nil => rfl
    | cons b bs ih =>
      rw [List.flatMap_cons, spaces, List.map_append]
      show bytes (spaces (encodeByte b) ++ spaces (bs.flatMap encodeByte)) = _
      rw [bytes_encodeByte, ih]
      rfl
  rw [decode, decodeURIComponent, encode, hbytes]
  exact Utf8.decode_encode text

theorem encode_ne_nil {text : List Char} (h : text ≠ []) : encode text ≠ [] := by
  -- a text that encodes to nothing decodes to nothing
  intro hnil
  have hdecode := decode_encode text
  rw [hnil] at hdecode
  exact h (Option.some.inj hdecode).symm

/-! ## Section 3: Parts -/

/-- The parts between the separators that are not empty. -/
def parts (separator : Char) (text : List Char) : List (List Char) :=
  ((Lines.split separator text).1 ++ [(Lines.split separator text).2]).filter (!·.isEmpty)

theorem parts_append {separator : Char} {part : List Char} (hne : part ≠ []) (h : separator ∉ part)
    (rest : List Char) : parts separator (part ++ separator :: rest) = part :: parts separator rest := by
  rw [parts, Lines.split_append h, List.cons_append, List.filter_cons]
  simp only [List.isEmpty_eq_false_iff.mpr hne, Bool.not_false, if_true]
  rfl

theorem parts_last {separator : Char} {part : List Char} (hne : part ≠ []) (h : separator ∉ part) :
    parts separator part = [part] := by
  rw [parts, Lines.split_last h]
  simp [hne]

/-- Joined parts are read back. -/
theorem parts_intercalate {separator : Char} {list : List (List Char)}
    (h : ∀ part ∈ list, part ≠ [] ∧ separator ∉ part) :
    parts separator ([separator].intercalate list) = list := by
  induction list with
  | nil => rfl
  | cons part rest ih =>
    obtain ⟨hne, hfree⟩ := h part List.mem_cons_self
    have hrest := ih fun p hp => h p (List.mem_cons_of_mem _ hp)
    cases rest with
    | nil => simpa [List.intercalate] using parts_last hne hfree
    | cons next rest =>
      rw [List.intercalate_cons_cons, List.append_assoc, List.singleton_append, parts_append hne hfree, hrest]

theorem mem_parts {separator : Char} {text part : List Char} (h : part ∈ parts separator text) :
    part ≠ [] ∧ separator ∉ part ∧ ∀ c ∈ part, c ∈ text := by
  obtain ⟨hmem, hne⟩ := List.mem_filter.mp h
  refine ⟨by simpa using hne, ?_⟩
  clear h hne
  induction text using Lines.induction separator with
  | last last hlast =>
    rw [Lines.split_last hlast, List.nil_append, List.mem_singleton] at hmem
    subst hmem
    exact ⟨hlast, fun c hc => hc⟩
  | line line rest hline ih =>
    rw [Lines.split_append hline, List.cons_append] at hmem
    rcases List.mem_cons.mp hmem with rfl | hmem
    · exact ⟨hline, fun c hc => List.mem_append_left _ hc⟩
    · obtain ⟨hfree, hchars⟩ := ih hmem
      exact ⟨hfree, fun c hc => List.mem_append_right _ (List.mem_cons_of_mem _ (hchars c hc))⟩

/-! ## Section 4: A key and its value -/

/-- What stands before the first equals sign, and what after it. -/
def cut : List Char → List Char × Option (List Char)
  | [] => ([], none)
  | c :: rest => if c = '=' then ([], some rest) else (c :: (cut rest).1, (cut rest).2)

theorem ne_of_not_mem {c d : Char} {rest : List Char} (h : d ∉ c :: rest) : c ≠ d := by
  rintro rfl
  exact h List.mem_cons_self

theorem cut_none {key : List Char} (h : '=' ∉ key) : cut key = (key, none) := by
  induction key with
  | nil => rfl
  | cons c key ih =>
    rw [cut, if_neg (ne_of_not_mem h), ih fun hmem => h (List.mem_cons_of_mem _ hmem)]

theorem cut_some {key : List Char} (h : '=' ∉ key) (value : List Char) :
    cut (key ++ '=' :: value) = (key, some value) := by
  induction key with
  | nil => rfl
  | cons c key ih =>
    rw [List.cons_append, cut, if_neg (ne_of_not_mem h),
      ih fun hmem => h (List.mem_cons_of_mem _ hmem)]

end FormText
