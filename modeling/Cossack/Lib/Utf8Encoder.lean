import Cossack.Lib.Utf8
import Mathlib

/-! # The UTF-8 encoder

    What the decoder reads back, and which texts have no line feed among their
    bytes. -/

namespace Utf8

/-! ## Section 1: The encoder -/

/-- A byte after the first one of a character: six bits of its code. -/
def tailByte (code : Nat) : UInt8 := UInt8.ofNat (0x80 + code % 0x40)

def encodeChar (c : Char) : List UInt8 :=
  let n := c.toNat
  if n < 0x80 then [UInt8.ofNat n]
  else if n < 0x800 then [UInt8.ofNat (0xC0 + n / 0x40), tailByte n]
  else if n < 0x10000 then [UInt8.ofNat (0xE0 + n / 0x1000), tailByte (n / 0x40), tailByte n]
  else [UInt8.ofNat (0xF0 + n / 0x40000), tailByte (n / 0x1000), tailByte (n / 0x40), tailByte n]

/-- `TextEncoder` on a text without single surrogates. -/
def encode (text : List Char) : List UInt8 := text.flatMap encodeChar

theorem encode_cons (c : Char) (text : List Char) :
    encode (c :: text) = encodeChar c ++ encode text := rfl

theorem encode_append (a b : List Char) : encode (a ++ b) = encode a ++ encode b :=
  List.flatMap_append

/-! ## Section 2: Decoding it -/

theorem toNat_byte {n : Nat} (h : n < 256) : (UInt8.ofNat n).toNat = n := by
  simp [Nat.mod_eq_of_lt h]

theorem toNat_tailByte (code : Nat) : (tailByte code).toNat = 0x80 + code % 0x40 :=
  toNat_byte (by have := Nat.mod_lt code (show 0 < 0x40 by decide); omega)

theorem decode_step (d : Decoder) (byte : UInt8) (rest : List UInt8) :
    d.decode (byte :: rest) = (d.next byte.toNat).bind fun next =>
      (next.1.decode rest).map (next.2 ++ ·) := by
  rw [Decoder.decode]
  cases d.next byte.toNat <;> rfl

/-- A byte that is not the last one of its character. -/
theorem decode_tail {owed lower upper code : Nat} (h : 0x80 ≤ lower) {piece : Nat}
    (hlow : lower ≤ 0x80 + piece % 0x40) (hup : 0x80 + piece % 0x40 ≤ upper) (howed : owed ≠ 0)
    (rest : List UInt8) :
    (Decoder.mk (owed + 1) lower upper code h).decode (tailByte piece :: rest) =
      (Decoder.mk owed 0x80 0xBF (code * 64 + piece % 0x40) (by decide)).decode rest := by
  rw [decode_step, toNat_tailByte, Decoder.next]
  simp only
  rw [if_neg (by omega), if_neg howed]
  simp

theorem decode_last {lower upper code : Nat} (h : 0x80 ≤ lower) {piece : Nat}
    (hlow : lower ≤ 0x80 + piece % 0x40) (hup : 0x80 + piece % 0x40 ≤ upper) (rest : List UInt8) :
    (Decoder.mk 1 lower upper code h).decode (tailByte piece :: rest) =
      (decode rest).map (Char.ofNat (code * 64 + piece % 0x40) :: ·) := by
  rw [decode_step, toNat_tailByte, Decoder.next]
  simp only
  rw [if_neg (by omega), if_pos trivial]
  simp [decode]

/-- The bounds that the decoder sets for the byte after the first. -/
theorem decode_char (c : Char) (rest : List UInt8) :
    decode (encodeChar c ++ rest) = (decode rest).map (c :: ·) := by
  have hvalid : c.toNat < 0xD800 ∨ 0xDFFF < c.toNat ∧ c.toNat < 0x110000 := c.valid
  have hc : Char.ofNat c.toNat = c := Char.ofNat_toNat c
  generalize hn : c.toNat = n at hvalid hc
  unfold encodeChar
  simp only [hn]
  have hpieces : n / 0x40 % 0x40 = n / 0x40 - n / 0x1000 * 0x40 := by omega
  split
  · -- one byte
    rw [List.cons_append, List.nil_append, decode, decode_step, toNat_byte (by omega),
      Decoder.next]
    simp only [Decoder.start, first, if_pos (show n < 0x80 by assumption), Option.bind_some, hc]
    rfl
  split
  · -- two bytes
    have hfirst : first (0xC0 + n / 0x40) =
        some (⟨1, 0x80, 0xBF, n / 0x40, by decide⟩, []) := by
      unfold first
      rw [if_neg (by omega), if_neg (by omega), if_pos (by omega)]
      simp
    rw [List.cons_append, decode, decode_step, toNat_byte (by omega), Decoder.next]
    simp only [Decoder.start, hfirst, Option.bind_some, List.cons_append, List.nil_append]
    rw [decode_last (by decide) (by omega) (by omega),
      show n / 0x40 * 64 + n % 0x40 = n by omega, hc]
    cases decode rest <;> rfl
  split
  · -- three bytes
    obtain ⟨lower, upper, hl, hfirst, hlow, hup⟩ : ∃ lower upper, ∃ hl : 0x80 ≤ lower,
        first (0xE0 + n / 0x1000) = some (⟨2, lower, upper, n / 0x1000, hl⟩, []) ∧
          lower ≤ 0x80 + n / 0x40 % 0x40 ∧ 0x80 + n / 0x40 % 0x40 ≤ upper := by
      unfold first
      rw [if_neg (by omega), if_neg (by omega), if_neg (by omega)]
      by_cases h0 : n / 0x1000 = 0
      · rw [if_pos (by omega), h0]
        exact ⟨0xA0, 0xBF, by decide, rfl, by omega, by omega⟩
      · rw [if_neg (by omega)]
        by_cases hd : n / 0x1000 = 0xD
        · rw [if_pos (by omega), hd]
          exact ⟨0x80, 0x9F, by decide, rfl, by omega, by omega⟩
        · rw [if_neg (by omega), if_pos (by omega)]
          exact ⟨0x80, 0xBF, by decide, by simp, by omega, by omega⟩
    rw [List.cons_append, decode, decode_step, toNat_byte (by omega), Decoder.next]
    simp only [Decoder.start, hfirst, Option.bind_some, List.cons_append, List.nil_append]
    rw [decode_tail hl hlow hup (by decide), decode_last (by decide) (by omega) (by omega),
      show (n / 0x1000 * 64 + n / 0x40 % 0x40) * 64 + n % 0x40 = n by omega, hc]
    cases decode rest <;> rfl
  · -- four bytes
    obtain ⟨lower, upper, hl, hfirst, hlow, hup⟩ : ∃ lower upper, ∃ hl : 0x80 ≤ lower,
        first (0xF0 + n / 0x40000) = some (⟨3, lower, upper, n / 0x40000, hl⟩, []) ∧
          lower ≤ 0x80 + n / 0x1000 % 0x40 ∧ 0x80 + n / 0x1000 % 0x40 ≤ upper := by
      unfold first
      rw [if_neg (by omega), if_neg (by omega), if_neg (by omega), if_neg (by omega),
        if_neg (by omega), if_neg (by omega)]
      by_cases h0 : n / 0x40000 = 0
      · rw [if_pos (by omega), h0]
        exact ⟨0x90, 0xBF, by decide, rfl, by omega, by omega⟩
      · rw [if_neg (by omega)]
        by_cases h4 : n / 0x40000 < 4
        · rw [if_pos (by omega)]
          exact ⟨0x80, 0xBF, by decide, by simp, by omega, by omega⟩
        · have h4 : n / 0x40000 = 4 := by omega
          rw [if_neg (by omega), if_pos (by omega), h4]
          exact ⟨0x80, 0x8F, by decide, rfl, by omega, by omega⟩
    rw [List.cons_append, decode, decode_step, toNat_byte (by omega), Decoder.next]
    simp only [Decoder.start, hfirst, Option.bind_some, List.cons_append, List.nil_append]
    rw [decode_tail hl hlow hup (by decide), decode_tail (by decide) (by omega) (by omega) (by decide),
      decode_last (by decide) (by omega) (by omega),
      show ((n / 0x40000 * 64 + n / 0x1000 % 0x40) * 64 + n / 0x40 % 0x40) * 64 + n % 0x40 = n by
        omega, hc]
    cases decode rest <;> rfl

theorem decode_encode (text : List Char) : decode (encode text) = some text := by
  induction text with
  | nil => rfl
  | cons c text ih => rw [encode_cons, decode_char, ih, Option.map_some]

/-- The decoder drops a mark at the front, and nothing else. -/
theorem decodeText_encode (c : Char) (text : List Char) (h : c.toNat ≠ 0xFEFF) :
    decodeText (encode (c :: text)) = some (c :: text) := by
  rw [decodeText, decode_encode, Option.map_some, dropMark_cons, if_neg h]

/-! ## Section 3: Line feeds -/

theorem lineFeed_encodeChar {c : Char} (h : c ≠ '\n') : 10 ∉ encodeChar c := by
  have hvalid : c.toNat < 0xD800 ∨ 0xDFFF < c.toNat ∧ c.toNat < 0x110000 := c.valid
  have hne : c.toNat ≠ 10 := fun heq => h (by rw [← Char.ofNat_toNat c, heq])
  have hbyte : ∀ m < 256, m ≠ 10 → (10 : UInt8) ≠ UInt8.ofNat m := by
    intro m hm hm' heq
    exact hm' (by rw [← toNat_byte hm, ← heq]; rfl)
  have htail : ∀ code, (10 : UInt8) ≠ tailByte code := by
    intro code
    have hmod := Nat.mod_lt code (show 0 < 0x40 by decide)
    exact hbyte _ (by omega) (by omega)
  intro hmem
  unfold encodeChar at hmem
  simp only at hmem
  split at hmem
  · exact hbyte _ (by omega) hne (by simpa using hmem)
  split at hmem
  · simp only [List.mem_cons, List.not_mem_nil, or_false] at hmem
    exact hmem.elim (hbyte _ (by omega) (by omega)) (htail _)
  split at hmem
  · simp only [List.mem_cons, List.not_mem_nil, or_false] at hmem
    exact hmem.elim (hbyte _ (by omega) (by omega)) fun hmem => hmem.elim (htail _) (htail _)
  · simp only [List.mem_cons, List.not_mem_nil, or_false] at hmem
    exact hmem.elim (hbyte _ (by omega) (by omega)) fun hmem =>
      hmem.elim (htail _) fun hmem => hmem.elim (htail _) (htail _)

theorem lineFeed_encode {text : List Char} (h : '\n' ∉ text) : 10 ∉ encode text := by
  intro hmem
  obtain ⟨c, hc, hbyte⟩ := List.mem_flatMap.mp hmem
  have hne : c ≠ '\n' := by
    rintro rfl
    exact h hc
  exact lineFeed_encodeChar hne hbyte

end Utf8
