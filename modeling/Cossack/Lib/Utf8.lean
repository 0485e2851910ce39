import Cossack.Lib.Lines
import Mathlib

/-! # UTF-8

    A fatal decoder that takes one byte at a time: it knows how many bytes are
    still owed and between which bounds the next of them lies.  A line feed ends
    no character but its own, so a text may be decoded line by line. -/

namespace Utf8

/-! ## Section 1: The decoder -/

/-- Between two bytes. The bounds of a byte that is owed leave out the ASCII
    characters. -/
structure Decoder where
  owed : Nat
  lower : Nat
  upper : Nat
  code : Nat
  tail : 0x80 ≤ lower

def Decoder.start : Decoder := ⟨0, 0x80, 0xBF, 0, by decide⟩

/-- The first byte of a character. -/
def first (byte : Nat) : Option (Decoder × List Char) :=
  if byte < 0x80 then some (.start, [Char.ofNat byte])
  else if byte < 0xC2 then none
  else if byte < 0xE0 then some (⟨1, 0x80, 0xBF, byte - 0xC0, by decide⟩, [])
  else if byte = 0xE0 then some (⟨2, 0xA0, 0xBF, 0, by decide⟩, [])
  else if byte = 0xED then some (⟨2, 0x80, 0x9F, 0xD, by decide⟩, [])
  else if byte < 0xF0 then some (⟨2, 0x80, 0xBF, byte - 0xE0, by decide⟩, [])
  else if byte = 0xF0 then some (⟨3, 0x90, 0xBF, 0, by decide⟩, [])
  else if byte < 0xF4 then some (⟨3, 0x80, 0xBF, byte - 0xF0, by decide⟩, [])
  else if byte = 0xF4 then some (⟨3, 0x80, 0x8F, 4, by decide⟩, [])
  else none

/-- The next byte, and the character it ends; `none` where it fits none. -/
def Decoder.next (d : Decoder) (byte : Nat) : Option (Decoder × List Char) :=
  match d.owed with
  | 0 => first byte
  | owed + 1 =>
      if byte < d.lower ∨ d.upper < byte then none
      else
        let code := d.code * 64 + (byte - 0x80)
        if owed = 0 then some (.start, [Char.ofNat code])
        else some (⟨owed, 0x80, 0xBF, code, by decide⟩, [])

def Decoder.decode (d : Decoder) : List UInt8 → Option (List Char)
  | [] => if d.owed = 0 then some [] else none
  | byte :: rest =>
      match d.next byte.toNat with
      | none => none
      | some (d', text) => (d'.decode rest).map (text ++ ·)

/-- The text of a whole byte sequence. -/
def decode (bytes : List UInt8) : Option (List Char) := Decoder.start.decode bytes

def dropMark : List Char → List Char
  | [] => []
  | c :: rest => if c.toNat = 0xFEFF then rest else c :: rest

/-- Decoding as `TextDecoder` does it, which drops a byte order mark. -/
def decodeText (bytes : List UInt8) : Option (List Char) := (decode bytes).map dropMark

/-! ## Section 2: Lines -/

theorem next_lineFeed (d : Decoder) :
    d.next 10 = if d.owed = 0 then some (.start, ['\n']) else none := by
  unfold Decoder.next
  cases howed : d.owed with
  | zero => rfl
  | succ owed =>
    have hlow : (10 : Nat) < d.lower := Nat.lt_of_lt_of_le (by decide) d.tail
    simp only
    rw [if_pos (.inl hlow), if_neg (Nat.succ_ne_zero owed)]

theorem Decoder.decode_line (d : Decoder) (line rest : List UInt8) :
    d.decode (line ++ 10 :: rest) =
      (d.decode line).bind fun text => (Utf8.decode rest).map fun after => text ++ '\n' :: after := by
  induction line generalizing d with
  | nil =>
    show (match d.next (10 : UInt8).toNat with
      | none => none
      | some (d', text) => (d'.decode rest).map (text ++ ·)) = _
    have hend : d.decode [] = if d.owed = 0 then some [] else none := rfl
    rw [show (10 : UInt8).toNat = 10 from rfl, next_lineFeed, hend]
    by_cases howed : d.owed = 0
    · rw [if_pos howed, if_pos howed]
      rfl
    · rw [if_neg howed, if_neg howed]
      rfl
  | cons byte line ih =>
    show (match d.next byte.toNat with
      | none => none
      | some (d', text) => (d'.decode (line ++ 10 :: rest)).map (text ++ ·)) =
      Option.bind (match d.next byte.toNat with
        | none => none
        | some (d', text) => (d'.decode line).map (text ++ ·)) _
    cases hnext : d.next byte.toNat with
    | none => rfl
    | some next =>
      obtain ⟨d', text⟩ := next
      simp only
      rw [ih d']
      cases d'.decode line with
      | none => rfl
      | some after =>
        cases Utf8.decode rest with
        | none => rfl
        | some last => simp

/-- A text is the decoded line, a line feed and the decoded rest. -/
theorem decode_line (line rest : List UInt8) :
    decode (line ++ 10 :: rest) =
      (decode line).bind fun text => (decode rest).map fun after => text ++ '\n' :: after :=
  Decoder.decode_line .start line rest

/-- What is owed of a character is a part of one beyond ASCII. -/
def Decoder.Large (d : Decoder) : Prop :=
  (d.owed = 1 → 128 ≤ d.code * 64 + (d.lower - 0x80)) ∧
    (1 < d.owed → 2 ≤ d.code * 64 + (d.lower - 0x80))

theorem ofNat_ne_lineFeed {n : Nat} (h : n ≠ 10) : Char.ofNat n ≠ '\n' := by
  intro heq
  unfold Char.ofNat at heq
  split at heq
  · next hvalid =>
    have htoNat : (Char.ofNatAux n hvalid).toNat = n := by simp [Char.ofNatAux, Char.toNat]
    rw [heq] at htoNat
    exact h htoNat.symm
  · cases heq

theorem large_start : Decoder.start.Large :=
  ⟨fun h => absurd h (by decide), fun h => absurd h (by decide)⟩

theorem first_large {byte : Nat} (hbyte : byte ≠ 10) {d : Decoder} {text : List Char}
    (hfirst : first byte = some (d, text)) : d.Large ∧ '\n' ∉ text := by
  unfold first at hfirst
  split at hfirst
  · cases hfirst
    refine ⟨large_start, fun hmem => ?_⟩
    exact ofNat_ne_lineFeed hbyte (List.mem_singleton.mp hmem).symm
  · refine ⟨?_, ?_⟩
    · unfold Decoder.Large
      repeat' split at hfirst
      all_goals first | (cases hfirst; simp only; omega) | cases hfirst
    · repeat' split at hfirst
      all_goals first | (cases hfirst; exact List.not_mem_nil) | cases hfirst

theorem Decoder.Large.next {d d' : Decoder} (h : d.Large) {byte : Nat} (hbyte : byte ≠ 10)
    {text : List Char} (hnext : d.next byte = some (d', text)) : d'.Large ∧ '\n' ∉ text := by
  unfold Decoder.next at hnext
  split at hnext
  · exact first_large hbyte hnext
  · next owed howed =>
    split at hnext
    · cases hnext
    · next hbounds =>
      simp only at hnext
      have hlower := d.tail
      have hlow : d.lower ≤ byte := by omega
      split at hnext
      · -- the character is complete
        next hlast =>
        cases hnext
        refine ⟨large_start, fun hmem => ?_⟩
        have hlarge := h.1 (by omega)
        refine ofNat_ne_lineFeed ?_ (List.mem_singleton.mp hmem).symm
        omega
      · cases hnext
        have hlarge := h.2 (by omega)
        refine ⟨?_, List.not_mem_nil⟩
        unfold Decoder.Large
        simp only
        omega

theorem Decoder.Large.decode {d : Decoder} (h : d.Large) {line : List UInt8} (hline : 10 ∉ line)
    {text : List Char} (htext : d.decode line = some text) : '\n' ∉ text := by
  induction line generalizing d text with
  | nil =>
    unfold Decoder.decode at htext
    split at htext
    · cases htext
      exact List.not_mem_nil
    · cases htext
  | cons byte line ih =>
    unfold Decoder.decode at htext
    have hbyte : byte.toNat ≠ 10 := fun heq => hline (by
      rw [show byte = 10 from UInt8.toNat_inj.mp heq]
      exact List.mem_cons_self ..)
    split at htext
    · cases htext
    · next d' first hnext =>
      obtain ⟨hlarge, hfirst⟩ := h.next hbyte hnext
      obtain ⟨after, hafter, rfl⟩ := Option.map_eq_some_iff.mp htext
      have hrest := ih hlarge (fun hmem => hline (List.mem_cons_of_mem _ hmem)) hafter
      exact fun hmem => (List.mem_append.mp hmem).elim hfirst hrest

/-- A line of bytes is a line of text. -/
theorem decode_no_lineFeed {line : List UInt8} (hline : 10 ∉ line) {text : List Char}
    (htext : decode line = some text) : '\n' ∉ text :=
  large_start.decode hline htext

/-- The lines of a decoded text are the decoded lines. -/
theorem decode_lines {body : List UInt8} {text : List Char} (htext : decode body = some text) :
    (Lines.split 10 body).1.map decode = (Lines.split '\n' text).1.map some ∧
      decode (Lines.split 10 body).2 = some (Lines.split '\n' text).2 := by
  induction body using Lines.induction (10 : UInt8) generalizing text with
  | last last h =>
    rw [Lines.split_last h, Lines.split_last (decode_no_lineFeed h htext)]
    exact ⟨rfl, htext⟩
  | line line rest h ih =>
    rw [decode_line] at htext
    obtain ⟨front, hfront, htext⟩ := Option.bind_eq_some_iff.mp htext
    obtain ⟨after, hafter, rfl⟩ := Option.map_eq_some_iff.mp htext
    obtain ⟨hlines, hlast⟩ := ih hafter
    rw [Lines.split_append h, Lines.split_append (decode_no_lineFeed h hfront)]
    refine ⟨?_, hlast⟩
    rw [List.map_cons, List.map_cons, hfront, hlines]

theorem dropMark_cons (c : Char) (text : List Char) :
    dropMark (c :: text) = if c.toNat = 0xFEFF then text else c :: text := rfl

/-- A text begins with a byte order mark only where its first line does. -/
theorem dropMark_eq {text : List Char}
    (h : ∀ line ∈ (Lines.split '\n' text).1 ++ [(Lines.split '\n' text).2], dropMark line = line) :
    dropMark text = text := by
  cases text with
  | nil => rfl
  | cons c rest =>
    by_cases hfeed : c = '\n'
    · subst hfeed
      rfl
    · rw [Lines.split_cons hfeed] at h
      have hmark : ∀ line, dropMark (c :: line) = c :: line → c.toNat ≠ 0xFEFF := by
        intro line hline hc
        rw [dropMark_cons, if_pos hc] at hline
        exact absurd (congrArg List.length hline) (by simp)
      have hne : c.toNat ≠ 0xFEFF := by
        cases hlines : (Lines.split '\n' rest).1 with
        | nil =>
          rw [hlines] at h
          exact hmark _ (h _ (List.mem_singleton.mpr rfl))
        | cons line lines =>
          rw [hlines] at h
          exact hmark line (h _ (List.mem_cons_self ..))
      rw [dropMark_cons, if_neg hne]

end Utf8
