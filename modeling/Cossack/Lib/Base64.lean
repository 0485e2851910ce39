import Mathlib.Data.List.DropRight

/-! # Base64 texts

    `btoa` and `atob`, and the alphabet without padding that a URL may carry.
    Texts are lists of UTF-16 code units. -/

namespace Base64

/-! ## Section 1: Groups of six bits -/

/-- Three bytes are four sextets; what is left of the last group is filled with zeros. -/
def sextets : List UInt8 → List Nat
  | a :: b :: c :: rest =>
      a.toNat / 4 :: (a.toNat % 4 * 16 + b.toNat / 16) :: (b.toNat % 16 * 4 + c.toNat / 64) ::
        c.toNat % 64 :: sextets rest
  | [a, b] => [a.toNat / 4, a.toNat % 4 * 16 + b.toNat / 16, b.toNat % 16 * 4]
  | [a] => [a.toNat / 4, a.toNat % 4 * 16]
  | [] => []

/-- The bytes of sextets; bits that do not fill a byte are dropped. -/
def octets : List Nat → Option (List UInt8)
  | p :: q :: r :: s :: rest =>
      (octets rest).map fun bytes => UInt8.ofNat (p * 4 + q / 16) ::
        UInt8.ofNat (q % 16 * 16 + r / 4) :: UInt8.ofNat (r % 4 * 64 + s) :: bytes
  | [p, q, r] => some [UInt8.ofNat (p * 4 + q / 16), UInt8.ofNat (q % 16 * 16 + r / 4)]
  | [p, q] => some [UInt8.ofNat (p * 4 + q / 16)]
  | [_] => none
  | [] => some []

theorem sextets_lt (bytes : List UInt8) : ∀ n ∈ sextets bytes, n < 64 := by
  fun_induction sextets bytes with
  | case1 a b c rest ih =>
    have ha := a.toNat_lt
    have hb := b.toNat_lt
    have hc := c.toNat_lt
    simp only [List.forall_mem_cons]
    exact ⟨by omega, by omega, by omega, by omega, ih⟩
  | case2 a b =>
    have ha := a.toNat_lt
    have hb := b.toNat_lt
    simp only [List.forall_mem_cons]
    exact ⟨by omega, by omega, by omega, by simp⟩
  | case3 a =>
    have ha := a.toNat_lt
    simp only [List.forall_mem_cons]
    exact ⟨by omega, by omega, by simp⟩
  | case4 => simp

theorem length_sextets (bytes : List UInt8) : (sextets bytes).length = (4 * bytes.length + 2) / 3 := by
  fun_induction sextets bytes with
  | case1 a b c rest ih =>
    simp only [List.length_cons, ih]
    omega
  | case2 a b => simp
  | case3 a => simp
  | case4 => rfl

theorem ofNat_byte {n : Nat} {b : UInt8} (h : n = b.toNat) : UInt8.ofNat n = b := by
  rw [h, UInt8.ofNat_toNat]

theorem octets_sextets (bytes : List UInt8) : octets (sextets bytes) = some bytes := by
  fun_induction sextets bytes with
  | case1 a b c rest ih =>
    have hb := b.toNat_lt
    have hc := c.toNat_lt
    rw [octets, ih, Option.map_some, ofNat_byte (b := a) (by omega), ofNat_byte (b := b) (by omega),
      ofNat_byte (b := c) (by omega)]
  | case2 a b =>
    have hb := b.toNat_lt
    rw [octets, ofNat_byte (b := a) (by omega), ofNat_byte (b := b) (by omega)]
  | case3 a => rw [octets, ofNat_byte (b := a) (by omega)]
  | case4 => rfl

/-! ## Section 2: The alphabet -/

/-- The code unit of a sextet: letters, digits, `+` and `/`. -/
def digit (n : Nat) : Nat :=
  if n < 26 then 65 + n
  else if n < 52 then 97 + (n - 26)
  else if n < 62 then 48 + (n - 52)
  else if n = 62 then 43 else 47

def value (u : Nat) : Option Nat :=
  if 65 ≤ u ∧ u ≤ 90 then some (u - 65)
  else if 97 ≤ u ∧ u ≤ 122 then some (u - 97 + 26)
  else if 48 ≤ u ∧ u ≤ 57 then some (u - 48 + 52)
  else if u = 43 then some 62
  else if u = 47 then some 63 else none

def isSpace (u : Nat) : Bool := u = 9 || u = 10 || u = 12 || u = 13 || u = 32

theorem value_digit : ∀ {n : Nat}, n < 64 → value (digit n) = some n := by decide

theorem isSpace_digit : ∀ {n : Nat}, n < 64 → isSpace (digit n) = false ∧ digit n ≠ 61 := by decide

def btoa (bytes : List UInt8) : List Nat :=
  (sextets bytes).map digit ++ List.replicate ((3 - bytes.length % 3) % 3) 61

/-- Without one or two signs of padding at the end. -/
def dropPadding (text : List Nat) : List Nat :=
  match text.reverse with
  | 61 :: 61 :: rest => rest.reverse
  | 61 :: rest => rest.reverse
  | _ => text

/-- Blanks are skipped; a text of full groups may end with padding. -/
def atob (text : List Nat) : Option (List UInt8) :=
  let text := text.filter (!isSpace ·)
  let text := if text.length % 4 = 0 then dropPadding text else text
  (text.mapM value).bind octets

/-! ## Section 3: Texts for URLs -/

def toUrl (u : Nat) : Nat := if u = 43 then 45 else if u = 47 then 95 else u

def ofUrl (u : Nat) : Nat := if u = 45 then 43 else if u = 95 then 47 else u

/-- The padding is cut off. -/
def urlEncode (bytes : List UInt8) : List Nat := ((btoa bytes).map toUrl).rdropWhile (· = 61)

def urlDecode (text : List Nat) : Option (List UInt8) := atob (text.map ofUrl)

/-- `[A-Za-z0-9_-]`. -/
def isUrl (u : Nat) : Bool :=
  65 ≤ u && u ≤ 90 || 97 ≤ u && u ≤ 122 || 48 ≤ u && u ≤ 57 || u = 45 || u = 95

theorem toUrl_digit : ∀ {n : Nat}, n < 64 →
    isUrl (toUrl (digit n)) = true ∧ toUrl (digit n) ≠ 61 ∧ ofUrl (toUrl (digit n)) = digit n := by decide

theorem urlEncode_eq (bytes : List UInt8) :
    urlEncode bytes = (sextets bytes).map fun n => toUrl (digit n) := by
  have hpad : ∀ (n : Nat) (text : List Nat),
      (text ++ List.replicate n 61).rdropWhile (· = 61) = text.rdropWhile (· = 61) := by
    intro n text
    induction n with
    | zero => simp
    | succ n ih =>
      rw [List.replicate_succ', ← List.append_assoc, List.rdropWhile_concat_pos _ _ _ (by decide), ih]
  unfold urlEncode btoa
  rw [List.map_append, List.map_replicate, show toUrl 61 = 61 from rfl, hpad, List.map_map]
  apply List.rdropWhile_eq_self_iff.mpr
  intro hne
  obtain ⟨n, hn, heq⟩ := List.mem_map.mp (List.getLast_mem hne)
  rw [← heq]
  simpa using (toUrl_digit (sextets_lt bytes n hn)).2.1

theorem length_urlEncode (bytes : List UInt8) : (urlEncode bytes).length = (4 * bytes.length + 2) / 3 := by
  rw [urlEncode_eq, List.length_map, length_sextets]

theorem isUrl_urlEncode {bytes : List UInt8} {u : Nat} (h : u ∈ urlEncode bytes) : isUrl u = true := by
  rw [urlEncode_eq] at h
  obtain ⟨n, hn, rfl⟩ := List.mem_map.mp h
  exact (toUrl_digit (sextets_lt bytes n hn)).1

theorem dropPadding_self {text : List Nat} (h : 61 ∉ text) : dropPadding text = text := by
  unfold dropPadding
  split
  · rename_i rest heq
    exact absurd (List.mem_reverse.mp (heq ▸ List.mem_cons_self)) h
  · rename_i rest _ heq
    exact absurd (List.mem_reverse.mp (heq ▸ List.mem_cons_self)) h
  · rfl

theorem mapM_value {ns : List Nat} (h : ∀ n ∈ ns, n < 64) : (ns.map digit).mapM value = some ns := by
  induction ns with
  | nil => rfl
  | cons n ns ih =>
    rw [List.forall_mem_cons] at h
    rw [List.map_cons, List.mapM_cons, value_digit h.1, ih h.2]
    rfl

/-- What is encoded is read back. -/
theorem urlDecode_urlEncode (bytes : List UInt8) : urlDecode (urlEncode bytes) = some bytes := by
  have hlt := sextets_lt bytes
  have hback : (urlEncode bytes).map ofUrl = (sextets bytes).map digit := by
    rw [urlEncode_eq, List.map_map]
    exact List.map_congr_left fun n hn => (toUrl_digit (hlt n hn)).2.2
  have hspace : ((sextets bytes).map digit).filter (!isSpace ·) = (sextets bytes).map digit := by
    apply List.filter_eq_self.mpr
    intro u hu
    obtain ⟨n, hn, rfl⟩ := List.mem_map.mp hu
    rw [(isSpace_digit (hlt n hn)).1]
    rfl
  have hpadding : 61 ∉ (sextets bytes).map digit := by
    intro hu
    obtain ⟨n, hn, heq⟩ := List.mem_map.mp hu
    exact (isSpace_digit (hlt n hn)).2 heq
  unfold urlDecode atob
  simp only [hback, hspace, dropPadding_self hpadding, ite_self]
  rw [mapM_value hlt, Option.bind_some, octets_sextets]

theorem urlEncode_injective {a b : List UInt8} (h : urlEncode a = urlEncode b) : a = b := by
  have hdecode := urlDecode_urlEncode a
  rw [h, urlDecode_urlEncode] at hdecode
  exact (Option.some.inj hdecode).symm

theorem mem_dropPadding {text : List Nat} {u : Nat} (h : u ∈ text) (hu : u ≠ 61) : u ∈ dropPadding text := by
  have hreverse := List.mem_reverse.mpr h
  unfold dropPadding
  split
  · rename_i rest heq
    rw [heq] at hreverse
    simpa [hu] using hreverse
  · rename_i rest _ heq
    rw [heq] at hreverse
    simpa [hu] using hreverse
  · exact h

theorem mapM_value_none {text : List Nat} {u : Nat} (h : u ∈ text) (hu : value u = none) :
    text.mapM value = none := by
  induction text with
  | nil => cases h
  | cons v text ih =>
    rw [List.mapM_cons]
    rcases List.mem_cons.mp h with rfl | h
    · rw [hu]
      rfl
    · rw [ih h]
      cases value v <;> rfl

/-- A text with a full stop is not decoded. -/
theorem urlDecode_dot {text : List Nat} (h : 46 ∈ text) : urlDecode text = none := by
  have hdot : 46 ∈ (text.map ofUrl).filter (!isSpace ·) :=
    List.mem_filter.mpr ⟨List.mem_map.mpr ⟨46, h, rfl⟩, rfl⟩
  have hpadded : 46 ∈ (if ((text.map ofUrl).filter (!isSpace ·)).length % 4 = 0 then
      dropPadding ((text.map ofUrl).filter (!isSpace ·)) else (text.map ofUrl).filter (!isSpace ·)) := by
    split
    · exact mem_dropPadding hdot (by decide)
    · exact hdot
  unfold urlDecode atob
  simp only
  rw [mapM_value_none hpadded rfl, Option.bind_none]

end Base64
