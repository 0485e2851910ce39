import Cossack.Lib.FormText
import Cossack.Lib.JsonQuote
import Mathlib.Data.List.TakeWhile

/-! # Components and paths of URLs

    `encodeURIComponent`, and what the URL parser makes of an absolute path: dot
    segments are resolved, other characters than those of a path are escaped.  A
    string is a list of UTF-16 code units, so that it may have lone surrogates. -/

namespace UriText

open FormText (hexDigit bytes decodeURIComponent)
open JsonText (isHigh isLow)

/-! ## Section 1: Strings of code units -/

abbrev Text := { units : List Nat // ∀ u ∈ units, u < 0x10000 }

def ofString (s : String) : Text := ⟨JsString.utf16 s, fun _ => JsonText.utf16_lt⟩

/-- The characters of a string; none where a surrogate has no partner. -/
def chars : List Nat → Option (List Char)
  | high :: low :: rest =>
      if isHigh high && isLow low then
        (chars rest).map (Char.ofNat (0x10000 + (high - 0xD800) * 0x400 + (low - 0xDC00)) :: ·)
      else if isHigh high || isLow high then none
      else (chars (low :: rest)).map (Char.ofNat high :: ·)
  | [u] => if isHigh u || isLow u then none else some [Char.ofNat u]
  | [] => some []

theorem units_ofNat {u : Nat} (h : u < 0x10000) (hs : (isHigh u || isLow u) = false) :
    JsString.units (Char.ofNat u) = [u] := by
  simp only [isHigh, isLow, Bool.or_eq_false_iff, Bool.and_eq_false_iff, decide_eq_false_iff_not] at hs
  have hnat : (Char.ofNat u).toNat = u := JsonText.toNat_ofNat (by omega)
  rw [JsString.units, hnat, if_pos h]

theorem units_pair {high low : Nat} (h : (isHigh high && isLow low) = true) :
    JsString.units (Char.ofNat (0x10000 + (high - 0xD800) * 0x400 + (low - 0xDC00))) = [high, low] := by
  simp only [Bool.and_eq_true, isHigh, isLow, decide_eq_true_eq] at h
  generalize hn : 0x10000 + (high - 0xD800) * 0x400 + (low - 0xDC00) = n
  have hnat : (Char.ofNat n).toNat = n := JsonText.toNat_ofNat (by omega)
  have hhigh : 0xD800 + (n - 0x10000) / 0x400 = high := by omega
  have hlow : 0xDC00 + (n - 0x10000) % 0x400 = low := by omega
  rw [JsString.units, hnat, if_neg (by omega), hhigh, hlow]

/-- The characters of a string stand for its code units. -/
theorem chars_units {units : List Nat} (h : ∀ u ∈ units, u < 0x10000) {text : List Char}
    (htext : chars units = some text) : text.flatMap JsString.units = units := by
  fun_induction chars units generalizing text with
  | case1 high low rest hpair ih =>
    obtain ⟨tail, htail, rfl⟩ := Option.map_eq_some_iff.mp htext
    rw [List.flatMap_cons, units_pair hpair, ih (fun u hu => h u (by simp [hu])) htail]
    rfl
  | case2 high low rest hpair hlone => cases htext
  | case3 high low rest hpair hlone ih =>
    obtain ⟨tail, htail, rfl⟩ := Option.map_eq_some_iff.mp htext
    rw [List.flatMap_cons, units_ofNat (h high (by simp)) (by simpa using hlone),
      ih (fun u hu => h u (List.mem_cons_of_mem _ hu)) htail]
    rfl
  | case4 u hlone => cases htext
  | case5 u hlone =>
    cases htext
    rw [List.flatMap_cons, units_ofNat (h u (by simp)) (by simpa using hlone)]
    rfl
  | case6 =>
    cases htext
    rfl

/-! ## Section 2: Components -/

/-- The bytes that `encodeURIComponent` leaves as they are. -/
def isUnreserved (b : UInt8) : Bool :=
  (48 ≤ b && b ≤ 57) || (65 ≤ b && b ≤ 90) || (97 ≤ b && b ≤ 122) || b == 45 || b == 95 || b == 46 ||
    b == 33 || b == 126 || b == 42 || b == 39 || b == 40 || b == 41

def encodeByte (b : UInt8) : List Char :=
  if isUnreserved b then [Char.ofNat b.toNat] else ['%', hexDigit (b.toNat / 16), hexDigit (b.toNat % 16)]

def encodeChars (text : List Char) : List Char := (Utf8.encode text).flatMap encodeByte

/-- It throws where a surrogate has no partner. -/
def encodeURIComponent (text : Text) : Option (List Char) := (chars text.1).map encodeChars

theorem bytes_encodeByte (b : UInt8) (rest : List Char) :
    bytes (encodeByte b ++ rest) = (bytes rest).map (b :: ·) := by
  unfold encodeByte
  split
  · rename_i hplain
    have hall : ∀ n < 256, isUnreserved (UInt8.ofNat n) = true →
        Utf8.encodeChar (Char.ofNat (UInt8.ofNat n).toNat) = [UInt8.ofNat n] ∧
          Char.ofNat (UInt8.ofNat n).toNat ≠ '%' := by decide +kernel
    obtain ⟨hchar, hpercent⟩ := FormText.byte_cases (motive := fun b => isUnreserved b = true →
      Utf8.encodeChar (Char.ofNat b.toNat) = [b] ∧ Char.ofNat b.toNat ≠ '%') hall b hplain
    rw [List.singleton_append, FormText.bytes_cons hpercent, hchar]
    rfl
  · have hb : b.toNat < 256 := UInt8.toNat_lt b
    have hh : b.toNat / 16 < 16 := by omega
    have hl : b.toNat % 16 < 16 := by omega
    show bytes ('%' :: hexDigit (b.toNat / 16) :: hexDigit (b.toNat % 16) :: rest) = _
    rw [FormText.bytes_escape hh hl, Nat.div_add_mod, UInt8.ofNat_toNat]

theorem bytes_encodeChars (text rest : List Char) :
    bytes (encodeChars text ++ rest) = (bytes rest).map (Utf8.encode text ++ ·) := by
  unfold encodeChars
  induction Utf8.encode text with
  | nil => simp
  | cons b bs ih =>
    rw [List.flatMap_cons, List.append_assoc, bytes_encodeByte, ih, Option.map_map]
    rfl

theorem bytes_slash (rest : List Char) : bytes ('/' :: rest) = (bytes rest).map (Utf8.encode ['/'] ++ ·) := by
  rw [FormText.bytes_cons (by decide)]
  rfl

/-- Components with slashes between them stand for the texts with slashes between. -/
theorem bytes_intercalate (texts : List (List Char)) :
    bytes (['/'].intercalate (texts.map encodeChars)) = some (Utf8.encode (['/'].intercalate texts)) := by
  induction texts with
  | nil => rfl
  | cons text texts ih =>
    cases texts with
    | nil =>
      have hone := bytes_encodeChars text []
      rw [List.append_nil] at hone
      simpa [bytes, List.intercalate] using hone
    | cons next texts =>
      rw [List.map_cons, List.intercalate_cons_of_ne_nil (by simp), List.intercalate_cons_of_ne_nil (by simp),
        List.append_assoc, bytes_encodeChars, List.singleton_append, bytes_slash, ih, Utf8.encode_append,
        Utf8.encode_append]
      simp

theorem decode_intercalate (texts : List (List Char)) :
    decodeURIComponent (['/'].intercalate (texts.map encodeChars)) = some (['/'].intercalate texts) := by
  rw [decodeURIComponent, bytes_intercalate]
  exact Utf8.decode_encode _

theorem decode_encodeChars (text : List Char) : decodeURIComponent (encodeChars text) = some text := by
  simpa [List.intercalate] using decode_intercalate [text]

theorem encodeChars_ne_nil {text : List Char} (h : text ≠ []) : encodeChars text ≠ [] := by
  intro hnil
  have hdecode := decode_encodeChars text
  rw [hnil] at hdecode
  exact h (Option.some.inj hdecode).symm

/-! ## Section 3: Paths -/

/-- The characters that the parser escapes in a path. -/
def isEscaped (c : Char) : Bool :=
  c.toNat ≤ 0x20 || 0x7E < c.toNat || c == '"' || c == '#' || c == '<' || c == '>' || c == '?' || c == '^' ||
    c == '\x60' || c == '\x7b' || c == '\x7d'

def escapePath (segment : List Char) : List Char :=
  segment.flatMap fun c =>
    if isEscaped c then (Utf8.encodeChar c).flatMap fun b => ['%', hexDigit (b.toNat / 16), hexDigit (b.toNat % 16)]
    else [c]

def dots : List (List Char) := [['.'], ['%', '2', 'e'], ['%', '2', 'E']]

def isSingleDot (segment : List Char) : Bool := dots.contains segment

def isDoubleDot (segment : List Char) : Bool := dots.any fun a => dots.any fun b => a ++ b == segment

/-- The segments of a path; a dot segment at its end leaves an empty one. -/
def resolveDots (done : List (List Char)) : List (List Char) → List (List Char)
  | [] => done
  | [last] =>
      if isDoubleDot last then done.dropLast ++ [[]]
      else if isSingleDot last then done ++ [[]]
      else done ++ [last]
  | segment :: rest =>
      if isDoubleDot segment then resolveDots done.dropLast rest
      else if isSingleDot segment then resolveDots done rest
      else resolveDots (done ++ [segment]) rest

def isSlash (c : Char) : Bool := c == '/' || c == '\\'

/-- `.pathname` of an absolute path resolved against an origin, for a scheme with
    hosts; none where the text is no path of this origin. -/
def resolvePath (input : List Char) : Option (List Char) :=
  let blank := fun c : Char => decide (c.toNat ≤ 0x20)
  let trimmed := ((input.dropWhile blank).reverse.dropWhile blank).reverse
  match trimmed.filter fun c => !(c == '\t' || c == '\n' || c == '\r') with
  | '/' :: rest =>
      if rest.head?.any isSlash then none
      else
        let path := rest.takeWhile fun c => !(c == '?' || c == '#')
        some ((resolveDots [] ((path.splitOnP isSlash).map escapePath)).flatMap ('/' :: ·))
  | _ => none

structure Url where
  origin : String
  pathname : List Char
  deriving DecidableEq

/-- `new URL(input, origin)` where it keeps the origin. -/
def resolve (origin : String) (input : List Char) : Option Url :=
  (resolvePath input).map fun pathname => ⟨origin, pathname⟩

/-- A character that a path keeps. -/
def isKept (c : Char) : Bool := !isEscaped c && c != '\\'

theorem flatMap_slash {items : List (List Char)} (h : items ≠ []) :
    items.flatMap ('/' :: ·) = '/' :: ['/'].intercalate items := by
  induction items with
  | nil => exact absurd rfl h
  | cons item items ih =>
    cases items with
    | nil => simp [List.intercalate]
    | cons next items =>
      have hcons : ['/'].intercalate (item :: next :: items) = item ++ ['/'] ++ ['/'].intercalate (next :: items) :=
        List.intercalate_cons_of_ne_nil (by simp)
      rw [List.flatMap_cons, ih (by simp), hcons]
      simp

theorem splitOnP_intercalate {items : List (List Char)} (hne : items ≠ [])
    (h : ∀ item ∈ items, ∀ c ∈ item, isSlash c = false) :
    (['/'].intercalate items).splitOnP isSlash = items := by
  induction items with
  | nil => exact absurd rfl hne
  | cons item items ih =>
    have hitem := h item (by simp)
    cases items with
    | nil => simpa [List.intercalate] using List.splitOnP_eq_singleton hitem
    | cons next items =>
      rw [List.intercalate_cons_of_ne_nil (by simp), List.append_assoc, List.singleton_append,
        List.splitOnP_append_cons_of_forall_mem hitem '/' rfl, ih (by simp) fun i hi => h i (List.mem_cons_of_mem _ hi)]

theorem resolveDots_self {items : List (List Char)} (h : ∀ item ∈ items, isSingleDot item = false ∧ isDoubleDot item = false)
    (done : List (List Char)) : resolveDots done items = done ++ items := by
  induction items generalizing done with
  | nil => simp [resolveDots]
  | cons item items ih =>
    obtain ⟨hsingle, hdouble⟩ := h item (by simp)
    cases items with
    | nil => simp [resolveDots, hsingle, hdouble]
    | cons next items =>
      rw [resolveDots, hdouble, hsingle]
      · simp only [Bool.false_eq_true, if_false]
        rw [ih (fun i hi => h i (List.mem_cons_of_mem _ hi))]
        simp
      · simp

theorem escapePath_self {segment : List Char} (h : ∀ c ∈ segment, isEscaped c = false) : escapePath segment = segment := by
  unfold escapePath
  induction segment with
  | nil => rfl
  | cons c segment ih =>
    rw [List.flatMap_cons, h c (by simp), ih fun d hd => h d (List.mem_cons_of_mem _ hd)]
    rfl

theorem kept_parts {c : Char} (h : isKept c = true) :
    isEscaped c = false ∧ c ≠ '\\' ∧ 0x20 < c.toNat ∧ c ≠ '?' ∧ c ≠ '#' := by
  simp only [isKept, Bool.and_eq_true, Bool.not_eq_true', bne_iff_ne, ne_eq] at h
  obtain ⟨hescaped, hback⟩ := h
  refine ⟨hescaped, hback, ?_, ?_, ?_⟩ <;> simp [isEscaped] at hescaped <;> tauto

/-- A path of kept characters without dot segments is what the parser makes of it. -/
theorem resolvePath_self {items : List (List Char)} (hne : items ≠ [])
    (hkept : ∀ item ∈ items, ∀ c ∈ item, isKept c = true ∧ c ≠ '/')
    (hdots : ∀ item ∈ items, isSingleDot item = false ∧ isDoubleDot item = false)
    (hfirst : items.head? = some [] → items = [[]]) :
    resolvePath (items.flatMap ('/' :: ·)) = some (items.flatMap ('/' :: ·)) := by
  have hpath := flatMap_slash hne
  have hall : ∀ c ∈ items.flatMap ('/' :: ·), isKept c = true := by
    intro c hc
    obtain ⟨item, hitem, hc⟩ := List.mem_flatMap.mp hc
    rcases List.mem_cons.mp hc with rfl | hc
    · rfl
    · exact (hkept item hitem c hc).1
  have hblank : ∀ l : List Char, (∀ c ∈ l, isKept c = true) → l.dropWhile (fun c => decide (c.toNat ≤ 0x20)) = l := by
    intro l hl
    cases l with
    | nil => rfl
    | cons c l =>
      have hlt := (kept_parts (hl c (by simp))).2.2.1
      exact List.dropWhile_cons_of_neg (by simp; omega)
  have htrim : (((items.flatMap ('/' :: ·)).dropWhile fun c => decide (c.toNat ≤ 0x20)).reverse.dropWhile
      fun c => decide (c.toNat ≤ 0x20)).reverse = items.flatMap ('/' :: ·) := by
    rw [hblank _ hall, hblank _ (by simpa using hall), List.reverse_reverse]
  have hfilter : (items.flatMap ('/' :: ·)).filter (fun c => !(c == '\t' || c == '\n' || c == '\r')) =
      items.flatMap ('/' :: ·) := by
    refine List.filter_eq_self.mpr fun c hc => ?_
    have hlt := (kept_parts (hall c hc)).2.2.1
    have hne : c ≠ '\t' ∧ c ≠ '\n' ∧ c ≠ '\r' := by
      refine ⟨?_, ?_, ?_⟩ <;> rintro rfl <;> revert hlt <;> decide
    simp [hne]
  have hslash : ∀ item ∈ items, ∀ c ∈ item, isSlash c = false := by
    intro item hitem c hc
    obtain ⟨hk, hs⟩ := hkept item hitem c hc
    simp [isSlash, hs, (kept_parts hk).2.1]
  have hhead : (['/'].intercalate items).head?.any isSlash = false := by
    cases items with
    | nil => exact absurd rfl hne
    | cons item items =>
      cases item with
      | nil =>
        rw [hfirst rfl]
        rfl
      | cons c item =>
        have hc := hslash (c :: item) (by simp) c (by simp)
        cases items with
        | nil => simpa [List.intercalate] using hc
        | cons next items =>
          rw [List.intercalate_cons_of_ne_nil (by simp)]
          simpa using hc
  have htake : (['/'].intercalate items).takeWhile (fun c => !(c == '?' || c == '#')) = ['/'].intercalate items := by
    refine List.takeWhile_eq_self_iff.mpr fun c hc => ?_
    have hk := kept_parts (hall c (by rw [hpath]; exact List.mem_cons_of_mem _ hc))
    simp [hk.2.2.2]
  unfold resolvePath
  simp only
  rw [htrim, hfilter, hpath]
  simp only [hhead, Bool.false_eq_true, if_false]
  rw [htake, splitOnP_intercalate hne hslash]
  have hmap : items.map escapePath = items := by
    refine (List.map_congr_left fun item hitem => ?_).trans (List.map_id _)
    exact escapePath_self fun c hc => (kept_parts (hkept item hitem c hc).1).1
  rw [hmap, resolveDots_self hdots, List.nil_append, hpath]

/-! ## Section 4: Components in paths -/

theorem kept_encodeChars {text : List Char} {c : Char} (h : c ∈ encodeChars text) : isKept c = true ∧ c ≠ '/' := by
  obtain ⟨b, -, hc⟩ := List.mem_flatMap.mp h
  have hall : ∀ n < 256, (encodeByte (UInt8.ofNat n)).all (fun c => isKept c && c != '/') = true := by decide +kernel
  have hbyte := FormText.byte_cases (motive := fun b => (encodeByte b).all (fun c => isKept c && c != '/') = true) hall b
  simpa using List.all_eq_true.mp hbyte c hc

theorem decode_dots : ∀ segment ∈ dots, decodeURIComponent segment = some ['.'] := by decide

theorem decode_dot_pairs : ∀ a ∈ dots, ∀ b ∈ dots, decodeURIComponent (a ++ b) = some ['.', '.'] := by decide

/-- A component is a dot segment only where its text is one. -/
theorem dots_encodeChars {text : List Char} (hsingle : text ≠ ['.']) (hdouble : text ≠ ['.', '.']) :
    isSingleDot (encodeChars text) = false ∧ isDoubleDot (encodeChars text) = false := by
  have hdecode := decode_encodeChars text
  constructor
  · rw [Bool.eq_false_iff]
    intro hdot
    rw [decode_dots _ (List.contains_iff_mem.mp hdot)] at hdecode
    exact hsingle (Option.some.inj hdecode).symm
  · rw [Bool.eq_false_iff]
    intro hdot
    simp only [isDoubleDot, List.any_eq_true, beq_iff_eq] at hdot
    obtain ⟨a, ha, b, hb, heq⟩ := hdot
    rw [← heq, decode_dot_pairs a ha b hb] at hdecode
    exact hdouble (Option.some.inj hdecode).symm

end UriText
