import Cossack.Lib.JsString
import Cossack.Lib.Lines
import Cossack.Lib.Preferences
import Mathlib

/-! # Locale negotiation

    `detectBrowserLocale` reads an `Accept-Language` header and picks a supported
    locale.  A range of quality 0 is left out and has no further effect; a wildcard
    stands for the first supported locale.  Qualities are doubles, written as integers
    in units of the least positive one. -/

namespace Cossack.Core.LocaleNegotiation

open Preferences

abbrev Text := List Char

/-! ## Section 1: Qualities -/

/-- `n / d` rounded to a double, ties to even; none from `2 ^ 1024` on. -/
def roundDouble (n d : Nat) : Option Nat :=
  if n = 0 then some 0
  else
    -- `n / d` scaled by `2 ^ -e`, as numerator and denominator
    let scaled : Int → Nat × Nat := fun e => if 0 ≤ e then (n, d * 2 ^ e.toNat) else (n * 2 ^ (-e).toNat, d)
    let e : Int := Nat.log2 n - Nat.log2 d - 52
    let e := if (scaled e).1 < (scaled e).2 * 2 ^ 52 then e - 1 else e
    -- the least exponent is that of the subnormal numbers
    let e := max e (-1074)
    let (a, b) := scaled e
    let q := a / b
    let r := a % b
    let k := if b < 2 * r ∨ (2 * r = b ∧ q % 2 = 1) then q + 1 else q
    let units := k * 2 ^ (e + 1074).toNat
    if 2 ^ 2098 ≤ units then none else some units

/-- The number 1. -/
def one : Int := 2 ^ 1074

def digitsValue (digits : Text) : Nat := Nat.ofDigitChars 10 digits 0

/-- `e` or `E`, a sign or none, and digits; otherwise there is no exponent. -/
def exponentPart : Text → Int
  | c :: rest =>
      if c = 'e' ∨ c = 'E' then
        match rest with
        | '-' :: rest => -(digitsValue (rest.takeWhile Char.isDigit) : Int)
        | '+' :: rest => digitsValue (rest.takeWhile Char.isDigit)
        | rest => digitsValue (rest.takeWhile Char.isDigit)
      else 0
  | [] => 0

/-- The longest decimal that the text starts with, without a sign. -/
def decimal (text : Text) : Option Nat :=
  let whole := text.takeWhile Char.isDigit
  let rest := text.dropWhile Char.isDigit
  let (fraction, rest) :=
    match rest with
    | '.' :: rest => (rest.takeWhile Char.isDigit, rest.dropWhile Char.isDigit)
    | rest => ([], rest)
  if whole = [] ∧ fraction = [] then none
  else
    let exponent := exponentPart rest - fraction.length
    let coefficient := digitsValue (whole ++ fraction)
    if 0 ≤ exponent then roundDouble (coefficient * 10 ^ exponent.toNat) 1
    else roundDouble coefficient (10 ^ (-exponent).toNat)

/-- `parseFloat`, where it gives a finite number. -/
def parseFloat (text : Text) : Option Int :=
  match text.dropWhile JsString.isSpace with
  | '-' :: rest => (decimal rest).map fun n => -n
  | '+' :: rest => (decimal rest).map fun n => n
  | rest => (decimal rest).map fun n => n

/-! ## Section 2: The header -/

/-- `String.prototype.trim`. -/
def trim (text : Text) : Text :=
  ((text.dropWhile JsString.isSpace).reverse.dropWhile JsString.isSpace).reverse

/-- `.split(',')`. -/
def parts (header : Text) : List Text := (Lines.split ',' header).1 ++ [(Lines.split ',' header).2]

/-- `.split(';q=')`, the first piece and the others. -/
def splitWeight : Text → Text × List Text
  | ';' :: 'q' :: '=' :: rest => ([], (splitWeight rest).1 :: (splitWeight rest).2)
  | c :: rest => (c :: (splitWeight rest).1, (splitWeight rest).2)
  | [] => ([], [])

structure LanguageRange where
  tag : Text
  quality : Int
  deriving DecidableEq

def wildcard : Text := ['*']

/-- The language range of a part.  A weight that is no finite number counts as none. -/
def readRange (toLowerCase : Text → Text) (part : Text) : LanguageRange :=
  let pieces := splitWeight (trim part)
  let quality :=
    match pieces.2 with
    | [] => one
    | q :: _ => if q = [] then one else (parseFloat q).getD one
  ⟨toLowerCase (trim pieces.1), quality⟩

def readRanges (toLowerCase : Text → Text) (header : Text) : List LanguageRange :=
  (parts header).map (readRange toLowerCase)

/-! ## Section 3: The negotiation -/

/-- `.split('-')[0]`. -/
def baseOf (tag : Text) : Text := tag.takeWhile (· ≠ '-')

/-- Exact tag, then base language. -/
def matchAgainst (toLowerCase : Text → Text) (supported : List Text) (tag : Text) : Option Text :=
  (supported.find? fun s => toLowerCase s = tag).or
    (supported.find? fun s => baseOf (toLowerCase s) = baseOf tag)

/-- A match that is the empty string is no match. -/
def truthy (locale : Option Text) : Option Text := locale.filter (· ≠ [])

/-- The loop over the sorted entries, with the flag for a wildcard. -/
def choose (select : Text → Option Text) : List LanguageRange → Bool → Option Text × Bool
  | [], star => (none, star)
  | r :: rest, star =>
      if r.tag = wildcard then choose select rest true
      else
        match select r.tag with
        | some locale => (some locale, star)
        | none => choose select rest star

def detectBrowserLocale (toLowerCase : Text → Text) (acceptLanguage : Option Text)
    (supported : List Text) (fallback : Text) : Text :=
  match acceptLanguage, supported with
  | none, _ | some [], _ | _, [] => fallback
  | some header, first :: _ =>
      let entries := sort LanguageRange.quality
        ((readRanges toLowerCase header).filter fun r => r.tag ≠ [] && decide (0 < r.quality))
      match choose (fun tag => truthy (matchAgainst toLowerCase supported tag)) entries false with
      | (some locale, _) => locale
      | (none, star) => if star then first else fallback

end Cossack.Core.LocaleNegotiation
