import Cossack.Lib.JsString
import Mathlib

/-! # JSON texts

    `JSON.parse` on the text of a decoder.  Strings are UTF-16 code units, since
    an escape may give a unit that is no character; a number is the decimal that
    was written. -/

namespace JsonText

/-- `(-1)^negative * coefficient * 10^exponent`. -/
structure Decimal where
  negative : Bool
  coefficient : Nat
  exponent : Int

/-- The double that is nearest to the decimal is 1.  On either side a tie goes to
    1, the even one of its neighbours. -/
def Decimal.isOne (d : Decimal) : Bool :=
  let scaled := d.coefficient * 2 ^ 54 * 10 ^ d.exponent.toNat
  let unit := 10 ^ (-d.exponent).toNat
  !d.negative && decide ((2 ^ 54 - 1) * unit ≤ scaled) && decide (scaled ≤ (2 ^ 54 + 2) * unit)

/-- An object keeps its properties in the order of the text. -/
inductive Json where
  | null
  | bool (b : Bool)
  | num (n : Decimal)
  | str (units : List Nat)
  | arr (items : List Json)
  | obj (entries : List (List Nat × Json))

/-! ## Tokens -/

def isSpace (c : Char) : Bool := c = ' ' || c = '\t' || c = '\n' || c = '\r'

def skip (s : List Char) : List Char := s.dropWhile isSpace

def hexDigit (c : Char) : Option Nat :=
  if '0' ≤ c ∧ c ≤ '9' then some (c.toNat - '0'.toNat)
  else if 'a' ≤ c ∧ c ≤ 'f' then some (c.toNat - 'a'.toNat + 10)
  else if 'A' ≤ c ∧ c ≤ 'F' then some (c.toNat - 'A'.toNat + 10)
  else none

def hexUnit (a b c d : Char) : Option Nat := do
  return (((← hexDigit a) * 16 + (← hexDigit b)) * 16 + (← hexDigit c)) * 16 + (← hexDigit d)

def escape : Char → Option Nat
  | '"' => some 0x22
  | '\\' => some 0x5C
  | '/' => some 0x2F
  | 'b' => some 8
  | 'f' => some 12
  | 'n' => some 10
  | 'r' => some 13
  | 't' => some 9
  | _ => none

/-- A string after its opening quote, and what follows it. -/
def string : List Char → Option (List Nat × List Char)
  | [] => none
  | '"' :: rest => some ([], rest)
  | '\\' :: 'u' :: a :: b :: c :: d :: rest => do
      let unit ← hexUnit a b c d
      let (units, rest) ← string rest
      return (unit :: units, rest)
  | '\\' :: c :: rest => do
      let unit ← escape c
      let (units, rest) ← string rest
      return (unit :: units, rest)
  | c :: rest =>
      if c.toNat < 0x20 ∨ c = '\\' then none
      else do
        let (units, rest) ← string rest
        return (JsString.units c ++ units, rest)

def isDigit (c : Char) : Bool := '0' ≤ c && c ≤ '9'

def digits (s : List Char) : Nat := s.foldl (fun n c => n * 10 + (c.toNat - '0'.toNat)) 0

/-- An integer part has no leading zero. -/
def integer (s : List Char) : Option (List Char × List Char) :=
  match s with
  | '0' :: rest => some (['0'], rest)
  | c :: _ => if isDigit c then some (s.span isDigit) else none
  | [] => none

def fraction (s : List Char) : Option (List Char × List Char) :=
  match s with
  | '.' :: rest =>
      let part := rest.span isDigit
      if part.1.isEmpty then none else some part
  | _ => some ([], s)

def exponent (s : List Char) : Option (Int × List Char) :=
  match s with
  | c :: rest =>
      if c = 'e' ∨ c = 'E' then
        let (negative, rest) : Bool × List Char := match rest with
          | '-' :: rest => (true, rest)
          | '+' :: rest => (false, rest)
          | rest => (false, rest)
        let part := rest.span isDigit
        if part.1.isEmpty then none
        else some (if negative then -(digits part.1 : Int) else (digits part.1 : Int), part.2)
      else some (0, s)
  | [] => some (0, s)

def number (s : List Char) : Option (Decimal × List Char) := do
  let (negative, s) : Bool × List Char := match s with
    | '-' :: rest => (true, rest)
    | rest => (false, rest)
  let (whole, s) ← integer s
  let (part, s) ← fraction s
  let (e, s) ← exponent s
  return (⟨negative, digits (whole ++ part), e - part.length⟩, s)

/-! ## Values -/

/-- A property that comes twice has its last value. -/
def define (entries : List (List Nat × Json)) (key : List Nat) (v : Json) : List (List Nat × Json) :=
  match entries with
  | [] => [(key, v)]
  | e :: rest => if e.1 = key then (key, v) :: rest else e :: define rest key v

mutual

/-- A value at the front of a text, and what follows it. -/
def value : Nat → List Char → Option (Json × List Char)
  | 0, _ => none
  | fuel + 1, s =>
      match s with
      | 'n' :: 'u' :: 'l' :: 'l' :: rest => some (.null, rest)
      | 't' :: 'r' :: 'u' :: 'e' :: rest => some (.bool true, rest)
      | 'f' :: 'a' :: 'l' :: 's' :: 'e' :: rest => some (.bool false, rest)
      | '"' :: rest => (string rest).map fun r => (.str r.1, r.2)
      | '[' :: rest =>
          match skip rest with
          | ']' :: rest => some (.arr [], rest)
          | rest => (items fuel rest).map fun r => (.arr r.1, r.2)
      | '{' :: rest =>
          match skip rest with
          | '}' :: rest => some (.obj [], rest)
          | rest => (members fuel [] rest).map fun r => (.obj r.1, r.2)
      | s => (number s).map fun r => (.num r.1, r.2)

/-- The items of an array, from one of them on. -/
def items : Nat → List Char → Option (List Json × List Char)
  | 0, _ => none
  | fuel + 1, s => do
      let (v, s) ← value fuel (skip s)
      match skip s with
      | ',' :: rest =>
          let (vs, s) ← items fuel rest
          return (v :: vs, s)
      | ']' :: rest => return ([v], rest)
      | _ => none

/-- The members of an object after those that were defined. -/
def members : Nat → List (List Nat × Json) → List Char →
    Option (List (List Nat × Json) × List Char)
  | 0, _, _ => none
  | fuel + 1, entries, s =>
      match skip s with
      | '"' :: rest => do
          let (key, s) ← string rest
          match skip s with
          | ':' :: rest =>
              let (v, s) ← value fuel (skip rest)
              let entries := define entries key v
              match skip s with
              | ',' :: rest => members fuel entries rest
              | '}' :: rest => return (entries, rest)
              | _ => none
          | _ => none
      | _ => none

end

/-- `JSON.parse`; a value needs no more than two steps for each character. -/
def parse (text : List Char) : Option Json := do
  let (v, rest) ← value (2 * text.length + 2) (skip text)
  if (skip rest).isEmpty then some v else none

/-- The value of an own property. -/
def lookup (entries : List (List Nat × Json)) (key : String) : Option Json :=
  (entries.find? fun e => e.1 = JsString.utf16 key).map Prod.snd

end JsonText
