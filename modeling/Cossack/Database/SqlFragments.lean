import Cossack.Database.Predicates

/-! # The SQL tag and `compileSQL`

    Fragments are those of the query builder; a bound value is a database value
    or `undefined`.  The numbers of JavaScript are a parameter, since nothing here
    looks into them. -/

namespace Cossack.Database.Sql

open Query (SQLNode SQLFragment)

variable {N : Type}

/-! ## Section 1: Values and dialects -/

/-- A date holds its time value, none for an invalid date.  An array is bound as
    one value where `sql.join` is given one. -/
inductive DatabaseValue (N : Type) where
  | null
  | string (value : String)
  | number (value : N)
  | bigint (value : Int)
  | boolean (value : Bool)
  | date (time : Option Int)
  | bytes (value : List UInt8)
  | array (values : List (DatabaseValue N))

/-- `none` is `undefined`. -/
abbrev SQLPrimitive (N : Type) := Option (DatabaseValue N)

inductive DialectName where
  | sqlite
  | postgres
  | mysql
  deriving DecidableEq

structure Dialect where
  name : DialectName
  placeholder : Nat → String
  quoteIdentifier : String → String

def doubleQuote (value : String) : String := "\"" ++ value.replace "\"" "\"\"" ++ "\""

def sqliteDialect : Dialect := ⟨.sqlite, fun _ => "?", doubleQuote⟩

def postgresDialect : Dialect := ⟨.postgres, fun index => "$" ++ toString index, doubleQuote⟩

/-! ## Section 2: Dates -/

/-- Year, month and day of a day counted from 1970-01-01. -/
def civil (day : Int) : Int × Nat × Nat :=
  let shifted := day + 719468
  let era := shifted / 146097
  let dayOfEra := (shifted % 146097).toNat
  let yearOfEra := (dayOfEra - dayOfEra / 1460 + dayOfEra / 36524 - dayOfEra / 146096) / 365
  let dayOfYear := dayOfEra - (365 * yearOfEra + yearOfEra / 4 - yearOfEra / 100)
  -- months are counted from March, so that a leap day is the last of its year
  let month := (5 * dayOfYear + 2) / 153
  let year := yearOfEra + era * 400
  if month < 10 then (year, month + 3, dayOfYear - (153 * month + 2) / 5 + 1)
  else (year + 1, month - 9, dayOfYear - (153 * month + 2) / 5 + 1)

def padStart (width n : Nat) : String :=
  let digits := toString n
  String.ofList (List.replicate (width - digits.length) '0') ++ digits

def isoYear (year : Int) : String :=
  if 0 ≤ year ∧ year ≤ 9999 then padStart 4 year.toNat
  else (if year < 0 then "-" else "+") ++ padStart 6 year.natAbs

def toISOString : Option Int → Except String String
  | none => throw "Invalid time value"
  | some time =>
      let (year, month, day) := civil (time / 86400000)
      let rest := (time % 86400000).toNat
      pure (isoYear year ++ "-" ++ padStart 2 month ++ "-" ++ padStart 2 day ++ "T" ++
        padStart 2 (rest / 3600000) ++ ":" ++ padStart 2 (rest / 60000 % 60) ++ ":" ++
        padStart 2 (rest / 1000 % 60) ++ "." ++ padStart 3 (rest % 1000) ++ "Z")

def slice (value : String) (first last : Nat) : String :=
  String.ofList ((value.toList.take last).drop first)

def encodeDateTime (time : Option Int) (dialect : DialectName) : Except String String := do
  let iso ← toISOString time
  pure (if dialect = .postgres then iso else slice iso 0 10 ++ " " ++ slice iso 11 23)

/-! ## Section 3: Compiling a fragment -/

structure CompiledQuery (N : Type) where
  text : String
  parameters : List (DatabaseValue N)

/-- The parameter a bound value becomes. -/
def bindValue (d : Dialect) : SQLPrimitive N → Except String (DatabaseValue N)
  | none => pure .null
  | some (.date time) => do
      let encoded ← encodeDateTime time d.name
      pure (.string encoded)
  | some value => pure value

mutual

def visitNode (d : Dialect) (q : CompiledQuery N) : SQLNode (SQLPrimitive N) → Except String (CompiledQuery N)
  | .text value => pure { q with text := q.text ++ value }
  | .unsafeText value => pure { q with text := q.text ++ value }
  | .identifier path => pure { q with text := q.text ++ ".".intercalate (path.map d.quoteIdentifier) }
  | .fragment nodes => visit d q nodes
  | .value value => do
      let parameter ← bindValue d value
      let parameters := q.parameters ++ [parameter]
      pure ⟨q.text ++ d.placeholder parameters.length, parameters⟩

def visit (d : Dialect) (q : CompiledQuery N) :
    List (SQLNode (SQLPrimitive N)) → Except String (CompiledQuery N)
  | [] => pure q
  | node :: nodes => do
      let q ← visitNode d q node
      visit d q nodes

end

def compileSQL (fragment : SQLFragment (SQLPrimitive N)) (d : Dialect) : Except String (CompiledQuery N) :=
  visit d ⟨"", []⟩ fragment

/-! ## Section 4: The tag -/

/-- What stands in a hole of a template; `F` are the fragments. -/
inductive SQLInterpolation (N F : Type) where
  | value (value : SQLPrimitive N)
  | fragment (value : F)
  | array (values : List (DatabaseValue N))

abbrev Fragment (N : Type) := SQLFragment (SQLPrimitive N)

/-- The parts with `, ` between them. -/
def commaSeparated (parts : List (Fragment N)) : Fragment N := [.text ", "].intercalate parts

def textNode (text : String) : Fragment N := if text.isEmpty then [] else [.text text]

def SQLInterpolation.nodes : SQLInterpolation N (Fragment N) → Except String (Fragment N)
  | .fragment nested => pure [.fragment nested]
  | .array [] => throw ("Cannot interpolate an empty array into SQL: it would compile to an invalid list such as IN (). " ++
      "Check for an empty list before building the query.")
  | .array items => pure (commaSeparated (items.map fun item => [.value (some item)]))
  | .value bound => pure [.value bound]

def nodesFor : List String → List (SQLInterpolation N (Fragment N)) → Except String (Fragment N)
  | [], _ => pure []
  | text :: strings, [] => do
      let rest ← nodesFor strings []
      pure (textNode text ++ rest)
  | text :: strings, value :: values => do
      let nodes ← value.nodes
      let rest ← nodesFor strings values
      pure (textNode text ++ nodes ++ rest)

/-- `sql.id` -/
def tagId (path : List String) : Except String (Fragment N) := Query.sqlId path

/-- One value of `sql.join`. -/
def SQLInterpolation.joined : SQLInterpolation N (Fragment N) → Fragment N
  | .fragment nested => [.fragment nested]
  | .value bound => [.value bound]
  | .array items => [.value (some (.array items))]

/-- `sql.join` -/
def tagJoin (values : List (SQLInterpolation N (Fragment N))) (separator : Fragment N) :
    Except String (Fragment N) :=
  match values with
  | [] => throw ("sql.join() received an empty list; it would compile to an invalid list such as IN (). " ++
      "Check for an empty list before building the query.")
  | values => pure ([.fragment separator].intercalate (values.map SQLInterpolation.joined))

/-- A record as the list of its own properties. -/
abbrev Row (N : Type) := List (String × SQLPrimitive N)

def rowKey (row : Row N) : String := "\x00".intercalate (row.map Prod.fst)

/-- `row[column]`, `undefined` when the record has no such property. -/
def rowValue (row : Row N) (column : String) : SQLPrimitive N := (row.lookup column).join

/-- `sql.values` -/
def tagValues (rows : List (Row N)) : Except String (Fragment N) :=
  match rows with
  | [] => throw "sql.values() requires at least one row."
  | first :: _ =>
      let columns := first.map Prod.fst
      if columns.isEmpty then throw "sql.values() requires at least one column."
      else if rows.any (fun row => rowKey row != rowKey first) then
        throw "Every sql.values() row must have identical columns in identical order."
      else
        pure ([.text "("] ++ commaSeparated (columns.map fun column => [.identifier [column]]) ++
          [.text ") VALUES "] ++
          commaSeparated (rows.map fun row =>
            [.text "("] ++ commaSeparated (columns.map fun column => [.value (rowValue row column)]) ++
              [.text ")"]))

/-! ## Section 5: Fragments built with the tag -/

/-- The calls that build a fragment, with the fragments in them built the same
    way.  `sql` itself and `sql.fragment` make the same nodes. -/
inductive Build (N : Type) where
  | tag (strings : List String) (values : List (SQLInterpolation N (Build N)))
  | id (path : List String)
  | join (values : List (SQLInterpolation N (Build N))) (separator : Option (Build N))
  | values (rows : List (Row N))
  | unsafeText (text : String)
  | append (fragment appended : Build N)

mutual

def Build.run : Build N → Except String (Fragment N)
  | .tag strings values => do
      let values ← runValues values
      nodesFor strings values
  | .id path => tagId path
  | .join values separator => do
      let values ← runValues values
      let separator ← runSeparator separator
      tagJoin values separator
  | .values rows => tagValues rows
  | .unsafeText text => pure [.unsafeText text]
  | .append fragment appended => do
      let nodes ← fragment.run
      let last ← appended.run
      pure (nodes ++ [.fragment last])

def runValues : List (SQLInterpolation N (Build N)) → Except String (List (SQLInterpolation N (Fragment N)))
  | [] => pure []
  | .value bound :: rest => do
      let rest ← runValues rest
      pure (.value bound :: rest)
  | .array items :: rest => do
      let rest ← runValues rest
      pure (.array items :: rest)
  | .fragment built :: rest => do
      let fragment ← built.run
      let rest ← runValues rest
      pure (.fragment fragment :: rest)

def runSeparator : Option (Build N) → Except String (Fragment N)
  | none => pure [.text ", "]
  | some built => built.run

end

end Cossack.Database.Sql
