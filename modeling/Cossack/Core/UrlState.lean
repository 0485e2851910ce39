import Cossack.Lib.Entries
import Cossack.Lib.FormText
import Cossack.Lib.JsString
import Mathlib.Data.List.Sort

/-! # Typed URL state

    The codecs of `url`, and the `read` and `url` of a definition.  Numbers are a
    parameter, with the operations the codecs use; so is the URL parser.  A text
    has no single surrogates: `scalar` refuses one that has. -/

namespace Cossack.Core.UrlState

abbrev Text := List Char

/-! ## Section 1: Scalars -/

/-- What the codecs do with numbers: `String`, `Number`, the tests and `===`.
    `Object.is` is equality. -/
structure JsNumber (N : Type) where
  zero : N
  /-- `-Number.MAX_VALUE` and `Number.MAX_VALUE`. -/
  lowest : N
  highest : N
  text : N → Text
  ofText : Text → N
  isFinite : N → Bool
  isSafeInteger : N → Bool
  le : N → N → Bool
  strictEqual : N → N → Bool

variable {N : Type} [DecidableEq N] {num : JsNumber N}

inductive UrlScalar (N : Type) where
  | string (text : Text)
  | number (value : N)
  | boolean (value : Bool)
  deriving DecidableEq

/-- `undefined` is the missing value. -/
inductive UrlValue (N : Type) where
  | one (value : UrlScalar N)
  | many (items : List (UrlScalar N))
  deriving DecidableEq

def maxQueryLength : Nat := 65536

def maxPairs : Nat := 1024

def maxFields : Nat := 128

def maxStringLength : Nat := 2048

def maxArrayItems : Nat := 100

/-- `length` counts UTF-16 units. -/
def jsLength (text : Text) : Nat := (text.flatMap JsString.units).length

def scalar (num : JsNumber N) : UrlScalar N → Bool
  | .string text => jsLength text ≤ maxStringLength
  | .number value => num.isFinite value
  | .boolean _ => true

/-- `===` -/
def strictEqual (num : JsNumber N) : UrlScalar N → UrlScalar N → Bool
  | .string a, .string b => a == b
  | .number a, .number b => num.strictEqual a b
  | .boolean a, .boolean b => a == b
  | _, _ => false

structure UrlStateError where
  code : String
  field : Option Text

def fail {α : Type} (code : String) (field : Option Text) : Except UrlStateError α :=
  .error ⟨"COSSACK_URL_STATE_" ++ code, field⟩

/-! ## Section 2: Codecs -/

/-- What a codec does with one scalar.  An error is a callback that failed. -/
structure ScalarCodec (num : JsNumber N) where
  parse : Text → Except Unit (Option (UrlScalar N))
  accepts : UrlScalar N → Bool
  encode : UrlScalar N → Except Unit Text
  parse_accepts : ∀ {raw v}, parse raw = .ok (some v) → (scalar num v && accepts v) = true

def ScalarCodec.valid (codec : ScalarCodec num) (value : UrlScalar N) : Bool :=
  scalar num value && codec.accepts value

inductive Kind (num : JsNumber N) where
  | scalar (codec : ScalarCodec num)
  | array (item : ScalarCodec num) (maxItems : Nat) (bound : maxItems ≤ maxArrayItems)

/-- The codec of one scalar, that of an item for an array. -/
def Kind.item : Kind num → ScalarCodec num
  | .scalar codec => codec
  | .array item _ _ => item

def Kind.accepts : Kind num → UrlValue N → Bool
  | .scalar codec, .one value => codec.valid value
  | .array item maxItems _, .many items => items.length ≤ maxItems && items.all item.valid
  | _, _ => false

/-- The default of a codec is accepted. -/
structure Codec (num : JsNumber N) where
  kind : Kind num
  defaultValue : Option (UrlValue N)
  accepted : ∀ v, defaultValue = some v → kind.accepts v = true

def Codec.accepts (codec : Codec num) : Option (UrlValue N) → Bool
  | none => codec.defaultValue.isNone
  | some value => codec.kind.accepts value

def register (kind : Kind num) (defaultValue : Option (UrlValue N)) : Except UrlStateError (Codec num) :=
  match defaultValue with
  | none => .ok ⟨kind, none, nofun⟩
  | some value =>
      if h : kind.accepts value = true then
        .ok ⟨kind, some value, fun _ heq => Option.some.inj heq ▸ h⟩
      else fail "DEFAULT_INVALID" none

/-- A codec that parses a text to a value it tests. -/
def testedCodec (decode : Text → Option (UrlScalar N)) (accepts : UrlScalar N → Bool)
    (encode : UrlScalar N → Except Unit Text) : ScalarCodec num where
  parse raw := .ok ((decode raw).filter fun v => scalar num v && accepts v)
  accepts := accepts
  encode := encode
  parse_accepts h := (Option.filter_eq_some_iff.mp (Except.ok.inj h)).2

/-- `String(value)` -/
def toText (num : JsNumber N) : UrlScalar N → Text
  | .string text => text
  | .number value => num.text value
  | .boolean true => "true".toList
  | .boolean false => "false".toList

structure StringOptions where
  default : Text
  minLength : Nat
  maxLength : Nat

def stringCodec (options : StringOptions) : ScalarCodec num :=
  testedCodec (fun raw => some (.string raw))
    (fun
      | .string text => options.minLength ≤ jsLength text && jsLength text ≤ options.maxLength
      | _ => false)
    (fun value => .ok (toText num value))

def urlString (options : StringOptions) : Except UrlStateError (Codec num) :=
  if options.maxLength < options.minLength ∨ maxStringLength < options.maxLength then fail "CONFIG_INVALID" none
  else register (.scalar (stringCodec options)) (some (.one (.string options.default)))

def isDigit (c : Char) : Bool := '0' ≤ c && c ≤ '9'

/-- Drops a sign. -/
def unsigned : Text → Text
  | '+' :: rest => rest
  | '-' :: rest => rest
  | text => text

/-- Nothing, or `e`, a sign and at least one digit. -/
def isExponent : Text → Bool
  | [] => true
  | c :: rest => (c == 'e' || c == 'E') && !(unsigned rest).isEmpty && (unsigned rest).all isDigit

/-- `/^[+-]?(?:\d+(?:\.\d*)?|\.\d+)(?:e[+-]?\d+)?$/i` -/
def isDecimal (text : Text) : Bool :=
  let body := unsigned text
  let whole := body.takeWhile isDigit
  match body.dropWhile isDigit with
  | '.' :: rest =>
      (!whole.isEmpty || !(rest.takeWhile isDigit).isEmpty) && isExponent (rest.dropWhile isDigit)
  | rest => !whole.isEmpty && isExponent rest

structure NumberOptions (N : Type) where
  default : N
  min : N
  max : N
  integer : Bool

/-- The options when none are given. -/
def NumberOptions.none (num : JsNumber N) : NumberOptions N := ⟨num.zero, num.lowest, num.highest, false⟩

def numberScalar (options : NumberOptions N) : ScalarCodec num :=
  testedCodec (fun raw => if isDecimal raw then some (.number (num.ofText raw)) else none)
    (fun
      | .number value => num.isFinite value && num.le options.min value && num.le value options.max &&
          (!options.integer || num.isSafeInteger value)
      | _ => false)
    (fun value => .ok (toText num value))

def numberCodec (options : NumberOptions N) : Except UrlStateError (Codec num) :=
  if !num.isFinite options.min || !num.isFinite options.max || !num.le options.min options.max then
    fail "CONFIG_INVALID" none
  else register (.scalar (numberScalar options)) (some (.one (.number options.default)))

def urlInteger (options : NumberOptions N) : Except UrlStateError (Codec num) :=
  numberCodec { options with integer := true }

def booleanCodec : ScalarCodec num :=
  testedCodec (fun raw =>
      if raw = "true".toList then some (.boolean true)
      else if raw = "false".toList then some (.boolean false)
      else none)
    (fun
      | .boolean _ => true
      | _ => false)
    (fun value => .ok (toText num value))

def urlBoolean (default : Bool) : Except UrlStateError (Codec num) :=
  register (.scalar booleanCodec) (some (.one (.boolean default)))

def enumCodec (values : List Text) : ScalarCodec num :=
  testedCodec (fun raw => some (.string raw))
    (fun
      | .string text => values.contains text
      | _ => false)
    (fun value => .ok (toText num value))

/-- `default` is `undefined` when the option is missing. -/
def urlEnum (values : List Text) (default : Option Text) : Except UrlStateError (Codec num) :=
  if maxArrayItems < values.length ∨ values.any (maxStringLength < jsLength ·) then fail "VALUE_INVALID" none
  else
    match values with
    | [] => fail "CONFIG_INVALID" none
    | first :: _ =>
        if values.Nodup then
          register (.scalar (enumCodec values)) (some (.one (.string (default.getD first))))
        else fail "CONFIG_INVALID" none

/-- What an application's callback returns. -/
inductive Returned (N : Type) where
  | undefined
  | value (value : UrlScalar N)
  | unsupported
  | threw

def sameType : UrlScalar N → UrlScalar N → Bool
  | .string _, .string _ => true
  | .number _, .number _ => true
  | .boolean _, .boolean _ => true
  | _, _ => false

def customCodec (default : UrlScalar N) (parse : Text → Returned N) (serialize : UrlScalar N → Returned N) :
    ScalarCodec num where
  parse raw :=
    match parse raw with
    | .undefined => .ok none
    | .value v => if (scalar num v && (scalar num v && sameType default v)) = true then .ok (some v) else .error ()
    | .unsupported => .error ()
    | .threw => .error ()
  accepts v := scalar num v && sameType default v
  encode v :=
    match serialize v with
    | .value (.string text) => if scalar num (.string text : UrlScalar N) then .ok text else .error ()
    | _ => .error ()
  parse_accepts {raw v} h := by
    split at h
    · cases h
    · split at h
      · rename_i hvalid
        obtain rfl := Option.some.inj (Except.ok.inj h)
        exact hvalid
      · cases h
    · cases h
    · cases h

def urlCustom (default : UrlScalar N) (parse : Text → Returned N) (serialize : UrlScalar N → Returned N) :
    Except UrlStateError (Codec num) :=
  if scalar num default then register (.scalar (customCodec default parse serialize)) (some (.one default))
  else fail "CONFIG_INVALID" none

/-- `maxItems` and `default` as the options give them. -/
def urlArray (item : Codec num) (maxItems : Option Nat) (default : Option (List (UrlScalar N))) :
    Except UrlStateError (Codec num) :=
  match item.kind, item.defaultValue with
  | .scalar codec, some _ =>
      if h : maxItems.getD maxArrayItems ≤ maxArrayItems then
        register (.array codec (maxItems.getD maxArrayItems) h) (some (.many (default.getD [])))
      else fail "CONFIG_INVALID" none
  | _, _ => fail "CONFIG_INVALID" none

def urlOptional (codec : Codec num) : Except UrlStateError (Codec num) := register codec.kind none

/-! ## Section 3: Queries -/

/-- The parts of a parsed URL that are used; `special` is whether its scheme is
    one of those that have a host, as `https` is. -/
structure Target where
  special : Bool
  pathname : Text
  search : Text
  hash : Text
  deriving DecidableEq

/-- `new URL(value, 'https://cossack.invalid')`, none where it throws. -/
abbrev UrlParser := Text → Option Target

def asUrl (parseUrl : UrlParser) (value : Text) : Except UrlStateError Target :=
  match parseUrl value with
  | some target => .ok target
  | none => fail "URL_INVALID" none

/-- `raw` is missing for a pair that is written. -/
structure Pair where
  key : Text
  value : Option Text
  invalid : Bool
  raw : Option Text

def parsePair (part : Text) : Pair :=
  match FormText.decode (FormText.cut part).1 with
  | none => ⟨[], none, true, some part⟩
  | some key =>
      match (FormText.cut part).2 with
      | none => ⟨key, none, false, some part⟩
      | some value =>
          match FormText.decode value with
          | none => ⟨key, none, true, some part⟩
          | some value => ⟨key, some value, false, some part⟩

def pairs (search : Text) : Except UrlStateError (List Pair) :=
  if maxQueryLength + 1 < jsLength search then fail "LIMIT" none
  else
    let parts := FormText.parts '&' (search.drop 1)
    if maxPairs < parts.length then fail "LIMIT" none
    else .ok (parts.map parsePair)

def Pair.text (pair : Pair) : Text :=
  match pair.raw with
  | some raw => raw
  | none =>
      match pair.value with
      | none => FormText.encode pair.key
      | some value => FormText.encode pair.key ++ '=' :: FormText.encode value

/-! ## Section 4: Reading -/

inductive UrlStateIssueCode where
  | invalidEncoding
  | repeatedScalar
  | invalidValue

/-- The field's value, its default with an issue. -/
abbrev FieldRead (N : Type) := Option (UrlValue N) × Option UrlStateIssueCode

/-- A decoded value is used if the codec accepts it. -/
def Codec.take (codec : Codec num) (decoded : UrlValue N) : FieldRead N :=
  if codec.kind.accepts decoded then (some decoded, none) else (codec.defaultValue, some .invalidValue)

/-- The key alone, without an equals sign. -/
def isBare : List Pair → Bool
  | [entry] => entry.value.isNone
  | _ => false

def parseItem (item : ScalarCodec num) (entry : Pair) : Except Unit (Option (UrlScalar N)) :=
  match entry.value with
  | none => .ok none
  | some raw => item.parse raw

def readField (codec : Codec num) (entries : List Pair) : Except Unit (FieldRead N) :=
  if entries.any Pair.invalid then .ok (codec.defaultValue, some .invalidEncoding)
  else
    match codec.kind, entries with
    | _, [] => .ok (codec.defaultValue, none)
    | .scalar scalarCodec, [entry] => do
        match ← scalarCodec.parse (entry.value.getD []) with
        | some decoded => pure (codec.take (.one decoded))
        | none => pure (codec.defaultValue, some .invalidValue)
    | .scalar _, _ => .ok (codec.defaultValue, some .repeatedScalar)
    | .array item maxItems _, entries =>
        if isBare entries then .ok (codec.take (.many []))
        else if maxItems < entries.length then .ok (codec.defaultValue, some .invalidValue)
        else do
          let decoded ← entries.mapM (parseItem item)
          match decoded.mapM id with
          | some items => pure (codec.take (.many items))
          | none => pure (codec.defaultValue, some .invalidValue)

structure UrlStateRead (N : Type) where
  values : List (Text × Option (UrlValue N))
  issues : List (Text × UrlStateIssueCode)

/-- The fields in order; a callback that fails ends the reading. -/
def readFields (all : List Pair) : List (Text × Codec num) → Except UrlStateError (UrlStateRead N)
  | [] => .ok ⟨[], []⟩
  | (key, codec) :: fields =>
      match readField codec (all.filter (·.key = key)) with
      | .error () => fail "CODEC_FAILED" (some key)
      | .ok (value, issue) => do
          let rest ← readFields all fields
          pure ⟨(key, value) :: rest.values, (issue.map (key, ·)).toList ++ rest.issues⟩

/-- The own properties of a declaration. -/
structure Shape (num : JsNumber N) where
  entries : List (Text × Codec num)
  nodup : (entries.map Prod.fst).Nodup

/-- A definition: every field has a key of its own, and none is empty. -/
structure UrlState (num : JsNumber N) where
  fields : List (Text × Codec num)
  nodup : (fields.map Prod.fst).Nodup
  nonempty : ∀ field ∈ fields, field.1 ≠ []

/-- The order of `Object.keys(…).sort()`. -/
def keyLE (a b : Text × Codec num) : Bool := decide (a.1.flatMap JsString.units ≤ b.1.flatMap JsString.units)

def maxKeyLength : Nat := 128

def defineUrlState (shape : Shape num) : Except UrlStateError (UrlState num) :=
  if h : shape.entries = [] ∨ maxFields < shape.entries.length ∨
      ∃ field ∈ shape.entries, field.1 = [] ∨ maxKeyLength < jsLength field.1 then
    fail "DECLARATION_INVALID" none
  else
    .ok {
      fields := shape.entries.mergeSort keyLE
      nodup := ((List.mergeSort_perm shape.entries keyLE).map Prod.fst).nodup_iff.mpr shape.nodup
      nonempty := fun field hfield hkey =>
        h (.inr (.inr ⟨field, (List.mergeSort_perm shape.entries keyLE).mem_iff.mp hfield, .inl hkey⟩)) }

def UrlState.readTarget (state : UrlState num) (target : Target) : Except UrlStateError (UrlStateRead N) := do
  let all ← pairs target.search
  readFields all state.fields

def UrlState.read (state : UrlState num) (parseUrl : UrlParser) (value : Text) :
    Except UrlStateError (UrlStateRead N) := do
  let target ← asUrl parseUrl value
  state.readTarget target

/-! ## Section 5: Writing -/

inductive Defaults where
  | omit
  | include
  deriving DecidableEq

/-- The data properties of a patch; a missing value is `undefined`. -/
abbrev Patch (N : Type) := List (Text × Option (UrlValue N))

def encodeItem (codec : ScalarCodec num) (key : Text) (item : UrlScalar N) : Except UrlStateError Pair :=
  match codec.encode item with
  | .error () => fail "CODEC_FAILED" (some key)
  | .ok encoded =>
      if scalar num (.string encoded : UrlScalar N) then
        match codec.parse encoded with
        | .ok (some decoded) =>
            if strictEqual num decoded item then .ok ⟨key, some encoded, false, none⟩
            else fail "CODEC_FAILED" (some key)
        | _ => fail "CODEC_FAILED" (some key)
      else fail "CODEC_FAILED" (some key)

/-- The value a field gets: the patch, the default for `undefined`, or what it was. -/
def Codec.next (codec : Codec num) (previous : UrlStateRead N) (patch : Patch N) (key : Text) :
    Option (UrlValue N) :=
  match Entries.get patch key with
  | some none => codec.defaultValue
  | some (some value) => some value
  | none => (Entries.get previous.values key).join

def encodeItems (codec : ScalarCodec num) (key : Text) (items : List (UrlScalar N)) :
    Except UrlStateError (List Pair) :=
  items.mapM (encodeItem codec key)

def writeField (codec : Codec num) (key : Text) (value : Option (UrlValue N)) (defaults : Defaults) :
    Except UrlStateError (List Pair) :=
  if codec.accepts value then
    match value with
    | none => .ok []
    | some v =>
        if defaults ≠ .include ∧ value = codec.defaultValue then .ok []
        else
          match v with
          | .one item => encodeItems codec.kind.item key [item]
          | .many [] => .ok [⟨key, none, false, none⟩]
          | .many items => encodeItems codec.kind.item key items
  else fail "VALUE_INVALID" (some key)

def writeFields (previous : UrlStateRead N) (patch : Patch N) (defaults : Defaults) :
    List (Text × Codec num) → Except UrlStateError (List Pair)
  | [] => .ok []
  | (key, codec) :: fields => do
      let written ← writeField codec key (codec.next previous patch key) defaults
      let rest ← writeFields previous patch defaults fields
      pure (written ++ rest)

/-- The pairs whose keys the definition does not have. -/
def UrlState.unknown (state : UrlState num) (all : List Pair) : List Pair :=
  all.filter fun pair => pair.key ∉ state.fields.map Prod.fst

def withQuery (query : Text) : Text := if query.isEmpty then [] else '?' :: query

def joinPairs (result : List Pair) : Text := ['&'].intercalate (result.map Pair.text)

def UrlState.url (state : UrlState num) (parseUrl : UrlParser) (current : Text) (patch : Patch N)
    (defaults : Defaults) : Except UrlStateError Text := do
  let target ← asUrl parseUrl current
  let previous ← state.readTarget target
  match patch.find? (fun entry => entry.1 ∉ state.fields.map Prod.fst) with
  | some entry => fail "FIELD_UNKNOWN" (some entry.1)
  | none => do
      let all ← pairs target.search
      let written ← writeFields previous patch defaults state.fields
      let result := state.unknown all ++ written
      let query := joinPairs result
      if maxQueryLength < jsLength query ∨ maxPairs < result.length then fail "LIMIT" none
      else pure (target.pathname ++ withQuery query ++ target.hash)

end Cossack.Core.UrlState
