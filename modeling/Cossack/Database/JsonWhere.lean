import Cossack.Lib.JsString
import Cossack.Lib.JsonTree
import Cossack.Database.PredicateMeaning
import Cossack.Database.SchemaDiff
import Mathlib

/-! # Predicates out of JSON

    `compileWhere` on a value that `JSON.parse` returned, with the encoder of the
    ORM.  Such a value has no fragments, dates or bigints in it, and `undefined`
    only where a find operator misses its `value`. -/

namespace Cossack.Database.JsonWhere

open Query Schema SqlExpressions

/-! ## Section 1: Values -/

abbrev Json (N : Type) := JsonTree N Empty

variable {N : Type}

/-- What the language makes of values. -/
structure Builtins (N : Type) where
  zero : N
  one : N
  isZero : N → Bool
  stringify : Json N → String
  /-- `String(value)` -/
  string : Json N → String
  /-- The string of one code unit. -/
  unit : Nat → String

structure Column where
  propertyName : String
  columnName : String
  logicalType : LogicalType
  enumValues : Option (List String)

structure Entity (N : Type) where
  modelName : String
  columnByProperty : String → Option Column
  /-- The `alias` of the table. -/
  aliasName : Option String
  dialect : Dialect
  builtins : Builtins N

def Builtins.truthy (t : Builtins N) : Json N → Bool
  | .null => false
  | .bool b => b
  | .num n => !t.isZero n
  | .str s => !s.isEmpty
  | _ => true

/-- `encodeValue` on JSON. -/
def encodeValue (t : Builtins N) (dialect : Dialect) (column : Column) (value : Json N) :
    Except String (Json N) :=
  match value, column.logicalType with
  | .null, _ => pure .null
  | value, .boolean =>
      if dialect = .sqlite then pure (.num (if t.truthy value then t.one else t.zero))
      else pure (.bool (t.truthy value))
  | .str s, .json => pure (.str s)
  | value, .json => pure (.str (t.stringify value))
  | .num n, .decimal => pure (.str (t.string (.num n)))
  | value, .enum =>
      if column.enumValues.any fun allowed => !allowed.contains (t.string value) then
        throw (column.propertyName ++ " must be one of: " ++
          ", ".intercalate (column.enumValues.getD []) ++ ".")
      else pure (.str (t.string value))
  | value, _ => pure value

/-! ## Section 2: Comparisons -/

namespace Entity

variable (e : Entity N)

def lookup (property : String) : Except String Column :=
  match e.columnByProperty property with
  | none => throw ("Unknown property " ++ e.modelName ++ "." ++ property ++ ".")
  | some column => pure column

/-- An empty alias is none. -/
def columnPath (column : Column) : List String :=
  match e.aliasName with
  | some name => if name.isEmpty then [column.columnName] else [name, column.columnName]
  | none => [column.columnName]

def column (property : String) : Except String (SQLFragment (Json N)) := do
  let column ← e.lookup property
  sqlId (e.columnPath column)

def assertDefined (property : String) (value : Option (Json N)) : Except String (Json N) :=
  match value with
  | some value => pure value
  | none => throw (e.modelName ++ "." ++ property ++ " is undefined in a where clause. " ++
      "Use null (or IsNull()) to match NULL, or omit the property to not filter on it.")

/-- A value between the texts of `sql.fragment`: an array becomes a list. -/
def interpolate : Json N → Except String (SQLFragment (Json N))
  | .arr [] => throw ("Cannot interpolate an empty array into SQL: it would compile to an invalid " ++
      "list such as IN (). Check for an empty list before building the query.")
  | .arr (item :: rest) => pure (.value item :: rest.flatMap fun next => [.text ", ", .value next])
  | value => pure [.value value]

def compare (property operator : String) (value : Option (Json N)) :
    Except String (SQLFragment (Json N)) := do
  let value ← e.assertDefined property value
  let column ← e.lookup property
  let encoded ← encodeValue e.builtins e.dialect column value
  let id ← e.column property
  let nodes ← interpolate encoded
  pure ([.fragment id, .text " ", .fragment [.unsafeText operator], .text " "] ++ nodes)

/-- `in`; only arrays have the methods it calls. -/
def isIn (property : String) (values : Option (Json N)) : Except String (SQLFragment (Json N)) := do
  let values ← e.assertDefined property values
  match values with
  | .arr [] => pure [.text "1 = 0"]
  | .arr values =>
      let column ← e.lookup property
      let encoded ← values.mapM (encodeValue e.builtins e.dialect column)
      let id ← e.column property
      let list ← sqlJoin encoded
      pure [.fragment id, .text " IN (", .fragment list, .text ")"]
  | .null => throw "Cannot read properties of null (reading 'some')"
  | _ => throw "values.some is not a function"

def isNull (property : String) : Except String (SQLFragment (Json N)) := do
  let id ← e.column property
  pure [.fragment id, .text " IS NULL"]

/-! ## Section 3: `compileWhere` -/

/-- `none` is `undefined`, the result for a text that names no operator. -/
def operatorFragment (property : String) (operator value : Option (Json N)) :
    Except String (Option (SQLFragment (Json N))) :=
  match operator with
  | some (.str "eq") => (e.compare property "=" value).map some
  | some (.str "ne") => (e.compare property "<>" value).map some
  | some (.str "gt") => (e.compare property ">" value).map some
  | some (.str "gte") => (e.compare property ">=" value).map some
  | some (.str "lt") => (e.compare property "<" value).map some
  | some (.str "lte") => (e.compare property "<=" value).map some
  | some (.str "like") =>
      (e.compare property "LIKE" (value.map fun v => .str (e.builtins.string v))).map some
  | some (.str "in") => (e.isIn property value).map some
  | some (.str "not-in") => (e.isIn property value).map fun list => some (notFragment list)
  | some (.str "is-null") => (e.isNull property).map some
  | _ => pure none

/-- `Object.entries`; a text has its code units, other scalars have nothing. -/
def objectEntries : Json N → Except String (List (String × Json N))
  | .obj entries => pure entries
  | .arr items => pure (items.zipIdx.map fun item => (toString item.2, item.1))
  | .str s =>
      pure ((JsString.utf16 s).zipIdx.map fun u => (toString u.2, .str (e.builtins.unit u.1)))
  | .null => throw "Cannot convert undefined or null to object"
  | _ => pure []

def entryFragment : String × Json N → Except String (Option (SQLFragment (Json N)))
  | (property, .obj entries) =>
      if JsonTree.hasKey entries "operator" then
        e.operatorFragment property (JsonTree.lookup entries "operator") (JsonTree.lookup entries "value")
      else (e.compare property "=" (some (.obj entries))).map some
  | (property, .null) => (e.isNull property).map some
  | (property, value) => (e.compare property "=" (some value)).map some

/-- A fragment with an undefined part is one that `compileSQL` cannot visit. -/
def joinParts (parts : List (Option (SQLFragment (Json N)))) (operator : Junction) :
    Option (SQLFragment (Json N)) :=
  (parts.mapM id).map fun parts => joinBoolean parts operator

mutual

def compileWhere : Json N → Except String (Option (SQLFragment (Json N)))
  | .arr items => do
      -- OR of no alternatives matches nothing
      if items.isEmpty then pure (some [.text "1 = 0"])
      else
        let parts ← compileItems items
        pure (joinParts parts .or)
  | where_ => do
      let entries ← e.objectEntries where_
      let parts ← entries.mapM e.entryFragment
      pure (if parts.isEmpty then some [.text "1 = 1"] else joinParts parts .and)

def compileItems : List (Json N) → Except String (List (Option (SQLFragment (Json N))))
  | [] => pure []
  | item :: rest => do
      let part ← compileWhere item
      let parts ← compileItems rest
      pure (part :: parts)

end

/-- `compileSQL` of what `compileWhere` returns. -/
def compiled (where_ : Json N) : Except String (List (Symbol (Json N))) := do
  match ← e.compileWhere where_ with
  | some fragment => pure (symbols fragment)
  | none => throw "Cannot read properties of undefined (reading 'nodes')"

end Entity

/-! ## Section 4: What a text may be made of -/

/-- The texts that the builder writes itself. -/
def fixedTexts : List String :=
  [" ", "=", "<>", ">", ">=", "<", "<=", "LIKE", " IN (", ", ", ")", " IS NULL", "(", "NOT (",
    " AND ", " OR ", "1 = 0", "1 = 1"]

/-- Fixed texts, columns of the entity and bound values. -/
inductive Built (e : Entity N) : List (Symbol (Json N)) → Prop
  | nil : Built e []
  | fixed {s : String} {rest : List (Symbol (Json N))} :
      s ∈ fixedTexts → Built e rest → Built e (text s ++ rest)
  | column {property : String} {column : Column} {rest : List (Symbol (Json N))} :
      e.columnByProperty property = some column → Built e rest →
      Built e (.identifier (e.columnPath column) :: rest)
  | value {v : Json N} {rest : List (Symbol (Json N))} : Built e rest → Built e (.value v :: rest)

/-- The text of a property with its value. -/
inductive EntryText (e : Entity N) : String × Json N → List (Symbol (Json N)) → Prop
  | isNull {property : String} {column : Column} : e.columnByProperty property = some column →
      EntryText e (property, .null) (isNullText (e.columnPath column))
  | equal {property : String} {value encoded : Json N} {column : Column} :
      e.columnByProperty property = some column → value ≠ .null →
      encodeValue e.builtins e.dialect column value = .ok encoded →
      EntryText e (property, value) (compareText (e.columnPath column) .eq encoded)
  /-- An object with the key of a find operator is one. -/
  | operator {property : String} {entries : List (String × Json N)}
      {fragment : SQLFragment (Json N)} : JsonTree.hasKey entries "operator" = true →
      e.operatorFragment property (JsonTree.lookup entries "operator")
        (JsonTree.lookup entries "value") = .ok (some fragment) →
      EntryText e (property, .obj entries) (symbols fragment)

/-- The text of a whole condition; `texts` are those of its parts. -/
inductive WhereText (e : Entity N) : Json N → List (Symbol (Json N)) → Prop
  | never : WhereText e (.arr []) (text "1 = 0")
  | alternatives {items : List (Json N)} {texts : List (List (Symbol (Json N)))} : items ≠ [] →
      List.Forall₂ (WhereText e) items texts → WhereText e (.arr items) (Junction.or.joinedText texts)
  | always {where_ : Json N} : e.objectEntries where_ = .ok [] → WhereText e where_ (text "1 = 1")
  | properties {where_ : Json N} {entries : List (String × Json N)}
      {texts : List (List (Symbol (Json N)))} : e.objectEntries where_ = .ok entries → entries ≠ [] →
      List.Forall₂ (EntryText e) entries texts → WhereText e where_ (Junction.and.joinedText texts)

/-- A property of the condition or of one of its alternatives. -/
inductive HasProperty (e : Entity N) : Json N → String × Json N → Prop
  | own {where_ : Json N} {entries : List (String × Json N)} {p : String × Json N} :
      (∀ items, where_ ≠ .arr items) → e.objectEntries where_ = .ok entries → p ∈ entries →
      HasProperty e where_ p
  | item {items : List (Json N)} {item : Json N} {p : String × Json N} :
      item ∈ items → HasProperty e item p → HasProperty e (.arr items) p

/-- An array that the encoder of its column leaves one: the tag writes it as a list. -/
def Splices (e : Entity N) (p : String × Json N) : Prop :=
  ∃ column items, e.columnByProperty p.1 = some column ∧
    encodeValue e.builtins e.dialect column p.2 = .ok (.arr items)

/-! ## Section 5: Single properties -/

section
variable {e : Entity N}

theorem Built.append {a b : List (Symbol (Json N))} (ha : Built e a) (hb : Built e b) :
    Built e (a ++ b) := by
  induction ha with
  | nil => exact hb
  | fixed hs _ ih => rw [List.append_assoc]; exact .fixed hs ih
  | column hc _ ih => exact .column hc ih
  | value _ ih => exact .value ih

theorem Built.text {s : String} (h : s ∈ fixedTexts) : Built e (SqlExpressions.text s) := by
  simpa using Built.fixed h Built.nil

theorem lookup_ok {property : String} {column : Column} (h : e.lookup property = .ok column) :
    e.columnByProperty property = some column := by
  unfold Entity.lookup at h
  cases hc : e.columnByProperty property with
  | none =>
      rw [hc] at h
      cases h
  | some c =>
      rw [hc] at h
      obtain rfl := Outcome.pure_eq_ok.mp h
      rfl

theorem column_ok {property : String} {id : SQLFragment (Json N)} (h : e.column property = .ok id) :
    ∃ column, e.columnByProperty property = some column ∧
      id = [.identifier (e.columnPath column)] := by
  obtain ⟨column, hc, h⟩ := Outcome.bind_eq_ok.mp h
  refine ⟨column, lookup_ok hc, ?_⟩
  unfold sqlId at h
  split at h
  · cases h
  · exact (Outcome.pure_eq_ok.mp h).symm

theorem assertDefined_ok {property : String} {value : Option (Json N)} {v : Json N}
    (h : e.assertDefined property value = .ok v) : value = some v := by
  cases value with
  | none => cases h
  | some v' => exact congrArg some (Outcome.pure_eq_ok.mp h)

theorem built_list (rest : List (Json N)) : Built e (symbols
    (rest.flatMap fun next => [SQLNode.text ", ", SQLNode.value next])) := by
  induction rest with
  | nil => simpa using Built.nil
  | cons next rest ih =>
    have hnext : Built e (text ", " ++ .value next :: symbols
        (rest.flatMap fun next => [SQLNode.text ", ", SQLNode.value next])) :=
      .fixed (by decide) (.value ih)
    simpa [SQLNode.symbols] using hnext

/-- A value between the texts is one placeholder, or a list of them. -/
theorem interpolate_ok {value : Json N} {nodes : SQLFragment (Json N)}
    (h : Entity.interpolate value = .ok nodes) :
    Built e (symbols nodes) ∧ ((∀ items, value ≠ .arr items) → nodes = [.value value]) := by
  cases value with
  | arr items =>
    refine ⟨?_, fun hno => absurd rfl (hno items)⟩
    cases items with
    | nil => cases h
    | cons item rest =>
      obtain rfl := Outcome.pure_eq_ok.mp h
      have hlist : Built e (.value item :: symbols
          (rest.flatMap fun next => [SQLNode.text ", ", SQLNode.value next])) :=
        .value (built_list rest)
      simpa [SQLNode.symbols] using hlist
  | _ =>
    obtain rfl := Outcome.pure_eq_ok.mp h
    exact ⟨by simpa [SQLNode.symbols] using Built.value Built.nil, fun _ => rfl⟩

/-- The comparisons and LIKE. -/
theorem compare_ok {property operator : String} {value : Option (Json N)}
    {fragment : SQLFragment (Json N)} (h : e.compare property operator value = .ok fragment) :
    ∃ v column encoded nodes, value = some v ∧ e.columnByProperty property = some column ∧
      encodeValue e.builtins e.dialect column v = .ok encoded ∧
      Entity.interpolate encoded = .ok nodes ∧ symbols fragment =
        .identifier (e.columnPath column) :: (text " " ++ (text operator ++ (text " " ++ symbols nodes))) := by
  obtain ⟨v, hv, h⟩ := Outcome.bind_eq_ok.mp h
  obtain ⟨column, hc, h⟩ := Outcome.bind_eq_ok.mp h
  obtain ⟨encoded, hencoded, h⟩ := Outcome.bind_eq_ok.mp h
  obtain ⟨id, hid, h⟩ := Outcome.bind_eq_ok.mp h
  obtain ⟨nodes, hnodes, h⟩ := Outcome.bind_eq_ok.mp h
  obtain rfl := Outcome.pure_eq_ok.mp h
  have hc := lookup_ok hc
  obtain ⟨column', hc', rfl⟩ := column_ok hid
  obtain rfl : column = column' := Option.some.inj (hc.symm.trans hc')
  refine ⟨v, column, encoded, nodes, assertDefined_ok hv, hc, hencoded, hnodes, ?_⟩
  simp [SQLNode.symbols, text]

theorem built_compare {property operator : String} {value : Option (Json N)}
    {fragment : SQLFragment (Json N)} (hop : operator ∈ fixedTexts)
    (h : e.compare property operator value = .ok fragment) : Built e (symbols fragment) := by
  obtain ⟨_, column, _, nodes, -, hc, -, hnodes, hsymbols⟩ := compare_ok h
  rw [hsymbols]
  exact .column hc (.fixed (by decide) (.fixed hop (.fixed (by decide) (interpolate_ok hnodes).1)))

theorem equal_text {property : String} {value : Json N} {fragment : SQLFragment (Json N)}
    (hvalue : value ≠ .null) (hno : ¬ Splices e (property, value))
    (h : e.compare property "=" (some value) = .ok fragment) :
    EntryText e (property, value) (symbols fragment) := by
  obtain ⟨v, column, encoded, nodes, hv, hc, hencoded, hnodes, hsymbols⟩ := compare_ok h
  obtain rfl := Option.some.inj hv
  have hone : nodes = [.value encoded] := (interpolate_ok (e := e) hnodes).2 fun items hitems =>
    hno ⟨column, items, hc, by rw [hencoded, hitems]⟩
  have htext : symbols fragment = compareText (e.columnPath column) .eq encoded := by
    rw [hsymbols, hone]
    rfl
  rw [htext]
  exact .equal hc hvalue hencoded

theorem isNull_ok {property : String} {fragment : SQLFragment (Json N)}
    (h : e.isNull property = .ok fragment) :
    Built e (symbols fragment) ∧ ∃ column, e.columnByProperty property = some column ∧
      symbols fragment = isNullText (e.columnPath column) := by
  obtain ⟨id, hid, h⟩ := Outcome.bind_eq_ok.mp h
  obtain rfl := Outcome.pure_eq_ok.mp h
  obtain ⟨column, hc, rfl⟩ := column_ok hid
  have htext : symbols ([.fragment [.identifier (e.columnPath column)], .text " IS NULL"] :
      SQLFragment (Json N)) = isNullText (e.columnPath column) := by
    simp [SQLNode.symbols, isNullText]
  refine ⟨?_, column, hc, htext⟩
  rw [htext]
  exact .column hc (.text (by decide))

theorem built_sqlJoin {values : List (Json N)} {list : SQLFragment (Json N)}
    (h : sqlJoin values = .ok list) : Built e (symbols list) := by
  obtain ⟨hne, hsymbols⟩ := sqlJoin_ok h
  rw [hsymbols]
  clear h hsymbols hne
  induction values with
  | nil => exact .nil
  | cons v rest ih =>
    cases rest with
    | nil => exact .value .nil
    | cons w rest => exact .value (.fixed (by decide) ih)

theorem isIn_ok {property : String} {values : Option (Json N)} {fragment : SQLFragment (Json N)}
    (h : e.isIn property values = .ok fragment) : Built e (symbols fragment) := by
  obtain ⟨v, -, h⟩ := Outcome.bind_eq_ok.mp h
  cases v with
  | arr items =>
    cases items with
    | nil =>
      obtain rfl := Outcome.pure_eq_ok.mp h
      simpa [SQLNode.symbols] using Built.text (e := e) (s := "1 = 0") (by decide)
    | cons item rest =>
      obtain ⟨column, hc, h⟩ := Outcome.bind_eq_ok.mp h
      obtain ⟨encoded, -, h⟩ := Outcome.bind_eq_ok.mp h
      obtain ⟨id, hid, h⟩ := Outcome.bind_eq_ok.mp h
      obtain ⟨list, hlist, h⟩ := Outcome.bind_eq_ok.mp h
      obtain rfl := Outcome.pure_eq_ok.mp h
      obtain ⟨column', hc', rfl⟩ := column_ok hid
      have hparts : Built e (.identifier (e.columnPath column') :: (text " IN (" ++
          (symbols list ++ text ")"))) :=
        .column hc' (.fixed (by decide) ((built_sqlJoin hlist).append (.text (by decide))))
      simpa [SQLNode.symbols] using hparts
  | _ => cases h

theorem operatorFragment_ok {property : String} {operator value : Option (Json N)}
    {fragment : SQLFragment (Json N)}
    (h : e.operatorFragment property operator value = .ok (some fragment)) :
    Built e (symbols fragment) := by
  unfold Entity.operatorFragment at h
  split at h
  case h_8 =>
    obtain ⟨f, hf, heq⟩ := Outcome.map_eq_ok.mp h
    obtain rfl := Option.some.inj heq
    exact isIn_ok hf
  case h_9 =>
    obtain ⟨f, hf, heq⟩ := Outcome.map_eq_ok.mp h
    obtain rfl := Option.some.inj heq
    have hparts : Built e (text "NOT (" ++ (symbols f ++ text ")")) :=
      .fixed (by decide) ((isIn_ok hf).append (.text (by decide)))
    simpa [notFragment, SQLNode.symbols] using hparts
  case h_10 =>
    obtain ⟨f, hf, heq⟩ := Outcome.map_eq_ok.mp h
    obtain rfl := Option.some.inj heq
    exact (isNull_ok hf).1
  case h_11 => exact absurd (Outcome.pure_eq_ok.mp h) (by rintro ⟨⟩)
  all_goals
    obtain ⟨f, hf, heq⟩ := Outcome.map_eq_ok.mp h
    obtain rfl := Option.some.inj heq
  all_goals exact built_compare (by decide) hf

/-! ## Section 6: Whole conditions -/

theorem entryFragment_ok {p : String × Json N} {fragment : SQLFragment (Json N)}
    (h : e.entryFragment p = .ok (some fragment)) :
    Built e (symbols fragment) ∧ (¬ Splices e p → EntryText e p (symbols fragment)) := by
  obtain ⟨property, value⟩ := p
  have hequal : ∀ {value : Json N}, value ≠ .null →
      (e.compare property "=" (some value)).map some = .ok (some fragment) →
      Built e (symbols fragment) ∧
        (¬ Splices e (property, value) → EntryText e (property, value) (symbols fragment)) := by
    intro value hvalue h
    obtain ⟨f, hf, heq⟩ := Outcome.map_eq_ok.mp h
    obtain rfl := Option.some.inj heq
    exact ⟨built_compare (by decide) hf, fun hno => equal_text hvalue hno hf⟩
  cases value with
  | null =>
    obtain ⟨f, hf, heq⟩ := Outcome.map_eq_ok.mp h
    obtain rfl := Option.some.inj heq
    obtain ⟨hbuilt, column, hc, htext⟩ := isNull_ok hf
    refine ⟨hbuilt, fun _ => ?_⟩
    rw [htext]
    exact .isNull hc
  | obj entries =>
    by_cases hkey : JsonTree.hasKey entries "operator" = true
    · rw [Entity.entryFragment, if_pos hkey] at h
      exact ⟨operatorFragment_ok h, fun _ => .operator hkey h⟩
    · rw [Entity.entryFragment, if_neg hkey] at h
      exact hequal nofun h
  | bool b => exact hequal nofun h
  | num n => exact hequal nofun h
  | str s => exact hequal nofun h
  | arr items => exact hequal nofun h
  | leaf l => exact l.elim

theorem built_joined (j : Junction) {texts : List (List (Symbol (Json N)))}
    (h : ∀ part ∈ texts, Built e part) : Built e (j.joinedText texts) := by
  have hparen : ∀ {part rest : List (Symbol (Json N))}, Built e part → Built e rest →
      Built e (parenText part ++ rest) := by
    intro part rest hpart hrest
    have hopen : Built e (text "(" ++ (part ++ (text ")" ++ rest))) :=
      .fixed (by decide) (hpart.append (.fixed (by decide) hrest))
    simpa [parenText, text] using hopen
  have htail : ∀ {rest : List (List (Symbol (Json N)))}, (∀ part ∈ rest, Built e part) →
      Built e (j.tailText rest) := by
    intro rest hrest
    induction rest with
    | nil => exact .nil
    | cons part rest ih =>
      have hword : " " ++ j.word ++ " " ∈ fixedTexts := by cases j <;> decide
      obtain ⟨hpart, hrest⟩ := List.forall_mem_cons.mp hrest
      rw [Junction.tailText, List.flatMap_cons, List.append_assoc]
      exact .fixed hword (hparen hpart (ih hrest))
  cases texts with
  | nil => exact .nil
  | cons part rest =>
    obtain ⟨hpart, hrest⟩ := List.forall_mem_cons.mp h
    exact hparen hpart (htail hrest)

/-- A text that is defined comes from parts that are. -/
theorem joinParts_some {parts : List (Option (SQLFragment (Json N)))} {j : Junction}
    {fragment : SQLFragment (Json N)} (h : Entity.joinParts parts j = some fragment) :
    ∃ fragments : List (SQLFragment (Json N)), parts = fragments.map some ∧
      symbols fragment = j.joinedText (fragments.map symbols) := by
  obtain ⟨fragments, hparts, rfl⟩ := Option.map_eq_some_iff.mp h
  refine ⟨fragments, ?_, symbols_joinBoolean fragments j⟩
  clear h
  induction parts generalizing fragments with
  | nil =>
    obtain rfl : [] = fragments := by simpa using hparts
    rfl
  | cons part parts ih =>
    rw [List.mapM_cons] at hparts
    obtain ⟨f, hf, hrest⟩ := Option.bind_eq_some_iff.mp hparts
    obtain ⟨fs, hfs, heq⟩ := Option.bind_eq_some_iff.mp hrest
    obtain rfl := Option.some.inj heq
    rw [ih fs hfs, show part = some f from hf]
    rfl

theorem entries_ok {entries : List (String × Json N)} {parts : List (Option (SQLFragment (Json N)))}
    {fragments : List (SQLFragment (Json N))} (h : entries.mapM e.entryFragment = .ok parts)
    (hparts : parts = fragments.map some) :
    (∀ part ∈ fragments.map symbols, Built e part) ∧
      ((∀ p ∈ entries, ¬ Splices e p) → List.Forall₂ (EntryText e) entries (fragments.map symbols)) := by
  induction entries generalizing parts fragments with
  | nil =>
    obtain rfl := Outcome.pure_eq_ok.mp h
    obtain rfl : fragments = [] := by simpa using hparts.symm
    exact ⟨nofun, fun _ => .nil⟩
  | cons p entries ih =>
    rw [List.mapM_cons] at h
    obtain ⟨part, hpart, h⟩ := Outcome.bind_eq_ok.mp h
    obtain ⟨rest, hrest, h⟩ := Outcome.bind_eq_ok.mp h
    obtain rfl := Outcome.pure_eq_ok.mp h
    cases fragments with
    | nil => cases hparts
    | cons f fs =>
      obtain ⟨rfl, hfs⟩ := List.cons.inj hparts
      obtain ⟨hbuilt, htext⟩ := entryFragment_ok hpart
      obtain ⟨hbuilts, htexts⟩ := ih hrest hfs
      refine ⟨List.forall_mem_cons.mpr ⟨hbuilt, hbuilts⟩, fun hno => ?_⟩
      obtain ⟨hp, hentries⟩ := List.forall_mem_cons.mp hno
      exact .cons (htext hp) (htexts hentries)

/-- What holds of a condition and its text. -/
def Sound (e : Entity N) (where_ : Json N) (symbols : List (Symbol (Json N))) : Prop :=
  Built e symbols ∧ ((∀ p, HasProperty e where_ p → ¬ Splices e p) → WhereText e where_ symbols)

/-- A condition that is no list of alternatives. -/
theorem properties_ok {where_ : Json N} {fragment : SQLFragment (Json N)}
    (harr : ∀ items, where_ ≠ .arr items)
    (h : e.compileWhere where_ = .ok (some fragment)) : Sound e where_ (symbols fragment) := by
  have hcompile : e.compileWhere where_ = (do
      let entries ← e.objectEntries where_
      let parts ← entries.mapM e.entryFragment
      pure (if parts.isEmpty then some [.text "1 = 1"] else Entity.joinParts parts .and)) := by
    cases where_ with
    | arr items => exact absurd rfl (harr items)
    | _ => rw [Entity.compileWhere]; nofun
  rw [hcompile] at h
  obtain ⟨entries, hentries, hrest⟩ := Outcome.bind_eq_ok.mp h
  obtain ⟨parts, hparts, hresult⟩ := Outcome.bind_eq_ok.mp hrest
  have hresult := Outcome.pure_eq_ok.mp hresult
  cases entries with
  | nil =>
    obtain rfl := Outcome.pure_eq_ok.mp hparts
    obtain rfl := Option.some.inj hresult
    have htext : symbols ([.text "1 = 1"] : SQLFragment (Json N)) = text "1 = 1" := by
      simp [SQLNode.symbols]
    rw [htext]
    exact ⟨.text (by decide), fun _ => .always hentries⟩
  | cons p rest =>
    have hne : parts.isEmpty = false := by
      rw [List.mapM_cons] at hparts
      obtain ⟨part, -, hmore⟩ := Outcome.bind_eq_ok.mp hparts
      obtain ⟨parts', -, heq⟩ := Outcome.bind_eq_ok.mp hmore
      obtain rfl := Outcome.pure_eq_ok.mp heq
      rfl
    rw [hne, if_neg Bool.false_ne_true] at hresult
    obtain ⟨fragments, heq, hsymbols⟩ := joinParts_some hresult
    obtain ⟨hbuilt, htexts⟩ := entries_ok hparts heq
    rw [hsymbols]
    exact ⟨built_joined .and hbuilt, fun hno => .properties hentries (List.cons_ne_nil p rest)
      (htexts fun q hq => hno q (.own harr hentries hq))⟩

theorem items_ok {items : List (Json N)} {parts : List (Option (SQLFragment (Json N)))}
    {fragments : List (SQLFragment (Json N))}
    (each : ∀ item ∈ items, ∀ fragment, e.compileWhere item = .ok (some fragment) →
      Sound e item (symbols fragment))
    (h : e.compileItems items = .ok parts) (hparts : parts = fragments.map some) :
    (∀ part ∈ fragments.map symbols, Built e part) ∧
      ((∀ item ∈ items, ∀ p, HasProperty e item p → ¬ Splices e p) →
        List.Forall₂ (WhereText e) items (fragments.map symbols)) := by
  induction items generalizing parts fragments with
  | nil =>
    rw [Entity.compileItems] at h
    obtain rfl := Outcome.pure_eq_ok.mp h
    obtain rfl : fragments = [] := by simpa using hparts.symm
    exact ⟨nofun, fun _ => .nil⟩
  | cons item items ih =>
    rw [Entity.compileItems] at h
    obtain ⟨part, hpart, h⟩ := Outcome.bind_eq_ok.mp h
    obtain ⟨rest, hrest, h⟩ := Outcome.bind_eq_ok.mp h
    obtain rfl := Outcome.pure_eq_ok.mp h
    cases fragments with
    | nil => cases hparts
    | cons f fs =>
      obtain ⟨rfl, hfs⟩ := List.cons.inj hparts
      obtain ⟨hitem, hitems⟩ := List.forall_mem_cons.mp each
      obtain ⟨hbuilt, htext⟩ := hitem f hpart
      obtain ⟨hbuilts, htexts⟩ := ih hitems hrest hfs
      refine ⟨List.forall_mem_cons.mpr ⟨hbuilt, hbuilts⟩, fun hno => ?_⟩
      obtain ⟨hone, hmore⟩ := List.forall_mem_cons.mp hno
      exact .cons (htext hone) (htexts hmore)

theorem compileWhere_ok {where_ : Json N} : ∀ {fragment : SQLFragment (Json N)},
    e.compileWhere where_ = .ok (some fragment) → Sound e where_ (symbols fragment) := by
  induction where_ using JsonTree.ind with
  | arr items ih =>
    intro fragment h
    rw [Entity.compileWhere] at h
    cases items with
    | nil =>
      obtain rfl := Option.some.inj (Outcome.pure_eq_ok.mp h)
      have htext : symbols ([.text "1 = 0"] : SQLFragment (Json N)) = text "1 = 0" := by
        simp [SQLNode.symbols]
      rw [htext]
      exact ⟨.text (by decide), fun _ => .never⟩
    | cons item rest =>
      obtain ⟨parts, hparts, h⟩ := Outcome.bind_eq_ok.mp h
      obtain ⟨fragments, heq, hsymbols⟩ := joinParts_some (Outcome.pure_eq_ok.mp h)
      obtain ⟨hbuilt, htexts⟩ := items_ok (fun item hitem _ h => ih item hitem h) hparts heq
      rw [hsymbols]
      exact ⟨built_joined .or hbuilt, fun hno => .alternatives (List.cons_ne_nil item rest)
        (htexts fun item hitem p hp => hno p (.item hitem hp))⟩
  | _ => exact fun h => properties_ok nofun h

end

/-- People with a name and an age. -/
def person : Entity Int where
  modelName := "Person"
  columnByProperty := fun property =>
    if property = "name" then some ⟨"name", "name", .varchar, none⟩
    else if property = "age" then some ⟨"age", "age", .integer, none⟩
    else none
  aliasName := none
  dialect := .sqlite
  builtins := ⟨0, 1, fun n => n == 0, fun _ => "",
    fun value => match value with | .str s => s | _ => "", fun u => (Char.ofNat u).toString⟩

def adaWithoutAge : Json Int := .obj [("name", .str "Ada"), ("age", .null)]

end Cossack.Database.JsonWhere
