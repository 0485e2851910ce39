import Cossack.Lib.Outcome
import Cossack.Lib.SqlExpressions

/-! # Predicates of a query

    `SQLFragment` with the parts of the tag that conditions use, the
    `ExpressionBuilder`, `compileWhere`, and the `where`, `andWhere` and `orWhere`
    of the `SelectQueryBuilder`.  How a value becomes a database value, and what
    `String(value)` is, are parameters. -/

namespace Cossack.Database.Query

open SqlExpressions

/-! ## Section 1: Fragments -/

variable {U V : Type}

inductive SQLNode (V : Type) where
  | text (value : String)
  | value (value : V)
  | identifier (path : List String)
  | unsafeText (value : String)
  | fragment (nodes : List (SQLNode V))

abbrev SQLFragment (V : Type) := List (SQLNode V)

mutual

/-- `compileSQL` of a node, with a quoted identifier and a placeholder with its
    parameter as one symbol each. -/
def SQLNode.symbols : SQLNode V → List (Symbol V)
  | .text s => text s
  | .unsafeText s => text s
  | .value v => [.value v]
  | .identifier path => [.identifier path]
  | .fragment nodes => symbols nodes

def symbols : SQLFragment V → List (Symbol V)
  | [] => []
  | node :: nodes => node.symbols ++ symbols nodes

end

@[simp] theorem symbols_nil : symbols ([] : SQLFragment V) = [] := by simp only [symbols]

@[simp] theorem symbols_cons (node : SQLNode V) (nodes : SQLFragment V) :
    symbols (node :: nodes) = node.symbols ++ symbols nodes := by simp only [symbols]

@[simp] theorem symbols_append (a b : SQLFragment V) :
    symbols (a ++ b) = symbols a ++ symbols b := by
  induction a with
  | nil => simp
  | cons node a ih => simp [ih]

/-- `sql.id` -/
def sqlId (path : List String) : Except String (SQLFragment V) :=
  if path.isEmpty || path.any (fun part => part.isEmpty) then
    throw "sql.id() requires one or more non-empty identifier parts."
  else pure [.identifier path]

/-- `sql.join` with its default separator -/
def sqlJoin (values : List V) : Except String (SQLFragment V) :=
  match values with
  | [] => throw ("sql.join() received an empty list; it would compile to an invalid list such as IN (). " ++
      "Check for an empty list before building the query.")
  | v :: rest => pure (.value v :: rest.flatMap fun w => [.fragment [.text ", "], .value w])

/-! ## Section 2: The expression builder -/

structure ColumnMetadata where
  columnName : String

/-- `encoder` is `pure` of the value for a builder that was given none. -/
structure ExpressionBuilder (U V : Type) where
  modelName : String
  columnByProperty : String → Option ColumnMetadata
  /-- The `alias` of the table. -/
  aliasName : Option String
  encoder : ColumnMetadata → U → Except String V
  /-- `String(value)` -/
  string : U → U

namespace ExpressionBuilder

variable (b : ExpressionBuilder U V)

def unknownProperty (property : String) : String :=
  "Unknown property " ++ b.modelName ++ "." ++ property ++ "."

def lookup (property : String) : Except String ColumnMetadata :=
  match b.columnByProperty property with
  | none => throw (b.unknownProperty property)
  | some column => pure column

/-- An empty alias is none. -/
def columnPath (column : ColumnMetadata) : List String :=
  match b.aliasName with
  | some name => if name.isEmpty then [column.columnName] else [name, column.columnName]
  | none => [column.columnName]

def column (property : String) : Except String (SQLFragment V) := do
  let column ← b.lookup property
  sqlId (b.columnPath column)

/-- `undefined` is refused. -/
def assertDefined {α : Type} (property : String) (value : Option α) : Except String α :=
  match value with
  | some value => pure value
  | none => throw (b.modelName ++ "." ++ property ++ " is undefined in a where clause. " ++
      "Use null (or IsNull()) to match NULL, or omit the property to not filter on it.")

def compare (property : String) (operator : String) (value : Option U) :
    Except String (SQLFragment V) := do
  let value ← b.assertDefined property value
  let column ← b.lookup property
  let encoded ← b.encoder column value
  let id ← b.column property
  pure [.fragment id, .text " ", .fragment [.unsafeText operator], .text " ", .value encoded]

def eq (property : String) (value : Option U) := b.compare property "=" value
def ne (property : String) (value : Option U) := b.compare property "<>" value
def gt (property : String) (value : Option U) := b.compare property ">" value
def gte (property : String) (value : Option U) := b.compare property ">=" value
def lt (property : String) (value : Option U) := b.compare property "<" value
def lte (property : String) (value : Option U) := b.compare property "<=" value
def like (property : String) (value : Option U) := b.compare property "LIKE" value

/-- `in` -/
def isIn (property : String) (values : Option (List (Option U))) :
    Except String (SQLFragment V) := do
  let values ← b.assertDefined property values
  let values ← values.mapM (b.assertDefined property)
  if values.isEmpty then pure [.text "1 = 0"] else
    let column ← b.lookup property
    let encoded ← values.mapM (b.encoder column)
    let id ← b.column property
    let list ← sqlJoin encoded
    pure [.fragment id, .text " IN (", .fragment list, .text ")"]

def isNull (property : String) : Except String (SQLFragment V) := do
  let id ← b.column property
  pure [.fragment id, .text " IS NULL"]

end ExpressionBuilder

def joinBoolean (parts : List (SQLFragment V)) (operator : Junction) : SQLFragment V :=
  let paren (part : SQLFragment V) : SQLFragment V := [.text "(", .fragment part, .text ")"]
  match parts with
  | [] => []
  | part :: rest =>
      paren part ++ rest.flatMap fun next => .text (" " ++ operator.word ++ " ") :: paren next

/-- `and` of the expression builder; `or` and `not` likewise. -/
def andFragment (parts : List (SQLFragment V)) : SQLFragment V := joinBoolean parts .and

def orFragment (parts : List (SQLFragment V)) : SQLFragment V := joinBoolean parts .or

def notFragment (part : SQLFragment V) : SQLFragment V :=
  [.text "NOT (", .fragment part, .text ")"]

/-! ## Section 3: Find conditions -/

/-- `none` is an undefined value. -/
inductive FindOperator (U : Type) where
  | eq (value : Option U)
  | ne (value : Option U)
  | gt (value : Option U)
  | gte (value : Option U)
  | lt (value : Option U)
  | lte (value : Option U)
  | like (value : Option U)
  | isIn (values : Option (List (Option U)))
  | notIn (values : Option (List (Option U)))
  | isNull

def operatorFragment (b : ExpressionBuilder U V) (property : String) :
    FindOperator U → Except String (SQLFragment V)
  | .eq value => b.eq property value
  | .ne value => b.ne property value
  | .gt value => b.gt property value
  | .gte value => b.gte property value
  | .lt value => b.lt property value
  | .lte value => b.lte property value
  | .like value => b.like property (value.map b.string)
  | .isIn values => b.isIn property values
  | .notIn values => (b.isIn property values).map notFragment
  | .isNull => b.isNull property

/-- A property of a `FindWhere` object. -/
inductive FindValue (U : Type) where
  | operator (operator : FindOperator U)
  | null
  | value (value : Option U)

def entryFragment (b : ExpressionBuilder U V) : String × FindValue U → Except String (SQLFragment V)
  | (property, .operator operator) => operatorFragment b property operator
  | (property, .null) => b.isNull property
  | (property, .value value) => b.eq property value

/-- What `compileWhere` takes. -/
inductive Where (U V : Type) where
  | fragment (fragment : SQLFragment V)
  | array (items : List (Where U V))
  | object (entries : List (String × FindValue U))

mutual

def compileWhere (b : ExpressionBuilder U V) : Where U V → Except String (SQLFragment V)
  | .fragment fragment => pure fragment
  | .array items =>
      -- OR of no alternatives matches nothing
      if items.isEmpty then pure [.text "1 = 0"] else do
        let parts ← compileItems b items
        pure (orFragment parts)
  | .object entries => do
      let parts ← entries.mapM (entryFragment b)
      pure (if parts.isEmpty then [.text "1 = 1"] else andFragment parts)

def compileItems (b : ExpressionBuilder U V) :
    List (Where U V) → Except String (List (SQLFragment V))
  | [] => pure []
  | item :: items => do
      let part ← compileWhere b item
      let parts ← compileItems b items
      pure (part :: parts)

end

/-! ## Section 4: Predicates of the query builder -/

/-- What a caller builds with the expression builder. -/
inductive Expression (U : Type) where
  | operator (property : String) (operator : FindOperator U)
  | and (parts : List (Expression U))
  | or (parts : List (Expression U))
  | not (part : Expression U)

/-- The methods of the builder have the names of the find operators, and its `like`
    takes the value as it is.  It has no `not-in`, which is `not` of `in`. -/
def builderCall (b : ExpressionBuilder U V) (property : String) :
    FindOperator U → Except String (SQLFragment V)
  | .like value => b.like property value
  | operator => operatorFragment b property operator

mutual

/-- The calls of the builder, arguments first. -/
def Expression.build (b : ExpressionBuilder U V) : Expression U → Except String (SQLFragment V)
  | .operator property operator => builderCall b property operator
  | .and parts => do
      let parts ← buildAll b parts
      pure (andFragment parts)
  | .or parts => do
      let parts ← buildAll b parts
      pure (orFragment parts)
  | .not part => do
      let part ← part.build b
      pure (notFragment part)

def buildAll (b : ExpressionBuilder U V) : List (Expression U) → Except String (List (SQLFragment V))
  | [] => pure []
  | part :: parts => do
      let part ← part.build b
      let parts ← buildAll b parts
      pure (part :: parts)

end

/-- A predicate: conditions by property, alternatives, or an expression, which
    reaches the query as a fragment or through a function of the builder. -/
inductive Predicate (U : Type) where
  | object (entries : List (String × FindValue U))
  | array (items : List (Predicate U))
  | expression (e : Expression U)

mutual

/-- The argument of `compileWhere`: its expressions are built before it is called. -/
def Predicate.toWhere (b : ExpressionBuilder U V) : Predicate U → Except String (Where U V)
  | .object entries => pure (.object entries)
  | .array items => do
      let items ← itemsToWhere b items
      pure (.array items)
  | .expression e => do
      let fragment ← e.build b
      pure (.fragment fragment)

def itemsToWhere (b : ExpressionBuilder U V) : List (Predicate U) → Except String (List (Where U V))
  | [] => pure []
  | item :: items => do
      let item ← item.toWhere b
      let items ← itemsToWhere b items
      pure (item :: items)

end

def resolvePredicate (b : ExpressionBuilder U V) (predicate : Predicate U) :
    Except String (SQLFragment V) := do
  let argument ← predicate.toWhere b
  compileWhere b argument

/-- The calls that change the predicate of a query. -/
inductive WhereCall (U : Type) where
  | replaceWhere (predicate : Predicate U)
  | andWhere (predicate : Predicate U)
  | orWhere (predicate : Predicate U)

/-- `where`, `andWhere` and `orWhere` on the predicate there is. -/
def callWhere (b : ExpressionBuilder U V) (predicate : Option (SQLFragment V)) :
    WhereCall U → Except String (Option (SQLFragment V))
  | .replaceWhere p => do
      let part ← resolvePredicate b p
      pure (some part)
  | .andWhere p => do
      let part ← resolvePredicate b p
      match predicate with
      | some before =>
          pure (some [.text "(", .fragment before, .text ") AND (", .fragment part, .text ")"])
      | none => pure (some part)
  | .orWhere p => do
      let part ← resolvePredicate b p
      match predicate with
      | some before =>
          pure (some [.text "(", .fragment before, .text ") OR (", .fragment part, .text ")"])
      | none => pure (some part)

/-- A sequence of calls on a new query. -/
def callsWhere (b : ExpressionBuilder U V) (calls : List (WhereCall U)) :
    Except String (Option (SQLFragment V)) := calls.foldlM (callWhere b) none

/-- The part of `toSQL` that the predicate decides. -/
def whereClause (predicate : Option (SQLFragment V)) : SQLFragment V :=
  match predicate with
  | some fragment => [.text " WHERE ", .fragment fragment]
  | none => []

end Cossack.Database.Query
