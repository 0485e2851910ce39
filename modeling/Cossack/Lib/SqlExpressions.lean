import Mathlib.Data.List.Forall2
import Mathlib.Data.Option.Basic

/-! # SQL conditions

    Texts of conditions, read with the precedences of SQL and evaluated in
    three-valued logic.  A quoted identifier and a bound value are one symbol of a
    text each. -/

namespace SqlExpressions

/-! ## Section 1: Three-valued logic -/

/-- `none` is unknown. -/
abbrev Truth := Option Bool

def and3 : Truth → Truth → Truth
  | some false, _ | _, some false => some false
  | some true, b => b
  | a, some true => a
  | none, none => none

def or3 : Truth → Truth → Truth
  | some true, _ | _, some true => some true
  | some false, b => b
  | a, some false => a
  | none, none => none

def not3 (a : Truth) : Truth := a.map (!·)

def all3 (xs : List Truth) : Truth := xs.foldr and3 (some true)

def any3 (xs : List Truth) : Truth := xs.foldr or3 (some false)

theorem and3_assoc (a b c : Truth) : and3 (and3 a b) c = and3 a (and3 b c) := by
  rcases a with _ | _ | _ <;> rcases b with _ | _ | _ <;> rcases c with _ | _ | _ <;> rfl

theorem or3_assoc (a b c : Truth) : or3 (or3 a b) c = or3 a (or3 b c) := by
  rcases a with _ | _ | _ <;> rcases b with _ | _ | _ <;> rcases c with _ | _ | _ <;> rfl

@[simp] theorem and3_true (a : Truth) : and3 a (some true) = a := by
  rcases a with _ | _ | _ <;> rfl

@[simp] theorem or3_false (a : Truth) : or3 a (some false) = a := by
  rcases a with _ | _ | _ <;> rfl

/-- A chain of conjunctions, grouped from the left. -/
theorem foldl_and3 (a : Truth) (xs : List Truth) : xs.foldl and3 a = and3 a (all3 xs) := by
  induction xs generalizing a with
  | nil => exact (and3_true a).symm
  | cons x xs ih => rw [List.foldl_cons, ih, and3_assoc]; rfl

theorem foldl_or3 (a : Truth) (xs : List Truth) : xs.foldl or3 a = or3 a (any3 xs) := by
  induction xs generalizing a with
  | nil => exact (or3_false a).symm
  | cons x xs ih => rw [List.foldl_cons, ih, or3_assoc]; rfl

@[simp] theorem and3_eq_true {a b : Truth} :
    and3 a b = some true ↔ a = some true ∧ b = some true := by
  rcases a with _ | _ | _ <;> rcases b with _ | _ | _ <;> simp [and3]

@[simp] theorem or3_eq_true {a b : Truth} :
    or3 a b = some true ↔ a = some true ∨ b = some true := by
  rcases a with _ | _ | _ <;> rcases b with _ | _ | _ <;> simp [or3]

/-- `a = b` of values that may be NULL. -/
def eq3 {V : Type} [DecidableEq V] : Option V → Option V → Truth
  | some a, some b => some (decide (a = b))
  | _, _ => none

/-- `a <> b` of values that may be NULL. -/
def ne3 {V : Type} [DecidableEq V] (a b : Option V) : Truth := not3 (eq3 a b)

@[simp] theorem eq3_some_eq_true {V : Type} [DecidableEq V] {a : Option V} {b : V} :
    eq3 a (some b) = some true ↔ a = some b := by
  cases a <;> simp [eq3]

/-! ## Section 2: Conditions -/

inductive CompareOp where
  | eq
  | ne
  | lt
  | le
  | gt
  | ge
  | like

variable {V : Type}

inductive Operand (V : Type) where
  | column (path : List String)
  | value (v : V)
  | number (n : Nat)

inductive Ast (V : Type) where
  | compare (op : CompareOp) (a b : Operand V)
  | inList (a : Operand V) (items : List (Operand V))
  | isNull (a : Operand V)
  | and (a b : Ast V)
  | or (a b : Ast V)
  | not (a : Ast V)

/-- The values of a database: which of them is NULL, and how the others compare. -/
structure Values (V : Type) where
  isNull : V → Bool
  compare : CompareOp → V → V → Bool
  number : Nat → V
  number_null : ∀ n, isNull (number n) = false
  number_eq : ∀ m n, compare .eq (number m) (number n) = decide (m = n)

namespace Values

variable (values : Values V)

/-- A comparison with NULL is unknown. -/
def compare3 (op : CompareOp) (a b : V) : Truth :=
  if values.isNull a || values.isNull b then none else some (values.compare op a b)

def in3 (a : V) (items : List V) : Truth := any3 (items.map (values.compare3 .eq a))

def operand (row : List String → V) : Operand V → V
  | .column path => row path
  | .value v => v
  | .number n => values.number n

def eval (row : List String → V) : Ast V → Truth
  | .compare op a b => values.compare3 op (values.operand row a) (values.operand row b)
  | .inList a items => values.in3 (values.operand row a) (items.map (values.operand row))
  | .isNull a => some (values.isNull (values.operand row a))
  | .and a b => and3 (eval row a) (eval row b)
  | .or a b => or3 (eval row a) (eval row b)
  | .not a => not3 (eval row a)

end Values

/-! ## Section 3: Tokens -/

inductive Symbol (V : Type) where
  | char (c : Char)
  | identifier (path : List String)
  | value (v : V)

inductive Token (V : Type) where
  | operand (x : Operand V)
  | word (s : List Char)
  | op (op : CompareOp)
  | lparen
  | rparen
  | comma

/-- The beginning of a token that may go on. -/
inductive Pending where
  | none
  | word (s : List Char)
  | number (n : Nat)
  | less
  | greater

def Pending.flush : Pending → List (Token V)
  | .none => []
  | .word s => [.word s]
  | .number n => [.operand (.number n)]
  | .less => [.op .lt]
  | .greater => [.op .gt]

/-- A character that does not go on with the token before it. -/
def start (c : Char) : Option (List (Token V) × Pending) :=
  if c = ' ' then some ([], .none)
  else if c = '(' then some ([.lparen], .none)
  else if c = ')' then some ([.rparen], .none)
  else if c = ',' then some ([.comma], .none)
  else if c = '=' then some ([.op .eq], .none)
  else if c = '<' then some ([], .less)
  else if c = '>' then some ([], .greater)
  else if c.isAlpha then some ([], .word [c])
  else if c.isDigit then some ([], .number (c.toNat - '0'.toNat))
  else none

/-- Go on with a token, if the character belongs to it. -/
def extend (p : Pending) (c : Char) : Option (List (Token V) × Pending) :=
  match p with
  | .word s => if c.isAlpha then some ([], .word (s ++ [c])) else none
  | .number n => if c.isDigit then some ([], .number (10 * n + (c.toNat - '0'.toNat))) else none
  | .less =>
      if c = '>' then some ([.op .ne], .none) else if c = '=' then some ([.op .le], .none) else none
  | .greater => if c = '=' then some ([.op .ge], .none) else none
  | .none => none

def scanOne (p : Pending) : Symbol V → Option (List (Token V) × Pending)
  | .char c =>
      match extend p c with
      | some next => some next
      | none => (start c).map fun (tokens, next) => (p.flush ++ tokens, next)
  | .identifier path => some (p.flush ++ [.operand (.column path)], .none)
  | .value v => some (p.flush ++ [.operand (.value v)], .none)

def scan : Pending → List (Symbol V) → Option (List (Token V) × Pending)
  | p, [] => some ([], p)
  | p, s :: rest =>
      (scanOne p s).bind fun (tokens, next) =>
        (scan next rest).map fun (more, last) => (tokens ++ more, last)

def lex (symbols : List (Symbol V)) : Option (List (Token V)) :=
  (scan .none symbols).map fun (tokens, p) => tokens ++ p.flush

/-! ## Section 4: Reading -/

/-- A pair of parentheses, or the whole condition: the alternatives that are
    complete, the conjunction that is being read, and the negations of what comes
    next. -/
structure Level (V : Type) where
  disj : Option (Ast V)
  conj : Option (Ast V)
  nots : Nat

namespace Level

def empty : Level V := ⟨none, none, 0⟩

def negate : Nat → Ast V → Ast V
  | 0, e => e
  | n + 1, e => .not (negate n e)

/-- A condition that is complete up to the next AND or OR. -/
def add (l : Level V) (e : Ast V) : Level V :=
  let e := negate l.nots e
  { l with conj := some (match l.conj with | none => e | some c => .and c e), nots := 0 }

/-- The conjunction ends at an OR. -/
def alternative (l : Level V) : Level V :=
  match l.conj with
  | none => l
  | some c => { l with disj := some (match l.disj with | none => c | some d => .or d c), conj := none }

def close (l : Level V) : Option (Ast V) :=
  l.conj.map fun c => match l.disj with | none => c | some d => .or d c

end Level

/-- What is read next. -/
inductive Mode (V : Type) where
  | operand
  | left (x : Operand V)
  | right (x : Operand V) (op : CompareOp)
  | isNext (x : Operand V)
  | inOpen (x : Operand V)
  | inItem (x : Operand V) (items : List (Operand V))
  | inNext (x : Operand V) (items : List (Operand V))
  /-- AND, OR, a closing parenthesis or the end. -/
  | after

structure Reader (V : Type) where
  mode : Mode V
  level : Level V
  outer : List (Level V)

namespace Reader

def complete (r : Reader V) (e : Ast V) : Reader V := { r with mode := .after, level := r.level.add e }

def closing (r : Reader V) : Option (Reader V) :=
  match r.outer, r.level.close with
  | level :: outer, some e => some ⟨.after, level.add e, outer⟩
  | _, _ => none

def word (r : Reader V) (s : List Char) : Option (Reader V) :=
  match r.mode with
  | .operand =>
      if s = "NOT".toList then some { r with level := { r.level with nots := r.level.nots + 1 } } else none
  | .left x =>
      if s = "LIKE".toList then some { r with mode := .right x .like }
      else if s = "IN".toList then some { r with mode := .inOpen x }
      else if s = "IS".toList then some { r with mode := .isNext x }
      else none
  | .isNext x => if s = "NULL".toList then some (r.complete (.isNull x)) else none
  | .after =>
      if s = "AND".toList then some { r with mode := .operand }
      else if s = "OR".toList then some { r with mode := .operand, level := r.level.alternative }
      else none
  | _ => none

def step (r : Reader V) : Token V → Option (Reader V)
  | .operand y =>
      match r.mode with
      | .operand => some { r with mode := .left y }
      | .right x op => some (r.complete (.compare op x y))
      | .inItem x items => some { r with mode := .inNext x (items ++ [y]) }
      | _ => none
  | .word s => r.word s
  | .op op =>
      match r.mode with
      | .left x => some { r with mode := .right x op }
      | _ => none
  | .lparen =>
      match r.mode with
      | .operand => some ⟨.operand, .empty, r.level :: r.outer⟩
      | .inOpen x => some { r with mode := .inItem x [] }
      | _ => none
  | .rparen =>
      match r.mode with
      | .after => r.closing
      | .inNext x items => some (r.complete (.inList x items))
      | _ => none
  | .comma =>
      match r.mode with
      | .inNext x items => some { r with mode := .inItem x items }
      | _ => none

def run (r : Reader V) (tokens : List (Token V)) : Option (Reader V) := tokens.foldlM step r

def start (outer : List (Level V)) : Reader V := ⟨.operand, .empty, outer⟩

end Reader

def parse (tokens : List (Token V)) : Option (Ast V) :=
  (Reader.run (.start []) tokens).bind fun r =>
    match r.mode, r.outer with
    | .after, [] => r.level.close
    | _, _ => none

/-- The condition that a text is, by the precedences of SQL. -/
def read (symbols : List (Symbol V)) : Option (Ast V) := (lex symbols).bind parse

/-- The condition of a WHERE clause, or that there is no clause. -/
def readWhere (symbols : List (Symbol V)) : Option (Option (Ast V)) :=
  (lex symbols).bind fun
    | [] => some none
    | .word s :: tokens => if s = "WHERE".toList then (parse tokens).map some else none
    | _ => none

/-- A query without a clause selects every row. -/
def Values.clause (values : Values V) (row : List String → V) : Option (Ast V) → Truth
  | none => some true
  | some e => values.eval row e

/-! ## Section 5: Texts next to each other -/

/-- The symbols of a text without quoted identifiers and values. -/
def text (s : String) : List (Symbol V) := s.toList.map .char

/-- A symbol that ends the token before it and goes on with none. -/
def Separates (s : Symbol V) (tokens : List (Token V)) : Prop :=
  ∀ p, scanOne p s = some (p.flush ++ tokens, .none)

theorem separates_space : Separates (.char ' ' : Symbol V) [] := by
  intro p
  cases p <;> rfl

theorem separates_lparen : Separates (.char '(' : Symbol V) [.lparen] := by
  intro p
  cases p <;> rfl

theorem separates_rparen : Separates (.char ')' : Symbol V) [.rparen] := by
  intro p
  cases p <;> rfl

theorem separates_comma : Separates (.char ',' : Symbol V) [.comma] := by
  intro p
  cases p <;> rfl

theorem separates_identifier (path : List String) :
    Separates (.identifier path : Symbol V) [.operand (.column path)] := by
  intro p
  rfl

theorem separates_value (v : V) : Separates (.value v) [.operand (.value v)] := by
  intro p
  rfl

theorem scan_append (p : Pending) (a b : List (Symbol V)) :
    scan p (a ++ b) = (scan p a).bind fun (tokens, q) =>
      (scan q b).map fun (more, last) => (tokens ++ more, last) := by
  induction a generalizing p with
  | nil => simp [scan]
  | cons s a ih =>
      rw [List.cons_append, scan, scan]
      cases h : scanOne p s with
      | none => rfl
      | some next =>
          obtain ⟨tokens, q⟩ := next
          simp only [Option.bind_some, ih]
          cases scan q a with
          | none => rfl
          | some next =>
              obtain ⟨more, last⟩ := next
              simp only [Option.bind_some, Option.map_some]
              cases scan last b <;> simp [List.append_assoc]

/-- What stands before and after a separating symbol is read apart. -/
theorem lex_separated {s : Symbol V} {tokens : List (Token V)} (h : Separates s tokens)
    {a b : List (Symbol V)} {ta tb : List (Token V)} (ha : lex a = some ta) (hb : lex b = some tb) :
    lex (a ++ s :: b) = some (ta ++ tokens ++ tb) := by
  unfold lex at ha hb ⊢
  obtain ⟨⟨ta', p⟩, hsa, rfl⟩ := Option.map_eq_some_iff.mp ha
  obtain ⟨⟨tb', q⟩, hsb, rfl⟩ := Option.map_eq_some_iff.mp hb
  rw [scan_append, hsa]
  simp [scan, h p, hsb, List.append_assoc]

theorem lex_nil : lex ([] : List (Symbol V)) = some [] := rfl

/-- A text that begins with a separating symbol. -/
theorem lex_cons {s : Symbol V} {tokens : List (Token V)} (h : Separates s tokens)
    {b : List (Symbol V)} {tb : List (Token V)} (hb : lex b = some tb) :
    lex (s :: b) = some (tokens ++ tb) := lex_separated h lex_nil hb

/-! ## Section 6: Readings of texts -/

/-- The tokens are one condition, wherever they stand. -/
def Parses (tokens : List (Token V)) (e : Ast V) : Prop :=
  ∀ outer, ∃ level, Reader.run (.start outer) tokens = some ⟨.after, level, outer⟩ ∧
    level.close = some e

/-- The tokens are no condition, wherever they stand. -/
def Fails (tokens : List (Token V)) : Prop :=
  ∀ outer r, Reader.run (.start outer) tokens = some r → r.mode = .operand

def Reads (symbols : List (Symbol V)) (e : Ast V) : Prop :=
  ∃ tokens, lex symbols = some tokens ∧ Parses tokens e

def Unreadable (symbols : List (Symbol V)) : Prop :=
  ∃ tokens, lex symbols = some tokens ∧ Fails tokens

theorem read_of_reads {symbols : List (Symbol V)} {e : Ast V} (h : Reads symbols e) :
    read symbols = some e := by
  obtain ⟨tokens, hl, hp⟩ := h
  obtain ⟨level, hr, hc⟩ := hp []
  simp [read, hl, parse, hr, hc]

theorem read_of_unreadable {symbols : List (Symbol V)} (h : Unreadable symbols) :
    read symbols = none := by
  obtain ⟨tokens, hl, hf⟩ := h
  cases hr : Reader.run (.start []) tokens with
  | none => simp [read, hl, parse, hr]
  | some r =>
      have hm := hf [] r hr
      simp [read, hl, parse, hr, hm]

theorem readWhere_text (symbols : List (Symbol V)) (tokens : List (Token V))
    (h : lex symbols = some tokens) :
    readWhere (text " WHERE " ++ symbols) = (parse tokens).map some := by
  have hword : lex (text "WHERE" : List (Symbol V)) = some [.word "WHERE".toList] := rfl
  have hl : lex (.char ' ' :: (text "WHERE" ++ .char ' ' :: symbols)) = _ :=
    lex_cons separates_space (lex_separated separates_space hword h)
  have htext : text " WHERE " ++ symbols = .char ' ' :: (text "WHERE" ++ .char ' ' :: symbols) := by
    simp [text]
  rw [htext, readWhere, hl]
  simp

namespace Reader

theorem run_nil (r : Reader V) : run r [] = some r := rfl

theorem run_cons (r : Reader V) (t : Token V) (ts : List (Token V)) :
    run r (t :: ts) = (r.step t).bind fun next => run next ts := rfl

theorem run_append (r : Reader V) (a b : List (Token V)) :
    run r (a ++ b) = (run r a).bind fun next => run next b := List.foldlM_append

/-- A condition in parentheses is an operand of NOT, AND and OR. -/
theorem run_paren {tokens : List (Token V)} {e : Ast V} (h : Parses tokens e)
    (level : Level V) (outer : List (Level V)) :
    run ⟨.operand, level, outer⟩ (.lparen :: tokens ++ [.rparen]) =
      some ⟨.after, level.add e, outer⟩ := by
  obtain ⟨inner, hr, hc⟩ := h (level :: outer)
  have hopen : step ⟨.operand, level, outer⟩ .lparen = some (.start (level :: outer)) := rfl
  rw [List.cons_append, run_cons, hopen, Option.bind_some, run_append, hr, Option.bind_some,
    run_cons]
  simp [step, closing, hc, run_nil]

/-- What is no condition makes everything around it none either. -/
theorem run_paren_fails {tokens : List (Token V)} (h : Fails tokens)
    (level : Level V) (outer : List (Level V)) :
    run ⟨.operand, level, outer⟩ (.lparen :: tokens ++ [.rparen]) = none := by
  have hopen : step ⟨.operand, level, outer⟩ .lparen = some (.start (level :: outer)) := rfl
  rw [List.cons_append, run_cons, hopen, Option.bind_some, run_append]
  cases hr : run (.start (level :: outer)) tokens with
  | none => rfl
  | some r =>
      have hm := h _ r hr
      simp [run_cons, step, hm]

end Reader

/-! ## Section 7: Single conditions -/

def CompareOp.text : CompareOp → String
  | .eq => "="
  | .ne => "<>"
  | .lt => "<"
  | .le => "<="
  | .gt => ">"
  | .ge => ">="
  | .like => "LIKE"

/-- A column, an operator and a value. -/
def compareText (path : List String) (op : CompareOp) (v : V) : List (Symbol V) :=
  .identifier path :: .char ' ' :: (SqlExpressions.text op.text ++ .char ' ' :: [.value v])

theorem reads_compare (path : List String) (op : CompareOp) (v : V) :
    Reads (compareText path op v) (.compare op (.column path) (.value v)) := by
  have hv : lex [.value v] = some [.operand (.value v)] := lex_cons (separates_value v) lex_nil
  have hop : ∃ t, lex (text op.text : List (Symbol V)) = some [t] ∧
      ∀ x level outer, Reader.step ⟨.left x, level, outer⟩ t = some ⟨.right x op, level, outer⟩ := by
    cases op <;> exact ⟨_, rfl, fun _ _ _ => rfl⟩
  obtain ⟨t, hlt, hstep⟩ := hop
  refine ⟨_, lex_cons (separates_identifier path)
    (lex_cons separates_space (lex_separated separates_space hlt hv)), ?_⟩
  intro outer
  refine ⟨⟨none, some (.compare op (.column path) (.value v)), 0⟩, ?_, rfl⟩
  have hleft : Reader.step (.start outer) (.operand (.column path)) =
      some ⟨.left (.column path), .empty, outer⟩ := rfl
  simp only [List.nil_append, List.append_nil, List.cons_append, Reader.run_cons, hleft,
    Option.bind_some, hstep, Reader.run_nil]
  rfl

def isNullText (path : List String) : List (Symbol V) := .identifier path :: text " IS NULL"

theorem reads_isNull (path : List String) :
    Reads (isNullText path : List (Symbol V)) (.isNull (.column path)) := by
  have hl : lex (text " IS NULL" : List (Symbol V)) =
      some [.word "IS".toList, .word "NULL".toList] := rfl
  exact ⟨_, lex_cons (separates_identifier path) hl, fun outer => ⟨_, rfl, rfl⟩⟩

/-- Values with commas between them. -/
def listText : List V → List (Symbol V)
  | [] => []
  | [v] => [.value v]
  | v :: vs => .value v :: (text ", " ++ listText vs)

def listTokens : List V → List (Token V)
  | [] => []
  | [v] => [.operand (.value v)]
  | v :: vs => .operand (.value v) :: .comma :: listTokens vs

theorem lex_list (vs : List V) : lex (listText vs) = some (listTokens vs) := by
  induction vs with
  | nil => rfl
  | cons v vs ih =>
      cases vs with
      | nil => exact lex_cons (separates_value v) lex_nil
      | cons w ws =>
          exact lex_cons (separates_value v) (lex_cons separates_comma (lex_cons separates_space ih))

/-- An IN list is read item by item. -/
theorem run_list (x : Operand V) (vs : List V) (hne : vs ≠ []) (items : List (Operand V))
    (level : Level V) (outer : List (Level V)) :
    Reader.run ⟨.inItem x items, level, outer⟩ (listTokens vs) =
      some ⟨.inNext x (items ++ vs.map .value), level, outer⟩ := by
  induction vs generalizing items with
  | nil => exact absurd rfl hne
  | cons v vs ih =>
      cases vs with
      | nil => rfl
      | cons w ws =>
          have hstep : Reader.run ⟨.inItem x items, level, outer⟩ (listTokens (v :: w :: ws)) =
              Reader.run ⟨.inItem x (items ++ [.value v]), level, outer⟩ (listTokens (w :: ws)) := rfl
          rw [hstep, ih (by simp)]
          simp

def inText (path : List String) (vs : List V) : List (Symbol V) :=
  .identifier path :: (text " IN (" ++ (listText vs ++ text ")"))

theorem reads_in (path : List String) (vs : List V) (hne : vs ≠ []) :
    Reads (inText path vs) (.inList (.column path) (vs.map .value)) := by
  have hin : lex (text " IN" : List (Symbol V)) = some [.word "IN".toList] := rfl
  have hitems : lex (listText vs ++ text ")") = some (listTokens vs ++ [.rparen] ++ []) :=
    lex_separated separates_rparen (lex_list vs) lex_nil
  have hrest : lex (text " IN" ++ .char ' ' :: .char '(' :: (listText vs ++ text ")")) = _ :=
    lex_separated separates_space hin (lex_cons separates_lparen hitems)
  refine ⟨_, lex_cons (separates_identifier path) hrest, ?_⟩
  intro outer
  refine ⟨⟨none, some (.inList (.column path) (vs.map .value)), 0⟩, ?_, rfl⟩
  have hopen : ∀ rest, Reader.run (.start outer)
      (.operand (.column path) :: .word "IN".toList :: .lparen :: rest) =
      Reader.run (V := V) ⟨.inItem (.column path) [], .empty, outer⟩ rest := fun _ => rfl
  simp only [List.nil_append, List.append_nil, List.cons_append, hopen, Reader.run_append,
    run_list (.column path) vs hne, Option.bind_some]
  rfl

/-- The condition that no row meets. -/
theorem reads_never :
    Reads (text "1 = 0" : List (Symbol V)) (.compare .eq (.number 1) (.number 0)) :=
  ⟨_, rfl, fun _ => ⟨_, rfl, rfl⟩⟩

/-- The condition that every row meets. -/
theorem reads_always :
    Reads (text "1 = 1" : List (Symbol V)) (.compare .eq (.number 1) (.number 1)) :=
  ⟨_, rfl, fun _ => ⟨_, rfl, rfl⟩⟩

theorem unreadable_nil : Unreadable ([] : List (Symbol V)) := by
  refine ⟨[], rfl, ?_⟩
  intro outer r h
  obtain rfl := Option.some.inj h
  rfl

/-! ## Section 8: Negations and joins -/

def parenText (a : List (Symbol V)) : List (Symbol V) := .char '(' :: (a ++ text ")")

theorem lex_paren {a : List (Symbol V)} {ta : List (Token V)} (h : lex a = some ta) :
    lex (parenText a) = some (.lparen :: ta ++ [.rparen]) := by
  have hclose : lex (a ++ text ")") = some (ta ++ [.rparen] ++ []) :=
    lex_separated separates_rparen h lex_nil
  rw [List.append_nil] at hclose
  exact lex_cons separates_lparen hclose

def notText (a : List (Symbol V)) : List (Symbol V) := text "NOT " ++ parenText a

theorem lex_not {a : List (Symbol V)} {ta : List (Token V)} (h : lex a = some ta) :
    lex (notText a) = some (.word "NOT".toList :: (.lparen :: ta ++ [.rparen])) := by
  have hnot : lex (text "NOT" : List (Symbol V)) = some [.word "NOT".toList] := rfl
  exact lex_separated separates_space hnot (lex_paren h)

theorem run_not (outer : List (Level V)) (rest : List (Token V)) :
    Reader.run (.start outer) (.word "NOT".toList :: rest) =
      Reader.run ⟨.operand, ⟨none, none, 1⟩, outer⟩ rest := rfl

theorem reads_not {a : List (Symbol V)} {e : Ast V} (h : Reads a e) :
    Reads (notText a) (.not e) := by
  obtain ⟨ta, hl, hp⟩ := h
  refine ⟨_, lex_not hl, ?_⟩
  intro outer
  exact ⟨_, by rw [run_not, Reader.run_paren hp], rfl⟩

theorem unreadable_not {a : List (Symbol V)} (h : Unreadable a) : Unreadable (notText a) := by
  obtain ⟨ta, hl, hf⟩ := h
  refine ⟨_, lex_not hl, ?_⟩
  intro outer r hr
  rw [run_not, Reader.run_paren_fails hf] at hr
  cases hr

inductive Junction where
  | and
  | or

namespace Junction

def word : Junction → String
  | .and => "AND"
  | .or => "OR"

def join : Junction → Ast V → Ast V → Ast V
  | .and => .and
  | .or => .or

/-- The truth of the parts together. -/
def together : Junction → List Truth → Truth
  | .and => all3
  | .or => any3

/-- A level that has read the condition so far, as a chain of this junction only. -/
structure Holds (j : Junction) (level : Level V) (e : Ast V) : Prop where
  nots : level.nots = 0
  close : level.close = some e
  disj : j = .and → level.disj = none

def tailText (j : Junction) (parts : List (List (Symbol V))) : List (Symbol V) :=
  parts.flatMap fun part => text (" " ++ j.word ++ " ") ++ parenText part

/-- The parts, each in parentheses, with the junction between them. -/
def joinedText (j : Junction) : List (List (Symbol V)) → List (Symbol V)
  | [] => []
  | part :: rest => parenText part ++ j.tailText rest

def tailTokens (j : Junction) (parts : List (List (Token V))) : List (Token V) :=
  parts.flatMap fun part => .word j.word.toList :: (.lparen :: part ++ [.rparen])

end Junction

/-- A condition in parentheses is read apart from what comes after it. -/
theorem lex_paren_append {a b : List (Symbol V)} {ta tb : List (Token V)} (ha : lex a = some ta)
    (hb : lex b = some tb) :
    lex (parenText a ++ b) = some ((.lparen :: ta ++ [.rparen]) ++ tb) := by
  have hclose : lex (a ++ .char ')' :: b) = some (ta ++ [.rparen] ++ tb) :=
    lex_separated separates_rparen ha hb
  have hopen := lex_cons separates_lparen hclose
  have heq : parenText a ++ b = .char '(' :: (a ++ .char ')' :: b) := by
    simp [parenText, text]
  rw [heq, hopen]
  simp

/-- The tokens of a text that has some. -/
def tokensOf (symbols : List (Symbol V)) : List (Token V) := (lex symbols).getD []

theorem Reads.tokensOf {symbols : List (Symbol V)} {e : Ast V} (h : Reads symbols e) :
    lex symbols = some (tokensOf symbols) ∧ Parses (tokensOf symbols) e := by
  obtain ⟨tokens, hl, hp⟩ := h
  simp only [SqlExpressions.tokensOf, hl, Option.getD_some, true_and]
  exact hp

theorem Unreadable.tokensOf {symbols : List (Symbol V)} (h : Unreadable symbols) :
    lex symbols = some (tokensOf symbols) ∧ Fails (tokensOf symbols) := by
  obtain ⟨tokens, hl, hf⟩ := h
  simp only [SqlExpressions.tokensOf, hl, Option.getD_some, true_and]
  exact hf

namespace Junction

theorem lex_tail (j : Junction) (parts : List (List (Symbol V)))
    (h : ∀ part ∈ parts, lex part = some (tokensOf part)) :
    lex (j.tailText parts) = some (j.tailTokens (parts.map tokensOf)) := by
  induction parts with
  | nil => rfl
  | cons part parts ih =>
      have hpart := lex_paren_append (h part (by simp)) (ih fun q hq => h q (by simp [hq]))
      have hword : lex (text j.word : List (Symbol V)) = some [.word j.word.toList] := by
        cases j <;> rfl
      have hall := lex_cons separates_space (lex_separated separates_space hword hpart)
      have htext : j.tailText (part :: parts) =
          .char ' ' :: (text j.word ++ .char ' ' :: (parenText part ++ j.tailText parts)) := by
        cases j <;> simp [tailText, text, word]
      rw [htext, hall]
      simp [tailTokens]

theorem holds_start (j : Junction) (e : Ast V) : j.Holds (Level.empty.add e) e :=
  ⟨rfl, rfl, fun _ => rfl⟩

/-- The junction and one more condition. -/
theorem run_next (j : Junction) {level : Level V} {c : Ast V} (h : j.Holds level c)
    (outer : List (Level V)) :
    ∃ next : Level V,
      Reader.step ⟨.after, level, outer⟩ (.word j.word.toList) = some ⟨.operand, next, outer⟩ ∧
      ∀ e, j.Holds (next.add e) (j.join c e) := by
  obtain ⟨disj, conj, nots⟩ := level
  obtain ⟨hnots, hclose, hdisj⟩ := h
  obtain rfl : nots = 0 := hnots
  obtain ⟨a, ha, hc⟩ := Option.map_eq_some_iff.mp hclose
  simp only at ha hc
  subst ha
  cases j with
  | and =>
      obtain rfl : disj = none := hdisj rfl
      subst hc
      exact ⟨⟨none, some a, 0⟩, rfl, fun e => ⟨rfl, rfl, fun _ => rfl⟩⟩
  | or =>
      refine ⟨_, rfl, ?_⟩
      intro e
      refine ⟨rfl, ?_, fun hj => nomatch hj⟩
      subst hc
      cases disj <;> rfl

theorem run_tail (j : Junction) {tokens : List (List (Token V))} {es : List (Ast V)}
    (h : List.Forall₂ Parses tokens es) {level : Level V} {c : Ast V} (hc : j.Holds level c)
    (outer : List (Level V)) :
    ∃ last, Reader.run ⟨.after, level, outer⟩ (j.tailTokens tokens) = some ⟨.after, last, outer⟩ ∧
      j.Holds last (es.foldl j.join c) := by
  induction h generalizing level c with
  | nil => exact ⟨level, rfl, hc⟩
  | @cons t e ts es ht _ ih =>
      obtain ⟨next, hstep, hnext⟩ := j.run_next hc outer
      obtain ⟨last, hlast, hholds⟩ := ih (hnext e)
      refine ⟨last, ?_, hholds⟩
      have htail : j.tailTokens (t :: ts) =
          .word j.word.toList :: ((.lparen :: t ++ [.rparen]) ++ j.tailTokens ts) := rfl
      rw [htail, Reader.run_cons, hstep, Option.bind_some, Reader.run_append,
        Reader.run_paren ht, Option.bind_some, hlast]

theorem run_tail_fails (j : Junction) {tokens : List (List (Token V))}
    (h : ∀ t ∈ tokens, (∃ e, Parses t e) ∨ Fails t) (hbad : ∃ t ∈ tokens, Fails t)
    {level : Level V} {c : Ast V} (hc : j.Holds level c) (outer : List (Level V)) :
    Reader.run ⟨.after, level, outer⟩ (j.tailTokens tokens) = none := by
  induction tokens generalizing level c with
  | nil =>
      obtain ⟨t, ht, _⟩ := hbad
      cases ht
  | cons t ts ih =>
      obtain ⟨next, hstep, hnext⟩ := j.run_next hc outer
      have htail : j.tailTokens (t :: ts) =
          .word j.word.toList :: ((.lparen :: t ++ [.rparen]) ++ j.tailTokens ts) := rfl
      rw [htail, Reader.run_cons, hstep, Option.bind_some, Reader.run_append]
      by_cases hf : Fails t
      · rw [Reader.run_paren_fails hf, Option.bind_none]
      · -- the part itself is read, so a later one is not
        obtain ⟨e, he⟩ := (h t (by simp)).resolve_right hf
        have hlater : ∃ u ∈ ts, Fails u := by
          obtain ⟨u, hu, hfu⟩ := hbad
          rcases List.mem_cons.mp hu with rfl | hu
          · exact absurd hfu hf
          · exact ⟨u, hu, hfu⟩
        rw [Reader.run_paren he, Option.bind_some]
        exact ih (fun u hu => h u (by simp [hu])) hlater (hnext e)

theorem reads_joined (j : Junction) {part : List (Symbol V)} {rest : List (List (Symbol V))}
    {e : Ast V} {es : List (Ast V)} (h : Reads part e) (hrest : List.Forall₂ Reads rest es) :
    Reads (j.joinedText (part :: rest)) (es.foldl j.join e) := by
  obtain ⟨hlex, hparse⟩ := (List.forall₂_and_left _ _).mp (hrest.imp fun _ _ hr => hr.tokensOf)
  have hparse := List.forall₂_map_left_iff.mpr hparse
  refine ⟨_, lex_paren_append h.tokensOf.1 (j.lex_tail rest hlex), ?_⟩
  intro outer
  obtain ⟨last, hrun, hholds⟩ := j.run_tail hparse (j.holds_start e) outer
  refine ⟨last, ?_, hholds.close⟩
  have hfirst := Reader.run_paren h.tokensOf.2 .empty outer
  rw [Reader.run_append]
  exact (congrArg (Option.bind · _) hfirst).trans hrun

theorem unreadable_joined (j : Junction) {parts : List (List (Symbol V))}
    (h : ∀ part ∈ parts, (∃ e, Reads part e) ∨ Unreadable part)
    (hbad : ∃ part ∈ parts, Unreadable part) : Unreadable (j.joinedText parts) := by
  have htokens : ∀ part ∈ parts, lex part = some (tokensOf part) ∧
      ((∃ e, Parses (tokensOf part) e) ∨ Fails (tokensOf part)) := by
    intro part hpart
    rcases h part hpart with ⟨e, hr⟩ | hu
    · exact ⟨hr.tokensOf.1, .inl ⟨e, hr.tokensOf.2⟩⟩
    · exact ⟨hu.tokensOf.1, .inr hu.tokensOf.2⟩
  cases parts with
  | nil =>
      obtain ⟨part, hpart, _⟩ := hbad
      cases hpart
  | cons part rest =>
      refine ⟨_, lex_paren_append (htokens part (by simp)).1
        (j.lex_tail rest fun q hq => (htokens q (by simp [hq])).1), ?_⟩
      intro outer r hr
      rw [Reader.run_append] at hr
      by_cases hf : Fails (tokensOf part)
      · have hfirst := Reader.run_paren_fails hf .empty outer
        rw [show Reader.run (.start outer) _ = none from hfirst] at hr
        cases hr
      · obtain ⟨e, he⟩ := (htokens part (by simp)).2.resolve_right hf
        have hfirst := Reader.run_paren he .empty outer
        have hlater : ∃ t ∈ rest.map tokensOf, Fails t := by
          obtain ⟨q, hq, hu⟩ := hbad
          rcases List.mem_cons.mp hq with rfl | hq
          · exact absurd hu.tokensOf.2 hf
          · exact ⟨_, List.mem_map_of_mem hq, hu.tokensOf.2⟩
        have hall : ∀ t ∈ rest.map tokensOf, (∃ e, Parses t e) ∨ Fails t := by
          intro t ht
          obtain ⟨q, hq, rfl⟩ := List.mem_map.mp ht
          exact (htokens q (by simp [hq])).2
        have htail := j.run_tail_fails hall hlater (j.holds_start e) outer
        rw [show Reader.run (.start outer) _ = _ from hfirst, Option.bind_some, htail] at hr
        cases hr

end Junction

/-! ## Section 9: The meaning of a text -/

-- the equations of the evaluation are generated here once, before the lemmas that need them
section

attribute [local simp] Values.eval Values.operand

end

/-- The text is one condition, and this is its truth at every row. -/
def Means (values : Values V) (symbols : List (Symbol V))
    (truth : (List String → V) → Truth) : Prop :=
  ∃ e, Reads symbols e ∧ ∀ row, values.eval row e = truth row

variable (values : Values V)

theorem means_compare (path : List String) (op : CompareOp) (v : V) :
    Means values (compareText path op v) fun row => values.compare3 op (row path) v :=
  ⟨_, reads_compare path op v, fun _ => rfl⟩

theorem means_isNull (path : List String) :
    Means values (isNullText path) fun row => some (values.isNull (row path)) :=
  ⟨_, reads_isNull path, fun _ => rfl⟩

theorem means_in (path : List String) (vs : List V) (hne : vs ≠ []) :
    Means values (inText path vs) fun row => values.in3 (row path) vs := by
  refine ⟨_, reads_in path vs hne, ?_⟩
  intro row
  simp [Values.eval, Values.operand, Function.comp_def]

theorem means_never : Means values (text "1 = 0") fun _ => some false :=
  ⟨_, reads_never, fun _ => by
    simp [Values.eval, Values.operand, Values.compare3, values.number_null, values.number_eq]⟩

theorem means_always : Means values (text "1 = 1") fun _ => some true :=
  ⟨_, reads_always, fun _ => by
    simp [Values.eval, Values.operand, Values.compare3, values.number_null, values.number_eq]⟩

theorem means_not {a : List (Symbol V)} {truth : (List String → V) → Truth}
    (h : Means values a truth) : Means values (notText a) fun row => not3 (truth row) := by
  obtain ⟨e, hr, ht⟩ := h
  refine ⟨.not e, reads_not hr, ?_⟩
  intro row
  rw [Values.eval, ht]

namespace Junction

theorem eval_chain (j : Junction) (row : List String → V) (e : Ast V) (es : List (Ast V)) :
    values.eval row (es.foldl j.join e) = j.together ((e :: es).map (values.eval row)) := by
  have hfold : ∀ c : Ast V, values.eval row (es.foldl j.join c) =
      (es.map (values.eval row)).foldl (match j with | .and => and3 | .or => or3)
        (values.eval row c) := by
    induction es with
    | nil =>
        intro c
        rfl
    | cons x xs ih =>
        intro c
        rw [List.foldl_cons, ih, List.map_cons, List.foldl_cons]
        cases j <;> rfl
  rw [hfold]
  cases j with
  | and => exact foldl_and3 _ _
  | or => exact foldl_or3 _ _

/-- Joining texts in parentheses joins what they mean. -/
theorem means_joined (j : Junction) {parts : List (List (Symbol V))}
    {truths : List ((List String → V) → Truth)} (hne : parts ≠ [])
    (h : List.Forall₂ (Means values) parts truths) :
    Means values (j.joinedText parts) fun row => j.together (truths.map (· row)) := by
  have hasts : ∀ {ps : List (List (Symbol V))} {ts : List ((List String → V) → Truth)},
      List.Forall₂ (Means values) ps ts → ∃ es, List.Forall₂ Reads ps es ∧
        ∀ row, es.map (values.eval row) = ts.map (· row) := by
    intro ps ts hps
    induction hps with
    | nil => exact ⟨[], .nil, fun _ => rfl⟩
    | cons hp _ ih =>
        obtain ⟨e, hr, ht⟩ := hp
        obtain ⟨es, hrs, hts⟩ := ih
        exact ⟨e :: es, .cons hr hrs, fun row => by simp [ht, hts]⟩
  obtain ⟨es, hreads, hmeans⟩ := hasts h
  cases hreads with
  | nil => exact absurd rfl hne
  | @cons part e rest es hr hrs =>
      refine ⟨_, j.reads_joined hr hrs, ?_⟩
      intro row
      rw [j.eval_chain values row e es, hmeans row]

end Junction

/-- A WHERE clause means what its condition means. -/
theorem Means.readWhere {symbols : List (Symbol V)} {truth : (List String → V) → Truth}
    (h : Means values symbols truth) :
    ∃ e, SqlExpressions.readWhere (text " WHERE " ++ symbols) = some (some e) ∧
      ∀ row, values.eval row e = truth row := by
  obtain ⟨e, hr, ht⟩ := h
  have hread := read_of_reads hr
  rw [read, hr.tokensOf.1, Option.bind_some] at hread
  exact ⟨e, by rw [readWhere_text symbols _ hr.tokensOf.1, hread, Option.map_some], ht⟩

theorem Unreadable.readWhere {symbols : List (Symbol V)} (h : Unreadable symbols) :
    SqlExpressions.readWhere (text " WHERE " ++ symbols) = none := by
  have hread := read_of_unreadable h
  rw [read, h.tokensOf.1, Option.bind_some] at hread
  rw [readWhere_text symbols _ h.tokensOf.1, hread, Option.map_none]

end SqlExpressions
