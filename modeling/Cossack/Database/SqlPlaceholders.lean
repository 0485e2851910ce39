import Cossack.Database.SqlFragments
import Mathlib.Data.List.Forall2

/-! # Placeholders and parameters of a compiled query

    A fragment is read as its symbols, whatever its nesting.  Its text numbers
    the values among them from one, and its parameters are what they are bound
    to, in the same order. -/

namespace Cossack.Database.Sql

open Query (SQLNode SQLFragment symbols symbols_nil symbols_cons symbols_append)
open SqlExpressions (Symbol)

variable {N : Type}

/-! ## Section 1: Compiling symbol by symbol -/

def emit (d : Dialect) (q : CompiledQuery N) : Symbol (SQLPrimitive N) → Except String (CompiledQuery N)
  | .char c => pure { q with text := q.text.push c }
  | .identifier path => pure { q with text := q.text ++ ".".intercalate (path.map d.quoteIdentifier) }
  | .value bound => do
      let parameter ← bindValue d bound
      pure ⟨q.text ++ d.placeholder (q.parameters.length + 1), q.parameters ++ [parameter]⟩

theorem emit_chars (d : Dialect) (chars : List Char) (q : CompiledQuery N) :
    (chars.map Symbol.char).foldlM (emit d) q = .ok { q with text := q.text ++ String.ofList chars } := by
  induction chars generalizing q with
  | nil => simp [pure, Except.pure]
  | cons c chars ih =>
    rw [List.map_cons, List.foldlM_cons, emit, pure_bind, ih]
    congr 2
    apply String.toList_injective
    simp

theorem emit_text (d : Dialect) (value : String) (q : CompiledQuery N) :
    (SqlExpressions.text value).foldlM (emit d) q = .ok { q with text := q.text ++ value } := by
  rw [SqlExpressions.text, emit_chars, String.ofList_toList]

mutual

theorem visitNode_eq (d : Dialect) (q : CompiledQuery N) :
    ∀ node : SQLNode (SQLPrimitive N), visitNode d q node = node.symbols.foldlM (emit d) q
  | .text value => by rw [visitNode, SQLNode.symbols, emit_text]; rfl
  | .unsafeText value => by rw [visitNode, SQLNode.symbols, emit_text]; rfl
  | .identifier path => by simp only [visitNode, SQLNode.symbols, List.foldlM_cons, emit, List.foldlM_nil, pure_bind]
  | .value bound => by
      simp only [visitNode, SQLNode.symbols, List.foldlM_cons, emit, List.foldlM_nil, bind_pure,
        List.length_append, List.length_singleton]
  | .fragment nodes => by rw [visitNode, SQLNode.symbols, visit_eq d q nodes]

/-- The nesting of the fragments leaves no trace. -/
theorem visit_eq (d : Dialect) (q : CompiledQuery N) :
    ∀ nodes : List (SQLNode (SQLPrimitive N)), visit d q nodes = (symbols nodes).foldlM (emit d) q
  | [] => by rw [visit, symbols_nil, List.foldlM_nil]
  | node :: nodes => by
      rw [visit, symbols_cons, List.foldlM_append, visitNode_eq d q node]
      congr 1
      funext q'
      exact visit_eq d q' nodes

end

/-! ## Section 2: Pieces -/

inductive Piece (N : Type) where
  | literal (text : String)
  | placeholder (index : Nat) (bound : SQLPrimitive N)

def Piece.text (d : Dialect) : Piece N → String
  | .literal text => text
  | .placeholder index _ => d.placeholder index

/-- The number and the value of a placeholder. -/
def Piece.hole : Piece N → Option (Nat × SQLPrimitive N)
  | .literal _ => none
  | .placeholder index bound => some (index, bound)

/-- The text cut at its placeholders, the first of them with number `next`. -/
def piecesFrom (d : Dialect) (next : Nat) : List (Symbol (SQLPrimitive N)) → List (Piece N)
  | [] => []
  | .char c :: rest => .literal (String.singleton c) :: piecesFrom d next rest
  | .identifier path :: rest =>
      .literal (".".intercalate (path.map d.quoteIdentifier)) :: piecesFrom d next rest
  | .value bound :: rest => .placeholder next bound :: piecesFrom d (next + 1) rest

def pieces (d : Dialect) (fragment : Fragment N) : List (Piece N) := piecesFrom d 1 (symbols fragment)

def textOf (d : Dialect) (pieces : List (Piece N)) : String := String.join (pieces.map (Piece.text d))

def holes (pieces : List (Piece N)) : List (Nat × SQLPrimitive N) := pieces.filterMap Piece.hole

/-- A placeholder is bound to the parameter in its place. -/
def Binds (d : Dialect) (hole : Nat × SQLPrimitive N) (parameter : DatabaseValue N) : Prop :=
  bindValue d hole.2 = .ok parameter

@[simp] theorem textOf_nil (d : Dialect) : textOf d ([] : List (Piece N)) = "" := rfl

@[simp] theorem textOf_cons (d : Dialect) (piece : Piece N) (rest : List (Piece N)) :
    textOf d (piece :: rest) = piece.text d ++ textOf d rest := by
  simp only [textOf, List.map_cons, String.join_cons]

/-- What compiling from `q` on adds, if every value can be bound. -/
theorem emit_all (d : Dialect) (symbols : List (Symbol (SQLPrimitive N))) (q r : CompiledQuery N) :
    symbols.foldlM (emit d) q = .ok r ↔
      ∃ parameters, r = ⟨q.text ++ textOf d (piecesFrom d (q.parameters.length + 1) symbols),
          q.parameters ++ parameters⟩ ∧
        List.Forall₂ (Binds d) (holes (piecesFrom d (q.parameters.length + 1) symbols)) parameters := by
  induction symbols generalizing q with
  | nil =>
    simp only [List.foldlM_nil, Outcome.pure_eq_ok, piecesFrom, holes, List.filterMap_nil, textOf_nil,
      String.append_empty]
    constructor
    · rintro rfl
      exact ⟨[], by rw [List.append_nil], .nil⟩
    · rintro ⟨parameters, rfl, hbinds⟩
      cases hbinds
      rw [List.append_nil]
  | cons symbol rest ih =>
    cases symbol with
    | char c =>
      have htext : q.text.push c = q.text ++ String.singleton c := by
        apply String.toList_injective
        simp
      simp only [List.foldlM_cons, emit, pure_bind, ih, htext, piecesFrom, textOf_cons, Piece.text,
        String.append_assoc, holes, List.filterMap_cons, Piece.hole]
    | identifier path =>
      simp only [List.foldlM_cons, emit, pure_bind, ih, piecesFrom, textOf_cons, Piece.text,
        String.append_assoc, holes, List.filterMap_cons, Piece.hole]
    | value bound =>
      simp only [List.foldlM_cons, emit, piecesFrom, textOf_cons, Piece.text, holes,
        List.filterMap_cons, Piece.hole]
      cases hbind : bindValue d bound with
      | error message =>
        constructor
        · intro h
          cases h
        · rintro ⟨parameters, -, hbinds⟩
          cases hbinds with
          | cons hhead htail => rw [Binds, hbind] at hhead; cases hhead
      | ok parameter =>
        simp only [Outcome.ok_bind, pure_bind, ih, List.length_append, List.length_singleton,
          String.append_assoc, List.append_assoc, List.singleton_append]
        constructor
        · rintro ⟨parameters, rfl, hbinds⟩
          exact ⟨parameter :: parameters, rfl, .cons hbind hbinds⟩
        · rintro ⟨parameters, rfl, hbinds⟩
          cases hbinds with
          | @cons _ first _ others hhead htail =>
            obtain rfl : parameter = first := Except.ok.inj (hbind.symm.trans hhead)
            exact ⟨others, rfl, htail⟩

/-- A compiled query and its fragment's placeholders. -/
theorem compileSQL_ok (d : Dialect) (fragment : Fragment N) (q : CompiledQuery N) :
    compileSQL fragment d = .ok q ↔
      q.text = textOf d (pieces d fragment) ∧
      List.Forall₂ (Binds d) (holes (pieces d fragment)) q.parameters := by
  rw [compileSQL, visit_eq, emit_all]
  simp only [List.length_nil, Nat.zero_add, String.empty_append, List.nil_append]
  constructor
  · rintro ⟨parameters, rfl, hbinds⟩
    exact ⟨rfl, hbinds⟩
  · rintro ⟨htext, hbinds⟩
    obtain ⟨text, parameters⟩ := q
    obtain rfl : text = textOf d (pieces d fragment) := htext
    exact ⟨parameters, rfl, hbinds⟩

/-! ## Section 3: Numbering -/

/-- The values a fragment binds, in order. -/
def boundValues (symbols : List (Symbol (SQLPrimitive N))) : List (SQLPrimitive N) :=
  symbols.filterMap fun
    | .value bound => some bound
    | _ => none

/-- Placeholders are numbered one after the other. -/
theorem holes_piecesFrom (d : Dialect) (next : Nat) (symbols : List (Symbol (SQLPrimitive N))) :
    holes (piecesFrom d next symbols) =
      (List.range' next (boundValues symbols).length).zip (boundValues symbols) := by
  induction symbols generalizing next with
  | nil => rfl
  | cons symbol rest ih =>
    cases symbol with
    | char c => exact ih next
    | identifier path => exact ih next
    | value bound =>
      have : holes (piecesFrom d next (.value bound :: rest)) =
          (next, bound) :: holes (piecesFrom d (next + 1) rest) := rfl
      rw [this, ih (next + 1)]
      rfl

theorem holes_pieces (d : Dialect) (fragment : Fragment N) :
    holes (pieces d fragment) = (List.range' 1 (boundValues (symbols fragment)).length).zip
      (boundValues (symbols fragment)) :=
  holes_piecesFrom d 1 _

theorem holes_values (d : Dialect) (fragment : Fragment N) :
    (holes (pieces d fragment)).map Prod.snd = boundValues (symbols fragment) := by
  rw [holes_pieces, List.map_snd_zip (by simp)]

theorem bindValue_ok (d : Dialect) (bound : SQLPrimitive N) :
    (∃ parameter, bindValue d bound = .ok parameter) ↔ bound ≠ some (.date none) := by
  cases bound with
  | none => exact ⟨fun _ => nofun, fun _ => ⟨.null, rfl⟩⟩
  | some value =>
    cases value with
    | date time =>
      cases time with
      | none => exact ⟨fun ⟨_, h⟩ => (nomatch h), fun h => absurd rfl h⟩
      | some time => exact ⟨fun _ => nofun, fun _ => ⟨_, rfl⟩⟩
    | _ => exact ⟨fun _ => nofun, fun _ => ⟨_, rfl⟩⟩

/-- Only an invalid date keeps a fragment from being compiled. -/
theorem compileSQL_succeeds (d : Dialect) (fragment : Fragment N) :
    (∃ q, compileSQL fragment d = .ok q) ↔ some (.date none) ∉ boundValues (symbols fragment) := by
  have hall (l : List (Nat × SQLPrimitive N)) : (∃ parameters, List.Forall₂ (Binds d) l parameters) ↔
      some (.date none) ∉ l.map Prod.snd := by
    induction l with
    | nil => exact ⟨fun _ => nofun, fun _ => ⟨[], .nil⟩⟩
    | cons hole rest ih =>
      rw [List.map_cons, List.mem_cons, not_or, ← ih, ← ne_eq, ne_comm, ← bindValue_ok d]
      constructor
      · rintro ⟨parameters, hbinds⟩
        cases hbinds with
        | cons hhead htail => exact ⟨⟨_, hhead⟩, _, htail⟩
      · rintro ⟨⟨parameter, hhead⟩, parameters, htail⟩
        exact ⟨parameter :: parameters, .cons hhead htail⟩
  rw [← holes_values d, ← hall]
  constructor
  · rintro ⟨q, hq⟩
    exact ⟨q.parameters, ((compileSQL_ok d fragment q).mp hq).2⟩
  · rintro ⟨parameters, hbinds⟩
    exact ⟨⟨_, parameters⟩, (compileSQL_ok d fragment _).mpr ⟨rfl, hbinds⟩⟩

/-! ## Section 4: Fragments that differ in bound values -/

/-- Every bound value becomes `null`. -/
def eraseSymbol : Symbol (SQLPrimitive N) → Symbol (SQLPrimitive N)
  | .value _ => .value (some .null)
  | symbol => symbol

mutual

def eraseNode : SQLNode (SQLPrimitive N) → SQLNode (SQLPrimitive N)
  | .value _ => .value (some .null)
  | .fragment nodes => .fragment (erase nodes)
  | .text value => .text value
  | .unsafeText value => .unsafeText value
  | .identifier path => .identifier path

def erase : Fragment N → Fragment N
  | [] => []
  | node :: nodes => eraseNode node :: erase nodes

end

theorem text_eraseSymbol (value : String) :
    (SqlExpressions.text value : List (Symbol (SQLPrimitive N))).map eraseSymbol = SqlExpressions.text value := by
  rw [SqlExpressions.text, List.map_map]
  rfl

mutual

theorem symbols_eraseNode : ∀ node : SQLNode (SQLPrimitive N),
    (eraseNode node).symbols = node.symbols.map eraseSymbol
  | .text value => by rw [eraseNode, SQLNode.symbols, text_eraseSymbol]
  | .unsafeText value => by rw [eraseNode, SQLNode.symbols, text_eraseSymbol]
  | .identifier path => by simp only [eraseNode, SQLNode.symbols]; rfl
  | .value bound => by simp only [eraseNode, SQLNode.symbols]; rfl
  | .fragment nodes => by rw [eraseNode, SQLNode.symbols, SQLNode.symbols, symbols_erase nodes]

theorem symbols_erase : ∀ fragment : Fragment N,
    symbols (erase fragment) = (symbols fragment).map eraseSymbol
  | [] => by rw [erase, symbols_nil]; rfl
  | node :: nodes => by
      rw [erase, symbols_cons, symbols_cons, symbols_eraseNode node, symbols_erase nodes, List.map_append]

end

theorem textOf_erase (d : Dialect) (next : Nat) (symbols : List (Symbol (SQLPrimitive N))) :
    textOf d (piecesFrom d next (symbols.map eraseSymbol)) = textOf d (piecesFrom d next symbols) := by
  induction symbols generalizing next with
  | nil => rfl
  | cons symbol rest ih =>
    cases symbol with
    | char c => simp only [List.map_cons, eraseSymbol, piecesFrom, textOf_cons, ih]
    | identifier path => simp only [List.map_cons, eraseSymbol, piecesFrom, textOf_cons, ih]
    | value bound => simp only [List.map_cons, eraseSymbol, piecesFrom, textOf_cons, ih, Piece.text]

/-- The text does not depend on the bound values. -/
theorem textOf_alike (d : Dialect) {f g : Fragment N} (h : erase f = erase g) :
    textOf d (pieces d f) = textOf d (pieces d g) := by
  rw [pieces, ← textOf_erase, ← symbols_erase, h, symbols_erase, textOf_erase, pieces]

/-! ## Section 5: The tag does not look at bound values -/

theorem erase_append (a b : Fragment N) : erase (a ++ b) = erase a ++ erase b := by
  induction a with
  | nil => simp only [erase, List.nil_append]
  | cons node rest ih => simp only [List.cons_append, erase, ih]

theorem erase_intercalate (separator : Fragment N) (parts : List (Fragment N)) :
    erase (separator.intercalate parts) = (erase separator).intercalate (parts.map erase) := by
  induction parts with
  | nil => simp [List.intercalate, erase]
  | cons part rest ih =>
    cases rest with
    | nil => simp [List.intercalate]
    | cons next rest =>
      rw [List.intercalate_cons_cons, erase_append, erase_append, ih]
      simp only [List.map_cons, List.intercalate_cons_cons]

theorem erase_commaSeparated (parts : List (Fragment N)) :
    erase (commaSeparated parts) = commaSeparated (parts.map erase) := by
  rw [commaSeparated, erase_intercalate]
  simp only [erase, eraseNode, commaSeparated]

def eraseHole : SQLInterpolation N (Fragment N) → SQLInterpolation N (Fragment N)
  | .value _ => .value (some .null)
  | .fragment nested => .fragment (erase nested)
  | .array items => .array (items.map fun _ => .null)

mutual

theorem eraseNode_eraseNode : ∀ node : SQLNode (SQLPrimitive N), eraseNode (eraseNode node) = eraseNode node
  | .text value => by simp only [eraseNode]
  | .unsafeText value => by simp only [eraseNode]
  | .identifier path => by simp only [eraseNode]
  | .value bound => by simp only [eraseNode]
  | .fragment nodes => by simp only [eraseNode, erase_erase nodes]

theorem erase_erase : ∀ fragment : Fragment N, erase (erase fragment) = erase fragment
  | [] => by simp only [erase]
  | node :: nodes => by simp only [erase, eraseNode_eraseNode node, erase_erase nodes]

end

theorem nodes_eraseHole (hole : SQLInterpolation N (Fragment N)) :
    (eraseHole hole).nodes.map erase = hole.nodes.map erase := by
  cases hole with
  | value bound => rfl
  | fragment nested => simp [eraseHole, SQLInterpolation.nodes, pure, Except.pure, Except.map, erase, eraseNode, erase_erase]
  | array items =>
    cases items with
    | nil => rfl
    | cons first rest =>
      simp only [eraseHole, SQLInterpolation.nodes, List.map_cons, pure, Except.pure, Except.map,
        erase_commaSeparated, List.map_map]
      rfl

theorem nodesFor_eraseHole (strings : List String) (holes : List (SQLInterpolation N (Fragment N))) :
    (nodesFor strings (holes.map eraseHole)).map erase = (nodesFor strings holes).map erase := by
  induction strings generalizing holes with
  | nil => rfl
  | cons text strings ih =>
    cases holes with
    | nil => rfl
    | cons hole holes =>
      rw [List.map_cons, nodesFor, nodesFor]
      refine Outcome.bind_map_congr (nodes_eraseHole hole) ?_
      intro a b hab
      refine Outcome.bind_map_congr (ih holes) ?_
      intro rest rest' hrest
      simp only [pure, Except.pure, Except.map, erase_append, hab, hrest]

theorem erase_joined (hole : SQLInterpolation N (Fragment N)) :
    erase (eraseHole hole).joined = erase hole.joined := by
  cases hole with
  | value bound => rfl
  | fragment nested => simp only [eraseHole, SQLInterpolation.joined, erase, eraseNode, erase_erase]
  | array items => rfl

theorem tagJoin_eraseHole (holes : List (SQLInterpolation N (Fragment N))) {separator separator' : Fragment N}
    (h : erase separator = erase separator') :
    (tagJoin (holes.map eraseHole) separator).map erase = (tagJoin holes separator').map erase := by
  cases holes with
  | nil => rfl
  | cons hole holes =>
    simp only [tagJoin, List.map_cons, pure, Except.pure, Except.map, erase_intercalate, List.map_map,
      Function.comp_def, erase_joined, erase, eraseNode, h]

/-- The record with the same properties and no values. -/
def eraseRow (row : Row N) : Row N := row.map fun entry => (entry.1, some .null)

@[simp] theorem keys_eraseRow (row : Row N) : (eraseRow row).map Prod.fst = row.map Prod.fst := by
  rw [eraseRow, List.map_map]
  rfl

@[simp] theorem rowKey_eraseRow (row : Row N) : rowKey (eraseRow row) = rowKey row := by
  rw [rowKey, keys_eraseRow, rowKey]

theorem tagValues_eraseRow (rows : List (Row N)) :
    (tagValues (rows.map eraseRow)).map erase = (tagValues rows).map erase := by
  cases rows with
  | nil => rfl
  | cons first rest =>
    have hkeys : ((first :: rest).map eraseRow).any (fun row => rowKey row != rowKey (eraseRow first)) =
        (first :: rest).any (fun row => rowKey row != rowKey first) := by
      rw [List.any_map]
      simp only [Function.comp_def, rowKey_eraseRow]
    have hrows (columns : List String) :
        erase (commaSeparated (((first :: rest).map eraseRow).map fun row => [.text "("] ++
          commaSeparated (columns.map fun column => [.value (rowValue row column)]) ++ [.text ")"])) =
        erase (commaSeparated ((first :: rest).map fun row => [.text "("] ++
          commaSeparated (columns.map fun column => [.value (rowValue row column)]) ++ [.text ")"])) := by
      simp only [erase_commaSeparated, List.map_map, Function.comp_def, erase_append, erase,
        eraseNode]
    rw [List.map_cons] at hkeys hrows ⊢
    simp only [tagValues, keys_eraseRow, hkeys]
    split
    · rfl
    · split
      · rfl
      · simp only [pure, Except.pure, Except.map, erase_append, hrows]

/-! ## Section 6: Builds that differ in bound values -/

mutual

def Build.erase : Build N → Build N
  | .tag strings values => .tag strings (eraseValues values)
  | .id path => .id path
  | .join values separator => .join (eraseValues values) (eraseSeparator separator)
  | .values rows => .values (rows.map eraseRow)
  | .unsafeText text => .unsafeText text
  | .append fragment appended => .append fragment.erase appended.erase

def eraseValues : List (SQLInterpolation N (Build N)) → List (SQLInterpolation N (Build N))
  | [] => []
  | .value _ :: rest => .value (some .null) :: eraseValues rest
  | .array items :: rest => .array (items.map fun _ => .null) :: eraseValues rest
  | .fragment built :: rest => .fragment built.erase :: eraseValues rest

def eraseSeparator : Option (Build N) → Option (Build N)
  | none => none
  | some built => some built.erase

end

mutual

theorem run_erase : ∀ build : Build N, build.erase.run.map erase = build.run.map erase
  | .tag strings values => by
      rw [Build.erase, Build.run, Build.run]
      refine Outcome.bind_map_congr (runValues_erase values) ?_
      intro holes holes' hholes
      rw [← nodesFor_eraseHole, hholes, nodesFor_eraseHole]
  | .id path => by rw [Build.erase]
  | .join values separator => by
      rw [Build.erase, Build.run, Build.run]
      refine Outcome.bind_map_congr (runValues_erase values) ?_
      intro holes holes' hholes
      refine Outcome.bind_map_congr (runSeparator_erase separator) ?_
      intro nodes nodes' hnodes
      rw [← tagJoin_eraseHole holes rfl, hholes, tagJoin_eraseHole holes' hnodes]
  | .values rows => by rw [Build.erase, Build.run, Build.run, tagValues_eraseRow]
  | .unsafeText text => by rw [Build.erase]
  | .append fragment appended => by
      rw [Build.erase, Build.run, Build.run]
      refine Outcome.bind_map_congr (run_erase fragment) ?_
      intro nodes nodes' hnodes
      refine Outcome.bind_map_congr (run_erase appended) ?_
      intro last last' hlast
      simp only [pure, Except.pure, Except.map, erase_append, erase, eraseNode, hnodes, hlast]

theorem runValues_erase : ∀ values : List (SQLInterpolation N (Build N)),
    (runValues (eraseValues values)).map (List.map eraseHole) = (runValues values).map (List.map eraseHole)
  | [] => by rw [eraseValues]
  | .value bound :: rest => by
      rw [eraseValues, runValues, runValues]
      refine Outcome.bind_map_congr (runValues_erase rest) ?_
      intro holes holes' hholes
      simp only [pure, Except.pure, Except.map, List.map_cons, hholes, eraseHole]
  | .array items :: rest => by
      rw [eraseValues, runValues, runValues]
      refine Outcome.bind_map_congr (runValues_erase rest) ?_
      intro holes holes' hholes
      simp only [pure, Except.pure, Except.map, List.map_cons, hholes, eraseHole, List.map_map, Function.comp_def]
  | .fragment built :: rest => by
      rw [eraseValues, runValues, runValues]
      refine Outcome.bind_map_congr (run_erase built) ?_
      intro nodes nodes' hnodes
      refine Outcome.bind_map_congr (runValues_erase rest) ?_
      intro holes holes' hholes
      simp only [pure, Except.pure, Except.map, List.map_cons, hholes, eraseHole, hnodes]

theorem runSeparator_erase : ∀ separator : Option (Build N),
    (runSeparator (eraseSeparator separator)).map erase = (runSeparator separator).map erase
  | none => by rw [eraseSeparator]
  | some built => by rw [eraseSeparator, runSeparator, runSeparator, run_erase built]

end

/-- Builds that differ in bound values fail alike or make fragments that differ
    in bound values. -/
theorem run_alike {a b : Build N} (h : a.erase = b.erase) : a.run.map erase = b.run.map erase := by
  rw [← run_erase a, h, run_erase]

/-! ## Section 7: The compiled query -/

/-- A fragment built with the tag compiles unless an invalid date is among its
    values.  The placeholders of its text are numbered from one, as many as there
    are parameters, and the k-th parameter is what the k-th placeholder's value is
    bound to.  Fragments that differ in bound values have one text. -/
theorem compileSQL_binds_positionally (d : Dialect) {build : Build N} {fragment : Fragment N}
    (hbuild : build.run = .ok fragment) :
    ((∃ q, compileSQL fragment d = .ok q) ↔ some (.date none) ∉ boundValues (symbols fragment)) ∧
    ∀ q, compileSQL fragment d = .ok q →
      q.text = textOf d (pieces d fragment) ∧
      (holes (pieces d fragment)).length = q.parameters.length ∧
      (∀ (k : Nat) (hk : k < q.parameters.length), ∃ bound,
        (holes (pieces d fragment))[k]? = some (k + 1, bound) ∧
        (boundValues (symbols fragment))[k]? = some bound ∧
        bindValue d bound = .ok q.parameters[k]) ∧
      ∀ other : Build N, other.erase = build.erase → ∃ fragment', other.run = .ok fragment' ∧
        ∀ q', compileSQL fragment' d = .ok q' → q'.text = q.text := by
  refine ⟨compileSQL_succeeds d fragment, ?_⟩
  intro q hq
  obtain ⟨htext, hbinds⟩ := (compileSQL_ok d fragment q).mp hq
  refine ⟨htext, hbinds.length_eq, ?_, ?_⟩
  · intro k hk
    have hhole : k < (holes (pieces d fragment)).length := by
      rw [hbinds.length_eq]
      exact hk
    have hvalue : k < (boundValues (symbols fragment)).length := by
      rw [← holes_values d, List.length_map]
      exact hhole
    have hplace : (holes (pieces d fragment))[k]? = some (k + 1, (boundValues (symbols fragment))[k]) := by
      rw [holes_pieces, List.getElem?_zip_eq_some]
      exact ⟨by rw [List.getElem?_range' hvalue, Nat.one_mul, Nat.add_comm], List.getElem?_eq_getElem hvalue⟩
    refine ⟨_, hplace, List.getElem?_eq_getElem hvalue, ?_⟩
    have hbind : Binds d (holes (pieces d fragment))[k] q.parameters[k] :=
      (List.forall₂_iff_get.mp hbinds).2 k hhole hk
    rw [List.getElem?_eq_getElem hhole, Option.some_inj] at hplace
    rwa [hplace] at hbind
  · intro other hother
    have halike := run_alike hother
    rw [hbuild] at halike
    obtain ⟨fragment', hrun, herase⟩ := Outcome.map_eq_ok.mp halike
    refine ⟨fragment', hrun, ?_⟩
    intro q' hq'
    rw [htext, ((compileSQL_ok d fragment' q').mp hq').1]
    exact textOf_alike d herase

/-- A list in a fragment in a fragment. -/
def nestedBuild : Build Int :=
  .tag ["at > ", " and ", ""] [.value none, .fragment (.tag ["id in (", ")"] [.array [.number 7, .null]])]

theorem compileSQL_binds_positionally_nested : ∃ fragment q,
    nestedBuild.run = .ok fragment ∧ compileSQL fragment postgresDialect = .ok q ∧
    q.parameters.length = 3 ∧ ∀ (k : Nat) (hk : k < q.parameters.length), ∃ bound,
      (holes (pieces postgresDialect fragment))[k]? = some (k + 1, bound) ∧
      (boundValues (symbols fragment))[k]? = some bound ∧
      bindValue postgresDialect bound = .ok q.parameters[k] := by
  have hbinds (fragment : Fragment Int) (q : CompiledQuery Int) (hrun : nestedBuild.run = .ok fragment)
      (hq : compileSQL fragment postgresDialect = .ok q) :=
    ((compileSQL_binds_positionally postgresDialect hrun).2 q hq).2.2.1
  exact ⟨_, _, rfl, rfl, rfl, hbinds _ _ rfl rfl⟩

/-- Two templates that differ in a date: the one with an invalid date has no text. -/
theorem invalid_date_not_compiled :
    ¬ ∀ (d : Dialect) (a b : Build Int) (f g : Fragment Int), a.erase = b.erase →
      a.run = .ok f → b.run = .ok g →
      ∃ q q', compileSQL f d = .ok q ∧ compileSQL g d = .ok q' ∧ q.text = q'.text := by
  intro h
  let template (time : Option Int) : Build Int := .tag ["at > ", ""] [.value (some (.date time))]
  obtain ⟨q, -, hq, -⟩ := h sqliteDialect (template none) (template (some 0)) _ _ rfl rfl rfl
  cases hq

end Cossack.Database.Sql
