import Cossack.Database.Predicates

/-! # The meaning of a predicate

    The reference evaluation of predicates in three-valued logic, and that the text
    of a WHERE clause, read with the precedences of SQL, evaluates to it exactly
    when no `and()` or `or()` without parts is in the predicate. -/

namespace Cossack.Database.Query

open SqlExpressions

variable {U V : Type} (values : Values V) (b : ExpressionBuilder U V)

/-! ## Section 1: The reference evaluation -/

/-- The truth of a predicate at every row. -/
abbrev Condition (V : Type) := (List String → V) → Truth

/-- `none` where the property is unknown, the value undefined or refused. -/
def compareMeaning (op : CompareOp) (property : String) (value : Option U) :
    Option (Condition V) := do
  let value ← value
  let column ← b.columnByProperty property
  let encoded ← (b.encoder column value).toOption
  some fun row => values.compare3 op (row (b.columnPath column)) encoded

/-- No value is in an empty list, whatever the column. -/
def inMeaning (property : String) (items : Option (List (Option U))) : Option (Condition V) := do
  let items ← items
  let items ← items.mapM id
  if items.isEmpty then some fun _ => some false else
    let column ← b.columnByProperty property
    let encoded ← items.mapM fun item => (b.encoder column item).toOption
    some fun row => values.in3 (row (b.columnPath column)) encoded

def nullMeaning (property : String) : Option (Condition V) := do
  let column ← b.columnByProperty property
  some fun row => some (values.isNull (row (b.columnPath column)))

def notMeaning (truth : Option (Condition V)) : Option (Condition V) :=
  truth.map fun t row => not3 (t row)

def operatorMeaning (property : String) : FindOperator U → Option (Condition V)
  | .eq value => compareMeaning values b .eq property value
  | .ne value => compareMeaning values b .ne property value
  | .gt value => compareMeaning values b .gt property value
  | .gte value => compareMeaning values b .ge property value
  | .lt value => compareMeaning values b .lt property value
  | .lte value => compareMeaning values b .le property value
  | .like value => compareMeaning values b .like property (value.map b.string)
  | .isIn items => inMeaning values b property items
  | .notIn items => notMeaning (inMeaning values b property items)
  | .isNull => nullMeaning values b property

def entryMeaning : String × FindValue U → Option (Condition V)
  | (property, .operator operator) => operatorMeaning values b property operator
  | (property, .null) => nullMeaning values b property
  | (property, .value value) => compareMeaning values b .eq property value

/-- A junction of no parts is its neutral value. -/
def together (j : Junction) (truths : List (Condition V)) : Condition V :=
  fun row => j.together (truths.map fun t => t row)

def builderMeaning (property : String) : FindOperator U → Option (Condition V)
  | .like value => compareMeaning values b .like property value
  | operator => operatorMeaning values b property operator

mutual

def Expression.meaning : Expression U → Option (Condition V)
  | .operator property operator => builderMeaning values b property operator
  | .and parts => (allMeanings parts).map (together .and)
  | .or parts => (allMeanings parts).map (together .or)
  | .not part => notMeaning part.meaning

def allMeanings : List (Expression U) → Option (List (Condition V))
  | [] => some []
  | part :: parts => do
      let truth ← part.meaning
      let truths ← allMeanings parts
      some (truth :: truths)

end

mutual

def Predicate.meaning : Predicate U → Option (Condition V)
  | .object entries => (entries.mapM (entryMeaning values b)).map (together .and)
  | .array items => (itemMeanings items).map (together .or)
  | .expression e => e.meaning values b

def itemMeanings : List (Predicate U) → Option (List (Condition V))
  | [] => some []
  | item :: items => do
      let truth ← item.meaning
      let truths ← itemMeanings items
      some (truth :: truths)

end

def callMeaning (before : Option (Condition V)) :
    WhereCall U → Option (Option (Condition V))
  | .replaceWhere p => (p.meaning values b).map some
  | .andWhere p => (p.meaning values b).map fun t =>
      some (match before with | some s => fun row => and3 (s row) (t row) | none => t)
  | .orWhere p => (p.meaning values b).map fun t =>
      some (match before with | some s => fun row => or3 (s row) (t row) | none => t)

/-- The condition of a sequence of calls; without any, every row is selected. -/
def callsMeaning (calls : List (WhereCall U)) : Option (Condition V) :=
  (calls.foldlM (callMeaning values b) none).map fun truth =>
    truth.getD fun _ => some true

/-! ## Section 2: Combinators without parts -/

mutual

/-- No `and()` and no `or()` without parts. -/
def Expression.full : Expression U → Bool
  | .operator _ _ => true
  | .and parts => !parts.isEmpty && allFull parts
  | .or parts => !parts.isEmpty && allFull parts
  | .not part => part.full

def allFull : List (Expression U) → Bool
  | [] => true
  | part :: parts => part.full && allFull parts

end

mutual

def Predicate.full : Predicate U → Bool
  | .object _ => true
  | .array items => itemsFull items
  | .expression e => e.full

def itemsFull : List (Predicate U) → Bool
  | [] => true
  | item :: items => item.full && itemsFull items

end

/-- The predicates from the last `where` on. -/
def callFull (before : Bool) : WhereCall U → Bool
  | .replaceWhere p => p.full
  | .andWhere p | .orWhere p => before && p.full

def callsFull (calls : List (WhereCall U)) : Bool := calls.foldl callFull true

/-! ## Section 3: Single conditions -/

/-- The text of a fragment means what the reference says. -/
def Agrees (fragment : SQLFragment V) (reference : Option (Condition V)) : Prop :=
  ∃ truth, reference = some truth ∧ Means values (symbols fragment) truth

theorem toOption_ok {α : Type} {x : Except String α} {a : α} (h : x = .ok a) :
    x.toOption = some a := by rw [h]; rfl

theorem mapM_toOption {α β : Type} {f : α → Except String β} {xs : List α} {ys : List β}
    (h : xs.mapM f = .ok ys) : xs.mapM (fun x => (f x).toOption) = some ys := by
  induction xs generalizing ys with
  | nil =>
      obtain rfl := Outcome.pure_eq_ok.mp h
      rfl
  | cons x xs ih =>
      rw [List.mapM_cons] at h ⊢
      obtain ⟨y, hy, h⟩ := Outcome.bind_eq_ok.mp h
      obtain ⟨ys', hys, h⟩ := Outcome.bind_eq_ok.mp h
      obtain rfl := Outcome.pure_eq_ok.mp h
      rw [toOption_ok hy, ih hys]
      rfl

theorem assertDefined_ok {α : Type} {property : String} {value : Option α} {a : α}
    (h : b.assertDefined property value = .ok a) : value = some a := by
  cases value with
  | none => cases h
  | some x =>
      obtain rfl := Outcome.pure_eq_ok.mp h
      rfl

theorem allDefined_ok {property : String} {items : List (Option U)} {us : List U}
    (h : items.mapM (b.assertDefined property) = .ok us) : items.mapM id = some us := by
  induction items generalizing us with
  | nil =>
      obtain rfl := Outcome.pure_eq_ok.mp h
      rfl
  | cons x xs ih =>
      rw [List.mapM_cons] at h ⊢
      obtain ⟨y, hy, h⟩ := Outcome.bind_eq_ok.mp h
      obtain ⟨ys, hys, h⟩ := Outcome.bind_eq_ok.mp h
      obtain rfl := Outcome.pure_eq_ok.mp h
      rw [ih hys, assertDefined_ok b hy]
      rfl

theorem lookup_ok {property : String} {column : ColumnMetadata}
    (h : b.lookup property = .ok column) : b.columnByProperty property = some column := by
  unfold ExpressionBuilder.lookup at h
  cases hc : b.columnByProperty property with
  | none =>
      rw [hc] at h
      cases h
  | some c =>
      rw [hc] at h
      obtain rfl := Outcome.pure_eq_ok.mp h
      rfl

theorem column_ok {property : String} {id : SQLFragment V} (h : b.column property = .ok id) :
    ∃ column, b.columnByProperty property = some column ∧
      id = [.identifier (b.columnPath column)] := by
  obtain ⟨column, hc, h⟩ := Outcome.bind_eq_ok.mp h
  refine ⟨column, lookup_ok b hc, ?_⟩
  unfold sqlId at h
  split at h
  · cases h
  · exact (Outcome.pure_eq_ok.mp h).symm

theorem compare_agrees (op : CompareOp) {property : String} {value : Option U}
    {fragment : SQLFragment V} (h : b.compare property op.text value = .ok fragment) :
    Agrees values fragment (compareMeaning values b op property value) := by
  obtain ⟨u, hu, h⟩ := Outcome.bind_eq_ok.mp h
  obtain ⟨column, hc, h⟩ := Outcome.bind_eq_ok.mp h
  obtain ⟨v, hv, h⟩ := Outcome.bind_eq_ok.mp h
  obtain ⟨id, hid, h⟩ := Outcome.bind_eq_ok.mp h
  obtain rfl := Outcome.pure_eq_ok.mp h
  have hc := lookup_ok b hc
  obtain ⟨column', hc', rfl⟩ := column_ok b hid
  obtain rfl : column = column' := Option.some.inj (hc.symm.trans hc')
  refine ⟨fun row => values.compare3 op (row (b.columnPath column)) v, ?_, ?_⟩
  · rw [compareMeaning, assertDefined_ok b hu, hc]
    simp [toOption_ok hv]
  · have htext : symbols [.fragment [.identifier (b.columnPath column)], .text " ",
        .fragment [.unsafeText op.text], .text " ", .value v] =
        compareText (b.columnPath column) op v := by
      simp [SQLNode.symbols, compareText, text]
    rw [htext]
    exact means_compare values _ op v

theorem isNull_agrees {property : String} {fragment : SQLFragment V}
    (h : b.isNull property = .ok fragment) :
    Agrees values fragment (nullMeaning values b property) := by
  obtain ⟨id, hid, h⟩ := Outcome.bind_eq_ok.mp h
  obtain rfl := Outcome.pure_eq_ok.mp h
  obtain ⟨column, hc, rfl⟩ := column_ok b hid
  refine ⟨fun row => some (values.isNull (row (b.columnPath column))), ?_, ?_⟩
  · rw [nullMeaning, hc]
    rfl
  · have htext : symbols ([.fragment [.identifier (b.columnPath column)], .text " IS NULL"] :
        SQLFragment V) = isNullText (b.columnPath column) := by
      simp [SQLNode.symbols, isNullText]
    rw [htext]
    exact means_isNull values _

/-- The values of a list with commas between them. -/
theorem sqlJoin_ok {vs : List V} {list : SQLFragment V} (h : sqlJoin vs = .ok list) :
    vs ≠ [] ∧ symbols list = listText vs := by
  cases vs with
  | nil => cases h
  | cons v rest =>
      obtain rfl := Outcome.pure_eq_ok.mp h
      refine ⟨List.cons_ne_nil v rest, ?_⟩
      induction rest generalizing v with
      | nil => simp [SQLNode.symbols, listText]
      | cons w rest ih =>
          have hw := ih w rfl
          rw [symbols_cons] at hw
          rw [listText, ← hw]
          · simp [SQLNode.symbols]
          · simp

theorem isIn_agrees {property : String} {items : Option (List (Option U))}
    {fragment : SQLFragment V} (h : b.isIn property items = .ok fragment) :
    Agrees values fragment (inMeaning values b property items) := by
  obtain ⟨xs, hxs, h⟩ := Outcome.bind_eq_ok.mp h
  obtain ⟨us, hus, h⟩ := Outcome.bind_eq_ok.mp h
  have hitems := assertDefined_ok b hxs
  have hus := allDefined_ok b hus
  by_cases hempty : us.isEmpty
  · rw [if_pos hempty] at h
    obtain rfl := Outcome.pure_eq_ok.mp h
    refine ⟨fun _ => some false, ?_, ?_⟩
    · simp only [inMeaning, hitems, Option.bind_eq_bind, Option.bind_some, hus, hempty, if_true]
    · simpa [SQLNode.symbols] using means_never values
  · rw [if_neg hempty] at h
    obtain ⟨column, hc, h⟩ := Outcome.bind_eq_ok.mp h
    obtain ⟨vs, hvs, h⟩ := Outcome.bind_eq_ok.mp h
    obtain ⟨id, hid, h⟩ := Outcome.bind_eq_ok.mp h
    obtain ⟨list, hlist, h⟩ := Outcome.bind_eq_ok.mp h
    obtain rfl := Outcome.pure_eq_ok.mp h
    have hc := lookup_ok b hc
    obtain ⟨column', hc', rfl⟩ := column_ok b hid
    obtain rfl : column = column' := Option.some.inj (hc.symm.trans hc')
    obtain ⟨hne, hsyms⟩ := sqlJoin_ok hlist
    refine ⟨fun row => values.in3 (row (b.columnPath column)) vs, ?_, ?_⟩
    · simp only [inMeaning, hitems, Option.bind_eq_bind, Option.bind_some, hus, hempty, hc,
        mapM_toOption hvs]
      rfl
    · have htext : symbols [.fragment [.identifier (b.columnPath column)], .text " IN (",
          .fragment list, .text ")"] = inText (b.columnPath column) vs := by
        simp [SQLNode.symbols, inText, hsyms]
      rw [htext]
      exact means_in values _ vs hne

theorem symbols_not (fragment : SQLFragment V) :
    symbols (notFragment fragment) = notText (symbols fragment) := by
  simp [notFragment, SQLNode.symbols, notText, parenText, text]

theorem not_agrees {fragment : SQLFragment V} {reference : Option (Condition V)}
    (h : Agrees values fragment reference) :
    Agrees values (notFragment fragment) (notMeaning reference) := by
  obtain ⟨truth, rfl, hm⟩ := h
  refine ⟨fun row => not3 (truth row), rfl, ?_⟩
  rw [symbols_not]
  exact means_not values hm

theorem operator_agrees {property : String} {operator : FindOperator U}
    {fragment : SQLFragment V} (h : operatorFragment b property operator = .ok fragment) :
    Agrees values fragment (operatorMeaning values b property operator) := by
  cases operator with
  | eq value => exact compare_agrees values b .eq h
  | ne value => exact compare_agrees values b .ne h
  | gt value => exact compare_agrees values b .gt h
  | gte value => exact compare_agrees values b .ge h
  | lt value => exact compare_agrees values b .lt h
  | lte value => exact compare_agrees values b .le h
  | like value => exact compare_agrees values b .like h
  | isIn items => exact isIn_agrees values b h
  | notIn items =>
      obtain ⟨inner, hinner, rfl⟩ := Outcome.map_eq_ok.mp h
      exact not_agrees values (isIn_agrees values b hinner)
  | isNull => exact isNull_agrees values b h

theorem entry_agrees {entry : String × FindValue U} {fragment : SQLFragment V}
    (h : entryFragment b entry = .ok fragment) :
    Agrees values fragment (entryMeaning values b entry) := by
  obtain ⟨property, value⟩ := entry
  cases value with
  | operator operator => exact operator_agrees values b h
  | null => exact isNull_agrees values b h
  | value value => exact compare_agrees values b .eq h

theorem builder_agrees {property : String} {operator : FindOperator U}
    {fragment : SQLFragment V} (h : builderCall b property operator = .ok fragment) :
    Agrees values fragment (builderMeaning values b property operator) := by
  by_cases hlike : ∃ value, operator = .like value
  · obtain ⟨value, rfl⟩ := hlike
    exact compare_agrees values b .like h
  · have hcall : builderCall b property operator = operatorFragment b property operator := by
      cases operator <;> first | rfl | exact absurd ⟨_, rfl⟩ hlike
    have hmeaning : builderMeaning values b property operator =
        operatorMeaning values b property operator := by
      cases operator <;> first | rfl | exact absurd ⟨_, rfl⟩ hlike
    rw [hmeaning]
    exact operator_agrees values b (hcall ▸ h)

/-! ## Section 4: Combinators -/

/-- A fragment that may hold a combinator without parts. -/
structure Verdict (fragment : SQLFragment V) (reference : Option (Condition V))
    (full : Bool) : Prop where
  agrees : ∃ truth, reference = some truth ∧
    (full = true → Means values (symbols fragment) truth)
  unreadable : full = false → Unreadable (symbols fragment)

structure Verdicts (fragments : List (SQLFragment V)) (reference : Option (List (Condition V)))
    (full : Bool) : Prop where
  agrees : ∃ truths, reference = some truths ∧
    (full = true → List.Forall₂ (fun f t => Means values (symbols f) t) fragments truths)
  each : ∀ f ∈ fragments, (∃ e, Reads (symbols f) e) ∨ Unreadable (symbols f)
  unreadable : full = false → ∃ f ∈ fragments, Unreadable (symbols f)

theorem Agrees.verdict {fragment : SQLFragment V} {reference : Option (Condition V)}
    (h : Agrees values fragment reference) : Verdict values fragment reference true := by
  obtain ⟨truth, hr, hm⟩ := h
  exact ⟨⟨truth, hr, fun _ => hm⟩, fun hf => nomatch hf⟩

theorem Verdict.each {fragment : SQLFragment V} {reference : Option (Condition V)} {full : Bool}
    (h : Verdict values fragment reference full) :
    (∃ e, Reads (symbols fragment) e) ∨ Unreadable (symbols fragment) := by
  cases full with
  | true =>
      obtain ⟨_, _, hm⟩ := h.agrees
      obtain ⟨e, hr, _⟩ := hm rfl
      exact .inl ⟨e, hr⟩
  | false => exact .inr (h.unreadable rfl)

theorem Verdict.not {fragment : SQLFragment V} {reference : Option (Condition V)} {full : Bool}
    (h : Verdict values fragment reference full) :
    Verdict values (notFragment fragment) (notMeaning reference) full := by
  obtain ⟨truth, rfl, hm⟩ := h.agrees
  refine ⟨⟨fun row => not3 (truth row), rfl, ?_⟩, ?_⟩
  · intro hf
    rw [symbols_not]
    exact means_not values (hm hf)
  · intro hf
    rw [symbols_not]
    exact unreadable_not (h.unreadable hf)

theorem Verdicts.nil : Verdicts values ([] : List (SQLFragment V)) (some []) true :=
  ⟨⟨[], rfl, fun _ => .nil⟩, fun _ hf => (nomatch hf), fun hf => nomatch hf⟩

theorem Verdict.cons {f : SQLFragment V} {fs : List (SQLFragment V)}
    {r : Option (Condition V)} {rs : Option (List (Condition V))} {full fulls : Bool}
    (h : Verdict values f r full) (hs : Verdicts values fs rs fulls) :
    Verdicts values (f :: fs) (r.bind fun t => rs.bind fun ts => some (t :: ts)) (full && fulls) := by
  obtain ⟨t, rfl, ht⟩ := h.agrees
  obtain ⟨ts, rfl, hts⟩ := hs.agrees
  refine ⟨⟨t :: ts, rfl, ?_⟩, ?_, ?_⟩
  · intro hf
    rw [Bool.and_eq_true] at hf
    exact .cons (ht hf.1) (hts hf.2)
  · intro g hg
    rcases List.mem_cons.mp hg with rfl | hg
    · exact h.each
    · exact hs.each g hg
  · intro hf
    rcases Bool.and_eq_false_iff.mp hf with hf | hf
    · exact ⟨f, by simp, h.unreadable hf⟩
    · obtain ⟨g, hg, hu⟩ := hs.unreadable hf
      exact ⟨g, by simp [hg], hu⟩

theorem symbols_joinBoolean (parts : List (SQLFragment V)) (j : Junction) :
    symbols (joinBoolean parts j) = j.joinedText (parts.map symbols) := by
  cases parts with
  | nil => simp [joinBoolean, Junction.joinedText]
  | cons part rest =>
      have htail : symbols (rest.flatMap fun next =>
          .text (" " ++ j.word ++ " ") :: [.text "(", .fragment next, .text ")"]) =
          j.tailText (rest.map symbols) := by
        induction rest with
        | nil => simp [Junction.tailText]
        | cons next rest ih =>
            rw [List.flatMap_cons, symbols_append, ih]
            simp [SQLNode.symbols, Junction.tailText, parenText, text]
      rw [joinBoolean, symbols_append, htail]
      simp [SQLNode.symbols, Junction.joinedText, parenText, text]

/-- A combinator of some parts. -/
theorem Verdicts.joined {fs : List (SQLFragment V)} {rs : Option (List (Condition V))}
    {full : Bool} (h : Verdicts values fs rs full) (hne : fs ≠ []) (j : Junction) :
    Verdict values (joinBoolean fs j) (rs.map (together j)) full := by
  obtain ⟨truths, rfl, hmeans⟩ := h.agrees
  refine ⟨⟨together j truths, rfl, ?_⟩, ?_⟩
  · intro hf
    rw [symbols_joinBoolean]
    exact j.means_joined values (by simpa using hne) (List.forall₂_map_left_iff.mpr (hmeans hf))
  · intro hf
    obtain ⟨f, hmem, hu⟩ := h.unreadable hf
    rw [symbols_joinBoolean]
    refine j.unreadable_joined ?_ ⟨_, List.mem_map_of_mem hmem, hu⟩
    intro part hpart
    obtain ⟨g, hg, rfl⟩ := List.mem_map.mp hpart
    exact h.each g hg

/-- A combinator of the builder, which has no text without parts. -/
theorem Verdicts.combined {fs : List (SQLFragment V)} {rs : Option (List (Condition V))}
    {full : Bool} (h : Verdicts values fs rs full) (j : Junction) :
    Verdict values (joinBoolean fs j) (rs.map (together j)) (!fs.isEmpty && full) := by
  cases fs with
  | nil =>
      obtain ⟨truths, rfl, _⟩ := h.agrees
      refine ⟨⟨together j truths, rfl, fun hf => (nomatch hf)⟩, fun _ => ?_⟩
      rw [joinBoolean, symbols_nil]
      exact unreadable_nil
  | cons f fs => simpa using h.joined values (List.cons_ne_nil f fs) j

theorem entries_verdicts {entries : List (String × FindValue U)} {fs : List (SQLFragment V)}
    (h : entries.mapM (entryFragment b) = .ok fs) :
    Verdicts values fs (entries.mapM (entryMeaning values b)) true := by
  induction entries generalizing fs with
  | nil =>
      obtain rfl := Outcome.pure_eq_ok.mp h
      exact Verdicts.nil values
  | cons entry entries ih =>
      rw [List.mapM_cons] at h ⊢
      obtain ⟨f, hf, h⟩ := Outcome.bind_eq_ok.mp h
      obtain ⟨gs, hgs, h⟩ := Outcome.bind_eq_ok.mp h
      obtain rfl := Outcome.pure_eq_ok.mp h
      exact (Agrees.verdict values (entry_agrees values b hf)).cons values (ih hgs)

mutual

/-- By the structure of the expression: its parts first, then their combinator. -/
theorem build_verdict : ∀ (e : Expression U) {f : SQLFragment V}, e.build b = .ok f →
    Verdict values f (e.meaning values b) e.full
  | .operator property operator, f, h => by
      rw [Expression.build] at h
      simp only [Expression.meaning, Expression.full]
      exact (builder_agrees values b h).verdict values
  | .and parts, f, h => by
      rw [Expression.build] at h
      obtain ⟨fs, hfs, h⟩ := Outcome.bind_eq_ok.mp h
      obtain rfl := Outcome.pure_eq_ok.mp h
      obtain ⟨hv, hempty⟩ := buildAll_verdicts parts hfs
      simp only [Expression.meaning, Expression.full, ← hempty]
      exact hv.combined values .and
  | .or parts, f, h => by
      rw [Expression.build] at h
      obtain ⟨fs, hfs, h⟩ := Outcome.bind_eq_ok.mp h
      obtain rfl := Outcome.pure_eq_ok.mp h
      obtain ⟨hv, hempty⟩ := buildAll_verdicts parts hfs
      simp only [Expression.meaning, Expression.full, ← hempty]
      exact hv.combined values .or
  | .not part, f, h => by
      rw [Expression.build] at h
      obtain ⟨g, hg, h⟩ := Outcome.bind_eq_ok.mp h
      obtain rfl := Outcome.pure_eq_ok.mp h
      simp only [Expression.meaning, Expression.full]
      exact (build_verdict part hg).not values

theorem buildAll_verdicts : ∀ (parts : List (Expression U)) {fs : List (SQLFragment V)},
    buildAll b parts = .ok fs →
    Verdicts values fs (allMeanings values b parts) (allFull parts) ∧ fs.isEmpty = parts.isEmpty
  | [], fs, h => by
      rw [buildAll] at h
      obtain rfl := Outcome.pure_eq_ok.mp h
      rw [allMeanings, allFull]
      exact ⟨Verdicts.nil values, rfl⟩
  | part :: parts, fs, h => by
      rw [buildAll] at h
      obtain ⟨g, hg, h⟩ := Outcome.bind_eq_ok.mp h
      obtain ⟨gs, hgs, h⟩ := Outcome.bind_eq_ok.mp h
      obtain rfl := Outcome.pure_eq_ok.mp h
      rw [allMeanings, allFull]
      exact ⟨(build_verdict part hg).cons values (buildAll_verdicts parts hgs).1, rfl⟩

end

/-! ## Section 5: Predicates and calls -/

mutual

theorem resolve_verdict : ∀ (p : Predicate U) {f : SQLFragment V}, resolvePredicate b p = .ok f →
    Verdict values f (p.meaning values b) p.full
  | .object entries, f, h => by
      rw [resolvePredicate, Predicate.toWhere, pure_bind, compileWhere] at h
      obtain ⟨fs, hfs, h⟩ := Outcome.bind_eq_ok.mp h
      obtain rfl := Outcome.pure_eq_ok.mp h
      simp only [Predicate.meaning, Predicate.full]
      have hv := entries_verdicts values b hfs
      by_cases hempty : fs.isEmpty
      · -- an object without entries
        obtain rfl := List.isEmpty_iff.mp hempty
        obtain ⟨truths, ht, hmeans⟩ := hv.agrees
        cases hmeans rfl
        rw [ht, if_pos hempty]
        refine Agrees.verdict values ⟨fun _ => some true, rfl, ?_⟩
        simpa [SQLNode.symbols] using means_always values
      · rw [if_neg hempty]
        exact hv.joined values (by simpa using hempty) .and
  | .array items, f, h => by
      rw [resolvePredicate, Predicate.toWhere, bind_assoc] at h
      obtain ⟨ws, hws, h⟩ := Outcome.bind_eq_ok.mp h
      rw [pure_bind, compileWhere] at h
      simp only [Predicate.meaning, Predicate.full]
      by_cases hempty : ws.isEmpty
      · rw [if_pos hempty] at h
        obtain rfl := Outcome.pure_eq_ok.mp h
        obtain rfl := List.isEmpty_iff.mp hempty
        cases items with
        | nil =>
            rw [itemMeanings, itemsFull]
            refine Agrees.verdict values ⟨fun _ => some false, rfl, ?_⟩
            simpa [SQLNode.symbols] using means_never values
        | cons item items =>
            rw [itemsToWhere] at hws
            obtain ⟨_, _, hws⟩ := Outcome.bind_eq_ok.mp hws
            obtain ⟨_, _, hws⟩ := Outcome.bind_eq_ok.mp hws
            cases hws
      · rw [if_neg hempty] at h
        obtain ⟨fs, hfs, h⟩ := Outcome.bind_eq_ok.mp h
        obtain rfl := Outcome.pure_eq_ok.mp h
        have hne : fs ≠ [] := by
          rintro rfl
          cases ws with
          | nil => exact hempty rfl
          | cons w ws =>
              rw [compileItems] at hfs
              obtain ⟨_, _, hfs⟩ := Outcome.bind_eq_ok.mp hfs
              obtain ⟨_, _, hfs⟩ := Outcome.bind_eq_ok.mp hfs
              cases hfs
        exact (items_verdicts items hws hfs).joined values hne .or
  | .expression e, f, h => by
      rw [resolvePredicate, Predicate.toWhere, bind_assoc] at h
      obtain ⟨g, hg, h⟩ := Outcome.bind_eq_ok.mp h
      rw [pure_bind, compileWhere] at h
      obtain rfl := Outcome.pure_eq_ok.mp h
      simp only [Predicate.meaning, Predicate.full]
      exact build_verdict values b e hg

theorem items_verdicts : ∀ (items : List (Predicate U)) {ws : List (Where U V)}
    {fs : List (SQLFragment V)}, itemsToWhere b items = .ok ws → compileItems b ws = .ok fs →
    Verdicts values fs (itemMeanings values b items) (itemsFull items)
  | [], ws, fs, hws, hfs => by
      rw [itemsToWhere] at hws
      obtain rfl := Outcome.pure_eq_ok.mp hws
      rw [compileItems] at hfs
      obtain rfl := Outcome.pure_eq_ok.mp hfs
      rw [itemMeanings, itemsFull]
      exact Verdicts.nil values
  | item :: items, ws, fs, hws, hfs => by
      rw [itemsToWhere] at hws
      obtain ⟨w, hw, hws⟩ := Outcome.bind_eq_ok.mp hws
      obtain ⟨ws', hws', hws⟩ := Outcome.bind_eq_ok.mp hws
      obtain rfl := Outcome.pure_eq_ok.mp hws
      rw [compileItems] at hfs
      obtain ⟨f, hf, hfs⟩ := Outcome.bind_eq_ok.mp hfs
      obtain ⟨gs, hgs, hfs⟩ := Outcome.bind_eq_ok.mp hfs
      obtain rfl := Outcome.pure_eq_ok.mp hfs
      rw [itemMeanings, itemsFull]
      have hitem : resolvePredicate b item = .ok f := by rw [resolvePredicate, hw]; exact hf
      exact (resolve_verdict item hitem).cons values (items_verdicts items hws' hgs)

end

/-- The builder's join of the predicate there is and a new one. -/
theorem pair_verdict {before part : SQLFragment V} {r : Condition V}
    {s : Option (Condition V)} {full fulls : Bool} (hb : Verdict values before (some r) full)
    (hp : Verdict values part s fulls) (j : Junction) :
    Verdict values [.text "(", .fragment before, .text (") " ++ j.word ++ " ("), .fragment part,
      .text ")"] (s.map fun t => together j [r, t]) (full && fulls) := by
  have hboth := (hb.cons values (hp.cons values (Verdicts.nil values))).joined values
    (List.cons_ne_nil _ _) j
  have htext : symbols (joinBoolean [before, part] j) =
      symbols [.text "(", .fragment before, .text (") " ++ j.word ++ " ("), .fragment part,
        .text ")"] := by
    cases j <;> simp [joinBoolean, SQLNode.symbols, text, Junction.word]
  obtain ⟨t, rfl, hm⟩ := hp.agrees
  obtain ⟨⟨truth, hr, hmeans⟩, hu⟩ := hboth
  rw [htext] at hmeans hu
  refine ⟨⟨truth, ?_, ?_⟩, ?_⟩
  · simpa using hr
  · simpa using hmeans
  · simpa using hu

/-- What the calls so far have made, beside what they mean. -/
def Follows (predicate : Option (SQLFragment V)) (truth : Option (Condition V))
    (full : Bool) : Prop :=
  match predicate, truth with
  | none, none => full = true
  | some fragment, some t => Verdict values fragment (some t) full
  | _, _ => False

theorem Verdict.follows {fragment : SQLFragment V} {reference : Option (Condition V)}
    {full : Bool} (h : Verdict values fragment reference full) :
    ∃ truth, reference = some truth ∧ Follows values (some fragment) (some truth) full := by
  obtain ⟨truth, rfl, hm⟩ := h.agrees
  exact ⟨truth, rfl, h⟩

def joinText (j : Junction) (predicate : Option (SQLFragment V)) (part : SQLFragment V) :
    SQLFragment V :=
  match predicate with
  | some before => [.text "(", .fragment before, .text (") " ++ j.word ++ " ("), .fragment part,
      .text ")"]
  | none => part

def joinTruth (j : Junction) (truth : Option (Condition V)) (t : Condition V) : Condition V :=
  match truth with
  | some s => together j [s, t]
  | none => t

/-- `andWhere` and `orWhere` are one step with two junctions. -/
theorem join_follows {predicate : Option (SQLFragment V)} {truth : Option (Condition V)}
    {full : Bool} (h : Follows values predicate truth full) {part : SQLFragment V}
    {r : Option (Condition V)} {fulls : Bool} (hp : Verdict values part r fulls) (j : Junction) :
    ∃ next, r = some next ∧ Follows values (some (joinText j predicate part))
      (some (joinTruth j truth next)) (full && fulls) := by
  obtain ⟨t, rfl, _⟩ := hp.agrees
  refine ⟨t, rfl, ?_⟩
  match predicate, truth with
  | none, none =>
      obtain rfl : full = true := h
      exact hp
  | some before, some s => exact pair_verdict values h hp j

theorem together_and (s t : Condition V) :
    together .and [s, t] = fun row => and3 (s row) (t row) :=
  funext fun row => congrArg (and3 (s row)) (and3_true (t row))

theorem together_or (s t : Condition V) :
    together .or [s, t] = fun row => or3 (s row) (t row) :=
  funext fun row => congrArg (or3 (s row)) (or3_false (t row))

theorem call_follows {predicate next : Option (SQLFragment V)} {truth : Option (Condition V)}
    {full : Bool} (h : Follows values predicate truth full) {call : WhereCall U}
    (hc : callWhere b predicate call = .ok next) :
    ∃ after, callMeaning values b truth call = some after ∧
      Follows values next after (callFull full call) := by
  cases call with
  | replaceWhere p =>
      obtain ⟨part, hpart, hc⟩ := Outcome.bind_eq_ok.mp hc
      obtain rfl := Outcome.pure_eq_ok.mp hc
      obtain ⟨t, ht, hf⟩ := (resolve_verdict values b p hpart).follows
      exact ⟨some t, by rw [callMeaning, ht]; rfl, hf⟩
  | andWhere p =>
      obtain ⟨part, hpart, hc⟩ := Outcome.bind_eq_ok.mp hc
      obtain ⟨t, ht, hf⟩ := join_follows values h (resolve_verdict values b p hpart) .and
      refine ⟨_, by rw [callMeaning, ht]; rfl, ?_⟩
      match predicate, truth with
      | none, none =>
          obtain rfl := Outcome.pure_eq_ok.mp hc
          exact hf
      | some before, some s =>
          obtain rfl := Outcome.pure_eq_ok.mp hc
          rw [joinTruth, together_and] at hf
          exact hf
  | orWhere p =>
      obtain ⟨part, hpart, hc⟩ := Outcome.bind_eq_ok.mp hc
      obtain ⟨t, ht, hf⟩ := join_follows values h (resolve_verdict values b p hpart) .or
      refine ⟨_, by rw [callMeaning, ht]; rfl, ?_⟩
      match predicate, truth with
      | none, none =>
          obtain rfl := Outcome.pure_eq_ok.mp hc
          exact hf
      | some before, some s =>
          obtain rfl := Outcome.pure_eq_ok.mp hc
          rw [joinTruth, together_or] at hf
          exact hf

theorem calls_follow {calls : List (WhereCall U)} {predicate next : Option (SQLFragment V)}
    {truth : Option (Condition V)} {full : Bool} (h : Follows values predicate truth full)
    (hc : calls.foldlM (callWhere b) predicate = .ok next) :
    ∃ after, calls.foldlM (callMeaning values b) truth = some after ∧
      Follows values next after (calls.foldl callFull full) := by
  induction calls generalizing predicate truth full with
  | nil =>
      obtain rfl := Outcome.pure_eq_ok.mp hc
      exact ⟨truth, rfl, h⟩
  | cons call calls ih =>
      rw [List.foldlM_cons] at hc ⊢
      obtain ⟨middle, hcall, hc⟩ := Outcome.bind_eq_ok.mp hc
      obtain ⟨after, ha, hf⟩ := call_follows values b h hcall
      rw [ha]
      exact ih hf hc

/-- The WHERE clause, read by SQL, selects by the reference evaluation. -/
def Preserved (calls : List (WhereCall U)) (predicate : Option (SQLFragment V)) : Prop :=
  ∃ truth, callsMeaning values b calls = some truth ∧
    ∃ e, readWhere (symbols (whereClause predicate)) = some e ∧
      ∀ row, values.clause row e = truth row

theorem follows_preserved {calls : List (WhereCall U)} {predicate : Option (SQLFragment V)}
    {truth : Option (Condition V)} {full : Bool} (h : Follows values predicate truth full)
    (ht : calls.foldlM (callMeaning values b) none = some truth) :
    Preserved values b calls predicate ↔ full = true := by
  have hcalls : callsMeaning values b calls = some (truth.getD fun _ => some true) := by
    rw [callsMeaning, ht]
    rfl
  unfold Follows at h
  split at h
  · -- no call
    simp only [h, iff_true]
    exact ⟨_, hcalls, none, rfl, fun _ => rfl⟩
  · rename_i fragment t
    have hclause : symbols (whereClause (some fragment)) = text " WHERE " ++ symbols fragment := by
      simp [whereClause, SQLNode.symbols]
    obtain ⟨⟨t', ht', hm⟩, hu⟩ := h
    obtain rfl := Option.some.inj ht'
    refine ⟨?_, ?_⟩
    · rintro ⟨_, _, e, hread, _⟩
      by_contra hf
      rw [hclause, (hu (by simpa using hf)).readWhere] at hread
      cases hread
    · intro hf
      obtain ⟨e, hread, heval⟩ := (hm hf).readWhere
      exact ⟨t, hcalls, some e, by rw [hclause, hread], heval⟩
  · cases h

/-- For every sequence of calls that builds a query: its text means the predicates
    that were asked for exactly when none of them, from the last `where` on, has an
    `and()` or `or()` without parts. -/
theorem where_preserves_meaning (calls : List (WhereCall U)) (predicate : Option (SQLFragment V))
    (h : callsWhere b calls = .ok predicate) :
    Preserved values b calls predicate ↔ callsFull calls = true := by
  have hstart : Follows values none none true := rfl
  obtain ⟨truth, ht, hf⟩ := calls_follow values b hstart h
  exact follows_preserved values b hf ht

/-- Numbers, with `none` as NULL. -/
def numbers : Values (Option Nat) where
  isNull := Option.isNone
  compare
    | .eq, a, b => decide (a = b)
    | .ne, a, b => decide (a ≠ b)
    | .lt, a, b => decide (a.getD 0 < b.getD 0)
    | .le, a, b => decide (a.getD 0 ≤ b.getD 0)
    | .gt, a, b => decide (b.getD 0 < a.getD 0)
    | .ge, a, b => decide (b.getD 0 ≤ a.getD 0)
    | .like, a, b => decide (a = b)
  number := some
  number_null := fun _ => rfl
  number_eq := fun _ _ => by simp

/-- A table `users` with a property `age`. -/
def users : ExpressionBuilder (Option Nat) (Option Nat) where
  modelName := "User"
  columnByProperty := fun property => if property = "age" then some ⟨"user_age"⟩ else none
  aliasName := some "users"
  encoder := fun _ value => .ok value
  string := id

/-- `where({ age: MoreThan(3) }).orWhere([])` -/
def olderUsers : List (WhereCall (Option Nat)) :=
  [.replaceWhere (.object [("age", .operator (.gt (some (some 3))))]), .orWhere (.array [])]

theorem where_preserves_meaning_older :
    ∃ predicate, callsWhere users olderUsers = .ok predicate ∧
      Preserved numbers users olderUsers predicate :=
  ⟨_, rfl, (where_preserves_meaning numbers users olderUsers _ rfl).mpr rfl⟩

/-- `where((e) => e.and())` leaves nothing after WHERE. -/
theorem empty_and_unreadable :
    ∃ predicate, callsWhere users [.replaceWhere (.expression (.and []))] = .ok predicate ∧
      ¬ Preserved numbers users [.replaceWhere (.expression (.and []))] predicate := by
  refine ⟨_, rfl, ?_⟩
  rintro ⟨_, _, e, hread, _⟩
  cases hread

end Cossack.Database.Query
