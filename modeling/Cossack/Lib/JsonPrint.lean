import Cossack.Lib.JsonNumbers
import Cossack.Lib.JsonQuote
import Cossack.Lib.Utf8

/-! # Printing JSON

    `JSON.stringify` of data without indentation.  `JSON.parse` reads the text back
    as the same data, whose numbers are written the shortest way. -/

namespace JsonText

/-! ## Section 1: The text of a value -/

mutual

def print : Json → List Char
  | .null => ['n', 'u', 'l', 'l']
  | .bool true => ['t', 'r', 'u', 'e']
  | .bool false => ['f', 'a', 'l', 's', 'e']
  | .num n => numberText n
  | .str units => quote units
  | .arr items => '[' :: printItems items
  | .obj entries => '{' :: printMembers entries

/-- The rest of an array. -/
def printItems : List Json → List Char
  | [] => [']']
  | [v] => print v ++ [']']
  | v :: w :: vs => print v ++ ',' :: printItems (w :: vs)

/-- The rest of an object. -/
def printMembers : List (List Nat × Json) → List Char
  | [] => ['}']
  | [(key, v)] => quote key ++ ':' :: (print v ++ ['}'])
  | (key, v) :: e :: es => quote key ++ ':' :: (print v ++ ',' :: printMembers (e :: es))

end

mutual

/-- Strings of 16-bit units, and no property twice. -/
def Valid : Json → Prop
  | .null | .bool _ | .num _ => True
  | .str units => ∀ u ∈ units, u < 0x10000
  | .arr items => ValidItems items
  | .obj entries => (entries.map Prod.fst).Nodup ∧ ValidMembers entries

def ValidItems : List Json → Prop
  | [] => True
  | v :: vs => Valid v ∧ ValidItems vs

def ValidMembers : List (List Nat × Json) → Prop
  | [] => True
  | (key, v) :: es => (∀ u ∈ key, u < 0x10000) ∧ Valid v ∧ ValidMembers es

end

mutual

/-- The same data with every number as it is read. -/
def canonical : Json → Json
  | .null => .null
  | .bool b => .bool b
  | .num n => .num n.canonical
  | .str units => .str units
  | .arr items => .arr (canonicalItems items)
  | .obj entries => .obj (canonicalMembers entries)

def canonicalItems : List Json → List Json
  | [] => []
  | v :: vs => canonical v :: canonicalItems vs

def canonicalMembers : List (List Nat × Json) → List (List Nat × Json)
  | [] => []
  | (key, v) :: es => (key, canonical v) :: canonicalMembers es

end

theorem canonicalMembers_keys (entries : List (List Nat × Json)) :
    (canonicalMembers entries).map Prod.fst = entries.map Prod.fst := by
  induction entries with
  | nil => rfl
  | cons e es ih => simp [canonicalMembers, ih]

theorem canonicalMembers_append (a b : List (List Nat × Json)) :
    canonicalMembers (a ++ b) = canonicalMembers a ++ canonicalMembers b := by
  induction a with
  | nil => rfl
  | cons e es ih => simp [canonicalMembers, ih]

/-- A property of the data as it is read. -/
theorem lookup_canonical (entries : List (List Nat × Json)) (key : String) :
    lookup (canonicalMembers entries) key = (lookup entries key).map canonical := by
  unfold lookup
  induction entries with
  | nil => rfl
  | cons e es ih =>
      rw [canonicalMembers, List.find?_cons, List.find?_cons]
      by_cases heq : e.1 = JsString.utf16 key
      · simp [heq]
      · simpa [heq] using ih

/-! ## Section 2: The first character -/

/-- A value begins with a character that ends no other token. -/
def Begins (s : List Char) : Prop := ∃ c t, s = c :: t ∧ isSpace c = false ∧ c ≠ ']'

theorem isSpace_digit {c : Char} (h : isDigit c = true) : isSpace c = false ∧ c ≠ ']' := by
  have hspace : isSpace c = false := by
    by_contra hs
    simp only [isSpace, Bool.not_eq_false, Bool.or_eq_true, decide_eq_true_eq] at hs
    rcases hs with ((rfl | rfl) | rfl) | rfl <;> cases h
  refine ⟨hspace, ?_⟩
  rintro rfl
  cases h

theorem numberText_head (n : Decimal) :
    ∃ c t, numberText n = c :: t ∧ (c = '-' ∨ isDigit c = true) := by
  unfold numberText
  split
  · exact ⟨'0', [], rfl, .inr rfl⟩
  · obtain ⟨c, t, htext, hc⟩ := positiveText_head n.shortest
      ((Nat.toDigits 10 n.shortest).length + n.scale)
    cases n.negative with
    | true => exact ⟨'-', _, rfl, .inl rfl⟩
    | false => exact ⟨c, t, by simpa using htext, .inr hc⟩

theorem print_begins (v : Json) : Begins (print v) := by
  cases v with
  | null => exact ⟨'n', _, rfl, rfl, by decide⟩
  | bool b =>
      cases b with
      | true => exact ⟨'t', _, rfl, rfl, by decide⟩
      | false => exact ⟨'f', _, rfl, rfl, by decide⟩
  | num n =>
      obtain ⟨c, t, htext, hc⟩ := numberText_head n
      rw [print]
      rcases hc with rfl | hc
      · exact ⟨'-', t, htext, rfl, by decide⟩
      · exact ⟨c, t, htext, isSpace_digit hc⟩
  | str units => exact ⟨'"', _, rfl, rfl, by decide⟩
  | arr items => exact ⟨'[', _, rfl, rfl, by decide⟩
  | obj entries => exact ⟨'{', _, rfl, rfl, by decide⟩

theorem skip_cons {c : Char} (h : isSpace c = false) (s : List Char) : skip (c :: s) = c :: s := by
  rw [skip, List.dropWhile_cons_of_neg (by simp [h])]

theorem Begins.skip {s : List Char} (h : Begins s) (rest : List Char) :
    JsonText.skip (s ++ rest) = s ++ rest := by
  obtain ⟨c, t, rfl, hspace, -⟩ := h
  exact skip_cons hspace (t ++ rest)

theorem Begins.append {s : List Char} (h : Begins s) (rest : List Char) : Begins (s ++ rest) := by
  obtain ⟨c, t, rfl, hspace, hne⟩ := h
  exact ⟨c, t ++ rest, rfl, hspace, hne⟩

theorem delimited_cons {c : Char} {rest : List Char} (h : isDigit c = false ∧ c ≠ '.' ∧ c ≠ 'e' ∧ c ≠ 'E') :
    Delimited (c :: rest) := by
  intro d hd
  obtain rfl := Option.some.inj hd
  exact h

/-! ## Section 3: Reading it back -/

theorem string_quote (units : List Nat) (h : ∀ u ∈ units, u < 0x10000) (rest : List Char) :
    ∃ t, quote units ++ rest = '"' :: t ∧ string t = some (units, rest) := by
  refine ⟨printUnits units ++ '"' :: rest, by simp [quote], ?_⟩
  exact string_printUnits units h rest

/-- A value that begins with a digit or a sign is a number. -/
theorem value_number {fuel : Nat} {c : Char} (hc : c = '-' ∨ isDigit c = true) (s : List Char) :
    value (fuel + 1) (c :: s) = (number (c :: s)).map fun r => (.num r.1, r.2) := by
  have hne : ∀ d, isDigit d = false → d ≠ '-' → c ≠ d := by
    rintro d hd hsign rfl
    rcases hc with rfl | hc
    · exact hsign rfl
    · rw [hc] at hd
      cases hd
  have hn := hne 'n' rfl (by decide)
  have ht := hne 't' rfl (by decide)
  have hf := hne 'f' rfl (by decide)
  have hq := hne '"' rfl (by decide)
  have hb := hne '[' rfl (by decide)
  have ho := hne '{' rfl (by decide)
  rw [value] <;> simp_all

/-- The property that was not there comes last. -/
theorem define_new {entries : List (List Nat × Json)} {key : List Nat} (v : Json)
    (h : key ∉ entries.map Prod.fst) : define entries key v = entries ++ [(key, v)] := by
  induction entries with
  | nil => rfl
  | cons e es ih =>
      rw [List.map_cons, List.mem_cons, not_or] at h
      rw [define, if_neg (Ne.symm h.1), ih h.2, List.cons_append]

mutual

/-- By the structure of the data; the fuel is two steps for each character. -/
theorem value_print : ∀ (v : Json) (fuel : Nat) (rest : List Char), Valid v → Delimited rest →
    2 * (print v).length ≤ fuel + 1 → value fuel (print v ++ rest) = some (canonical v, rest)
  | v, 0, rest, _, _, hfuel => by
      obtain ⟨c, t, htext, -, -⟩ := print_begins v
      rw [htext, List.length_cons] at hfuel
      omega
  | .null, fuel + 1, rest, _, _, _ => by rw [print, canonical]; rfl
  | .bool true, fuel + 1, rest, _, _, _ => by rw [print, canonical]; rfl
  | .bool false, fuel + 1, rest, _, _, _ => by rw [print, canonical]; rfl
  | .num n, fuel + 1, rest, _, hrest, _ => by
      obtain ⟨c, t, htext, hc⟩ := numberText_head n
      have hread := number_numberText n hrest
      rw [print, canonical]
      rw [htext, List.cons_append] at hread ⊢
      rw [value_number hc, hread]
      rfl
  | .str units, fuel + 1, rest, hvalid, _, _ => by
      rw [Valid] at hvalid
      obtain ⟨t, htext, hread⟩ := string_quote units hvalid rest
      rw [print, canonical, htext, value, hread]
      rfl
  | .arr [], fuel + 1, rest, _, _, _ => by
      rw [print, printItems, canonical, canonicalItems]
      rfl
  | .arr (v :: vs), fuel + 1, rest, hvalid, _, hfuel => by
      rw [Valid] at hvalid
      rw [print, List.length_cons] at hfuel
      have hread := items_print v vs fuel rest hvalid (by omega)
      have hbegins : Begins (printItems (v :: vs) ++ rest) := by
        cases vs with
        | nil => exact ((print_begins v).append _).append _
        | cons w vs => exact ((print_begins v).append _).append _
      obtain ⟨c, t, htext, hspace, hne⟩ := hbegins
      rw [print, canonical, List.cons_append, value]
      rw [htext] at hread ⊢
      rw [skip_cons hspace]
      split
      · rename_i heq
        exact absurd (List.cons.inj heq).1 hne
      · rw [hread]
        rfl
  | .obj [], fuel + 1, rest, _, _, _ => by
      rw [print, printMembers, canonical, canonicalMembers]
      rfl
  | .obj (e :: es), fuel + 1, rest, hvalid, _, hfuel => by
      rw [Valid] at hvalid
      rw [print, List.length_cons] at hfuel
      have hread := members_print e es fuel [] rest hvalid.1 hvalid.2 (by omega)
      have hbegins : ∃ t, printMembers (e :: es) ++ rest = '"' :: t := by
        cases es with
        | nil => exact ⟨_, rfl⟩
        | cons e' es => exact ⟨_, rfl⟩
      obtain ⟨t, htext⟩ := hbegins
      rw [print, canonical, List.cons_append, value]
      rw [htext] at hread ⊢
      rw [skip_cons rfl]
      rw [canonicalMembers, List.nil_append] at hread
      show (members fuel [] ('"' :: t)).map _ = _
      rw [hread]
      rfl

theorem items_print : ∀ (v : Json) (vs : List Json) (fuel : Nat) (rest : List Char),
    ValidItems (v :: vs) → 2 * (printItems (v :: vs)).length ≤ fuel →
    items fuel (printItems (v :: vs) ++ rest) = some (canonicalItems (v :: vs), rest)
  | v, [], 0, rest, _, hfuel => by
      rw [printItems, List.length_append, List.length_singleton] at hfuel
      omega
  | v, w :: vs, 0, rest, _, hfuel => by
      rw [printItems, List.length_append, List.length_cons] at hfuel
      omega
  | v, [], fuel + 1, rest, hvalid, hfuel => by
      rw [ValidItems] at hvalid
      rw [printItems, List.length_append, List.length_singleton] at hfuel
      have hread := value_print v fuel (']' :: rest) hvalid.1 (delimited_cons (by decide)) (by omega)
      rw [printItems, List.append_assoc, items, (print_begins v).skip]
      simp only [List.cons_append, List.nil_append, Option.bind_eq_bind]
      rw [hread]
      simp [skip_cons (show isSpace ']' = false from rfl), canonicalItems]
  | v, w :: vs, fuel + 1, rest, hvalid, hfuel => by
      rw [ValidItems] at hvalid
      rw [printItems, List.length_append, List.length_cons] at hfuel
      have hfirst := value_print v fuel (',' :: (printItems (w :: vs) ++ rest)) hvalid.1
        (delimited_cons (by decide)) (by omega)
      have hrest := items_print w vs fuel rest hvalid.2 (by omega)
      rw [printItems, List.append_assoc, items, (print_begins v).skip]
      simp only [List.cons_append, Option.bind_eq_bind]
      rw [hfirst]
      simp [skip_cons (show isSpace ',' = false from rfl), hrest, canonicalItems]

theorem members_print : ∀ (e : List Nat × Json) (es : List (List Nat × Json)) (fuel : Nat)
    (done : List (List Nat × Json)) (rest : List Char),
    ((done ++ e :: es).map Prod.fst).Nodup → ValidMembers (e :: es) →
    2 * (printMembers (e :: es)).length ≤ fuel →
    members fuel (canonicalMembers done) (printMembers (e :: es) ++ rest) =
      some (canonicalMembers (done ++ e :: es), rest)
  | (key, v), [], 0, _, rest, _, _, hfuel => by
      rw [printMembers] at hfuel
      simp at hfuel
  | (key, v), e :: es, 0, _, rest, _, _, hfuel => by
      rw [printMembers] at hfuel
      simp at hfuel
  | (key, v), [], fuel + 1, done, rest, hnodup, hvalid, hfuel => by
      rw [ValidMembers] at hvalid
      rw [printMembers, List.length_append, List.length_cons, List.length_append,
        List.length_singleton] at hfuel
      have hread := value_print v fuel ('}' :: rest) hvalid.2.1 (delimited_cons (by decide)) (by omega)
      obtain ⟨t, htext, hkey⟩ := string_quote key hvalid.1 (':' :: (print v ++ '}' :: rest))
      have hnew : key ∉ (canonicalMembers done).map Prod.fst := by
        rw [canonicalMembers_keys]
        rw [List.map_append, List.nodup_append] at hnodup
        intro hmem
        exact hnodup.2.2 key hmem key (by simp) rfl
      have hshape : printMembers [(key, v)] ++ rest = '"' :: t := by
        rw [← htext]
        simp [printMembers]
      rw [hshape, members, skip_cons rfl]
      simp only [Option.bind_eq_bind]
      rw [hkey]
      simp only [Option.bind_some]
      rw [skip_cons (show isSpace ':' = false from rfl)]
      simp only
      rw [(print_begins v).skip, hread]
      simp only [Option.bind_some]
      rw [skip_cons (show isSpace '}' = false from rfl), define_new _ hnew, canonicalMembers_append]
      rfl
  | (key, v), e :: es, fuel + 1, done, rest, hnodup, hvalid, hfuel => by
      rw [ValidMembers] at hvalid
      rw [printMembers, List.length_append, List.length_cons, List.length_append,
        List.length_cons] at hfuel
      have hread := value_print v fuel (',' :: (printMembers (e :: es) ++ rest)) hvalid.2.1
        (delimited_cons (by decide)) (by omega)
      have hnext := members_print e es fuel (done ++ [(key, v)]) rest (by simpa using hnodup)
        hvalid.2.2 (by omega)
      obtain ⟨t, htext, hkey⟩ := string_quote key hvalid.1
        (':' :: (print v ++ ',' :: (printMembers (e :: es) ++ rest)))
      have hnew : key ∉ (canonicalMembers done).map Prod.fst := by
        rw [canonicalMembers_keys]
        rw [List.map_append, List.nodup_append] at hnodup
        intro hmem
        exact hnodup.2.2 key hmem key (by simp) rfl
      have hshape : printMembers ((key, v) :: e :: es) ++ rest = '"' :: t := by
        rw [← htext]
        simp [printMembers]
      rw [hshape, members, skip_cons rfl]
      simp only [Option.bind_eq_bind]
      rw [hkey]
      simp only [Option.bind_some]
      rw [skip_cons (show isSpace ':' = false from rfl)]
      simp only
      rw [(print_begins v).skip, hread]
      simp only [Option.bind_some]
      rw [skip_cons (show isSpace ',' = false from rfl), define_new _ hnew]
      rw [canonicalMembers_append] at hnext
      simp only
      rw [show canonicalMembers done ++ [(key, canonical v)] =
        canonicalMembers done ++ canonicalMembers [(key, v)] from rfl, hnext]
      simp

end

/-- Printing and parsing give the same data. -/
theorem parse_print (v : Json) (h : Valid v) : parse (print v) = some (canonical v) := by
  have hbegins := (print_begins v).skip []
  have hread := value_print v (2 * (print v).length + 2) [] h (fun c hc => nomatch hc) (by omega)
  rw [List.append_nil] at hbegins hread
  rw [parse, hbegins]
  simp only [Option.bind_eq_bind]
  rw [hread]
  rfl

/-! ## Section 4: One line -/

theorem lineFeed_digitChar (n : Nat) : Nat.digitChar n ≠ '\n' := by
  by_cases h : n < 16
  · have hall : ∀ m < 16, Nat.digitChar m ≠ '\n' := by decide
    exact hall n h
  · unfold Nat.digitChar
    repeat' rw [if_neg (by omega)]
    decide

theorem lineFeed_digits {s : List Char} (h : ∀ c ∈ s, isDigit c = true) : '\n' ∉ s := by
  intro hmem
  cases h _ hmem

theorem lineFeed_exponentText (e : Int) : '\n' ∉ exponentText e := by
  have hdigits := lineFeed_digits fun c hc => isDigit_toDigits (n := e.natAbs) hc
  unfold exponentText
  split <;> simp [hdigits]

theorem lineFeed_positiveText (s : Nat) (n : Int) : '\n' ∉ positiveText (Nat.toDigits 10 s) n := by
  have hall : ∀ c ∈ Nat.toDigits 10 s, isDigit c = true := fun c hc => isDigit_toDigits hc
  generalize Nat.toDigits 10 s = ds at hall ⊢
  have hdigits := lineFeed_digits hall
  have hexp := lineFeed_exponentText (n - 1)
  have hzeros : ∀ k, '\n' ∉ List.replicate k '0' := fun k => lineFeed_digits fun c hc =>
    isDigit_zeros hc
  unfold positiveText
  simp only
  split
  · simp [hdigits, hzeros]
  split
  · have htake : '\n' ∉ ds.take n.toNat := fun h => hdigits (List.mem_of_mem_take h)
    have hdrop : '\n' ∉ ds.drop n.toNat := fun h => hdigits (List.mem_of_mem_drop h)
    simp [htake, hdrop]
  split
  · simp [hdigits, hzeros]
  · match ds with
    | [] => exact List.not_mem_nil
    | [c] =>
        rw [List.mem_singleton] at hdigits
        simp [hdigits, hexp]
    | c :: d :: more =>
        rw [List.mem_cons, not_or] at hdigits
        simp only [List.mem_cons, List.mem_append, not_or]
        exact ⟨hdigits.1, by decide, by simpa using hdigits.2, by decide, hexp⟩

theorem lineFeed_numberText (d : Decimal) : '\n' ∉ numberText d := by
  have hpositive := lineFeed_positiveText d.shortest
    ((Nat.toDigits 10 d.shortest).length + d.scale)
  unfold numberText
  split
  · decide
  · cases d.negative <;> simpa using hpositive

theorem lineFeed_printUnit (u : Nat) : '\n' ∉ printUnit u := by
  unfold printUnit
  split
  · rename_i c hshort
    intro hmem
    simp only [List.mem_cons, List.not_mem_nil, or_false] at hmem
    rcases hmem with h | rfl
    · cases h
    · unfold shortEscape at hshort
      split at hshort <;> cases hshort
  · rename_i hshort
    split
    · simp only [hexEscape, List.mem_cons, List.not_mem_nil, or_false, not_or]
      exact ⟨by decide, by decide, (lineFeed_digitChar _).symm, (lineFeed_digitChar _).symm,
        (lineFeed_digitChar _).symm, (lineFeed_digitChar _).symm⟩
    · intro hmem
      have hne : u ≠ 10 := by
        rintro rfl
        cases hshort
      exact Utf8.ofNat_ne_lineFeed hne (List.mem_singleton.mp hmem).symm

theorem lineFeed_printUnits (units : List Nat) : '\n' ∉ printUnits units := by
  fun_induction printUnits units with
  | case1 high low rest hpair ih =>
    intro hmem
    rcases List.mem_cons.mp hmem with heq | hmem
    · exact Utf8.ofNat_ne_lineFeed (by omega) heq.symm
    · exact ih hmem
  | case2 high low rest hpair ih =>
    exact fun hmem => (List.mem_append.mp hmem).elim (lineFeed_printUnit high) ih
  | case3 u => exact lineFeed_printUnit u
  | case4 => exact List.not_mem_nil

theorem lineFeed_quote (units : List Nat) : '\n' ∉ quote units := by
  simp [quote, lineFeed_printUnits units]

mutual

/-- A line feed in the data is an escape of two characters. -/
theorem lineFeed_print : ∀ v : Json, '\n' ∉ print v
  | .null => by rw [print]; decide
  | .bool true => by rw [print]; decide
  | .bool false => by rw [print]; decide
  | .num n => by rw [print]; exact lineFeed_numberText n
  | .str units => by rw [print]; exact lineFeed_quote units
  | .arr items => by
      rw [print, List.mem_cons, not_or]
      exact ⟨by decide, lineFeed_items items⟩
  | .obj entries => by
      rw [print, List.mem_cons, not_or]
      exact ⟨by decide, lineFeed_members entries⟩

theorem lineFeed_items : ∀ vs : List Json, '\n' ∉ printItems vs
  | [] => by rw [printItems]; decide
  | [v] => by
      rw [printItems]
      simp [lineFeed_print v]
  | v :: w :: vs => by
      rw [printItems]
      simp [lineFeed_print v, lineFeed_items (w :: vs)]

theorem lineFeed_members : ∀ es : List (List Nat × Json), '\n' ∉ printMembers es
  | [] => by rw [printMembers]; decide
  | [(key, v)] => by
      rw [printMembers]
      simp [lineFeed_print v, lineFeed_quote key]
  | (key, v) :: e :: es => by
      rw [printMembers]
      simp [lineFeed_print v, lineFeed_quote key, lineFeed_members (e :: es)]

end

end JsonText
