import Cossack.Core.Routes

/-! # Matching paths

    `prefixMatcher` (`route-ids.ts`): a pattern as a regular expression, whose
    captures are decoded.  The path that a route builder makes of values is
    matched with the same values, where at most one of them spans segments. -/

namespace Cossack.Framework.RouteMatching

open Core.Routes UriText
open FormText (decodeURIComponent)

/-! ## Section 1: The model -/

/-- What stands between two slashes of the expression: an escaped literal,
    `([^/]+)` or `(.+)`. -/
inductive Piece where
  | literal (text : List Char)
  | single
  | spread
  deriving DecidableEq

def isCatchAll (segment : List Char) : Bool := catchAllMark.isSuffixOf segment

def pieceOf (segment : List Char) : Piece :=
  if segment.head? ≠ some ':' then .literal segment
  else if isCatchAll segment then .spread else .single

/-- `segment.slice(1, catchAll ? -4 : undefined)`. -/
def nameOf (segment : List Char) : String :=
  String.ofList (if isCatchAll segment then (segment.take (segment.length - 4)).drop 1 else segment.drop 1)

def rankOf (segment : List Char) : Nat :=
  match pieceOf segment with
  | .literal _ => 0
  | .single => 1
  | .spread => 2

/-- What a dot does not match. -/
def isLineEnd (c : Char) : Bool :=
  c == '\n' || c == '\r' || c.toNat == 0x2028 || c.toNat == 0x2029

/-- A greedy `x+`: as many characters as possible first, then one less each time
    that the rest of the expression fails. -/
def longest {β : Type} (ok : Char → Bool) (next : List Char → List Char → Option β) (taken : List Char) :
    List Char → Option β
  | c :: rest =>
      if ok c then
        (longest ok next (taken ++ [c]) rest).or (if taken = [] then none else next taken (c :: rest))
      else if taken = [] then none else next taken (c :: rest)
  | [] => if taken = [] then none else next taken []

/-- The expression on a text: the captures, and the rest behind the match, which
    is empty or begins with a slash. -/
def matchPieces : List Piece → List Char → Option (List (List Char) × List Char)
  | [], s => if s = [] ∨ s.head? = some '/' then some ([], s) else none
  | piece :: pieces, '/' :: s =>
      match piece with
      | .literal text => if text.isPrefixOf s then matchPieces pieces (s.drop text.length) else none
      | .single => longest (fun c => c != '/')
          (fun capture rest => (matchPieces pieces rest).map fun m => (capture :: m.1, m.2)) [] s
      | .spread => longest (fun c => !isLineEnd c)
          (fun capture rest => (matchPieces pieces rest).map fun m => (capture :: m.1, m.2)) [] s
  | _ :: _, _ => none

structure Matcher where
  names : List String
  ranks : List Nat
  pieces : List Piece

def prefixMatcher (pattern : String) : Matcher :=
  let segments := if pattern = "/" then [] else (pattern.toList.drop 1).splitOn '/'
  ⟨(segments.filter fun segment => segment.head? == some ':').map nameOf, segments.map rankOf,
    segments.map pieceOf⟩

structure Match where
  params : List (String × List Char)
  depth : Nat
  deriving DecidableEq

/-- Where the expression is empty, the match is. -/
def Matcher.exec (m : Matcher) (pathname : List Char) : Option (List (List Char) × List Char) :=
  if m.pieces = [] ∨ m.pieces = [.literal []] then some ([], pathname) else matchPieces m.pieces pathname

/-- A capture with a malformed escape is kept as it is. -/
def decodeCapture (capture : List Char) : List Char := (decodeURIComponent capture).getD capture

def Matcher.match (m : Matcher) (pathname : List Char) : Option Match :=
  (m.exec pathname).map fun (captures, rest) => {
    params := (m.names.zip captures).foldl (fun params e => Entries.set params e.1 (decodeCapture e.2)) []
    depth := (((pathname.take (pathname.length - rest.length)).splitOn '/').filter (· ≠ [])).length }

/-! ## Section 2: Greedy captures -/

section
variable {β : Type} {ok : Char → Bool} {next : List Char → List Char → Option β}

theorem longest_some {taken s : List Char} {b : β} (h : longest ok next taken s = some b) :
    ∃ x y, s = x ++ y ∧ next (taken ++ x) y = some b := by
  have stop : ∀ {taken s : List Char}, (if taken = [] then none else next taken s) = some b →
      ∃ x y, s = x ++ y ∧ next (taken ++ x) y = some b := by
    intro taken s h
    split at h
    · cases h
    · exact ⟨[], s, rfl, by rwa [List.append_nil]⟩
  induction s generalizing taken with
  | nil => exact stop h
  | cons c rest ih =>
    rw [longest] at h
    split at h
    · rcases Option.or_eq_some_iff.mp h with hmore | ⟨-, hstop⟩
      · obtain ⟨x, y, rfl, hnext⟩ := ih hmore
        exact ⟨c :: x, y, rfl, by simpa using hnext⟩
      · exact stop hstop
    · exact stop h

theorem longest_none {taken s : List Char} (h : ∀ x y, s = x ++ y → next (taken ++ x) y = none) :
    longest ok next taken s = none := by
  cases hlongest : longest ok next taken s with
  | none => rfl
  | some b =>
    obtain ⟨x, y, heq, hnext⟩ := longest_some hlongest
    rw [h x y heq] at hnext
    cases hnext

/-- A capture is the one after which the rest matches and no longer one does. -/
theorem longest_eq {taken capture tail : List Char} {b : β} (hne : taken ++ capture ≠ [])
    (hok : ∀ c ∈ capture, ok c = true) (hnext : next (taken ++ capture) tail = some b)
    (hlonger : ∀ c x y, tail = c :: x ++ y → ok c = true → next (taken ++ capture ++ c :: x) y = none) :
    longest ok next taken (capture ++ tail) = some b := by
  induction capture generalizing taken with
  | nil =>
    rw [List.append_nil] at hne hnext hlonger
    cases tail with
    | nil => rw [List.append_nil, longest, if_neg hne, hnext]
    | cons c tail =>
      rw [List.nil_append, longest, if_neg hne, hnext]
      split
      · rename_i hc
        rw [longest_none fun x y heq => ?_]
        · rfl
        · rw [List.append_assoc]
          exact hlonger c x y (by rw [heq]; rfl) hc
      · rfl
  | cons c capture ih =>
    rw [List.cons_append, longest, if_pos (hok c (by simp)), ih (by simp) fun d hd => hok d (List.mem_cons_of_mem _ hd)]
    · rfl
    · simpa using hnext
    · intro d x y heq hd
      simpa using hlonger d x y heq hd

end

/-- Every piece takes a slash. -/
theorem length_le_count {pieces : List Piece} {s : List Char} {r : List (List Char) × List Char}
    (h : matchPieces pieces s = some r) : pieces.length ≤ s.count '/' := by
  induction pieces generalizing s r with
  | nil => exact Nat.zero_le _
  | cons piece pieces ih =>
    have capture : ∀ {ok : Char → Bool} {s : List Char}, longest ok
        (fun capture rest => (matchPieces pieces rest).map fun m => (capture :: m.1, m.2)) [] s = some r →
        pieces.length ≤ s.count '/' := by
      intro ok s h
      obtain ⟨x, y, rfl, hnext⟩ := longest_some h
      obtain ⟨m, hm, -⟩ := Option.map_eq_some_iff.mp hnext
      rw [List.count_append]
      exact Nat.le_add_left_of_le (ih hm)
    cases s with
    | nil => cases piece <;> cases h
    | cons c s =>
      by_cases hc : c = '/'
      · subst hc
        rw [List.count_cons_self, List.length_cons]
        refine Nat.succ_le_succ ?_
        cases piece with
        | literal text =>
          rw [matchPieces] at h
          split at h
          · exact (ih h).trans ((List.drop_sublist _ _).count_le _)
          · cases h
        | single => exact capture h
        | spread => exact capture h
      · rw [matchPieces] at h
        · cases h
        · intro s' heq
          exact hc (List.cons.inj heq).1

/-! ## Section 3: Segments of a pattern -/

theorem catchAll_eq {segment : List Char} {parameter : RouteParameter} (h : parameterOf segment = some parameter) :
    isCatchAll segment = parameter.catchAll := by
  obtain ⟨heq, -, hname⟩ := parameterOf_some h
  cases hcatch : parameter.catchAll with
  | true =>
    rw [heq, hcatch]
    exact List.isSuffixOf_iff_suffix.mpr ⟨':' :: parameter.name.toList, rfl⟩
  | false =>
    rw [isCatchAll, Bool.eq_false_iff]
    intro hsuffix
    have hmem : '\x7d' ∈ segment := (List.isSuffixOf_iff_suffix.mp hsuffix).subset (by decide)
    rw [heq, hcatch] at hmem
    simp only [Bool.false_eq_true, if_false, List.append_nil, List.mem_cons] at hmem
    rcases hmem with heq | hmem
    · cases heq
    · exact absurd (notBrace (hname _ hmem)) (by decide)

theorem pieceOf_parameter {segment : List Char} {parameter : RouteParameter} (h : parameterOf segment = some parameter) :
    pieceOf segment = if parameter.catchAll then .spread else .single := by
  rw [pieceOf, if_neg (by simp [head_of_parameter h]), catchAll_eq h]

theorem nameOf_parameter {segment : List Char} {parameter : RouteParameter} (h : parameterOf segment = some parameter) :
    nameOf segment = parameter.name := by
  rw [nameOf, catchAll_eq h, (parameterOf_some h).1]
  cases parameter.catchAll <;> simp [catchAllMark]

theorem names_filled {args : String → Option (List Nat)} {segments : List (List Char)} {parameters : List RouteParameter}
    {blocks : List (List (List Char))} (h : Filled args segments parameters blocks) :
    (segments.filter fun segment => segment.head? == some ':').map nameOf = parameters.map RouteParameter.name := by
  induction h with
  | nil => rfl
  | literal hhead _ _ ih =>
    rw [List.filter_cons_of_neg (by simpa using hhead), ih]
  | parameter hsegment _ _ _ _ _ ih =>
    rw [List.filter_cons_of_pos (by simp [head_of_parameter hsegment]), List.map_cons, List.map_cons, ih,
      nameOf_parameter hsegment]

theorem slash_not_mem_splitOn (s : List Char) : ∀ segment ∈ s.splitOn '/', '/' ∉ segment := by
  induction s with
  | nil => simp
  | cons c s ih =>
    rw [List.splitOn_cons_eq_if_modifyHead]
    split
    · intro segment hsegment
      rcases List.mem_cons.mp hsegment with rfl | hsegment
      · exact List.not_mem_nil
      · exact ih segment hsegment
    · rename_i hc
      obtain ⟨first, rest, heq⟩ := List.exists_cons_of_ne_nil (List.splitOn_ne_nil '/' s)
      rw [heq] at ih ⊢
      intro segment hsegment
      rcases List.mem_cons.mp hsegment with rfl | hsegment
      · rw [List.mem_cons, not_or]
        exact ⟨fun h => hc (beq_iff_eq.mpr h.symm), ih first (by simp)⟩
      · exact ih segment (List.mem_cons_of_mem _ hsegment)

/-! ## Section 4: The path matches -/

/-- The text of the blocks, each behind a slash. -/
def pathOf (blocks : List (List (List Char))) : List Char := blocks.flatMap fun block => '/' :: ['/'].intercalate block

theorem pathOf_cons (block : List (List Char)) (blocks : List (List (List Char))) :
    pathOf (block :: blocks) = '/' :: (['/'].intercalate block ++ pathOf blocks) := by
  simp [pathOf]

theorem intercalate_singleton (segment : List Char) : ['/'].intercalate [segment] = segment := by
  simp [List.intercalate]

/-- A capture that is read as the value of its parameter. -/
def Captured (args : String → Option (List Nat)) (parameter : RouteParameter) (capture : List Char) : Prop :=
  args parameter.name = some ((decodeCapture capture).flatMap JsString.units)

theorem captured_intercalate {args : String → Option (List Nat)} {parameter : RouteParameter} {texts : List (List Char)}
    (h : args parameter.name = some ((['/'].intercalate texts).flatMap JsString.units)) :
    Captured args parameter (['/'].intercalate (texts.map encodeChars)) := by
  rw [Captured, decodeCapture, decode_intercalate, Option.getD_some, h]

theorem ne_slash_of_mem {texts : List (List Char)} (hlen : texts.length = 1) :
    ∀ c ∈ ['/'].intercalate (texts.map encodeChars), c ≠ '/' := by
  obtain ⟨text, rfl⟩ := List.length_eq_one_iff.mp hlen
  rw [List.map_singleton, intercalate_singleton]
  exact fun c hc => (kept_encodeChars hc).2

theorem kept_intercalate {texts : List (List Char)} {c : Char} (h : c ∈ ['/'].intercalate (texts.map encodeChars)) :
    isKept c = true := by
  induction texts with
  | nil => cases h
  | cons text texts ih =>
    cases texts with
    | nil =>
      rw [List.map_singleton, intercalate_singleton] at h
      exact (kept_encodeChars h).1
    | cons next texts =>
      rw [List.map_cons, List.intercalate_cons_of_ne_nil (by simp), List.mem_append, List.mem_append] at h
      rcases h with (h | h) | h
      · exact (kept_encodeChars h).1
      · rw [List.mem_singleton.mp h]
        decide
      · exact ih h

theorem intercalate_ne_nil {texts : List (List Char)} (hne : texts ≠ []) (htexts : ∀ text ∈ texts, IsSegment text) :
    ['/'].intercalate (texts.map encodeChars) ≠ [] := by
  cases texts with
  | nil => exact absurd rfl hne
  | cons text texts =>
    have htext := encodeChars_ne_nil (htexts text (by simp)).1
    cases texts with
    | nil => rwa [List.map_singleton, intercalate_singleton]
    | cons next texts =>
      rw [List.map_cons, List.intercalate_cons_of_ne_nil (by simp)]
      simp [htext]

theorem lineEnd_of_kept {c : Char} (h : isKept c = true) : isLineEnd c = false := by
  obtain ⟨hescaped, -, hlt, -⟩ := kept_parts h
  have hle : c.toNat ≤ 0x7E := by
    simp only [isEscaped, Bool.or_eq_false_iff, decide_eq_false_iff_not] at hescaped
    omega
  simp only [isLineEnd, Bool.or_eq_false_iff, beq_eq_false_iff_ne]
  refine ⟨⟨⟨?_, ?_⟩, by omega⟩, by omega⟩ <;> rintro rfl <;> revert hlt <;> decide

/-- A path without catch-alls has one slash for each segment. -/
theorem count_pathOf {args : String → Option (List Nat)} {segments : List (List Char)} {parameters : List RouteParameter}
    {blocks : List (List (List Char))} (h : Filled args segments parameters blocks)
    (hslash : ∀ segment ∈ segments, '/' ∉ segment) (hcatch : ∀ parameter ∈ parameters, parameter.catchAll = false) :
    (pathOf blocks).count '/' = segments.length := by
  induction h with
  | nil => rfl
  | @literal segment rest parameters blocks hhead _ _ ih =>
    rw [pathOf_cons, intercalate_singleton, List.count_cons_self, List.count_append,
      List.count_eq_zero_of_not_mem (hslash segment (by simp)), ih (fun s hs => hslash s (List.mem_cons_of_mem _ hs)) hcatch]
    simp
  | @parameter segment parameter rest parameters blocks texts hsegment _ _ hsingle _ _ ih =>
    have hzero : (['/'].intercalate (texts.map encodeChars)).count '/' = 0 :=
      List.count_eq_zero_of_not_mem fun hmem => ne_slash_of_mem (hsingle (hcatch parameter (by simp))) _ hmem rfl
    rw [pathOf_cons, List.count_cons_self, List.count_append, hzero,
      ih (fun s hs => hslash s (List.mem_cons_of_mem _ hs)) fun p hp => hcatch p (List.mem_cons_of_mem _ hp)]
    simp

theorem pathOf_head {blocks : List (List (List Char))} {c : Char} {s : List Char} (h : pathOf blocks = c :: s) : c = '/' := by
  cases blocks with
  | nil => cases h
  | cons block blocks =>
    rw [pathOf_cons] at h
    exact (List.cons.inj h).1.symm

/-- The expression of a pattern captures the values that fill it. -/
theorem matchPieces_filled {args : String → Option (List Nat)} {segments : List (List Char)}
    {parameters : List RouteParameter} {blocks : List (List (List Char))} (h : Filled args segments parameters blocks)
    (hslash : ∀ segment ∈ segments, '/' ∉ segment) (hcatch : (parameters.filter (·.catchAll)).length ≤ 1) :
    ∃ captures, matchPieces (segments.map pieceOf) (pathOf blocks) = some (captures, []) ∧
      List.Forall₂ (Captured args) parameters captures := by
  induction h with
  | nil => exact ⟨[], rfl, .nil⟩
  | @literal segment rest parameters blocks hhead _ _ ih =>
    obtain ⟨captures, hmatch, hcaptured⟩ := ih (fun s hs => hslash s (List.mem_cons_of_mem _ hs)) hcatch
    refine ⟨captures, ?_, hcaptured⟩
    rw [List.map_cons, pieceOf, if_pos hhead, pathOf_cons, intercalate_singleton, matchPieces,
      if_pos (List.isPrefixOf_iff_prefix.mpr (List.prefix_append _ _)), List.drop_left, hmatch]
  | @parameter segment parameter rest parameters blocks texts hsegment hne htexts hsingle hvalue hrest ih =>
    have hslash' : ∀ s ∈ rest, '/' ∉ s := fun s hs => hslash s (List.mem_cons_of_mem _ hs)
    have hcatch' : (parameters.filter (·.catchAll)).length ≤ 1 :=
      ((List.sublist_cons_self parameter parameters).filter _).length_le.trans hcatch
    obtain ⟨captures, hmatch, hcaptured⟩ := ih hslash' hcatch'
    have hnonempty := intercalate_ne_nil hne htexts
    refine ⟨['/'].intercalate (texts.map encodeChars) :: captures, ?_, .cons (captured_intercalate hvalue) hcaptured⟩
    rw [List.map_cons, pieceOf_parameter hsegment, pathOf_cons]
    cases hall : parameter.catchAll with
    | false =>
      simp only [Bool.false_eq_true, if_false, matchPieces]
      refine longest_eq hnonempty ?_ (by rw [List.nil_append, hmatch]; rfl) ?_
      · intro c hc
        simpa using ne_slash_of_mem (hsingle hall) c hc
      · -- the rest begins with a slash
        intro c x y htail hc
        rw [pathOf_head htail] at hc
        cases hc
    | true =>
      simp only [if_true, matchPieces]
      refine longest_eq hnonempty ?_ (by rw [List.nil_append, hmatch]; rfl) ?_
      · intro c hc
        rw [lineEnd_of_kept (kept_intercalate hc)]
        rfl
      · -- a longer capture leaves less slashes than there are segments
        intro c x y htail _
        have hnone : ∀ p ∈ parameters, p.catchAll = false := by
          rw [List.filter_cons_of_pos hall, List.length_cons] at hcatch
          have hempty := List.length_eq_zero_iff.mp (Nat.le_zero.mp (Nat.le_of_succ_le_succ hcatch))
          intro p hp
          rw [List.filter_eq_nil_iff] at hempty
          simpa using hempty p hp
        have hcount := count_pathOf hrest hslash' hnone
        rw [pathOf_head htail] at htail
        rw [htail, List.cons_append, List.count_cons_self, List.count_append] at hcount
        cases hlonger : matchPieces (rest.map pieceOf) y with
        | none => rfl
        | some r =>
          have hle := length_le_count hlonger
          rw [List.length_map] at hle
          omega

/-! ## Section 5: The path is kept -/

/-- The literals of a pattern that the URL parser leaves as they are. -/
def PlainLiterals (pattern : String) : Prop :=
  ∀ segment ∈ pattern.toList.splitOn '/', segment.head? ≠ some ':' → ∀ c ∈ segment, isKept c = true

theorem dots_of_supported {segment : List Char} (h : supportedLiteral segment = true) :
    isSingleDot segment = false ∧ isDoubleDot segment = false := by
  have hsingle : ∀ s ∈ dots, replaceDots s = ['.'] := by decide
  have hdouble : ∀ a ∈ dots, ∀ b ∈ dots, replaceDots (a ++ b) = ['.', '.'] := by decide
  simp only [supportedLiteral, Bool.and_eq_true, bne_iff_ne] at h
  constructor
  · rw [Bool.eq_false_iff]
    exact fun hdot => h.1.1 (hsingle segment (List.contains_iff_mem.mp hdot))
  · rw [Bool.eq_false_iff]
    intro hdot
    simp only [isDoubleDot, List.any_eq_true, beq_iff_eq] at hdot
    obtain ⟨a, ha, b, hb, heq⟩ := hdot
    exact h.1.2 (heq ▸ hdouble a ha b hb)

/-- The segments of a path that is built are kept. -/
theorem items_kept {args : String → Option (List Nat)} {segments : List (List Char)} {parameters : List RouteParameter}
    {blocks : List (List (List Char))} (h : Filled args segments parameters blocks)
    (hslash : ∀ segment ∈ segments, '/' ∉ segment)
    (hplain : ∀ segment ∈ segments, segment.head? ≠ some ':' → ∀ c ∈ segment, isKept c = true) :
    (∀ block ∈ blocks, block ≠ []) ∧ ∀ item ∈ blocks.flatten, (∀ c ∈ item, isKept c = true ∧ c ≠ '/') ∧
      isSingleDot item = false ∧ isDoubleDot item = false := by
  induction h with
  | nil => exact ⟨nofun, nofun⟩
  | @literal segment rest parameters blocks hhead hliteral _ ih =>
    obtain ⟨hblocks, hitems⟩ := ih (fun s hs => hslash s (List.mem_cons_of_mem _ hs))
      fun s hs => hplain s (List.mem_cons_of_mem _ hs)
    refine ⟨List.forall_mem_cons.mpr ⟨by simp, hblocks⟩, ?_⟩
    rw [List.flatten_cons, List.singleton_append]
    refine List.forall_mem_cons.mpr ⟨⟨fun c hc => ⟨hplain segment (by simp) hhead c hc, ?_⟩, dots_of_supported hliteral⟩, hitems⟩
    rintro rfl
    exact hslash segment (by simp) hc
  | @parameter segment parameter rest parameters blocks texts hsegment hne htexts _ _ _ ih =>
    obtain ⟨hblocks, hitems⟩ := ih (fun s hs => hslash s (List.mem_cons_of_mem _ hs))
      fun s hs => hplain s (List.mem_cons_of_mem _ hs)
    refine ⟨List.forall_mem_cons.mpr ⟨by simpa using hne, hblocks⟩, fun item hitem => ?_⟩
    rw [List.flatten_cons, List.mem_append] at hitem
    rcases hitem with hitem | hitem
    · obtain ⟨text, htext, rfl⟩ := List.mem_map.mp hitem
      obtain ⟨-, hdot, hdots⟩ := htexts text htext
      exact ⟨fun c hc => kept_encodeChars hc, dots_encodeChars hdot hdots⟩
    · exact hitems item hitem

theorem pathOf_flatten {blocks : List (List (List Char))} (h : ∀ block ∈ blocks, block ≠ []) :
    pathOf blocks = blocks.flatten.flatMap ('/' :: ·) := by
  induction blocks with
  | nil => rfl
  | cons block blocks ih =>
    rw [List.forall_mem_cons] at h
    rw [pathOf_cons, ih h.2, List.flatten_cons, List.flatMap_append, flatMap_slash h.1]
    rfl

/-- A pattern is a slash and its other segments; only the last may be empty. -/
theorem pattern_segments {pattern : List Char} (h : supportedPattern pattern = true) :
    ∃ rest, pattern = '/' :: rest ∧ pattern.splitOn '/' = [] :: rest.splitOn '/' ∧
      ((rest.splitOn '/').head? = some [] → rest = []) := by
  simp only [supportedPattern, Bool.and_eq_true, beq_iff_eq] at h
  obtain ⟨rest, rfl⟩ := List.head?_eq_some_iff.mp h.1.1
  refine ⟨rest, rfl, ?_, fun hhead => ?_⟩
  · rw [List.splitOn_cons_eq_if_modifyHead]
    rfl
  · cases rest with
    | nil => rfl
    | cons c rest =>
      rw [List.splitOn_cons_eq_if_modifyHead] at hhead
      split at hhead
      · rename_i hc
        have hdouble : (('/' :: c :: rest).tails.any fun tail => ['/', '/'].isPrefixOf tail) = true := by
          rw [List.any_eq_true]
          refine ⟨'/' :: c :: rest, by simp, ?_⟩
          rw [beq_iff_eq.mp hc]
          rfl
        rw [hdouble] at h
        simp at h
      · obtain ⟨first, others, heq⟩ := List.exists_cons_of_ne_nil (List.splitOn_ne_nil '/' rest)
        rw [heq] at hhead
        cases hhead

theorem pathOf_eq {blocks : List (List (List Char))} (h : blocks ≠ []) :
    ['/'].intercalate (([[]] :: blocks).map (['/'].intercalate ·)) = pathOf blocks := by
  have hmap : blocks.map (['/'].intercalate ·) ≠ [] := by simpa using h
  rw [List.map_cons, List.intercalate_cons_of_ne_nil hmap, intercalate_singleton, List.nil_append, List.singleton_append,
    ← flatMap_slash hmap, List.flatMap_map, pathOf]

theorem filled_empty {args : String → Option (List Nat)} {rest : List (List Char)} {parameters : List RouteParameter}
    {blocks : List (List (List Char))} (h : Filled args ([] :: rest) parameters blocks) :
    ∃ others, blocks = [[]] :: others ∧ Filled args rest parameters others := by
  cases h with
  | literal _ _ hrest => exact ⟨_, rfl, hrest⟩
  | parameter hsegment => cases hsegment

theorem filled_nil {args : String → Option (List Nat)} {segments : List (List Char)} {parameters : List RouteParameter}
    (h : Filled args segments parameters []) : segments = [] := by
  cases h
  rfl

/-- Only an empty segment leaves the first item empty. -/
theorem filled_first {args : String → Option (List Nat)} {segments : List (List Char)} {parameters : List RouteParameter}
    {blocks : List (List (List Char))} (h : Filled args segments parameters blocks)
    (hhead : blocks.flatten.head? = some []) : segments.head? = some [] := by
  cases h with
  | nil => cases hhead
  | literal =>
    cases hhead
    rfl
  | @parameter _ _ _ _ _ texts _ hne htexts =>
    cases texts with
    | nil => exact absurd rfl hne
    | cons text texts => exact absurd (Option.some.inj hhead) (encodeChars_ne_nil (htexts text (by simp)).1)

/-! ## Section 6: Building and matching -/

theorem get_params {args : String → Option (List Nat)} {parameters : List RouteParameter} {captures : List (List Char)}
    (h : List.Forall₂ (Captured args) parameters captures) (init : List (String × List Char)) (name : String) :
    (Entries.get (((parameters.map RouteParameter.name).zip captures).foldl
      (fun params e => Entries.set params e.1 (decodeCapture e.2)) init) name).map (·.flatMap JsString.units) =
    if name ∈ parameters.map RouteParameter.name then args name
    else (Entries.get init name).map (·.flatMap JsString.units) := by
  induction h generalizing init with
  | nil => rfl
  | @cons parameter capture parameters captures hcaptured _ ih =>
    rw [List.map_cons, List.zip_cons_cons, List.foldl_cons, ih]
    by_cases hrest : name ∈ parameters.map RouteParameter.name
    · rw [if_pos hrest, if_pos (List.mem_cons_of_mem _ hrest)]
    · rw [if_neg hrest]
      by_cases hname : name = parameter.name
      · subst hname
        rw [if_pos (List.mem_cons_self ..), Entries.get_set_self, hcaptured]
        rfl
      · rw [Entries.get_set_of_ne _ _ (Ne.symm hname), if_neg]
        rw [List.mem_cons, not_or]
        exact ⟨hname, hrest⟩

theorem exec_filled {args : String → Option (List Nat)} {pattern : String} {parameters : List RouteParameter}
    {rest : List Char} {blocks : List (List (List Char))} (hpattern : pattern.toList = '/' :: rest)
    (h : Filled args (rest.splitOn '/') parameters blocks) (hfirst : (rest.splitOn '/').head? = some [] → rest = [])
    (hcatch : (parameters.filter (·.catchAll)).length ≤ 1) :
    ∃ captures left, (prefixMatcher pattern).exec (pathOf blocks) = some (captures, left) ∧
      (prefixMatcher pattern).names = parameters.map RouteParameter.name ∧
      List.Forall₂ (Captured args) parameters captures := by
  have hnames := names_filled h
  obtain ⟨captures, hmatch, hcaptured⟩ := matchPieces_filled h (slash_not_mem_splitOn rest) hcatch
  by_cases hroot : pattern = "/"
  · have hnil : rest = [] := by
      rw [hroot] at hpattern
      simpa using hpattern.symm
    subst hnil
    obtain ⟨others, rfl, hothers⟩ := filled_empty h
    cases hothers
    refine ⟨[], pathOf [[[]]], ?_, ?_, .nil⟩
    · rw [prefixMatcher, if_pos hroot]
      rfl
    · rw [prefixMatcher, if_pos hroot]
      rfl
  · have hdrop : pattern.toList.drop 1 = rest := by rw [hpattern]; rfl
    refine ⟨captures, [], ?_, ?_, hcaptured⟩
    · have hpieces : ¬ ((rest.splitOn '/').map pieceOf = [] ∨ (rest.splitOn '/').map pieceOf = [.literal []]) := by
        rintro (hnil | hone)
        · exact List.splitOn_ne_nil '/' rest (List.map_eq_nil_iff.mp hnil)
        · obtain ⟨segment, others, hsegments⟩ := List.exists_cons_of_ne_nil (List.splitOn_ne_nil '/' rest)
          rw [hsegments, List.map_cons, List.cons.injEq] at hone
          have hempty : segment = [] := by
            rw [pieceOf] at hone
            split at hone
            · exact Piece.literal.inj hone.1
            · split at hone <;> cases hone.1
          rw [hsegments, hempty] at hfirst
          refine hroot (String.toList_inj.mp ?_)
          rw [hpattern, hfirst rfl]
          rfl
      unfold Matcher.exec prefixMatcher
      simp only [if_neg hroot, hdrop, if_neg hpieces]
      exact hmatch
    · rw [prefixMatcher, if_neg hroot, hdrop]
      exact hnames

theorem match_of_exec {m : Matcher} {pathname : List Char} {captures : List (List Char)} {left : List Char}
    (h : m.exec pathname = some (captures, left)) :
    ∃ depth, m.match pathname = some ⟨(m.names.zip captures).foldl
      (fun params e => Entries.set params e.1 (decodeCapture e.2)) [], depth⟩ := by
  rw [Matcher.match, h]
  exact ⟨_, rfl⟩

/-- A call with one catch-all value. -/
def filesCall : List Argument :=
  [.object ⟨[(some "path", .array [some (ofString "a b"), some (ofString "c")])], List.nodup_singleton _⟩]

theorem files_plain : PlainLiterals "/files/:path\x7b.+\x7d" := by
  have hsplit : "/files/:path\x7b.+\x7d".toList.splitOn '/' =
      [[], "files".toList, ":path\x7b.+\x7d".toList] := by decide
  intro segment hsegment hliteral
  rw [hsplit] at hsegment
  simp only [List.mem_cons, List.not_mem_nil, or_false] at hsegment
  obtain rfl | rfl | rfl := hsegment
  · nofun
  · have hkept : "files".toList.all isKept = true := by decide
    exact List.all_eq_true.mp hkept
  · exact absurd rfl hliteral

/-- Two catch-alls: the first takes a segment of the second. -/
def twoSpreads : List Argument :=
  [.object ⟨[(some "a", .array [some (ofString "x")]), (some "b", .array [some (ofString "y"), some (ofString "z")])],
    by decide⟩]

end Cossack.Framework.RouteMatching
