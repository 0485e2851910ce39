import Cossack.Lib.Entries
import Cossack.Lib.UriText
import Mathlib

/-! # Routes

    `routeParameters` and `createRouteBuilder` (`routes.ts`): the parameters of a
    pattern, and the path that a pattern and values for them make. -/

namespace Cossack.Core.Routes

open UriText (Text encodeURIComponent)

/-! ## Section 1: Patterns -/

structure RouteParameter where
  name : String
  catchAll : Bool
  deriving DecidableEq

inductive RouteUrlErrorCode where
  | unknown | patternUnsupported | parameterInvalid
  deriving DecidableEq

structure RouteUrlError where
  code : RouteUrlErrorCode
  message : String
  route : String
  parameter : Option String
  deriving DecidableEq

/-- `{.+}` after the name of a catch-all. -/
def catchAllMark : List Char := ['\x7b', '.', '+', '\x7d']

/-- `segment.replace(/%2e/gi, '.')`. -/
def replaceDots : List Char → List Char
  | '%' :: '2' :: e :: rest => if e = 'e' ∨ e = 'E' then '.' :: replaceDots rest else '%' :: replaceDots ('2' :: e :: rest)
  | c :: rest => c :: replaceDots rest
  | [] => []

/-- `/[:*{}\[\]\s]/`. -/
def isPatternSymbol (c : Char) : Bool :=
  c == ':' || c == '*' || c == '\x7b' || c == '\x7d' || c == '[' || c == ']' || JsString.isSpace c

def supportedLiteral (segment : List Char) : Bool :=
  let normalized := replaceDots segment
  normalized != ['.'] && normalized != ['.', '.'] && !segment.any isPatternSymbol

def isNameStart (c : Char) : Bool := c.isAlpha || c == '_'

def isNameRest (c : Char) : Bool := c.isAlphanum || c == '_' || c == '-'

/-- `/^:([A-Za-z_][A-Za-z0-9_-]*)(\{\.\+\})?$/`. -/
def parameterOf : List Char → Option RouteParameter
  | ':' :: c :: rest =>
      if isNameStart c then
        let name := String.ofList (c :: rest.takeWhile isNameRest)
        let mark := rest.dropWhile isNameRest
        if mark = [] then some ⟨name, false⟩
        else if mark = catchAllMark then some ⟨name, true⟩
        else none
      else none
  | _ => none

def unsupported (pattern : String) (message : String) : RouteUrlError :=
  ⟨.patternUnsupported, message, pattern, none⟩

/-- The loop over the segments. -/
def collectParameters (pattern : String) : List (List Char) → List RouteParameter → Except RouteUrlError (List RouteParameter)
  | [], result => .ok result
  | segment :: rest, result =>
      if segment.head? ≠ some ':' then
        if supportedLiteral segment then collectParameters pattern rest result
        else .error (unsupported pattern ("Unsupported literal segment in " ++ pattern ++ "."))
      else
        let failure := unsupported pattern ("Unsupported or repeated parameter in " ++ pattern ++ ".")
        match parameterOf segment with
        | none => .error failure
        | some parameter =>
            if result.any (·.name = parameter.name) then .error failure
            else collectParameters pattern rest (result ++ [parameter])

/-- `/[?#\\]/`, and a slash next to another. -/
def supportedPattern (pattern : List Char) : Bool :=
  pattern.head? == some '/' && !pattern.any (fun c => c == '?' || c == '#' || c == '\\') &&
    !pattern.tails.any fun tail => ['/', '/'].isPrefixOf tail

def routeParameters (pattern : String) : Except RouteUrlError (List RouteParameter) :=
  if supportedPattern pattern.toList then collectParameters pattern (pattern.toList.splitOn '/') []
  else .error (unsupported pattern ("Unsupported route pattern " ++ pattern ++ "."))

/-! ## Section 2: Paths -/

/-- What a property of the parameters has: a string, an array whose items may be
    something else than strings, or something else, an accessor included. -/
inductive Value where
  | text (text : Text)
  | array (items : List (Option Text))
  | other

/-- An object's own properties; a key that is no string is a symbol. -/
structure Params where
  fields : List (Option String × Value)
  nodup : (fields.filterMap Prod.fst).Nodup

inductive Argument where
  | object (params : Params)
  | other

structure Route where
  pattern : String
  parameters : List RouteParameter
  deriving DecidableEq

abbrev Builder := List (String × Route)

def createRouteBuilder (registry : List (String × String)) : Except RouteUrlError Builder :=
  registry.mapM fun entry => (routeParameters entry.2).map fun parameters => (entry.1, ⟨entry.2, parameters⟩)

def Params.get (params : Params) (name : String) : Option Value := Entries.get params.fields (some name)

/-- A segment of a value; none where it is not valid. -/
def encodeSegment (item : Option Text) : Option (List Char) :=
  match item with
  | none => none
  | some text =>
      if text.1 = [] ∨ text = UriText.ofString "." ∨ text = UriText.ofString ".." then none
      else encodeURIComponent text

/-- The items of a value. -/
def Value.segments (catchAll : Bool) : Value → Option (List (Option Text))
  | .array items => if catchAll then some items else some [none]
  | .text value => if catchAll then none else some [some value]
  | .other => if catchAll then none else some [none]

def encodeValue (parameter : RouteParameter) (value : Option Value) : Option (List Char) := do
  let segments ← (← value).segments parameter.catchAll
  if segments = [] then none
  else
    let encoded ← segments.mapM encodeSegment
    return ['/'].intercalate encoded

/-- The values by name, or the name of the first that is not valid. -/
def encodeValues (params : Params) : List RouteParameter → Except String (List (String × List Char))
  | [] => .ok []
  | parameter :: rest =>
      match encodeValue parameter (params.get parameter.name) with
      | none => .error parameter.name
      | some value => (encodeValues params rest).map ((parameter.name, value) :: ·)

/-- The name after the colon, up to a brace. -/
def segmentName (segment : List Char) : String :=
  String.ofList ((segment.drop 1).takeWhile fun c => !(c == '\x7b' || c == '\x7d'))

def fill (pattern : String) (values : List (String × List Char)) : List Char :=
  ['/'].intercalate ((pattern.toList.splitOn '/').map fun segment =>
    if segment.head? ≠ some ':' then segment else (Entries.get values (segmentName segment)).getD [])

def invalid (name : String) (parameter : Option String) : RouteUrlError :=
  ⟨.parameterInvalid, "Invalid parameters for route " ++ name ++
    (match parameter with | some parameter => ": " ++ parameter | none => "") ++ ".", name, parameter⟩

def build (builder : Builder) (name : String) (args : List Argument) : Except RouteUrlError (List Char) :=
  match Entries.get builder name with
  | none => .error ⟨.unknown, "Unknown route " ++ name ++ ".", name, none⟩
  | some route =>
      if route.parameters = [] then
        if args.isEmpty then .ok route.pattern.toList else .error (invalid name none)
      else match args with
        | [.object params] =>
            if params.fields.length ≠ route.parameters.length ∨
                params.fields.any (fun field => !route.parameters.any fun parameter => field.1 == some parameter.name) then
              .error (invalid name none)
            else match encodeValues params route.parameters with
              | .error parameter => .error (invalid name (some parameter))
              | .ok values => .ok (fill route.pattern values)
        | _ => .error (invalid name none)

/-! ## Section 3: What is accepted -/

/-- A value as one string: the segments of a catch-all with slashes between. -/
def Value.joined : Value → Option (List Nat)
  | .text value => some value.1
  | .array items => (items.mapM id).map fun texts => [47].intercalate (texts.map Subtype.val)
  | .other => none

/-- The values of a call. -/
def given (args : List Argument) (name : String) : Option (List Nat) :=
  match args with
  | [.object params] => (params.get name).bind Value.joined
  | _ => none

/-- A text that may be a segment. -/
def IsSegment (text : List Char) : Prop := text ≠ [] ∧ text ≠ ['.'] ∧ text ≠ ['.', '.']

theorem encodeSegment_some {item : Option Text} {encoded : List Char} (h : encodeSegment item = some encoded) :
    ∃ value text, item = some value ∧ text.flatMap JsString.units = value.1 ∧
      encoded = UriText.encodeChars text ∧ IsSegment text := by
  cases item with
  | none => cases h
  | some value =>
    rw [encodeSegment] at h
    split at h
    · cases h
    · rename_i hvalid
      obtain ⟨text, htext, rfl⟩ := Option.map_eq_some_iff.mp h
      have hunits := UriText.chars_units value.2 htext
      refine ⟨value, text, rfl, hunits, rfl, ?_, ?_, ?_⟩ <;> rintro rfl
      · exact hvalid (.inl hunits.symm)
      · exact hvalid (.inr (.inl (Subtype.ext hunits.symm)))
      · exact hvalid (.inr (.inr (Subtype.ext hunits.symm)))

theorem flatMap_intercalate (texts : List (List Char)) :
    (['/'].intercalate texts).flatMap JsString.units = [47].intercalate (texts.map (List.flatMap JsString.units)) := by
  induction texts with
  | nil => rfl
  | cons text texts ih =>
    cases texts with
    | nil => simp [List.intercalate]
    | cons next texts =>
      have hchars : ['/'].intercalate (text :: next :: texts) = text ++ ['/'] ++ ['/'].intercalate (next :: texts) :=
        List.intercalate_cons_of_ne_nil (by simp)
      have hunits : [47].intercalate ((text :: next :: texts).map (List.flatMap JsString.units)) =
          text.flatMap JsString.units ++ [47] ++ [47].intercalate ((next :: texts).map (List.flatMap JsString.units)) :=
        List.intercalate_cons_of_ne_nil (by simp)
      rw [hchars, List.flatMap_append, List.flatMap_append, ih, hunits]
      rfl

theorem encodeSegments_some {items : List (Option Text)} {encoded : List (List Char)}
    (h : items.mapM encodeSegment = some encoded) :
    ∃ texts : List (List Char), encoded = texts.map UriText.encodeChars ∧ (∀ text ∈ texts, IsSegment text) ∧
      ∃ values : List Text, items = values.map some ∧ values.map Subtype.val = texts.map (List.flatMap JsString.units) := by
  induction items generalizing encoded with
  | nil =>
    cases h
    exact ⟨[], rfl, nofun, [], rfl, rfl⟩
  | cons item items ih =>
    rw [List.mapM_cons] at h
    simp only [Option.bind_eq_bind, Option.pure_def, Option.bind_eq_some_iff, Option.some.injEq] at h
    obtain ⟨first, hfirst, rest, hrest, rfl⟩ := h
    obtain ⟨value, text, rfl, hunits, rfl, hsegment⟩ := encodeSegment_some hfirst
    obtain ⟨texts, rfl, hsegments, values, rfl, hvalues⟩ := ih hrest
    refine ⟨text :: texts, rfl, List.forall_mem_cons.mpr ⟨hsegment, hsegments⟩, value :: values, rfl, ?_⟩
    rw [List.map_cons, List.map_cons, hvalues, hunits]

theorem mapM_id_some (values : List Text) : (values.map some).mapM id = some values := by
  induction values with
  | nil => rfl
  | cons value values ih => simp [ih]

/-- A value whose items are all strings is these strings. -/
theorem segments_some {catchAll : Bool} {value : Value} {values : List Text}
    (h : value.segments catchAll = some (values.map some)) :
    value.joined = some ([47].intercalate (values.map Subtype.val)) ∧ (catchAll = false → values.length = 1) := by
  have single : ∀ {item : Option Text}, [item] = values.map some → values.length = 1 ∧ ∃ v, values = [v] ∧ item = some v := by
    intro item heq
    match values, heq with
    | [v], heq => exact ⟨rfl, v, rfl, List.singleton_inj.mp heq⟩
  cases value with
  | text value =>
    simp only [Value.segments] at h
    split at h
    · cases h
    · obtain ⟨hlen, v, rfl, hv⟩ := single (Option.some.inj h)
      cases hv
      exact ⟨by simp [Value.joined, List.intercalate], fun _ => rfl⟩
  | array items =>
    simp only [Value.segments] at h
    split at h
    · rename_i hcatch
      cases h
      exact ⟨by rw [Value.joined, mapM_id_some]; rfl, fun hsingle => by rw [hcatch] at hsingle; cases hsingle⟩
    · obtain ⟨-, v, -, hv⟩ := single (Option.some.inj h)
      cases hv
  | other =>
    simp only [Value.segments] at h
    split at h
    · cases h
    · obtain ⟨-, v, -, hv⟩ := single (Option.some.inj h)
      cases hv

/-- The segments of an accepted value, and what they stand for. -/
theorem encodeValue_some {parameter : RouteParameter} {value : Option Value} {encoded : List Char}
    (h : encodeValue parameter value = some encoded) :
    ∃ texts : List (List Char), texts ≠ [] ∧ (∀ text ∈ texts, IsSegment text) ∧
      (parameter.catchAll = false → texts.length = 1) ∧
      encoded = ['/'].intercalate (texts.map UriText.encodeChars) ∧
      value.bind Value.joined = some ((['/'].intercalate texts).flatMap JsString.units) := by
  simp only [encodeValue, Option.bind_eq_bind, Option.pure_def, Option.bind_eq_some_iff] at h
  obtain ⟨v, rfl, items, hitems, h⟩ := h
  split at h
  · cases h
  · rename_i hne
    obtain ⟨encs, hencs, heq⟩ := Option.bind_eq_some_iff.mp h
    cases heq
    obtain ⟨texts, rfl, hsegments, values, rfl, hvalues⟩ := encodeSegments_some hencs
    have hlen : values.length = texts.length := by simpa using congrArg List.length hvalues
    obtain ⟨hjoined, hsingle⟩ := segments_some hitems
    refine ⟨texts, ?_, hsegments, fun hcatch => hlen ▸ hsingle hcatch, rfl, ?_⟩
    · rintro rfl
      rw [List.length_eq_zero_iff.mp hlen] at hne
      exact hne rfl
    · rw [Option.bind_some, hjoined, flatMap_intercalate, hvalues]

/-- The segments of a pattern with their parameters, and the segments that a call
    puts in their places. -/
inductive Filled (args : String → Option (List Nat)) :
    List (List Char) → List RouteParameter → List (List (List Char)) → Prop
  | nil : Filled args [] [] []
  | literal {segment : List Char} {rest : List (List Char)} {parameters : List RouteParameter}
      {blocks : List (List (List Char))} (hhead : segment.head? ≠ some ':') (hliteral : supportedLiteral segment = true)
      (hrest : Filled args rest parameters blocks) : Filled args (segment :: rest) parameters ([segment] :: blocks)
  | parameter {segment : List Char} {parameter : RouteParameter} {rest : List (List Char)}
      {parameters : List RouteParameter} {blocks : List (List (List Char))} {texts : List (List Char)}
      (hsegment : parameterOf segment = some parameter) (hne : texts ≠ []) (htexts : ∀ text ∈ texts, IsSegment text)
      (hsingle : parameter.catchAll = false → texts.length = 1)
      (hvalue : args parameter.name = some ((['/'].intercalate texts).flatMap JsString.units))
      (hrest : Filled args rest parameters blocks) :
      Filled args (segment :: rest) (parameter :: parameters) (texts.map UriText.encodeChars :: blocks)

/-- What is known of the segments of an accepted pattern. -/
inductive Accepted : List (List Char) → List RouteParameter → Prop
  | nil : Accepted [] []
  | literal {segment : List Char} {rest : List (List Char)} {parameters : List RouteParameter}
      (hhead : segment.head? ≠ some ':') (hliteral : supportedLiteral segment = true)
      (hrest : Accepted rest parameters) : Accepted (segment :: rest) parameters
  | parameter {segment : List Char} {parameter : RouteParameter} {rest : List (List Char)}
      {parameters : List RouteParameter} (hsegment : parameterOf segment = some parameter)
      (hrest : Accepted rest parameters) : Accepted (segment :: rest) (parameter :: parameters)

theorem collectParameters_ok {pattern : String} {segments : List (List Char)} {result all : List RouteParameter}
    (h : collectParameters pattern segments result = .ok all) (hnodup : (result.map RouteParameter.name).Nodup) :
    ∃ parameters, all = result ++ parameters ∧ Accepted segments parameters ∧
      (all.map RouteParameter.name).Nodup := by
  induction segments generalizing result with
  | nil =>
    cases h
    exact ⟨[], (List.append_nil _).symm, .nil, hnodup⟩
  | cons segment rest ih =>
    rw [collectParameters] at h
    split at h
    · rename_i hhead
      split at h
      · rename_i hliteral
        obtain ⟨parameters, rfl, haccepted, hall⟩ := ih h hnodup
        exact ⟨parameters, rfl, .literal hhead hliteral haccepted, hall⟩
      · cases h
    · simp only at h
      cases hsegment : parameterOf segment with
      | none =>
        rw [hsegment] at h
        cases h
      | some parameter =>
        rw [hsegment] at h
        simp only at h
        split at h
        · cases h
        · rename_i hnew
          have hnodup' : ((result ++ [parameter]).map RouteParameter.name).Nodup := by
            rw [List.map_append, List.nodup_append]
            refine ⟨hnodup, List.nodup_singleton _, ?_⟩
            intro a ha b hb heq
            obtain ⟨other, hother, rfl⟩ := List.mem_map.mp ha
            rw [List.map_singleton, List.mem_singleton] at hb
            refine hnew (List.any_eq_true.mpr ⟨other, hother, decide_eq_true ?_⟩)
            rw [heq, hb]
          obtain ⟨parameters, rfl, haccepted, hall⟩ := ih h hnodup'
          exact ⟨parameter :: parameters, by simp, .parameter hsegment haccepted, hall⟩

theorem routeParameters_ok {pattern : String} {parameters : List RouteParameter}
    (h : routeParameters pattern = .ok parameters) :
    supportedPattern pattern.toList = true ∧ Accepted (pattern.toList.splitOn '/') parameters ∧
      (parameters.map RouteParameter.name).Nodup := by
  unfold routeParameters at h
  split at h
  · rename_i hsupported
    obtain ⟨found, rfl, haccepted, hnodup⟩ := collectParameters_ok h List.nodup_nil
    exact ⟨hsupported, haccepted, hnodup⟩
  · cases h

/-- A parameter segment is its name between a colon and the mark. -/
theorem parameterOf_some {segment : List Char} {parameter : RouteParameter} (h : parameterOf segment = some parameter) :
    segment = ':' :: parameter.name.toList ++ (if parameter.catchAll then catchAllMark else []) ∧
      parameter.name.toList ≠ [] ∧ ∀ c ∈ parameter.name.toList, isNameRest c = true := by
  unfold parameterOf at h
  split at h
  · rename_i c rest
    split at h
    · rename_i hstart
      have hname : ∀ d ∈ (String.ofList (c :: rest.takeWhile isNameRest)).toList, isNameRest d = true := by
        rw [String.toList_ofList]
        rintro d (_ | ⟨_, hd⟩)
        · simp only [isNameStart, isNameRest, Char.isAlphanum, Bool.or_eq_true] at hstart ⊢
          tauto
        · exact List.mem_takeWhile_imp hd
      have hsplit := List.takeWhile_append_dropWhile (p := isNameRest) (l := rest)
      simp only at h
      split at h
      · rename_i hmark
        cases h
        rw [hmark, List.append_nil] at hsplit
        exact ⟨by simp [hsplit], by simp, hname⟩
      · split at h
        · rename_i hmark
          cases h
          rw [hmark] at hsplit
          refine ⟨?_, by simp, hname⟩
          rw [if_pos rfl, String.toList_ofList, List.cons_append, List.cons_append, hsplit]
        · cases h
    · cases h
  · cases h

/-! ## Section 4: What is built -/

theorem notBrace {c : Char} (h : isNameRest c = true) : (!(c == '\x7b' || c == '\x7d')) = true := by
  rw [Bool.not_eq_true', Bool.or_eq_false_iff, beq_eq_false_iff_ne, beq_eq_false_iff_ne]
  constructor <;> rintro rfl <;> revert h <;> decide

theorem segmentName_eq {segment : List Char} {parameter : RouteParameter} (h : parameterOf segment = some parameter) :
    segmentName segment = parameter.name := by
  obtain ⟨heq, -, hname⟩ := parameterOf_some h
  have htake : ∀ mark : List Char, mark = [] ∨ mark.head? = some '\x7b' →
      (parameter.name.toList ++ mark).takeWhile (fun c => !(c == '\x7b' || c == '\x7d')) = parameter.name.toList := by
    intro mark hmark
    rw [List.takeWhile_append_of_pos fun c hc => notBrace (hname c hc)]
    rcases hmark with rfl | hmark
    · simp
    · cases mark with
      | nil => simp
      | cons c mark =>
        cases hmark
        simp
  rw [segmentName, heq, List.cons_append, List.drop_succ_cons, List.drop_zero, htake, String.ofList_toList]
  cases parameter.catchAll
  · exact .inl rfl
  · exact .inr rfl

theorem head_of_parameter {segment : List Char} {parameter : RouteParameter} (h : parameterOf segment = some parameter) :
    segment.head? = some ':' := by
  rw [(parameterOf_some h).1]
  rfl

/-- Every parameter of an accepted call has its value. -/
theorem encodeValues_ok {params : Params} {parameters : List RouteParameter} {values : List (String × List Char)}
    (h : encodeValues params parameters = .ok values) (hnodup : (parameters.map RouteParameter.name).Nodup) :
    values.map Prod.fst = parameters.map RouteParameter.name ∧ ∀ parameter ∈ parameters, ∃ encoded,
      encodeValue parameter (params.get parameter.name) = some encoded ∧
        Entries.get values parameter.name = some encoded := by
  induction parameters generalizing values with
  | nil =>
    cases h
    exact ⟨rfl, nofun⟩
  | cons parameter rest ih =>
    rw [List.map_cons, List.nodup_cons] at hnodup
    rw [encodeValues] at h
    split at h
    · cases h
    · rename_i encoded hencoded
      cases hrest : encodeValues params rest with
      | error e =>
        rw [hrest] at h
        cases h
      | ok tail =>
        rw [hrest] at h
        cases h
        obtain ⟨hkeys, htail⟩ := ih hrest hnodup.2
        refine ⟨by rw [List.map_cons, List.map_cons, hkeys], ?_⟩
        rintro other (_ | ⟨_, hother⟩)
        · exact ⟨encoded, hencoded, by rw [Entries.get_cons, if_pos rfl]⟩
        · obtain ⟨enc, henc, hget⟩ := htail other hother
          refine ⟨enc, henc, ?_⟩
          rw [Entries.get_cons, if_neg, hget]
          intro heq
          have hname : parameter.name = other.name := heq
          rw [hname] at hnodup
          exact hnodup.1 (List.mem_map_of_mem hother)

/-- What stands in the place of a segment. -/
def fillSegment (values : List (String × List Char)) (segment : List Char) : List Char :=
  if segment.head? ≠ some ':' then segment else (Entries.get values (segmentName segment)).getD []

theorem Accepted.filled {params : Params} {values : List (String × List Char)} {segments : List (List Char)}
    {parameters : List RouteParameter} (h : Accepted segments parameters)
    (hvalues : ∀ parameter ∈ parameters, ∃ encoded,
      encodeValue parameter (params.get parameter.name) = some encoded ∧
        Entries.get values parameter.name = some encoded) :
    ∃ blocks, Filled (given [.object params]) segments parameters blocks ∧
      segments.map (fillSegment values) = blocks.map (['/'].intercalate ·) := by
  induction h with
  | nil => exact ⟨[], .nil, rfl⟩
  | @literal segment rest parameters hhead hliteral hrest ih =>
    obtain ⟨blocks, hfilled, heq⟩ := ih hvalues
    refine ⟨[segment] :: blocks, .literal hhead hliteral hfilled, ?_⟩
    rw [List.map_cons, List.map_cons, heq, fillSegment, if_pos hhead]
    simp [List.intercalate]
  | @parameter segment parameter rest parameters hsegment hrest ih =>
    obtain ⟨blocks, hfilled, heq⟩ := ih fun p hp => hvalues p (List.mem_cons_of_mem _ hp)
    obtain ⟨encoded, hencoded, hget⟩ := hvalues parameter (List.mem_cons_self ..)
    obtain ⟨texts, hne, htexts, hsingle, rfl, hjoined⟩ := encodeValue_some hencoded
    refine ⟨texts.map UriText.encodeChars :: blocks, .parameter hsegment hne htexts hsingle hjoined hfilled, ?_⟩
    rw [List.map_cons, List.map_cons, heq, fillSegment, if_neg (by simp [head_of_parameter hsegment]),
      segmentName_eq hsegment, hget]
    rfl

theorem Accepted.filled_nil {args : String → Option (List Nat)} {segments : List (List Char)}
    {parameters : List RouteParameter} (h : Accepted segments parameters) (hnil : parameters = []) :
    Filled args segments [] (segments.map fun segment => [segment]) := by
  induction h with
  | nil => exact .nil
  | literal hhead hliteral hrest ih => exact .literal hhead hliteral (ih hnil)
  | parameter => cases hnil

/-- A path that is built has the segments of the pattern, filled. -/
theorem build_ok {builder : Builder} {name : String} {route : Route} {args : List Argument} {path : List Char}
    (hroute : Entries.get builder name = some route) (hparameters : routeParameters route.pattern = .ok route.parameters)
    (h : build builder name args = .ok path) :
    ∃ blocks, Filled (given args) (route.pattern.toList.splitOn '/') route.parameters blocks ∧
      path = ['/'].intercalate (blocks.map (['/'].intercalate ·)) ∧
      ∀ name, given args name ≠ none → name ∈ route.parameters.map RouteParameter.name := by
  obtain ⟨-, haccepted, hnodup⟩ := routeParameters_ok hparameters
  unfold build at h
  rw [hroute] at h
  simp only at h
  split at h
  · rename_i hnil
    split at h
    · rename_i hargs
      cases h
      rw [List.isEmpty_iff] at hargs
      subst hargs
      refine ⟨_, hnil ▸ haccepted.filled_nil hnil, ?_, fun name hgiven => absurd rfl hgiven⟩
      rw [List.map_map]
      have hmap : (fun block : List (List Char) => ['/'].intercalate block) ∘ (fun segment => [segment]) = id := by
        funext segment
        simp [List.intercalate]
      rw [hmap, List.map_id, List.intercalate_splitOn]
    · cases h
  · split at h
    · rename_i params
      split at h
      · cases h
      · rename_i hfields
        cases hvalues : encodeValues params route.parameters with
        | error e =>
          rw [hvalues] at h
          cases h
        | ok values =>
          rw [hvalues] at h
          cases h
          obtain ⟨-, hall⟩ := encodeValues_ok hvalues hnodup
          obtain ⟨blocks, hfilled, heq⟩ := haccepted.filled hall
          refine ⟨blocks, hfilled, congrArg (['/'].intercalate ·) heq, fun name hgiven => ?_⟩
          have hget : params.get name ≠ none := by
            intro hnone
            refine hgiven ?_
            rw [given, hnone]
            rfl
          obtain ⟨value, hvalue⟩ := Option.ne_none_iff_exists'.mp hget
          obtain ⟨field, hfield, -⟩ := Option.map_eq_some_iff.mp hvalue
          have hkey : field.1 = some name := by simpa using List.find?_some hfield
          by_contra hundeclared
          refine hfields (.inr (List.any_eq_true.mpr ⟨field, List.mem_of_find?_eq_some hfield, ?_⟩))
          rw [Bool.not_eq_true', List.any_eq_false]
          intro parameter hparameter hcontra
          have hname : name = parameter.name := by simpa [hkey] using hcontra
          exact hundeclared (hname ▸ List.mem_map_of_mem hparameter)
    · cases h

theorem createRouteBuilder_ok {registry : List (String × String)} {builder : Builder}
    (h : createRouteBuilder registry = .ok builder) {name : String} {route : Route}
    (hroute : Entries.get builder name = some route) : routeParameters route.pattern = .ok route.parameters := by
  unfold createRouteBuilder at h
  induction registry generalizing builder with
  | nil =>
    cases h
    cases hroute
  | cons first rest ih =>
    rw [List.mapM_cons] at h
    cases hfirst : routeParameters first.2 with
    | error e =>
      rw [hfirst] at h
      cases h
    | ok parameters =>
      rw [hfirst] at h
      cases hrest : rest.mapM fun entry : String × String =>
          (routeParameters entry.2).map fun parameters => (entry.1, (⟨entry.2, parameters⟩ : Route)) with
      | error e =>
        rw [hrest] at h
        cases h
      | ok tail =>
        rw [hrest] at h
        cases h
        rw [Entries.get_cons] at hroute
        split at hroute
        · cases hroute
          exact hfirst
        · exact ih hrest hroute

end Cossack.Core.Routes
