import Mathlib.Data.List.Sort
import Mathlib.Data.List.Dedup
import Cossack.Lib.JsString

/-! # Page routes

    Which page file owns a public route, the HTTP pattern a page file is
    registered under, and the order of registration (`route-ids.ts`).  The
    router itself is only known to try the patterns in that order. -/

namespace Cossack.Framework

open JsString (Collation)

structure RouteError where
  code : Option String
  message : String
  deriving DecidableEq

/-! ## Section 1: Replacements in a path -/

/-- `s.replace(text, '')`. -/
def removeFirst (text : List Char) : List Char → List Char
  | [] => []
  | c :: s => if text.isPrefixOf (c :: s) then (c :: s).drop text.length else c :: removeFirst text s

/-- `s.replace(/…$/, '')` for the suffixes in `endings`. -/
def removeEnding (endings : List String) (s : List Char) : List Char :=
  match endings.find? fun e => e.toList.isSuffixOf s with
  | some e => s.take (s.length - e.toList.length)
  | none => s

/-- A match at the start of `s` of `open`, one or more characters other than
    `close`, and `close`: the characters between, and the rest. -/
def delimited (opening : List Char) (close : Char) (s : List Char) :
    Option (List Char × List Char) :=
  if opening.isPrefixOf s then
    let tail := s.drop opening.length
    match tail.takeWhile (· != close), tail.dropWhile (· != close) with
    | c :: inner, _ :: rest => some (c :: inner, rest)
    | _, _ => none
  else none

/-- Replace the delimited matches from left to right.  `fuel` bounds the number
    of characters. -/
def replaceDelimited (opening : List Char) (close : Char) (render : List Char → List Char) :
    Nat → List Char → List Char
  | 0, s => s
  | _ + 1, [] => []
  | fuel + 1, c :: s =>
      match delimited opening close (c :: s) with
      | some (inner, rest) => render inner ++ replaceDelimited opening close render fuel rest
      | none => c :: replaceDelimited opening close render fuel s

def countDelimited (opening : List Char) (close : Char) : Nat → List Char → Nat
  | 0, _ => 0
  | _ + 1, [] => 0
  | fuel + 1, c :: s =>
      match delimited opening close (c :: s) with
      | some (_, rest) => countDelimited opening close fuel rest + 1
      | none => countDelimited opening close fuel s

/-- The suffix `{.+}` of a catch-all segment. -/
def spanning : List Char := "\x7b.+\x7d".toList

/-! ## Section 2: The pattern of a page file -/

def filePathToHttpRoute (filePath : String) : Except RouteError String :=
  if filePath.toList.tails.any fun s => "[[".toList.isPrefixOf s then
    .error {
      code := some "COSSACK_ROUTE_PATTERN_UNSUPPORTED"
      message := "[Cossack] COSSACK_ROUTE_PATTERN_UNSUPPORTED: " ++ filePath ++
        " uses an optional segment ([[...]]). Page routes support only [name] and [...name]. " ++
        "Add a sibling index page for the empty case instead." }
  else
    let path := removeFirst "/src/pages".toList filePath.toList
    let path := removeEnding [".ts", ".js", ".md", ".mdx"] path
    let path := removeEnding ["/index"] path
    let path := replaceDelimited "/(".toList ')' (fun _ => []) path.length path
    let path := replaceDelimited "[...".toList ']' (fun name => ':' :: name ++ spanning) path.length path
    let path := replaceDelimited "[".toList ']' (fun name => ':' :: name) path.length path
    let route := String.ofList path
    .ok (if route = "/index" ∨ route = "" then "/" else route)

inductive RouteKind where
  | page | api | notFound | error
  deriving DecidableEq

def classifyRoute (pattern : String) : RouteKind :=
  if "/404".toList.isSuffixOf pattern.toList then .notFound
  else if "/error".toList.isSuffixOf pattern.toList then .error
  else if pattern = "/api" ∨ "/api/".toList.isPrefixOf pattern.toList then .api
  else .page

/-! ## Section 3: The order of registration -/

/-- `route.split('/')`. -/
def segments (route : String) : List String := (route.toList.splitOn '/').map String.ofList

def segmentSpecificity (segment : String) : Nat :=
  if segment = "" then 0
  else if "*".toList.isSuffixOf segment.toList || spanning.isSuffixOf segment.toList then 2
  else if ":".toList.isPrefixOf segment.toList then 1
  else 0

/-- The loop of `compareHttpRoutes`; equal segments cancel in the final
    difference of the lengths. -/
def compareSegments : List String → List String → Int
  | x :: s, y :: t =>
      if x = y then compareSegments s t
      else
        let rankDiff : Int := segmentSpecificity x - segmentSpecificity y
        if rankDiff ≠ 0 then rankDiff
        else if JsString.lt x y then -1 else 1
  | s, t => s.length - t.length

def compareHttpRoutes (a b : String) : Int := compareSegments (segments a) (segments b)

/-! ## Section 4: The owner of a route -/

def routeGroupCount (filePath : String) : Nat :=
  countDelimited "/(".toList ')' filePath.toList.length filePath.toList

/-- Replace every `:` and the characters up to the next `/` by the kind of the
    parameter.  `fuel` bounds the number of characters. -/
def canonicalParameters : Nat → List Char → List Char
  | 0, s => s
  | _ + 1, [] => []
  | fuel + 1, c :: s =>
      let name := s.takeWhile (· != '/')
      if c = ':' ∧ name ≠ [] then
        (if spanning.isSuffixOf (c :: name) then ":*".toList else ":param".toList) ++
          canonicalParameters fuel (s.drop name.length)
      else c :: canonicalParameters fuel s

def pageRouteCollisionKey (filePath : String) : Except RouteError String :=
  (filePathToHttpRoute filePath).map fun route =>
    String.ofList (canonicalParameters route.toList.length route.toList)

/-- `candidates.get(key) ?? []`, `push` and `set`. -/
def addCandidate (candidates : List (String × List String)) (key path : String) :
    List (String × List String) :=
  if candidates.any (·.1 == key) then
    candidates.map fun c => if c.1 == key then (c.1, c.2 ++ [path]) else c
  else candidates ++ [(key, [path])]

/-- The loop over the page keys: the candidates of every route, and the 404 and
    error pages. -/
def collectCandidates : List String → List (String × List String) → List String →
    Except RouteError (List (String × List String) × List String)
  | [], candidates, boundaries => .ok (candidates, boundaries)
  | path :: rest, candidates, boundaries => do
      let kind := classifyRoute (← filePathToHttpRoute path)
      if kind = .notFound ∨ kind = .error then
        collectCandidates rest candidates (boundaries ++ [path])
      else
        let key ← pageRouteCollisionKey path
        collectCandidates rest (addCandidate candidates key path) boundaries

/-- The owner among the candidates of one route. -/
def resolveOwner (localeCompare : Collation) (route : String) (paths : List String) :
    Except RouteError (List String) :=
  let sorted := paths.mergeSort fun a b =>
    routeGroupCount a < routeGroupCount b ||
      (routeGroupCount a == routeGroupCount b && localeCompare.le a b)
  match sorted with
  | [] => .ok []
  | owner :: _ =>
      let tied := sorted.filter fun path => routeGroupCount path == routeGroupCount owner
      if tied.length > 1 then
        .error {
          code := none
          message := "[Cossack] Duplicate page route \"" ++ route ++ "\": " ++
            " and ".intercalate tied ++ " have equal precedence. Remove one route or place the " ++
            "lower-priority route inside an additional route group." }
      else .ok [owner]

/-- `resolved.sort()`. -/
def sortByUnits (paths : List String) : List String := paths.mergeSort fun a b => !JsString.lt b a

def resolvePageRouteFiles (localeCompare : Collation) (pageKeys : List String) :
    Except RouteError (List String) := do
  let (candidates, boundaries) ← collectCandidates pageKeys [] []
  let owners ← candidates.mapM fun c => resolveOwner localeCompare c.1 c.2
  return sortByUnits (boundaries.reverse.dedup.reverse ++ owners.flatten)

/-- The patterns the router registers, in order: the files are sorted by their
    patterns, and 404 and error pages are left out. -/
def registeredRoutes (localeCompare : Collation) (pageKeys : List String) :
    Except RouteError (List String) := do
  let resolved ← resolvePageRouteFiles localeCompare pageKeys
  let routes ← resolved.mapM filePathToHttpRoute
  return (routes.mergeSort fun a b => decide (compareHttpRoutes a b ≤ 0)).filter fun route =>
    classifyRoute route != .notFound && classifyRoute route != .error

/-! ## Section 5: Matching -/

inductive SegmentKind where
  | literal | parameter | catchAll
  deriving DecidableEq

def segmentKind (segment : String) : SegmentKind :=
  if ":".toList.isPrefixOf segment.toList then
    if spanning.isSuffixOf segment.toList then .catchAll else .parameter
  else .literal

/-- A pattern matches a path, segment by segment: a literal matches itself, a
    parameter one segment that is not empty, a catch-all one or more segments
    that are not just the empty one. -/
def matchesSegments : List String → List String → Bool
  | [], path => path.isEmpty
  | x :: pattern, path =>
      match segmentKind x, path with
      | _, [] => false
      | .literal, y :: rest => x == y && matchesSegments pattern rest
      | .parameter, y :: rest => y != "" && matchesSegments pattern rest
      | .catchAll, y :: rest => (List.range (rest.length + 1)).any fun n =>
          (y != "" || n != 0) && matchesSegments pattern (rest.drop n)

def matchesPath (route path : String) : Bool := matchesSegments (segments route) (segments path)

/-- The first registered route that matches. -/
def firstMatch (routes : List String) (path : String) : Option String :=
  routes.find? fun route => matchesPath route path

end Cossack.Framework
