import Cossack.Core.Routes
import Cossack.Framework.RouteIds
import Cossack.Lib.JsonPrint

/-! # The names of live instances

    `realtimeInstanceName` (`realtime-scope.ts`): the name of the Durable Object
    of a page, a layout or a component, from its scope key or from its route
    parameters.  Two scopes have one name when they are the same, but for a layout
    parameter that an assignment to an object drops. -/

namespace Cossack.Framework.RealtimeScope

open Core.Routes (RouteUrlError routeParameters)
open UriText (Text ofString)
open JsonText

/-! ## Section 1: The model -/

inductive RealtimeOwnerKind where
  | page | layout | component
  deriving DecidableEq

def RealtimeOwnerKind.text : RealtimeOwnerKind → String
  | .page => "page"
  | .layout => "layout"
  | .component => "component"

/-- An owner; `hasScope` says that its options have a scope function. -/
structure RealtimeOwner where
  kind : RealtimeOwnerKind
  id : Text
  hasScope : Bool

/-- Route parameters, in the order they were given. -/
structure Params where
  entries : List (Text × Text)
  nodup : (entries.map Prod.fst).Nodup

def Params.get (params : Params) (name : Text) : Option Text := Entries.get params.entries name

inductive InstanceNameError where
  | scope (message : String)
  | route (e : RouteError)
  | url (e : RouteUrlError)
  deriving DecidableEq

/-- A path as regular expressions see it: one character for each code unit.  A
    surrogate matches what any character beyond ASCII does. -/
def pathText (path : Text) : String :=
  String.ofList (path.1.map fun u => Char.ofNat (if 0xD800 ≤ u ∧ u < 0xE000 then 0x10000 + u else u))

/-- `layoutPath.replace(/\/layout\.ts$/, '/index.ts')`. -/
def layoutIndex (layoutPath : String) : String :=
  let ending := "/layout.ts".toList
  let path := layoutPath.toList
  if ending.isSuffixOf path then String.ofList (path.take (path.length - ending.length) ++ "/index.ts".toList)
  else layoutPath

/-- The names of the parameters that the route of a layout declares. -/
def declaredNames (layoutPath : Text) : Except InstanceNameError (List Text) :=
  match filePathToHttpRoute (layoutIndex (pathText layoutPath)) with
  | .error e => .error (.route e)
  | .ok pattern =>
      match routeParameters pattern with
      | .error e => .error (.url e)
      | .ok declared => .ok (declared.map fun parameter => ofString parameter.name)

/-- The name of the setter that every object inherits. -/
def proto : Text := ofString "__proto__"

/-- `own[name] = value` on an object: a text assigned to `__proto__` is dropped. -/
def assign (own : List (Text × Text)) (name value : Text) : List (Text × Text) :=
  if name = proto then own else Entries.set own name value

/-- The loop of `layoutRouteParams`. -/
def ownParams (params : Params) (declared : List Text) : List (Text × Text) :=
  declared.foldl (fun own name => match params.get name with
    | some value => assign own name value
    | none => own) []

def layoutRouteParams (layoutPath : Text) (params : Params) : Except InstanceNameError (List (Text × Text)) :=
  (declaredNames layoutPath).map (ownParams params)

/-- `Object.keys(identity).sort().map(key => [key, identity[key]])`. -/
def sortedEntries (identity : List (Text × Text)) : List (Text × Text) :=
  ((identity.map Prod.fst).mergeSort fun a b => decide (a.1 ≤ b.1)).filterMap fun key =>
    (Entries.get identity key).map (key, ·)

def scopeJson (key : Text) : Json := .obj [(JsString.utf16 "scope", .str key.1)]

def entriesJson (entries : List (Text × Text)) : Json :=
  .arr (entries.map fun e => .arr [.str e.1.1, .str e.2.1])

def instanceName (owner : RealtimeOwner) (identity : Json) : List Char :=
  owner.kind.text.toList ++ ':' :: print (.arr [.str owner.id.1, identity])

def realtimeInstanceName (owner : RealtimeOwner) (scopeKey : Option Text) (params : Params) :
    Except InstanceNameError (List Char) :=
  if owner.hasScope then
    let failure : Except InstanceNameError (List Char) := .error (.scope "A realtime scope function must return a non-empty string.")
    match scopeKey with
    | none => failure
    | some key => if key.1 = [] then failure else .ok (instanceName owner (scopeJson key))
  else match owner.kind with
    | .component => .error (.scope "A realtime component needs a scope function.")
    | .layout => (layoutRouteParams owner.id params).map fun identity =>
        instanceName owner (entriesJson (sortedEntries identity))
    | .page => .ok (instanceName owner (entriesJson (sortedEntries params.entries)))

/-! ## Section 2: Names are texts of data -/

theorem canonical_entries (entries : List (Text × Text)) :
    canonical (entriesJson entries) = entriesJson entries := by
  have hitems : canonicalItems (entries.map fun e => .arr [.str e.1.1, .str e.2.1]) =
      entries.map fun e => .arr [.str e.1.1, .str e.2.1] := by
    induction entries with
    | nil => rfl
    | cons e rest ih => simp [canonicalItems, canonical, ih]
  rw [entriesJson, canonical, hitems]

theorem valid_entries (entries : List (Text × Text)) : Valid (entriesJson entries) := by
  show ValidItems _
  induction entries with
  | nil => trivial
  | cons e rest ih => exact ⟨⟨e.1.2, e.2.2, trivial⟩, ih⟩

theorem entriesJson_inj {a b : List (Text × Text)} (h : entriesJson a = entriesJson b) : a = b := by
  have hlist := Json.arr.inj h
  refine List.map_injective_iff.mpr ?_ hlist
  intro x y hxy
  simp only [Json.arr.injEq, List.cons.injEq, Json.str.injEq, and_true] at hxy
  exact Prod.ext (Subtype.ext hxy.1) (Subtype.ext hxy.2)

/-- What names an instance beside its owner. -/
inductive Identity where
  | byKey (key : Text)
  | byParams (entries : List (Text × Text))

def Identity.json : Identity → Json
  | .byKey key => scopeJson key
  | .byParams entries => entriesJson entries

theorem Identity.canonical_json (identity : Identity) : canonical identity.json = identity.json := by
  cases identity with
  | byKey key => simp [Identity.json, scopeJson, canonical, canonicalMembers]
  | byParams entries => exact canonical_entries entries

theorem Identity.valid_json (identity : Identity) : Valid identity.json := by
  cases identity with
  | byKey key => exact ⟨List.nodup_singleton _, fun _ => utf16_lt, key.2, trivial⟩
  | byParams entries => exact valid_entries entries

theorem Identity.json_inj {a b : Identity} (h : a.json = b.json) : a = b := by
  cases a with
  | byKey key =>
    cases b with
    | byKey other =>
      simp only [Identity.json, scopeJson, Json.obj.injEq, List.cons.injEq, Prod.mk.injEq, Json.str.injEq,
        true_and, and_true] at h
      exact congrArg _ (Subtype.ext h)
    | byParams entries => cases h
  | byParams entries =>
    cases b with
    | byKey other => cases h
    | byParams others => exact congrArg _ (entriesJson_inj h)

/-- The kinds differ in their first letter. -/
theorem kind_inj {a b : RealtimeOwnerKind} {x y : List Char}
    (h : a.text.toList ++ ':' :: x = b.text.toList ++ ':' :: y) : a = b := by
  cases a <;> cases b <;> first | rfl | simp [RealtimeOwnerKind.text] at h

/-- The kind, the id and the identity can be read off a name. -/
theorem instanceName_inj {a b : RealtimeOwner} {x y : Identity}
    (h : instanceName a x.json = instanceName b y.json) : a.kind = b.kind ∧ a.id = b.id ∧ x = y := by
  have hkind : a.kind = b.kind := kind_inj h
  rw [instanceName, instanceName, hkind] at h
  have hprint := (List.cons.inj (List.append_cancel_left h)).2
  have hvalid : ∀ (id : Text) (identity : Identity), Valid (.arr [.str id.1, identity.json]) :=
    fun id identity => ⟨id.2, identity.valid_json, trivial⟩
  have hread := parse_print _ (hvalid a.id x)
  rw [hprint, parse_print _ (hvalid b.id y)] at hread
  simp only [canonical, canonicalItems, Identity.canonical_json, Option.some.injEq, Json.arr.injEq, List.cons.injEq,
    Json.str.injEq, and_true] at hread
  exact ⟨hkind, Subtype.ext hread.1.symm, Identity.json_inj hread.2.symm⟩

/-! ## Section 3: Parameters as maps -/

theorem mem_sortedEntries {identity : List (Text × Text)} {key value : Text} :
    (key, value) ∈ sortedEntries identity ↔ Entries.get identity key = some value := by
  simp only [sortedEntries, List.mem_filterMap, List.mem_mergeSort, Option.map_eq_some_iff, Prod.mk.injEq]
  constructor
  · rintro ⟨other, -, found, hget, rfl, rfl⟩
    exact hget
  · intro hget
    refine ⟨key, ?_, value, hget, rfl, rfl⟩
    obtain ⟨e, he, -⟩ := Option.map_eq_some_iff.mp hget
    have hkey : e.1 = key := by simpa using List.find?_some he
    exact hkey ▸ List.mem_map_of_mem (List.mem_of_find?_eq_some he)

/-- The order in which parameters were given is lost, and nothing else. -/
theorem sortedEntries_eq_iff {a b : List (Text × Text)} (ha : (a.map Prod.fst).Nodup)
    (hb : (b.map Prod.fst).Nodup) :
    sortedEntries a = sortedEntries b ↔ ∀ name, Entries.get a name = Entries.get b name := by
  constructor
  · intro heq name
    refine Option.ext fun value => ?_
    rw [← mem_sortedEntries, heq, mem_sortedEntries]
  · intro heq
    have hmem : ∀ name, name ∈ a.map Prod.fst ↔ name ∈ b.map Prod.fst := by
      intro name
      have hget : ∀ {l : List (Text × Text)}, name ∈ l.map Prod.fst ↔ Entries.get l name ≠ none := by
        intro l
        constructor
        · intro hname hnone
          obtain ⟨e, he, rfl⟩ := List.mem_map.mp hname
          rw [Entries.get, Option.map_eq_none_iff, List.find?_eq_none] at hnone
          exact hnone e he (by simp)
        · intro hsome
          by_contra hname
          exact hsome (by rw [Entries.get, Entries.find_of_not_mem hname]; rfl)
      rw [hget, hget, heq name]
    have hperm := (List.perm_ext_iff_of_nodup ha hb).mpr hmem
    have hsorted : (a.map Prod.fst).mergeSort (fun a b => decide (a.1 ≤ b.1)) =
        (b.map Prod.fst).mergeSort fun a b => decide (a.1 ≤ b.1) := by
      have hpair : ∀ l : List Text, (l.mergeSort fun a b => decide (a.1 ≤ b.1)).Pairwise fun a b => a.1 ≤ b.1 := by
        intro l
        refine (List.pairwise_mergeSort ?_ ?_ l).imp fun h => of_decide_eq_true h
        · intro a b c hab hbc
          exact decide_eq_true (le_trans (of_decide_eq_true hab) (of_decide_eq_true hbc))
        · intro a b
          rw [Bool.or_eq_true, decide_eq_true_eq, decide_eq_true_eq]
          exact le_total a.1 b.1
      refine List.Perm.eq_of_pairwise (fun a b _ _ hab hba => Subtype.ext (le_antisymm hab hba)) (hpair _) (hpair _) ?_
      exact ((List.mergeSort_perm _ _).trans hperm).trans (List.mergeSort_perm _ _).symm
    have hfun : Entries.get a = Entries.get b := funext heq
    rw [sortedEntries, sortedEntries, hsorted, hfun]

theorem nodup_assign {own : List (Text × Text)} (h : (own.map Prod.fst).Nodup) (name value : Text) :
    ((assign own name value).map Prod.fst).Nodup := by
  unfold assign
  split
  · exact h
  · exact Entries.nodup_set h name value

/-- What the loop has written, and what it keeps from before. -/
theorem ownParams_loop (params : Params) (declared : List Text) {own : List (Text × Text)}
    (h : (own.map Prod.fst).Nodup) :
    let result := declared.foldl (fun own name => match params.get name with
      | some value => assign own name value
      | none => own) own
    (result.map Prod.fst).Nodup ∧ ∀ name, Entries.get result name =
      if name ∈ declared ∧ name ≠ proto ∧ params.get name ≠ none then params.get name else Entries.get own name := by
  induction declared generalizing own with
  | nil => exact ⟨h, fun name => by simp⟩
  | cons first rest ih =>
    simp only [List.foldl_cons]
    cases hvalue : params.get first with
    | none =>
      obtain ⟨hnodup, hget⟩ := ih h
      refine ⟨hnodup, fun name => ?_⟩
      rw [hget name]
      by_cases hfirst : name = first
      · subst hfirst
        simp [hvalue]
      · simp [hfirst]
    | some value =>
      obtain ⟨hnodup, hget⟩ := ih (nodup_assign h first value)
      refine ⟨hnodup, fun name => ?_⟩
      rw [hget name]
      by_cases hfirst : name = first
      · subst hfirst
        by_cases hproto : name = proto
        · simp [assign, hproto]
        · simp [assign, hproto, hvalue]
      · have hother : Entries.get (assign own first value) name = Entries.get own name := by
          unfold assign
          split
          · rfl
          · exact Entries.get_set_of_ne _ _ (Ne.symm hfirst)
        rw [hother]
        simp [hfirst]

/-- A layout keeps the parameters that its route declares, but for `__proto__`. -/
theorem get_ownParams (params : Params) (declared : List Text) (name : Text) :
    Entries.get (ownParams params declared) name =
      if name ∈ declared ∧ name ≠ proto then params.get name else none := by
  rw [ownParams, (@ownParams_loop params declared [] List.nodup_nil).2 name]
  by_cases hname : name ∈ declared ∧ name ≠ proto
  · rw [if_pos hname]
    by_cases hnone : params.get name = none
    · simp [hnone]
    · rw [if_pos ⟨hname.1, hname.2, hnone⟩]
  · rw [if_neg hname, if_neg (fun h => hname ⟨h.1, h.2.1⟩)]
    rfl

theorem nodup_ownParams (params : Params) (declared : List Text) :
    ((ownParams params declared).map Prod.fst).Nodup :=
  (@ownParams_loop params declared [] List.nodup_nil).1

/-! ## Section 4: Scopes -/

/-- What an instance is asked for with. -/
structure Scope where
  owner : RealtimeOwner
  scopeKey : Option Text
  params : Params

def Scope.name (scope : Scope) : Except InstanceNameError (List Char) :=
  realtimeInstanceName scope.owner scope.scopeKey scope.params

/-- The parameters that the route of a layout declares; none where there is no such route. -/
def Scope.declared (scope : Scope) : List Text :=
  match declaredNames scope.owner.id with
  | .ok declared => declared
  | .error _ => []

/-- The parameters that say which instance of a page or of a layout is meant. -/
def Scope.relevant (scope : Scope) (name : Text) : Option Text :=
  match scope.owner.kind with
  | .layout => if name ∈ scope.declared then scope.params.get name else none
  | _ => scope.params.get name

/-- One owner with one scope key, or with the same relevant parameters. -/
def Same (a b : Scope) : Prop :=
  a.owner.kind = b.owner.kind ∧ a.owner.id = b.owner.id ∧
    (a.owner.hasScope = true ∧ b.owner.hasScope = true ∧ a.scopeKey = b.scopeKey ∨
      a.owner.hasScope = false ∧ b.owner.hasScope = false ∧ ∀ name, a.relevant name = b.relevant name)

/-- One layout without a scope function whose route declares `__proto__`, with other
    values of this parameter only. -/
def DiffersInProto (a b : Scope) : Prop :=
  a.owner.kind = .layout ∧ b.owner.kind = .layout ∧ a.owner.id = b.owner.id ∧
    a.owner.hasScope = false ∧ b.owner.hasScope = false ∧ proto ∈ a.declared ∧
    a.params.get proto ≠ b.params.get proto ∧
    ∀ name ∈ a.declared, name ≠ proto → a.params.get name = b.params.get name

/-- The parameters that get into the name. -/
def Scope.kept (scope : Scope) (name : Text) : Option Text :=
  if scope.owner.kind = .layout ∧ name = proto then none else scope.relevant name

/-- A name has the scope key, or the parameters that are kept. -/
theorem name_identity {scope : Scope} {name : List Char} (h : scope.name = .ok name) :
    ∃ identity : Identity, name = instanceName scope.owner identity.json ∧
      (scope.owner.hasScope = true ∧ (∃ key, scope.scopeKey = some key ∧ identity = .byKey key) ∨
        scope.owner.hasScope = false ∧ ∃ entries : List (Text × Text), (entries.map Prod.fst).Nodup ∧
          identity = .byParams (sortedEntries entries) ∧ ∀ name, Entries.get entries name = scope.kept name) := by
  unfold Scope.name realtimeInstanceName at h
  cases hscope : scope.owner.hasScope with
  | true =>
    simp only [hscope, if_true] at h
    cases hkey : scope.scopeKey with
    | none => simp [hkey] at h
    | some key =>
      simp only [hkey] at h
      split at h
      · cases h
      · cases h
        exact ⟨.byKey key, rfl, .inl ⟨rfl, key, rfl, rfl⟩⟩
  | false =>
    simp only [hscope, Bool.false_eq_true, if_false] at h
    cases hkind : scope.owner.kind with
    | component => simp [hkind] at h
    | page =>
      simp only [hkind] at h
      cases h
      refine ⟨.byParams (sortedEntries scope.params.entries), rfl, .inr ⟨rfl, _, scope.params.nodup, rfl, ?_⟩⟩
      intro name
      simp [Scope.kept, Scope.relevant, hkind, Params.get]
    | layout =>
      simp only [hkind, layoutRouteParams] at h
      cases hdeclared : declaredNames scope.owner.id with
      | error e =>
        rw [hdeclared] at h
        cases h
      | ok declared =>
        rw [hdeclared] at h
        cases h
        refine ⟨.byParams _, rfl, .inr ⟨rfl, _, nodup_ownParams scope.params declared, rfl, ?_⟩⟩
        intro name
        rw [get_ownParams]
        simp only [Scope.kept, Scope.relevant, Scope.declared, hkind, hdeclared]
        by_cases hproto : name = proto <;> simp [hproto]

/-- Names are equal when owners are and what is kept is. -/
theorem name_eq_iff {a b : Scope} {x y : List Char} (ha : a.name = .ok x) (hb : b.name = .ok y) :
    x = y ↔ a.owner.kind = b.owner.kind ∧ a.owner.id = b.owner.id ∧
      (a.owner.hasScope = true ∧ b.owner.hasScope = true ∧ a.scopeKey = b.scopeKey ∨
        a.owner.hasScope = false ∧ b.owner.hasScope = false ∧ ∀ name, a.kept name = b.kept name) := by
  obtain ⟨i, rfl, hi⟩ := name_identity ha
  obtain ⟨j, rfl, hj⟩ := name_identity hb
  have howner : instanceName a.owner i.json = instanceName b.owner j.json ↔
      a.owner.kind = b.owner.kind ∧ a.owner.id = b.owner.id ∧ i = j := by
    constructor
    · exact instanceName_inj
    · rintro ⟨hkind, hid, rfl⟩
      rw [instanceName, instanceName, hkind, hid]
  rw [howner, and_congr_right_iff]
  intro _
  rw [and_congr_right_iff]
  intro _
  rcases hi with ⟨hscoped, key, hkey, rfl⟩ | ⟨hscoped, es, hes, rfl, hget⟩ <;>
    rcases hj with ⟨hscoped', key', hkey', rfl⟩ | ⟨hscoped', es', hes', rfl, hget'⟩
  · simp [hscoped, hscoped', hkey, hkey']
  · simp [hscoped, hscoped']
  · simp [hscoped, hscoped']
  · simp only [hscoped, hscoped', Bool.false_eq_true, false_and, false_or, true_and, Identity.byParams.injEq]
    rw [sortedEntries_eq_iff hes hes']
    simp only [hget, hget']

theorem kept_of_ne {scope : Scope} {name : Text} (h : name ≠ proto) : scope.kept name = scope.relevant name :=
  if_neg fun hboth => h hboth.2

theorem relevant_of_declared {scope : Scope} (hkind : scope.owner.kind = .layout) {name : Text}
    (h : name ∈ scope.declared) : scope.relevant name = scope.params.get name := by
  rw [Scope.relevant, hkind]
  exact if_pos h

theorem declared_eq {a b : Scope} (h : a.owner.id = b.owner.id) : a.declared = b.declared := by
  rw [Scope.declared, Scope.declared, h]

/-- Scopes that differ in `__proto__` only keep the same parameters. -/
theorem DiffersInProto.kept {a b : Scope} (h : DiffersInProto a b) (name : Text) : a.kept name = b.kept name := by
  obtain ⟨hka, hkb, hid, -, -, -, -, hothers⟩ := h
  by_cases hproto : name = proto
  · rw [Scope.kept, Scope.kept, if_pos ⟨hka, hproto⟩, if_pos ⟨hkb, hproto⟩]
  · rw [kept_of_ne hproto, kept_of_ne hproto]
    by_cases hname : name ∈ a.declared
    · rw [relevant_of_declared hka hname, relevant_of_declared hkb (declared_eq hid ▸ hname)]
      exact hothers name hname hproto
    · simp only [Scope.relevant, hka, hkb, if_neg hname, if_neg (declared_eq hid ▸ hname)]

/-- Of scopes that do not, all relevant parameters are kept. -/
theorem relevant_of_kept {a b : Scope} (hkind : a.owner.kind = b.owner.kind) (hid : a.owner.id = b.owner.id)
    (hscope : a.owner.hasScope = false) (hscope' : b.owner.hasScope = false) (hdiffers : ¬ DiffersInProto a b)
    (hkept : ∀ name, a.kept name = b.kept name) (name : Text) : a.relevant name = b.relevant name := by
  by_cases hproto : a.owner.kind = .layout ∧ name = proto
  · obtain ⟨hlayout, rfl⟩ := hproto
    have hlayout' : b.owner.kind = .layout := hkind ▸ hlayout
    by_cases hdeclared : proto ∈ a.declared
    · rw [relevant_of_declared hlayout hdeclared, relevant_of_declared hlayout' (declared_eq hid ▸ hdeclared)]
      by_contra hne
      refine hdiffers ⟨hlayout, hlayout', hid, hscope, hscope', hdeclared, hne, fun other hother hnp => ?_⟩
      have hsame := hkept other
      rwa [kept_of_ne hnp, kept_of_ne hnp, relevant_of_declared hlayout hother,
        relevant_of_declared hlayout' (declared_eq hid ▸ hother)] at hsame
    · simp only [Scope.relevant, hlayout, hlayout', if_neg hdeclared, if_neg (declared_eq hid ▸ hdeclared)]
  · have hsame := hkept name
    rwa [Scope.kept, if_neg hproto, Scope.kept, if_neg (hkind ▸ hproto)] at hsame

/-- Two scopes have one name exactly when they are the same, unless they are a
    layout with other values of a declared `__proto__` only. -/
theorem instance_names_injective (a b : Scope) {x y : List Char} (ha : a.name = .ok x) (hb : b.name = .ok y) :
    (x = y ↔ Same a b) ↔ ¬ DiffersInProto a b := by
  rw [name_eq_iff ha hb]
  constructor
  · intro hiff hdiffers
    have hparts := hdiffers
    obtain ⟨hka, hkb, hid, hsa, hsb, hdeclared, hne, -⟩ := hparts
    have hsame := hiff.mp ⟨hka.trans hkb.symm, hid, .inr ⟨hsa, hsb, hdiffers.kept⟩⟩
    rcases hsame.2.2 with ⟨hscoped, -, -⟩ | ⟨-, -, hrelevant⟩
    · rw [hsa] at hscoped
      cases hscoped
    · have hproto := hrelevant proto
      rw [relevant_of_declared hka hdeclared, relevant_of_declared hkb (declared_eq hid ▸ hdeclared)] at hproto
      exact hne hproto
  · intro hdiffers
    constructor
    · rintro ⟨hkind, hid, hkeys | ⟨hsa, hsb, hkept⟩⟩
      · exact ⟨hkind, hid, .inl hkeys⟩
      · exact ⟨hkind, hid, .inr ⟨hsa, hsb, relevant_of_kept hkind hid hsa hsb hdiffers hkept⟩⟩
    · rintro ⟨hkind, hid, hkeys | ⟨hsa, hsb, hrelevant⟩⟩
      · exact ⟨hkind, hid, .inl hkeys⟩
      · refine ⟨hkind, hid, .inr ⟨hsa, hsb, fun name => ?_⟩⟩
        rw [Scope.kept, Scope.kept, hkind, hrelevant name]

/-- A layout whose route declares `__proto__`, for one value of it. -/
def protoLayout (value : String) : Scope where
  owner := ⟨.layout, ofString "/src/pages/[__proto__]/layout.ts", false⟩
  scopeKey := none
  params := ⟨[(proto, ofString value)], List.nodup_singleton _⟩

theorem protoLayouts_share_instance :
    (protoLayout "a").name = (protoLayout "b").name ∧ (protoLayout "a").name.isOk = true ∧
      ¬ Same (protoLayout "a") (protoLayout "b") := by
  refine ⟨by decide +kernel, by decide +kernel, fun hsame => ?_⟩
  rcases hsame.2.2 with ⟨hscoped, -⟩ | ⟨-, -, hrelevant⟩
  · cases hscoped
  · have hproto := hrelevant proto
    revert hproto
    decide +kernel

/-- Two instances of one page. -/
def room (value : String) : Scope where
  owner := ⟨.page, ofString "/src/pages/room/[id]/index.ts", false⟩
  scopeKey := none
  params := ⟨[(ofString "id", ofString value)], List.nodup_singleton _⟩

theorem rooms_have_names_of_their_own :
    ((instanceName (room "a").owner (entriesJson [(ofString "id", ofString "a")]) =
      instanceName (room "b").owner (entriesJson [(ofString "id", ofString "b")])) ↔ Same (room "a") (room "b")) ↔
    ¬ DiffersInProto (room "a") (room "b") :=
  instance_names_injective (room "a") (room "b") (by decide +kernel) (by decide +kernel)

end Cossack.Framework.RealtimeScope
