import Mathlib.Data.Prod.Lex
import Cossack.Framework.RouteIds

/-! # Which route wins

    The first registered match is a most specific one exactly when every
    overtaking (a less specific match sorted before a more specific one) is
    itself preceded by another match.  Overtaking has three causes only: two
    segments of one kind are told apart by their names before the segments to
    their right are looked at, a route that ends is put before the routes that
    extend it, and some literal and parameter names are ranked as catch-alls. -/

namespace Cossack.Framework

open JsString (Collation)

/-! ## Section 1: The registration order is a linear order on patterns -/

/-- What the comparison of two different segments looks at. -/
def segmentKey (segment : String) : Nat ×ₗ List Nat :=
  toLex (segmentSpecificity segment, JsString.utf16 segment)

theorem segmentKey_injective : Function.Injective segmentKey := fun _ _ h =>
  JsString.utf16_injective (congrArg Prod.snd (toLex.injective h))

/-- The first segment sorts before the second one. -/
def SegmentBefore (x y : String) : Prop :=
  segmentSpecificity x < segmentSpecificity y ∨
    segmentSpecificity x = segmentSpecificity y ∧ JsString.lt x y = true

theorem segmentKey_lt {x y : String} : segmentKey x < segmentKey y ↔ SegmentBefore x y := by
  rw [Prod.Lex.lt_iff]
  simp [segmentKey, SegmentBefore, JsString.lt]

theorem compareSegments_cons_self (x : String) (s t : List String) :
    compareSegments (x :: s) (x :: t) = compareSegments s t := by
  simp [compareSegments]

theorem compareSegments_cons_ne {x y : String} (h : x ≠ y) (s t : List String) :
    (compareSegments (x :: s) (y :: t) < 0 ↔ SegmentBefore x y) ∧
      (compareSegments (x :: s) (y :: t) ≤ 0 ↔ SegmentBefore x y) := by
  have hval : compareSegments (x :: s) (y :: t) =
      if (segmentSpecificity x : Int) - segmentSpecificity y ≠ 0 then
        (segmentSpecificity x : Int) - segmentSpecificity y
      else if JsString.lt x y then -1 else 1 := by
    rw [compareSegments, if_neg h]
  rw [hval]
  unfold SegmentBefore
  by_cases hrank : segmentSpecificity x = segmentSpecificity y
  · by_cases hlt : JsString.lt x y = true <;> simp [hrank, hlt]
  · have hne : (segmentSpecificity x : Int) - segmentSpecificity y ≠ 0 := by omega
    simp only [hne, ne_eq, not_false_eq_true, if_true, hrank, false_and, or_false]
    omega

/-- Registration compares the segment keys lexicographically. -/
theorem compareSegments_le {s t : List String} :
    compareSegments s t ≤ 0 ↔ s.map segmentKey ≤ t.map segmentKey := by
  rw [← not_lt (a := t.map segmentKey)]
  induction s generalizing t with
  | nil =>
    have hval : compareSegments [] t ≤ 0 := by
      cases t with
      | nil => simp [compareSegments]
      | cons y t =>
        simp only [compareSegments, List.length_cons, List.length_nil]
        omega
    simp [hval]
  | cons x s ih =>
    cases t with
    | nil =>
      have hval : ¬ compareSegments (x :: s) [] ≤ 0 := by
        simp only [compareSegments, List.length_cons, List.length_nil]
        omega
      simp [hval]
    | cons y t =>
      rw [List.map_cons, List.map_cons, List.cons_lt_cons_iff, not_or, not_and]
      by_cases hxy : x = y
      · subst hxy
        rw [compareSegments_cons_self, ih]
        simp
      · rw [(compareSegments_cons_ne hxy s t).2, ← segmentKey_lt]
        have hkey : segmentKey x ≠ segmentKey y := fun h => hxy (segmentKey_injective h)
        constructor
        · intro hlt
          exact ⟨hlt.le.not_gt, fun heq => absurd heq.symm hkey⟩
        · intro hnot
          exact lt_of_le_of_ne (not_lt.mp hnot.1) hkey

theorem compareHttpRoutes_total (a b : String) :
    compareHttpRoutes a b ≤ 0 ∨ compareHttpRoutes b a ≤ 0 := by
  rw [compareHttpRoutes, compareHttpRoutes, compareSegments_le, compareSegments_le]
  exact le_total _ _

theorem compareHttpRoutes_trans {a b c : String} (hab : compareHttpRoutes a b ≤ 0)
    (hbc : compareHttpRoutes b c ≤ 0) : compareHttpRoutes a c ≤ 0 := by
  rw [compareHttpRoutes, compareSegments_le] at hab hbc ⊢
  exact hab.trans hbc

/-- The registered routes are in the order of the comparator. -/
theorem registeredRoutes_sorted {localeCompare : Collation} {pageKeys routes : List String}
    (h : registeredRoutes localeCompare pageKeys = .ok routes) :
    routes.Pairwise fun a b => compareHttpRoutes a b ≤ 0 := by
  simp only [registeredRoutes] at h
  cases hresolved : resolvePageRouteFiles localeCompare pageKeys with
  | error e => rw [hresolved] at h; exact nomatch h
  | ok resolved =>
    rw [hresolved] at h
    cases hroutes : resolved.mapM filePathToHttpRoute with
    | error e =>
      simp only [bind, Except.bind, hroutes] at h
      exact nomatch h
    | ok all =>
      simp only [bind, Except.bind, hroutes] at h
      cases h
      have hsorted : (all.mergeSort fun a b => decide (compareHttpRoutes a b ≤ 0)).Pairwise
          fun a b => decide (compareHttpRoutes a b ≤ 0) = true := by
        refine List.pairwise_mergeSort (fun a b c hab hbc => ?_) (fun a b => ?_) all
        · simp only [decide_eq_true_eq] at hab hbc ⊢
          exact compareHttpRoutes_trans hab hbc
        · simpa using compareHttpRoutes_total a b
      have hsorted' := hsorted.imp fun {a b} hab => of_decide_eq_true hab
      exact hsorted'.filter _

/-! ## Section 2: Specificity -/

def SegmentKind.rank : SegmentKind → Nat
  | .literal => 0
  | .parameter => 1
  | .catchAll => 2

/-- The first route is more specific: at the first segments of different kinds
    it has the more specific one, or it goes on where the other route ends. -/
def MoreSpecific : List String → List String → Prop
  | x :: s, y :: t =>
      (segmentKind x).rank < (segmentKind y).rank ∨
        segmentKind x = segmentKind y ∧ MoreSpecific s t
  | _ :: _, [] => True
  | [], _ => False

theorem moreSpecific_cons_self {x : String} {s t : List String} :
    MoreSpecific (x :: s) (x :: t) ↔ MoreSpecific s t := by
  simp [MoreSpecific]

theorem moreSpecific_append (pre : List String) {s t : List String} :
    MoreSpecific (pre ++ s) (pre ++ t) ↔ MoreSpecific s t := by
  induction pre with
  | nil => rfl
  | cons x pre ih => rw [List.cons_append, List.cons_append, moreSpecific_cons_self, ih]

theorem moreSpecific_irrefl (s : List String) : ¬ MoreSpecific s s := by
  induction s with
  | nil => exact id
  | cons x s ih => rw [moreSpecific_cons_self]; exact ih

/-- A literal or a parameter that is ranked as a catch-all. -/
def Misranked (segment : String) : Prop :=
  segmentKind segment ≠ .catchAll ∧
    ("*".toList.isSuffixOf segment.toList = true ∨ spanning.isSuffixOf segment.toList = true)

/-- The rank of a segment is the rank of its kind, or 2. -/
theorem segmentSpecificity_eq (segment : String) :
    segmentSpecificity segment = (segmentKind segment).rank ∨
      Misranked segment ∧ segmentSpecificity segment = 2 := by
  by_cases hempty : segment = ""
  · subst hempty
    exact .inl (by decide)
  · by_cases hspan : ("*".toList.isSuffixOf segment.toList ||
        spanning.isSuffixOf segment.toList) = true
    · have hrank : segmentSpecificity segment = 2 := by
        rw [segmentSpecificity, if_neg hempty, if_pos hspan]
      by_cases hkind : segmentKind segment = .catchAll
      · exact .inl (by rw [hrank, hkind]; rfl)
      · exact .inr ⟨⟨hkind, by simpa using hspan⟩, hrank⟩
    · have hnot : spanning.isSuffixOf segment.toList = false := by
        simp only [Bool.or_eq_true, not_or, Bool.not_eq_true] at hspan
        exact hspan.2
      refine .inl ?_
      rw [segmentSpecificity, if_neg hempty, if_neg hspan]
      by_cases hcolon : ":".toList.isPrefixOf segment.toList = true
      · rw [if_pos hcolon, segmentKind, if_pos hcolon, if_neg (by simp [hnot])]
        rfl
      · rw [if_neg hcolon, segmentKind, if_neg hcolon]
        rfl

theorem SegmentKind.rank_le (k : SegmentKind) : k.rank ≤ 2 := by cases k <;> decide

/-- A more specific segment sorts behind only when it is misranked. -/
theorem misranked_of_before {x y : String} (h : SegmentBefore x y)
    (hkind : (segmentKind y).rank < (segmentKind x).rank) : Misranked y := by
  have hle : segmentSpecificity x ≤ segmentSpecificity y := by
    rcases h with h | h
    · exact h.le
    · exact h.1.le
  have hx := (segmentKind x).rank_le
  rcases segmentSpecificity_eq y with hy | hy
  · rcases segmentSpecificity_eq x with hrank | ⟨-, hrank⟩ <;> omega
  · exact hy.1

/-! ## Section 3: Overtaking -/

/-- The pattern `a` is registered before the pattern `b` although `b` is more
    specific. -/
inductive Overtakes : List String → List String → Prop
  /-- Two segments of one kind decide, and `b` is more specific behind them. -/
  | sameKind (shared : List String) {x y : String} {s t : List String} :
      x ≠ y → segmentKind x = segmentKind y → SegmentBefore x y → MoreSpecific t s →
      Overtakes (shared ++ x :: s) (shared ++ y :: t)
  /-- The pattern `a` ends where `b` goes on. -/
  | extended (shared : List String) {y : String} {t : List String} :
      Overtakes shared (shared ++ y :: t)
  /-- The segment of `b` is more specific than its rank. -/
  | misranked (shared : List String) {x y : String} {s t : List String} :
      Misranked y → (segmentKind y).rank < (segmentKind x).rank → SegmentBefore x y →
      Overtakes (shared ++ x :: s) (shared ++ y :: t)

theorem overtakes_cons {x : String} {a b : List String} (h : Overtakes a b) :
    Overtakes (x :: a) (x :: b) := by
  cases h with
  | sameKind shared hne hkind hbefore hmore => exact .sameKind (x :: shared) hne hkind hbefore hmore
  | extended => exact .extended (x :: a)
  | misranked shared hmis hkind hbefore => exact .misranked (x :: shared) hmis hkind hbefore

/-- Overtaking is the only way in which the registration order and specificity
    disagree. -/
theorem overtakes_iff {a b : List String} :
    Overtakes a b ↔ compareSegments a b < 0 ∧ MoreSpecific b a := by
  constructor
  · intro h
    induction h with
    | sameKind shared hne hkind hbefore hmore =>
      rename_i x y s t
      rw [moreSpecific_append]
      refine ⟨?_, .inr ⟨hkind.symm, hmore⟩⟩
      induction shared with
      | nil => exact (compareSegments_cons_ne hne s t).1.mpr hbefore
      | cons z shared ih =>
        rw [List.cons_append, List.cons_append, compareSegments_cons_self]
        exact ih
    | extended shared =>
      rename_i y t
      constructor
      · induction shared with
        | nil =>
          simp only [List.nil_append, compareSegments, List.length_nil, List.length_cons]
          omega
        | cons z shared ih =>
          rw [List.cons_append, compareSegments_cons_self]
          exact ih
      · have hgoes : MoreSpecific (shared ++ y :: t) (shared ++ []) :=
          (moreSpecific_append shared).mpr trivial
        rwa [List.append_nil] at hgoes
    | misranked shared hmis hkind hbefore =>
      rename_i x y s t
      rw [moreSpecific_append]
      refine ⟨?_, .inl hkind⟩
      have hne : x ≠ y := by
        rintro rfl
        exact absurd hkind (Nat.lt_irrefl _)
      induction shared with
      | nil => exact (compareSegments_cons_ne hne s t).1.mpr hbefore
      | cons z shared ih =>
        rw [List.cons_append, List.cons_append, compareSegments_cons_self]
        exact ih
  · rintro ⟨hcmp, hmore⟩
    induction a generalizing b with
    | nil =>
      cases b with
      | nil => exact absurd hmore id
      | cons y t => exact .extended []
    | cons x s ih =>
      cases b with
      | nil => exact absurd hmore id
      | cons y t =>
        by_cases hxy : x = y
        · subst hxy
          rw [compareSegments_cons_self] at hcmp
          rw [moreSpecific_cons_self] at hmore
          exact overtakes_cons (ih hcmp hmore)
        · have hbefore := (compareSegments_cons_ne hxy s t).1.mp hcmp
          rcases hmore with hlt | ⟨hkind, hmore⟩
          · exact .misranked [] (misranked_of_before hbefore hlt) hlt hbefore
          · exact .sameKind [] hxy hkind.symm hbefore hmore

/-! ## Section 4: The winner -/

/-- No match is more specific than the first one. -/
def MostSpecificWins (routes : List String) (path : String) : Prop :=
  ∀ winner, firstMatch routes path = some winner →
    ∀ route ∈ routes, matchesPath route path = true →
      ¬ MoreSpecific (segments route) (segments winner)

/-- Whenever a match overtakes another one, some match is registered before
    both. -/
def OvertakingPreceded (routes : List String) (path : String) : Prop :=
  ∀ a ∈ routes, ∀ b ∈ routes, matchesPath a path = true → matchesPath b path = true →
    Overtakes (segments a) (segments b) →
    ∃ c ∈ routes, matchesPath c path = true ∧ compareHttpRoutes c a < 0

/-- The first match is before every other one, or has the same segments. -/
theorem firstMatch_le {routes : List String} {path winner : String}
    (hsorted : routes.Pairwise fun a b => compareHttpRoutes a b ≤ 0)
    (h : firstMatch routes path = some winner) {route : String} (hmem : route ∈ routes)
    (hmatch : matchesPath route path = true) : compareHttpRoutes winner route ≤ 0 := by
  obtain ⟨-, before, behind, hsplit, hbefore⟩ := List.find?_eq_some_iff_append.mp h
  rw [hsplit] at hmem hsorted
  rcases List.mem_append.mp hmem with hmem | hmem
  · have := hbefore route hmem
    simp [hmatch] at this
  · rcases List.mem_cons.mp hmem with rfl | hmem
    · rw [compareHttpRoutes, compareSegments_le]
    · have := (List.pairwise_append.mp hsorted).2.1
      exact (List.pairwise_cons.mp this).1 route hmem

theorem firstMatch_matches {routes : List String} {path winner : String}
    (h : firstMatch routes path = some winner) :
    winner ∈ routes ∧ matchesPath winner path = true := by
  obtain ⟨hmatch, before, behind, hsplit, -⟩ := List.find?_eq_some_iff_append.mp h
  exact ⟨by rw [hsplit]; simp, hmatch⟩

/-- Patterns that compare equal have the same segments. -/
theorem compareSegments_eq_zero {s t : List String} (h : compareSegments s t = 0) : s = t := by
  induction s generalizing t with
  | nil =>
    cases t with
    | nil => rfl
    | cons y t => simp only [compareSegments, List.length_nil, List.length_cons] at h; omega
  | cons x s ih =>
    cases t with
    | nil => simp only [compareSegments, List.length_nil, List.length_cons] at h; omega
    | cons y t =>
      by_cases hxy : x = y
      · subst hxy
        rw [compareSegments_cons_self] at h
        rw [ih h]
      · have hcons := compareSegments_cons_ne hxy s t
        have hbefore := hcons.2.mp h.le
        have := hcons.1.mpr hbefore
        omega

/-- The winner is a most specific match exactly when every overtaking among the
    matches is preceded by a further match. -/
theorem winner_most_specific_iff (localeCompare : Collation) (pageKeys routes : List String)
    (h : registeredRoutes localeCompare pageKeys = .ok routes) (path : String) :
    MostSpecificWins routes path ↔ OvertakingPreceded routes path := by
  have hsorted := registeredRoutes_sorted h
  constructor
  · intro hwins a ha b hb hmatcha hmatchb hover
    obtain ⟨-, hmore⟩ := overtakes_iff.mp hover
    cases hfirst : firstMatch routes path with
    | none =>
      have := List.find?_eq_none.mp hfirst a ha
      exact absurd hmatcha this
    | some winner =>
      obtain ⟨hwmem, hwmatch⟩ := firstMatch_matches hfirst
      refine ⟨winner, hwmem, hwmatch, ?_⟩
      have hle := firstMatch_le hsorted hfirst ha hmatcha
      by_contra hnot
      have hsame : segments winner = segments a :=
        compareSegments_eq_zero (show compareSegments _ _ = 0 by
          rw [compareHttpRoutes] at hle hnot; omega)
      have hnone := hwins winner hfirst b hb hmatchb
      rw [hsame] at hnone
      exact hnone hmore
  · intro hpreceded winner hfirst route hroute hmatch hmore
    obtain ⟨hwmem, hwmatch⟩ := firstMatch_matches hfirst
    have hle := firstMatch_le hsorted hfirst hroute hmatch
    have hlt : compareHttpRoutes winner route < 0 := by
      by_contra hnot
      have hsame : segments winner = segments route :=
        compareSegments_eq_zero (show compareSegments _ _ = 0 by
          rw [compareHttpRoutes] at hle hnot; omega)
      rw [hsame] at hmore
      exact moreSpecific_irrefl _ hmore
    -- the winner overtakes the route, but nothing is registered before the winner
    obtain ⟨c, hc, hcmatch, hbefore⟩ := hpreceded winner hwmem route hroute hwmatch hmatch
      (overtakes_iff.mpr ⟨hlt, hmore⟩)
    have hle' := firstMatch_le hsorted hfirst hc hcmatch
    have hcw : compareHttpRoutes c winner ≤ 0 := hbefore.le
    rw [compareHttpRoutes, compareSegments_le] at hle' hcw
    have hkeys := le_antisymm hcw hle'
    have hsegs : segments c = segments winner := List.map_injective_iff.mpr segmentKey_injective hkeys
    rw [compareHttpRoutes, hsegs] at hbefore
    have hself : compareSegments (segments winner) (segments winner) = 0 := by
      induction segments winner with
      | nil => rfl
      | cons x s ih => rw [compareSegments_cons_self, ih]
    omega

/-! ### Two pages told apart by their parameter names -/

/-- Two pages that do not collide are both registered. -/
theorem registeredRoutes_pair {localeCompare : Collation} {p q r r' key key' : String}
    (hp : filePathToHttpRoute p = .ok r) (hq : filePathToHttpRoute q = .ok r')
    (hkp : pageRouteCollisionKey p = .ok key) (hkq : pageRouteCollisionKey q = .ok key')
    (hkeys : key ≠ key') (hr : classifyRoute r = .page) (hr' : classifyRoute r' = .page)
    (hfiles : JsString.lt q p = false) (hroutes : compareHttpRoutes r r' ≤ 0) :
    registeredRoutes localeCompare [p, q] = .ok [r, r'] := by
  have howner : ∀ route path, resolveOwner localeCompare route [path] = .ok [path] := by
    intro route path
    simp [resolveOwner]
  have hcandidates : collectCandidates [p, q] [] [] = .ok ([(key, [p]), (key', [q])], []) := by
    simp [collectCandidates, hp, hq, hkp, hkq, hr, hr', hkeys, addCandidate, bind, Except.bind]
  have hsorted : sortByUnits [p, q] = [p, q] := List.mergeSort_of_pairwise (by simp [hfiles])
  have hresolved : resolvePageRouteFiles localeCompare [p, q] = .ok [p, q] := by
    simp [resolvePageRouteFiles, hcandidates, howner, hsorted, bind, Except.bind, pure, Except.pure]
  have horder : ([r, r'].mergeSort fun a b => decide (compareHttpRoutes a b ≤ 0)) = [r, r'] :=
    List.mergeSort_of_pairwise (by simp [hroutes])
  simp [registeredRoutes, hresolved, hp, hq, horder, hr, hr', bind, Except.bind, pure, Except.pure]

/-- `/:a/:c` is registered before `/:b/x` because of the name of its first
    parameter, and takes the path of the literal. -/
theorem parameter_name_shadows_literal :
    registeredRoutes JsString.codePointOrder
        ["/src/pages/[a]/[c]/index.ts", "/src/pages/[b]/x/index.ts"] = .ok ["/:a/:c", "/:b/x"] ∧
      ¬ MostSpecificWins ["/:a/:c", "/:b/x"] "/1/x" := by
  constructor
  · exact registeredRoutes_pair rfl rfl rfl rfl (by decide) (by decide) (by decide) (by decide)
      (by decide)
  · intro hwins
    have hfirst : firstMatch ["/:a/:c", "/:b/x"] "/1/x" = some "/:a/:c" := by decide
    refine hwins _ hfirst "/:b/x" (by simp) (by decide) ?_
    have hsegs : segments "/:b/x" = ["", ":b", "x"] ∧ segments "/:a/:c" = ["", ":a", ":c"] := by
      decide
    rw [hsegs.1, hsegs.2]
    exact .inr ⟨rfl, .inr ⟨by decide, .inl (by decide)⟩⟩

/-- On a path that the literal does not match, nothing is overtaken. -/
theorem other_path_wins : MostSpecificWins ["/:a/:c", "/:b/x"] "/1/y" := by
  have hroutes : registeredRoutes JsString.codePointOrder
      ["/src/pages/[a]/[c]/index.ts", "/src/pages/[b]/x/index.ts"] = .ok ["/:a/:c", "/:b/x"] :=
    registeredRoutes_pair rfl rfl rfl rfl (by decide) (by decide) (by decide) (by decide)
      (by decide)
  refine (winner_most_specific_iff _ _ _ hroutes "/1/y").mpr ?_
  intro a ha b hb hmatcha hmatchb hover
  have honly : ∀ route ∈ ["/:a/:c", "/:b/x"], matchesPath route "/1/y" = true →
      route = "/:a/:c" := by decide
  rw [honly a ha hmatcha, honly b hb hmatchb] at hover
  exact absurd (overtakes_iff.mp hover).2 (moreSpecific_irrefl _)

end Cossack.Framework
