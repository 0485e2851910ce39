import Mathlib.Data.List.Nodup
import Mathlib.Logic.Function.Basic

/-! # Edits of a store

    A store has values under distinct names.  A list of edits makes new entries
    and reuses old ones, which may get another name first; the order decides
    whether a name is free.  `Fits` says of the edits and the first store alone
    when they succeed, and `Final` what they leave. -/

namespace Edits

variable {K V : Type} [DecidableEq K]

/-! ## Section 1: Stores -/

abbrev Store (K V : Type) := K → Option V

def insert (st : Store K V) (k : K) (v : V) : Option (Store K V) :=
  if (st k).isNone then some (Function.update st k (some v)) else none

def remove (st : Store K V) (k : K) : Option (Store K V) :=
  if (st k).isSome then some (Function.update st k none) else none

/-- An entry gets another name. -/
def move (st : Store K V) (source name : K) : Option (Store K V) :=
  (st source).bind fun v => insert (Function.update st source none) name v

def modify (st : Store K V) (k : K) (f : V → Option V) : Option (Store K V) :=
  (st k).bind fun v => (f v).map fun w => Function.update st k (some w)

/-- With no edit, the entry is not looked at. -/
def touch (st : Store K V) (k : K) : Option (V → Option V) → Option (Store K V)
  | none => some st
  | some f => modify st k f

theorem insert_eq_some {st st' : Store K V} {k : K} {v : V} :
    insert st k v = some st' ↔ st k = none ∧ st' = Function.update st k (some v) := by
  unfold insert
  cases hk : st k with
  | none => simp [eq_comm]
  | some w => simp

theorem modify_eq_some {st st' : Store K V} {k : K} {f : V → Option V} :
    modify st k f = some st' ↔
      ∃ v w, st k = some v ∧ f v = some w ∧ st' = Function.update st k (some w) := by
  unfold modify
  cases hk : st k with
  | none => simp
  | some v => simp [eq_comm]

theorem remove_eq_some {st st' : Store K V} {k : K} :
    remove st k = some st' ↔ st k ≠ none ∧ st' = Function.update st k none := by
  unfold remove
  cases hk : st k with
  | none => simp
  | some v => simp [eq_comm]

/-- Two modifications of one entry are one. -/
theorem modify_bind (st : Store K V) (k : K) (f g : V → Option V) :
    ((modify st k f).bind fun st => modify st k g) = modify st k fun v => (f v).bind g := by
  unfold modify
  cases hk : st k with
  | none => rfl
  | some v =>
    simp only [Option.bind_some]
    cases f v with
    | none => rfl
    | some w => simp

/-- The store of a list of values that know their names. -/
def byKey (key : V → K) (values : List V) : Store K V := fun k => values.find? fun v => key v = k

theorem byKey_cons (key : V → K) (v : V) (values : List V) (k : K) :
    byKey key (v :: values) k = if key v = k then some v else byKey key values k := by
  unfold byKey
  by_cases hk : key v = k
  · rw [if_pos hk]
    exact List.find?_cons_of_pos (by simpa using hk)
  · rw [if_neg hk]
    exact List.find?_cons_of_neg (by simpa using hk)

theorem byKey_some {key : V → K} {values : List V} {k : K} {v : V} (h : byKey key values k = some v) :
    v ∈ values ∧ key v = k := by
  unfold byKey at h
  exact ⟨List.mem_of_find?_eq_some h, by simpa using List.find?_some h⟩

theorem byKey_eq_none {key : V → K} {values : List V} {k : K} :
    byKey key values k = none ↔ ∀ v ∈ values, key v ≠ k := by
  unfold byKey
  rw [List.find?_eq_none]
  exact forall₂_congr fun v _ => not_congr decide_eq_true_iff

theorem byKey_ne_none {key : V → K} {values : List V} {k : K} :
    byKey key values k ≠ none ↔ k ∈ values.map key := by
  rw [ne_eq, byKey_eq_none, List.mem_map]
  push Not
  rfl

theorem byKey_eq_some {key : V → K} {values : List V} (h : (values.map key).Nodup) {k : K} {v : V} :
    byKey key values k = some v ↔ v ∈ values ∧ key v = k := by
  refine ⟨byKey_some, ?_⟩
  rintro ⟨hmem, rfl⟩
  cases hfind : byKey key values (key v) with
  | none => exact absurd rfl (byKey_eq_none.mp hfind v hmem)
  | some other =>
    obtain ⟨hother, hname⟩ := byKey_some hfind
    rw [List.inj_on_of_nodup_map h hother hmem hname]

/-- A value under a new name comes last. -/
theorem byKey_append {key : V → K} {values : List V} {v : V} (h : byKey key values (key v) = none) :
    byKey key (values ++ [v]) = Function.update (byKey key values) (key v) (some v) := by
  funext k
  unfold byKey
  rw [List.find?_append]
  by_cases hk : k = key v
  · subst hk
    unfold byKey at h
    rw [h, Function.update_self, Option.none_or]
    exact List.find?_cons_of_pos (by simp)
  · rw [Function.update_of_ne hk, List.find?_cons_of_neg (by simpa using fun heq => hk heq.symm)]
    exact Option.or_none ..

theorem byKey_filter (key : V → K) (values : List V) (k : K) :
    byKey key (values.filter fun v => key v ≠ k) = Function.update (byKey key values) k none := by
  funext j
  by_cases hj : j = k
  · subst hj
    rw [Function.update_self, byKey_eq_none]
    intro v hv
    simpa using (List.mem_filter.mp hv).2
  · rw [Function.update_of_ne hj]
    unfold byKey
    rw [List.find?_filter]
    congr 1
    funext v
    by_cases hv : key v = j
    · simp [hv, hj]
    · simp [hv]

/-! ## Section 2: Steps -/

/-- A new entry, or an old one under its new name. -/
inductive Step (K V : Type) where
  | make (name : K) (v : V)
  | reuse (source name : K) (edit : Option (V → Option V))

def Step.name : Step K V → K
  | .make name _ => name
  | .reuse _ name _ => name

def Step.source : Step K V → Option K
  | .make _ _ => none
  | .reuse source _ _ => some source

def Step.run (step : Step K V) (st : Store K V) : Option (Store K V) :=
  match step with
  | .make name v => insert st name v
  | .reuse source name edit =>
      (if source = name then some st else move st source name).bind fun st => touch st name edit

def run : List (Step K V) → Store K V → Option (Store K V)
  | [], st => some st
  | step :: rest, st => (step.run st).bind (run rest)

/-- The value the entry has after the step. -/
def Step.result (step : Step K V) (st : Store K V) : Option V :=
  match step with
  | .make _ v => some v
  | .reuse source _ edit => (st source).bind (edit.getD some)

/-- The name is taken by this step. -/
def Step.Enters (step : Step K V) : Prop := step.source ≠ some step.name

instance (step : Step K V) : Decidable step.Enters := instDecidableNot

def Step.put (step : Step K V) (st : Store K V) (v : V) : Store K V := fun k =>
  if k = step.name then some v else if step.source = some k then none else st k

theorem put_name (step : Step K V) (st : Store K V) (v : V) : step.put st v step.name = some v :=
  if_pos rfl

theorem put_of_ne {step : Step K V} {k : K} (h : k ≠ step.name) (st : Store K V) (v : V) :
    step.put st v k = if step.source = some k then none else st k := if_neg h

theorem put_make (st : Store K V) (name : K) (v : V) :
    (Step.make name v).put st v = Function.update st name (some v) := by
  funext k
  by_cases hk : k = name
  · subst hk
    rw [Function.update_self]
    exact put_name ..
  · rw [Function.update_of_ne hk, put_of_ne hk]
    exact if_neg nofun

theorem put_reuse (st : Store K V) (source name : K) (edit : Option (V → Option V)) (v : V) :
    (Step.reuse source name edit).put st v =
      Function.update (Function.update st source none) name (some v) := by
  funext k
  by_cases hk : k = name
  · subst hk
    rw [Function.update_self]
    exact put_name ..
  · rw [Function.update_of_ne hk, put_of_ne hk]
    by_cases hs : k = source
    · subst hs
      rw [Function.update_self]
      exact if_pos rfl
    · rw [Function.update_of_ne hs]
      exact if_neg fun heq => hs (Option.some.inj heq).symm

omit [DecidableEq K] in
theorem enters_reuse {source name : K} {edit : Option (V → Option V)} :
    (Step.reuse source name edit).Enters ↔ source ≠ name :=
  not_congr ⟨fun h => Option.some.inj h, congrArg some⟩

/-- A step whose name is free and whose value is there succeeds. -/
theorem Step.run_of {step : Step K V} {st : Store K V} {v : V} (hresult : step.result st = some v)
    (hfree : step.Enters → st step.name = none) : step.run st = some (step.put st v) := by
  cases step with
  | make name w =>
    cases hresult
    rw [put_make]
    exact insert_eq_some.mpr ⟨hfree nofun, rfl⟩
  | reuse source name edit =>
    obtain ⟨u, hsource, hedit⟩ := Option.bind_eq_some_iff.mp hresult
    rw [put_reuse]
    show (if source = name then some st else move st source name).bind _ = _
    by_cases hname : source = name
    · subst hname
      rw [if_pos rfl, Option.bind_some, Function.update_idem]
      cases edit with
      | none =>
        cases hedit
        rw [← hsource, Function.update_eq_self]
        rfl
      | some f => exact modify_eq_some.mpr ⟨u, v, hsource, hedit, rfl⟩
    · have hmove : move st source name =
          some (Function.update (Function.update st source none) name (some u)) := by
        unfold move
        rw [hsource]
        refine insert_eq_some.mpr ⟨?_, rfl⟩
        rw [Function.update_of_ne (Ne.symm hname)]
        exact hfree (enters_reuse.mpr hname)
      rw [if_neg hname, hmove, Option.bind_some]
      cases edit with
      | none =>
        cases hedit
        rfl
      | some f =>
        refine modify_eq_some.mpr ⟨u, v, Function.update_self .., hedit, ?_⟩
        rw [Function.update_idem]

/-- A step that succeeds found its name free and its value there, unless it does
    nothing at all. -/
theorem Step.of_run {step : Step K V} {st st' : Store K V} (h : step.run st = some st') :
    (step.Enters → st step.name = none) ∧
      ((∃ v, step.result st = some v ∧ st' = step.put st v) ∨
        (st' = st ∧ step.source = some step.name ∧ st step.name = none)) := by
  cases step with
  | make name w =>
    obtain ⟨hfree, rfl⟩ := insert_eq_some.mp h
    exact ⟨fun _ => hfree, .inl ⟨w, rfl, (put_make st name w).symm⟩⟩
  | reuse source name edit =>
    change (if source = name then some st else move st source name).bind _ = _ at h
    by_cases hname : source = name
    · subst hname
      rw [if_pos rfl, Option.bind_some] at h
      refine ⟨fun henters => absurd rfl (enters_reuse.mp henters), ?_⟩
      cases edit with
      | none =>
        cases h
        cases hsource : st source with
        | none => exact .inr ⟨rfl, rfl, hsource⟩
        | some v =>
          refine .inl ⟨v, ?_, ?_⟩
          · simp [Step.result, hsource]
          · rw [put_reuse, Function.update_idem, ← hsource, Function.update_eq_self]
      | some f =>
        obtain ⟨v, w, hsource, hedit, rfl⟩ := modify_eq_some.mp h
        refine .inl ⟨w, ?_, ?_⟩
        · simp [Step.result, hsource, hedit]
        · rw [put_reuse, Function.update_idem]
    · rw [if_neg hname] at h
      obtain ⟨moved, hmove, h⟩ := Option.bind_eq_some_iff.mp h
      obtain ⟨u, hsource, hinsert⟩ := Option.bind_eq_some_iff.mp hmove
      obtain ⟨hfree, rfl⟩ := insert_eq_some.mp hinsert
      rw [Function.update_of_ne (Ne.symm hname)] at hfree
      refine ⟨fun _ => hfree, .inl ?_⟩
      cases edit with
      | none =>
        cases h
        refine ⟨u, ?_, (put_reuse ..).symm⟩
        simp [Step.result, hsource]
      | some f =>
        obtain ⟨v, w, hmoved, hedit, rfl⟩ := modify_eq_some.mp h
        rw [Function.update_self] at hmoved
        cases hmoved
        refine ⟨w, ?_, ?_⟩
        · simp [Step.result, hsource, hedit]
        · rw [put_reuse, Function.update_idem]

theorem run_append (steps rest : List (Step K V)) (st : Store K V) :
    run (steps ++ rest) st = (run steps st).bind (run rest) := by
  induction steps generalizing st with
  | nil => rfl
  | cons step steps ih =>
    show (step.run st).bind _ = ((step.run st).bind _).bind _
    rw [Option.bind_assoc]
    exact congrArg _ (funext ih)

/-! ## Section 3: Runs -/

def names (steps : List (Step K V)) : List K := steps.map Step.name

def sources (steps : List (Step K V)) : List K := steps.filterMap Step.source

/-- What the edits need of the first store: no name is entered twice, no entry is
    used twice, every entry that is used is there, and a name that is entered is
    free or was moved away before. -/
structure Fits (steps : List (Step K V)) (st : Store K V) : Prop where
  names : (names steps).Nodup
  sources : (sources steps).Nodup
  results : ∀ step ∈ steps, step.result st ≠ none
  free : ∀ before step after, steps = before ++ step :: after → step.Enters →
    st step.name = none ∨ step.name ∈ Edits.sources before

/-- What the edits leave. -/
structure Final (steps : List (Step K V)) (st st' : Store K V) : Prop where
  named : ∀ step ∈ steps, st' step.name = step.result st
  taken : ∀ k ∈ sources steps, k ∉ names steps → st' k = none
  other : ∀ k, k ∉ sources steps → k ∉ names steps → st' k = st k

omit [DecidableEq K] in
theorem mem_sources_cons {step : Step K V} {rest : List (Step K V)} {k : K} :
    k ∈ sources (step :: rest) ↔ step.source = some k ∨ k ∈ sources rest := by
  simp [sources]

omit [DecidableEq K] in
theorem nodup_sources_cons {step : Step K V} {rest : List (Step K V)} :
    (sources (step :: rest)).Nodup ↔
      (∀ k, step.source = some k → k ∉ sources rest) ∧ (sources rest).Nodup := by
  unfold sources
  cases hsource : step.source with
  | none => simp [hsource]
  | some k => simp [hsource]

omit [DecidableEq K] in
theorem source_mem {steps : List (Step K V)} {step : Step K V} (hmem : step ∈ steps) {k : K}
    (h : step.source = some k) : k ∈ sources steps := List.mem_filterMap.mpr ⟨step, hmem, h⟩

omit [DecidableEq K] in
/-- A value depends on the source alone. -/
theorem result_congr {step : Step K V} {st st' : Store K V}
    (h : ∀ k, step.source = some k → st' k = st k) : step.result st' = step.result st := by
  cases step with
  | make name v => rfl
  | reuse source name edit =>
    show (st' source).bind _ = (st source).bind _
    rw [h source rfl]

omit [DecidableEq K] in
theorem source_some {step : Step K V} {st : Store K V} (h : step.result st ≠ none) {k : K}
    (hk : step.source = some k) : st k ≠ none := by
  intro hnone
  cases step with
  | make name v => cases hk
  | reuse source name edit =>
    obtain rfl := Option.some.inj hk
    apply h
    show (st source).bind _ = none
    rw [hnone, Option.bind_none]

/-- What the first of several edits needs and leaves to the others. -/
theorem Fits.head {step : Step K V} {rest : List (Step K V)} {st : Store K V}
    (h : Fits (step :: rest) st) :
    ∃ v, step.result st = some v ∧ (step.Enters → st step.name = none) ∧
      step.name ∉ Edits.sources rest ∧ (∀ next ∈ rest, next.result (step.put st v) = next.result st) ∧
      Fits rest (step.put st v) := by
  obtain ⟨v, hv⟩ := Option.ne_none_iff_exists'.mp (h.results step (List.mem_cons_self ..))
  obtain ⟨hsource, hsources⟩ := nodup_sources_cons.mp h.sources
  obtain ⟨hname, hnames⟩ := List.nodup_cons.mp h.names
  have hfree : step.Enters → st step.name = none := fun henters =>
    (h.free [] step rest rfl henters).resolve_right List.not_mem_nil
  -- an entry used later is neither the one used now nor the one under its new name
  have hlater : step.name ∉ Edits.sources rest := by
    intro hmem
    obtain ⟨next, hnext, heq⟩ := List.mem_filterMap.mp hmem
    by_cases henters : step.Enters
    · exact source_some (h.results next (List.mem_cons_of_mem _ hnext)) heq (hfree henters)
    · exact hsource _ (not_not.mp henters) hmem
  have hresult : ∀ next ∈ rest, next.result (step.put st v) = next.result st := by
    intro next hnext
    apply result_congr
    intro k hk
    have hmem := source_mem hnext hk
    rw [put_of_ne fun heq => hlater (heq ▸ hmem), if_neg fun heq => hsource k heq hmem]
  refine ⟨v, hv, hfree, hlater, hresult, hnames, hsources, ?_, ?_⟩
  · intro next hnext
    rw [hresult next hnext]
    exact h.results next (List.mem_cons_of_mem _ hnext)
  · intro before next after hrest henters
    have hne : next.name ≠ step.name := by
      intro heq
      apply hname
      rw [hrest, ← heq]
      exact List.mem_map_of_mem (List.mem_append_right _ (List.mem_cons_self ..))
    rw [put_of_ne hne]
    have hcons := h.free (step :: before) next after (by rw [hrest]; rfl) henters
    by_cases htaken : step.source = some next.name
    · exact .inl (if_pos htaken)
    · rw [if_neg htaken]
      exact hcons.imp id fun hmem => (mem_sources_cons.mp hmem).resolve_left htaken

/-- Edits that fit succeed. -/
theorem run_of_fits {steps : List (Step K V)} {st : Store K V} (h : Fits steps st) :
    ∃ st', run steps st = some st' ∧ Final steps st st' := by
  induction steps generalizing st with
  | nil => exact ⟨st, rfl, nofun, nofun, fun _ _ _ => rfl⟩
  | cons step rest ih =>
    obtain ⟨v, hv, hfree, hlater, hresult, hrest⟩ := h.head
    obtain ⟨hname, -⟩ := List.nodup_cons.mp h.names
    obtain ⟨st', hrun, hfinal⟩ := ih hrest
    refine ⟨st', ?_, ?_, ?_, ?_⟩
    · show (step.run st).bind (run rest) = _
      rw [Step.run_of hv hfree]
      exact hrun
    · intro next hnext
      rcases List.mem_cons.mp hnext with rfl | hmem
      · rw [hfinal.other _ hlater hname, put_name, hv]
      · rw [hfinal.named next hmem, hresult next hmem]
    · intro k hk hnot
      obtain ⟨hne, hnames⟩ := not_or.mp (mt List.mem_cons.mpr hnot)
      by_cases hmem : k ∈ sources rest
      · exact hfinal.taken k hmem hnames
      · rw [hfinal.other k hmem hnames, put_of_ne hne,
          if_pos ((mem_sources_cons.mp hk).resolve_right hmem)]
    · intro k hk hnot
      obtain ⟨hne, hnames⟩ := not_or.mp (mt List.mem_cons.mpr hnot)
      obtain ⟨hsource, hmem⟩ := not_or.mp (mt mem_sources_cons.mpr hk)
      rw [hfinal.other k hmem hnames, put_of_ne hne, if_neg hsource]

/-- A name that no edit enters is free after them when it was free or moved away. -/
theorem run_none {steps : List (Step K V)} {st st' : Store K V} (hrun : run steps st = some st')
    {k : K} (hname : k ∉ names steps) (h : k ∈ sources steps ∨ st k = none) : st' k = none := by
  induction steps generalizing st with
  | nil =>
    cases hrun
    exact h.resolve_left List.not_mem_nil
  | cons step rest ih =>
    obtain ⟨hne, hnames⟩ := not_or.mp (mt List.mem_cons.mpr hname)
    obtain ⟨next, hstep, hrest⟩ := Option.bind_eq_some_iff.mp hrun
    obtain ⟨hfree, ⟨v, -, rfl⟩ | ⟨rfl, hstays, -⟩⟩ := Step.of_run hstep
    · apply ih hrest hnames
      rw [put_of_ne hne]
      by_cases hsource : step.source = some k
      · exact .inr (if_pos hsource)
      · rw [if_neg hsource]
        exact h.imp_left fun hmem => (mem_sources_cons.mp hmem).resolve_left hsource
    · apply ih hrest hnames
      exact h.imp_left fun hmem => (mem_sources_cons.mp hmem).resolve_left fun hsource =>
        hne (Option.some.inj (hsource.symm.trans hstays))

/-- Edits that succeed and leave an entry under each of their names fit. -/
theorem fits_of_run {steps : List (Step K V)} {st st' : Store K V} (hnames : (names steps).Nodup)
    (hrun : run steps st = some st') (hpresent : ∀ step ∈ steps, st' step.name ≠ none) :
    Fits steps st := by
  induction steps generalizing st with
  | nil => exact ⟨hnames, List.nodup_nil, nofun, fun before step after h => by simp at h⟩
  | cons step rest ih =>
    obtain ⟨hname, hnames'⟩ := List.nodup_cons.mp hnames
    obtain ⟨next, hstep, hrest⟩ := Option.bind_eq_some_iff.mp hrun
    have hfits := ih hnames' hrest fun next hnext => hpresent next (List.mem_cons_of_mem _ hnext)
    obtain ⟨hlater, hthere⟩ := not_or.mp (mt (run_none hrest hname) (hpresent step (List.mem_cons_self ..)))
    obtain ⟨hfree, ⟨v, hv, rfl⟩ | ⟨rfl, -, hnone⟩⟩ := Step.of_run hstep
    · have hsame : ∀ k ∈ sources rest, step.source ≠ some k ∧ step.put st v k = st k := by
        intro k hk
        obtain ⟨next, hnext, heq⟩ := List.mem_filterMap.mp hk
        have hput := put_of_ne (fun heq => hlater (heq ▸ hk) : k ≠ step.name) st v
        by_cases hsource : step.source = some k
        · rw [if_pos hsource] at hput
          exact absurd hput (source_some (hfits.results next hnext) heq)
        · exact ⟨hsource, hput.trans (if_neg hsource)⟩
      refine ⟨hnames, ?_, ?_, ?_⟩
      · exact nodup_sources_cons.mpr ⟨fun k hk hmem => (hsame k hmem).1 hk, hfits.sources⟩
      · intro other hother
        rcases List.mem_cons.mp hother with rfl | hmem
        · rw [hv]
          exact Option.some_ne_none v
        · rw [← result_congr fun k hk => (hsame k (source_mem hmem hk)).2]
          exact hfits.results other hmem
      · intro before other after hsplit henters
        cases before with
        | nil =>
          obtain ⟨rfl, -⟩ := List.cons.inj hsplit
          exact .inl (hfree henters)
        | cons first before =>
          obtain ⟨rfl, hrestsplit⟩ := List.cons.inj hsplit
          have hne : other.name ≠ step.name := by
            intro heq
            apply hname
            rw [hrestsplit, ← heq]
            exact List.mem_map_of_mem (List.mem_append_right _ (List.mem_cons_self ..))
          have hbefore := hfits.free before other after hrestsplit henters
          rw [put_of_ne hne] at hbefore
          by_cases hsource : step.source = some other.name
          · exact .inr (mem_sources_cons.mpr (.inl hsource))
          · rw [if_neg hsource] at hbefore
            exact hbefore.imp_right fun hmem => mem_sources_cons.mpr (.inr hmem)
    · exact absurd hnone hthere

/-- The order of the names, each with the one it comes from: nothing is used twice,
    and a name that is entered is free or was used before. -/
structure Orderly (pairs : List (K × Option K)) (there : K → Prop) : Prop where
  used : (pairs.filterMap Prod.snd).Nodup
  free : ∀ before name source after, pairs = before ++ (name, source) :: after → source ≠ some name →
    there name → name ∈ before.filterMap Prod.snd

omit [DecidableEq K] in
/-- A name that is there is used. -/
theorem Orderly.mem {pairs : List (K × Option K)} {there : K → Prop} (h : Orderly pairs there) {name : K}
    (hname : name ∈ pairs.map Prod.fst) (hthere : there name) : name ∈ pairs.filterMap Prod.snd := by
  obtain ⟨⟨name, source⟩, hpair, rfl⟩ := List.mem_map.mp hname
  by_cases henters : source = some name
  · exact List.mem_filterMap.mpr ⟨_, hpair, henters⟩
  · obtain ⟨before, after, hsplit⟩ := List.append_of_mem hpair
    have hbefore := h.free before name source after hsplit henters hthere
    rw [hsplit, List.filterMap_append]
    exact List.mem_append_left _ hbefore

omit [DecidableEq K] in
/-- Names that are new to the store may come in any order. -/
theorem orderly_of_new {pairs : List (K × Option K)} {there : K → Prop} (hused : (pairs.filterMap Prod.snd).Nodup)
    (hnew : ∀ pair ∈ pairs, pair.2 ≠ some pair.1 → ¬ there pair.1) : Orderly pairs there where
  used := hused
  free := fun before name source after hsplit henters hthere => by
    refine absurd hthere (hnew (name, source) ?_ henters)
    rw [hsplit]
    exact List.mem_append_right _ (List.mem_cons_self ..)

def Step.pair (step : Step K V) : K × Option K := (step.name, step.source)

omit [DecidableEq K] in
theorem sources_pair (steps : List (Step K V)) :
    (steps.map Step.pair).filterMap Prod.snd = sources steps := List.filterMap_map ..

omit [DecidableEq K] in
/-- Whether edits fit is a matter of their order and of the values. -/
theorem fits_iff {steps : List (Step K V)} {st : Store K V} :
    Fits steps st ↔ (names steps).Nodup ∧ Orderly (steps.map Step.pair) (fun k => st k ≠ none) ∧
      ∀ step ∈ steps, step.result st ≠ none := by
  constructor
  · intro h
    refine ⟨h.names, ⟨?_, ?_⟩, h.results⟩
    · rw [sources_pair]
      exact h.sources
    · intro before name source after hsplit henters hthere
      obtain ⟨before', rest, rfl, rfl, hrest⟩ := List.map_eq_append_iff.mp hsplit
      obtain ⟨step, after', rfl, hstep, -⟩ := List.map_eq_cons_iff.mp hrest
      obtain ⟨rfl, rfl⟩ := Prod.mk.inj hstep
      rw [sources_pair]
      exact (h.free before' step after' rfl henters).resolve_left hthere
  · intro ⟨hnames, horder, hresults⟩
    refine ⟨hnames, ?_, hresults, ?_⟩
    · rw [← sources_pair]
      exact horder.used
    · intro before step after hsplit henters
      by_cases hthere : st step.name = none
      · exact .inl hthere
      · refine .inr ?_
        rw [← sources_pair]
        refine horder.free _ step.name step.source (after.map Step.pair) ?_ henters hthere
        rw [hsplit, List.map_append, List.map_cons]
        rfl

/-! ## Section 4: References -/

/-- The name an entry has after the step. -/
def Step.follow (step : Step K V) (k : K) : K := if step.source = some k then step.name else k

def follow (steps : List (Step K V)) (k : K) : K := steps.foldl (fun k step => step.follow k) k

theorem follow_make (name : K) (v : V) (k : K) : (Step.make name v).follow k = k := if_neg nofun

theorem follow_reuse (source name : K) (edit : Option (V → Option V)) (k : K) :
    (Step.reuse source name edit).follow k = if source = k then name else k := by
  by_cases hk : source = k
  · rw [if_pos hk]
    exact if_pos (congrArg some hk)
  · rw [if_neg hk]
    exact if_neg fun heq => hk (Option.some.inj heq)

theorem follow_other {steps : List (Step K V)} {k : K} (h : k ∉ sources steps) : follow steps k = k := by
  induction steps with
  | nil => rfl
  | cons step rest ih =>
    obtain ⟨hsource, hrest⟩ := not_or.mp (mt mem_sources_cons.mpr h)
    show follow rest (step.follow k) = k
    rw [Step.follow, if_neg hsource, ih hrest]

/-- A reference to an entry that is used goes to its new name. -/
theorem Fits.follow {steps : List (Step K V)} {st : Store K V} (h : Fits steps st)
    {step : Step K V} (hmem : step ∈ steps) {k : K} (hk : step.source = some k) :
    Edits.follow steps k = step.name := by
  induction steps generalizing st with
  | nil => cases hmem
  | cons first rest ih =>
    obtain ⟨v, -, -, hlater, -, hrest⟩ := h.head
    show Edits.follow rest (first.follow k) = step.name
    rcases List.mem_cons.mp hmem with rfl | hmem
    · rw [Step.follow, if_pos hk, follow_other hlater]
    · have hne : first.source ≠ some k := fun heq =>
        (nodup_sources_cons.mp h.sources).1 k heq (source_mem hmem hk)
      rw [Step.follow, if_neg hne]
      exact ih hrest hmem

/-! ## Section 5: Removals -/

def removeAll : List K → Store K V → Option (Store K V)
  | [], st => some st
  | k :: rest, st => (remove st k).bind (removeAll rest)

theorem removeAll_get {ks : List K} {st st' : Store K V} (h : removeAll ks st = some st') (k : K) :
    st' k = if k ∈ ks then none else st k := by
  induction ks generalizing st with
  | nil =>
    cases h
    exact (if_neg List.not_mem_nil).symm
  | cons first rest ih =>
    obtain ⟨next, hremove, hrest⟩ := Option.bind_eq_some_iff.mp h
    obtain ⟨-, rfl⟩ := remove_eq_some.mp hremove
    rw [ih hrest]
    by_cases hk : k = first
    · subst hk
      simp
    · simp [hk]

theorem removeAll_of {ks : List K} {st : Store K V} (hks : ks.Nodup) (h : ∀ k ∈ ks, st k ≠ none) :
    ∃ st', removeAll ks st = some st' := by
  induction ks generalizing st with
  | nil => exact ⟨st, rfl⟩
  | cons first rest ih =>
    obtain ⟨hfirst, hrest⟩ := List.nodup_cons.mp hks
    have hthere : ∀ k ∈ rest, Function.update st first none k ≠ none := by
      intro k hk
      have hne : k ≠ first := by
        rintro rfl
        exact hfirst hk
      rw [Function.update_of_ne hne]
      exact h k (List.mem_cons_of_mem _ hk)
    obtain ⟨st', hst'⟩ := ih hrest hthere
    refine ⟨st', ?_⟩
    show (remove st first).bind (removeAll rest) = some st'
    rw [remove_eq_some.mpr ⟨h first (List.mem_cons_self ..), rfl⟩]
    exact hst'

end Edits
