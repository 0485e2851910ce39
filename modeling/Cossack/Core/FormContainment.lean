import Cossack.Core.Forms
import Cossack.Lib.Outcome

/-! # Where form data is stored

    The objects a form is assigned into are those of its own tree, unless a
    name leads through that tree to an object that was there before. -/

namespace Cossack.Core

open JsObjects

/-! ## Section 1: What a walk finds -/

/-- No object that was there before the first `base` were created. -/
def built (base : Nat) : JsValue → Bool
  | .ref r => base ≤ r
  | _ => true

def isFile (files : List Ref) : JsValue → Bool
  | .ref r => files.contains r
  | _ => false

/-- Values are stored into objects of the tree only, and nothing but these,
    texts and uploaded files is a container. -/
def Access.Within (base : Nat) (files : List Ref) : Access → Prop
  | .store v => built base v = true
  | .container v => built base v = true ∨ isFile files v = true

/-- The walk stays in its tree, and the objects of `before` are as they were. -/
structure Contained (before : Heap) (files : List Ref) (walk : Walk) : Prop where
  accesses : ∀ access ∈ walk.accesses, access.Within before.length files
  unchanged : ∀ r < before.length, walk.heap[r]? = before[r]?

variable (realm : Realm)

/-- What is under a segment of `v`; `none` where nothing is, or a new element is
    pushed. -/
def found (heap : Heap) (v : JsValue) : PathSegment → List PathSegment → Except String (Option JsValue)
  | .name seg, _ =>
      let child := get realm heap v seg
      .ok (if isNullish child then none else some child)
  | .next, [] => .ok none
  | .next, nextSeg :: _ =>
      match lastElement realm heap v with
      | .error message => .error message
      | .ok last =>
          (canMerge realm heap last nextSeg).map fun merges => if merges then some last else none

/-- The path leads through `heap` to an object that was there before and that
    it goes on in, or that is stored into where the path ends. -/
def strays (heap : Heap) (base : Nat) (files : List Ref) : JsValue → List PathSegment → Bool
  | _, [] => false
  | v, seg :: rest =>
      match found realm heap v seg rest with
      | .error _ => false
      | .ok none => !built base v
      | .ok (some child) =>
          if rest = [] then !built base (if isArray heap child then child else v)
          else !(built base child || isFile files child) || strays heap base files child rest

/-- No path strays in what the assignments before it have built. -/
def KeepsInside (base : Nat) (files : List Ref) (root : JsValue) :
    Heap → List (List PathSegment × FormValue) → Prop
  | _, [] => True
  | heap, (segments, value) :: rest =>
      strays realm heap base files root segments = false ∧
        let walk := assignPath realm heap root value.value segments
        (walk.error = none → KeepsInside base files root walk.heap rest)

instance decidableKeepsInside (base : Nat) (files : List Ref) (root : JsValue) :
    (heap : Heap) → (entries : List (List PathSegment × FormValue)) →
      Decidable (KeepsInside realm base files root heap entries)
  | _, [] => .isTrue trivial
  | heap, (segments, value) :: rest =>
      have := decidableKeepsInside base files root
        (assignPath realm heap root value.value segments).heap rest
      inferInstanceAs (Decidable (_ ∧ (_ → _)))

variable {realm}

/-! ## Section 2: Soundness of the walk -/

section Walk

variable {heap : Heap} {base : Nat} {files : List Ref}

theorem createChild_live {size : Nat} (hrealm : realm.Live size) (seg : PathSegment) :
    (createChild realm seg).Live size := by
  unfold createChild
  split
  · refine ⟨?_, fun _ _ hget => (nomatch hget)⟩
    rintro p ⟨⟩
    exact hrealm.arrays
  · exact ⟨fun _ heq => (nomatch heq), fun _ _ hget => (nomatch hget)⟩

theorem arrayOf_live {size : Nat} (hrealm : realm.Live size) {items : List JsValue}
    (hitems : ∀ item ∈ items, Live size item) : (arrayOf realm items).Live size where
  prototype := by
    rintro p ⟨⟩
    exact hrealm.arrays
  properties := by
    intro key property hget
    obtain ⟨entry, hfind, rfl⟩ := Option.map_eq_some_iff.mp hget
    obtain ⟨i, hlt, rfl⟩ := List.mem_mapIdx.mp (List.mem_of_find?_eq_some hfind)
    exact hitems _ (List.getElem_mem hlt)

theorem lastElement_live (hheap : Sound heap) (hrealm : realm.Live heap.length) {v last : JsValue}
    (h : lastElement realm heap v = .ok last) : Live heap.length last := by
  obtain ⟨key, -, rfl⟩ := Outcome.map_eq_ok.mp h
  exact get_live hheap hrealm v key

/-- What holds of the heap after a walk. -/
structure WalkSpec (heap : Heap) (base : Nat) (files : List Ref) (walk : Walk) : Prop where
  sound : Sound walk.heap
  grows : heap.length ≤ walk.heap.length
  unchanged : (∀ access ∈ walk.accesses, access.Within base files) →
    ∀ r < base, walk.heap[r]? = heap[r]?

theorem built_ne {v : JsValue} (h : built base v = true) {r : Ref} (hlt : r < base) : v ≠ .ref r := by
  rintro rfl
  exact Nat.not_le_of_lt hlt (of_decide_eq_true h)

theorem stop_spec (hheap : Sound heap) (error : Option String) :
    WalkSpec heap base files ⟨heap, [], error⟩ := ⟨hheap, Nat.le_refl _, fun _ _ _ => rfl⟩

theorem stores_spec {target : JsValue} {effect : Effect} {heap' : Heap}
    (h : effect.OnlyOn heap' target) (hgrows : heap.length ≤ heap'.length)
    (hsame : ∀ r < base, heap'[r]? = heap[r]?) :
    WalkSpec heap base files (stores target effect) where
  sound := h.sound
  grows := by
    show heap.length ≤ effect.heap.length
    rw [h.length]
    exact hgrows
  unchanged := by
    intro hwithin r hlt
    have htarget : built base target = true := hwithin _ (List.mem_singleton.mpr rfl)
    exact (h.frame r (built_ne htarget hlt)).trans (hsame r hlt)

theorem WalkSpec.after {heap' : Heap} {walk : Walk} (h : WalkSpec heap' base files walk)
    (hgrows : heap.length ≤ heap'.length) {accesses : List Access}
    (hsame : (∀ access ∈ accesses, access.Within base files) → ∀ r < base, heap'[r]? = heap[r]?) :
    WalkSpec heap base files (walk.after accesses) where
  sound := h.sound
  grows := Nat.le_trans hgrows h.grows
  unchanged := by
    intro hwithin r hlt
    have hbefore := hsame (fun access hmem => hwithin access (List.mem_append_left _ hmem)) r hlt
    have hafter := h.unchanged (fun access hmem => hwithin access (List.mem_append_right _ hmem)) r hlt
    exact hafter.trans hbefore

/-- A heap with one more object, and an effect on `v` that holds it. -/
structure Creation (heap : Heap) (child : JsObject) (v : JsValue) (effect : Effect) : Prop where
  live : Live heap.length v
  effect : effect.OnlyOn (heap ++ [child]) v

theorem Creation.length {child : JsObject} {v : JsValue} {effect : Effect}
    (h : Creation heap child v effect) : effect.heap.length = heap.length + 1 := by
  rw [h.effect.length, List.length_append, List.length_singleton]

theorem Creation.created {child : JsObject} {v : JsValue} {effect : Effect}
    (h : Creation heap child v effect) : effect.heap[heap.length]? = some child := by
  rw [h.effect.frame _ fun heq => Nat.lt_irrefl _ (h.live _ heq), List.getElem?_concat_length]

theorem Creation.same {child : JsObject} {v : JsValue} {effect : Effect}
    (h : Creation heap child v effect) (hbase : base ≤ heap.length) (hbuilt : built base v = true) :
    ∀ r < base, effect.heap[r]? = heap[r]? := by
  intro r hlt
  rw [h.effect.frame r (built_ne hbuilt hlt), List.getElem?_append_left (Nat.lt_of_lt_of_le hlt hbase)]

theorem push_creation (hheap : Sound heap) {child : JsObject} (hchild : child.Live (heap.length + 1))
    {v : JsValue} (hv : Live heap.length v) :
    Creation heap child v (push realm (heap ++ [child]) v (.ref heap.length)) :=
  ⟨hv, push_onlyOn (sound_append hheap hchild) v
    (live_ref (by rw [List.length_append, List.length_singleton]; exact Nat.lt_succ_self _))⟩

theorem assign_creation (hheap : Sound heap) {child : JsObject} (hchild : child.Live (heap.length + 1))
    {v : JsValue} (hv : Live heap.length v) (key : String) :
    Creation heap child v (assign realm (heap ++ [child]) v key (.ref heap.length)) :=
  ⟨hv, assign_onlyOn (sound_append hheap hchild) v key
    (live_ref (by rw [List.length_append, List.length_singleton]; exact Nat.lt_succ_self _))⟩

/-- Where the walk ends with a new object. -/
theorem Creation.stops {child : JsObject} {v : JsValue} {effect : Effect}
    (h : Creation heap child v effect) (hbase : base ≤ heap.length) :
    WalkSpec heap base files (stores v effect) := by
  apply stores_spec h.effect
  · rw [List.length_append]
    exact Nat.le_add_right _ _
  · exact fun r hlt => List.getElem?_append_left (Nat.lt_of_lt_of_le hlt hbase)

/-- Where the walk goes on in the new object. -/
theorem Creation.goesOn {child : JsObject} {v slot : JsValue} {effect : Effect} {walk : Walk}
    (h : Creation heap child v effect) (hbase : base ≤ heap.length)
    (hwalk : WalkSpec effect.heap base files walk) :
    WalkSpec heap base files (walk.after [.store v, .container slot]) := by
  apply hwalk.after
  · rw [h.length]
    exact Nat.le_succ _
  · exact fun hwithin => h.same hbase (hwithin (.store v) List.mem_cons_self)

theorem assignPath_spec (hheap : Sound heap) (hrealm : realm.Live heap.length)
    (hbase : base ≤ heap.length) {v value : JsValue} (hv : Live heap.length v)
    (hvalue : Live heap.length value) (segments : List PathSegment) :
    WalkSpec heap base files (assignPath realm heap v value segments) := by
  have hchild : ∀ {heap : Heap} (seg : PathSegment), realm.Live heap.length →
      (createChild realm seg).Live (heap.length + 1) :=
    fun seg hrealm => createChild_live (hrealm.mono (Nat.le_succ _)) seg
  -- the rest of the walk starts in the object that was created last
  have hnext : ∀ {heap : Heap} {v : JsValue} {child : JsObject} {effect : Effect},
      Creation heap child v effect → heap.length < effect.heap.length ∧
        heap.length ≤ effect.heap.length := by
    intro heap v child effect h
    rw [h.length]
    exact ⟨Nat.lt_succ_self _, Nat.le_succ _⟩
  fun_induction assignPath realm heap v value segments with
  | case1 heap v => exact stop_spec hheap none
  | case2 heap v => exact stores_spec (push_onlyOn hheap v hvalue) (Nat.le_refl _) fun _ _ => rfl
  | case3 heap v nextSeg rest message => exact stop_spec hheap _
  | case4 heap v nextSeg rest last hlast message => exact stop_spec hheap _
  | case5 heap v nextSeg rest last hlast hmerge ih =>
    exact (ih hheap hrealm hbase (lastElement_live hheap hrealm hlast) hvalue).after
      (Nat.le_refl _) fun _ _ _ => rfl
  | case6 heap v nextSeg rest last hlast hmerge slot pushed message herror =>
    exact (push_creation hheap (hchild nextSeg hrealm) hv).stops hbase
  | case7 heap v nextSeg rest last hlast hmerge slot pushed herror ih =>
    have hcreation : Creation heap (createChild realm nextSeg) v pushed :=
      push_creation hheap (hchild nextSeg hrealm) hv
    obtain ⟨hslot, hgrows⟩ := hnext hcreation
    exact hcreation.goesOn hbase (ih hcreation.effect.sound (hrealm.mono hgrows)
      (Nat.le_trans hbase hgrows) (live_ref hslot) (hvalue.mono hgrows))
  | case8 heap v seg existing hnullish =>
    exact stores_spec (assign_onlyOn hheap v seg hvalue) (Nat.le_refl _) fun _ _ => rfl
  | case9 heap v seg existing hnullish harray =>
    exact stores_spec (push_onlyOn hheap existing hvalue) (Nat.le_refl _) fun _ _ => rfl
  | case10 heap v seg existing hnullish harray =>
    have hpair : (arrayOf realm [existing, value]).Live (heap.length + 1) := by
      apply arrayOf_live (hrealm.mono (Nat.le_succ _))
      intro item hmem
      rcases List.mem_pair.mp hmem with rfl | rfl
      · exact (get_live hheap hrealm v seg).mono (Nat.le_succ _)
      · exact hvalue.mono (Nat.le_succ _)
    exact (assign_creation hheap hpair hv seg).stops hbase
  | case11 heap v seg nextSeg rest child hnullish created assigned message herror =>
    exact (assign_creation hheap (hchild nextSeg hrealm) hv seg).stops hbase
  | case12 heap v seg nextSeg rest child hnullish created assigned herror ih =>
    have hcreation : Creation heap (createChild realm nextSeg) v assigned :=
      assign_creation hheap (hchild nextSeg hrealm) hv seg
    obtain ⟨hslot, hgrows⟩ := hnext hcreation
    exact hcreation.goesOn hbase (ih hcreation.effect.sound (hrealm.mono hgrows)
      (Nat.le_trans hbase hgrows) (live_ref hslot) (hvalue.mono hgrows))
  | case13 heap v seg nextSeg rest child hnullish ih =>
    exact (ih hheap hrealm hbase (get_live hheap hrealm v seg) hvalue).after
      (Nat.le_refl _) fun _ _ _ => rfl

/-! ## Section 3: Walks through new objects -/

/-- The container that was created for `seg`. -/
structure Fresh (realm : Realm) (heap : Heap) (base : Nat) (slot : Ref) (seg : PathSegment) :
    Prop where
  sound : Sound heap
  realmLive : realm.Live heap.length
  above : base ≤ slot
  created : heap[slot]? = some (createChild realm seg)
  lacks : Lacks heap base realm.arrayPrototype "-1"

theorem Creation.fresh {v : JsValue} {effect : Effect} {seg : PathSegment}
    (h : Creation heap (createChild realm seg) v effect) (hrealm : realm.Live heap.length)
    (hbase : base ≤ heap.length) (hlacks : Lacks heap base realm.arrayPrototype "-1")
    (hbuilt : built base v = true) : Fresh realm effect.heap base heap.length seg where
  sound := h.effect.sound
  realmLive := by
    rw [h.length]
    exact hrealm.mono (Nat.le_succ _)
  above := hbase
  created := h.created
  lacks := hlacks.unchanged (h.same hbase hbuilt)

theorem Fresh.live {slot : Ref} {seg : PathSegment} (h : Fresh realm heap base slot seg) :
    Live heap.length (.ref slot) := live_ref (List.getElem?_eq_some_iff.mp h.created).1

theorem Fresh.built {slot : Ref} {seg : PathSegment} (h : Fresh realm heap base slot seg) :
    Cossack.Core.built base (.ref slot) = true := decide_eq_true h.above

theorem Fresh.base_le {slot : Ref} {seg : PathSegment} (h : Fresh realm heap base slot seg) :
    base ≤ heap.length :=
  Nat.le_trans h.above (Nat.le_of_lt (List.getElem?_eq_some_iff.mp h.created).1)

/-- A new object has no properties, not even inherited ones. -/
theorem Fresh.get_name {slot : Ref} {name : String} (h : Fresh realm heap base slot (.name name))
    (key : String) : get realm heap (.ref slot) key = .undefined := by
  have hlt : slot < heap.length := (List.getElem?_eq_some_iff.mp h.created).1
  have hfind : findProperty heap heap.length (some slot) key = none := by
    obtain ⟨fuel, hfuel⟩ := Nat.exists_eq_add_one.mpr (Nat.zero_lt_of_lt hlt)
    rw [hfuel]
    unfold findProperty
    rw [h.created]
    cases fuel <;> rfl
  unfold JsObjects.get lookup
  simp only [hfind]

/-- A new array has no last element. -/
theorem Fresh.lastElement_next {slot : Ref} (h : Fresh realm heap base slot .next) :
    lastElement realm heap (.ref slot) = .ok .undefined := by
  have hlt : slot < heap.length := (List.getElem?_eq_some_iff.mp h.created).1
  obtain ⟨fuel, hfuel⟩ := Nat.exists_eq_add_one.mpr (Nat.zero_lt_of_lt hlt)
  have hlength : get realm heap (.ref slot) "length" = .number 0 := by
    have hfind : findProperty heap heap.length (some slot) "length" =
        some (.data (.number 0) true) := by
      rw [hfuel]
      unfold findProperty
      rw [h.created]
      rfl
    unfold JsObjects.get lookup
    simp only [hfind]
  have hbefore : get realm heap (.ref slot) "-1" = .undefined := by
    have hfind : findProperty heap heap.length (some slot) "-1" = none := by
      rw [hfuel]
      unfold findProperty
      rw [h.created]
      exact h.lacks.findProperty fuel
    unfold JsObjects.get lookup
    simp only [hfind]
  unfold lastElement lastKey
  rw [hlength]
  show Except.ok (get realm heap (.ref slot) "-1") = _
  rw [hbefore]

/-- Nothing is merged into what is not there. -/
theorem canMerge_undefined (nextSeg : PathSegment) :
    canMerge realm heap .undefined nextSeg = .ok false := by
  cases nextSeg with
  | next => rfl
  | name nextKey => simp [canMerge]

/-- What an assignment of a new container did up to where it throws, or goes on. -/
theorem created_within {v value : JsValue} {effect : Effect} {seg : PathSegment}
    {rest : List PathSegment} (hbase : base ≤ heap.length)
    (hrest : built base v = true → ∀ access ∈
      (assignPath realm effect.heap (.ref heap.length) value (seg :: rest)).accesses,
        access.Within base files) :
    (∀ access ∈ (match effect.error with
      | some _ => stores v effect
      | none => (assignPath realm effect.heap (.ref heap.length) value (seg :: rest)).after
          [.store v, .container (.ref heap.length)]).accesses, access.Within base files) ↔
      built base v = true := by
  constructor
  · intro hwithin
    apply hwithin (.store v)
    split
    · exact List.mem_singleton.mpr rfl
    · exact List.mem_cons_self
  · intro hbuilt access hmem
    split at hmem
    · cases List.mem_singleton.mp hmem
      exact hbuilt
    · rcases List.mem_cons.mp hmem with rfl | hmem
      · exact hbuilt
      · rcases List.mem_cons.mp hmem with rfl | hmem
        · exact .inl (decide_eq_true hbase)
        · exact hrest hbuilt access hmem

/-- A walk through new objects stays in them. -/
theorem Fresh.within {slot : Ref} {seg : PathSegment} {rest : List PathSegment}
    (h : Fresh realm heap base slot seg) (value : JsValue) :
    ∀ access ∈ (assignPath realm heap (.ref slot) value (seg :: rest)).accesses,
      access.Within base files := by
  have hchild : ∀ {heap : Heap} (seg : PathSegment), realm.Live heap.length →
      (createChild realm seg).Live (heap.length + 1) :=
    fun seg hrealm => createChild_live (hrealm.mono (Nat.le_succ _)) seg
  induction rest generalizing heap slot seg with
  | nil =>
    intro access hmem
    cases seg with
    | next =>
      cases List.mem_singleton.mp hmem
      exact h.built
    | name name =>
      rw [assignPath] at hmem
      simp only [h.get_name name] at hmem
      cases List.mem_singleton.mp hmem
      exact h.built
  | cons nextSeg rest ih =>
    cases seg with
    | next =>
      rw [assignPath]
      simp only [h.lastElement_next, canMerge_undefined]
      exact (created_within h.base_le fun hbuilt => ih (Creation.fresh
        (push_creation h.sound (hchild nextSeg h.realmLive) h.live) h.realmLive h.base_le h.lacks
        hbuilt)).mpr h.built
    | name name =>
      rw [assignPath]
      simp only [h.get_name name]
      exact (created_within h.base_le fun hbuilt => ih (Creation.fresh
        (assign_creation h.sound (hchild nextSeg h.realmLive) h.live name) h.realmLive h.base_le h.lacks
        hbuilt)).mpr h.built

/-! ## Section 4: Walks that stray -/

theorem stores_within (target : JsValue) (effect : Effect) :
    (∀ access ∈ (stores target effect).accesses, access.Within base files) ↔
      built base target = true := by
  constructor
  · exact fun hwithin => hwithin (.store target) (List.mem_singleton.mpr rfl)
  · intro hbuilt access hmem
    cases List.mem_singleton.mp hmem
    exact hbuilt

theorem after_container_within (v : JsValue) (walk : Walk) :
    (∀ access ∈ (walk.after [.container v]).accesses, access.Within base files) ↔
      (built base v || isFile files v) = true ∧
        ∀ access ∈ walk.accesses, access.Within base files := by
  constructor
  · intro hwithin
    refine ⟨Bool.or_eq_true_iff.mpr (hwithin (.container v) List.mem_cons_self), ?_⟩
    exact fun access hmem => hwithin access (List.mem_cons_of_mem _ hmem)
  · rintro ⟨hbuilt, hwithin⟩ access hmem
    rcases List.mem_cons.mp hmem with rfl | hmem
    · exact Bool.or_eq_true_iff.mp hbuilt
    · exact hwithin access hmem

theorem strays_stop {v : JsValue} {seg : PathSegment} {rest : List PathSegment} {message : String}
    (h : found realm heap v seg rest = .error message) :
    strays realm heap base files v (seg :: rest) = false := by
  unfold strays
  rw [h]

theorem strays_none {v : JsValue} {seg : PathSegment} {rest : List PathSegment}
    (h : found realm heap v seg rest = .ok none) :
    strays realm heap base files v (seg :: rest) = false ↔ built base v = true := by
  unfold strays
  rw [h]
  simp

theorem strays_last {v child : JsValue} {seg : PathSegment}
    (h : found realm heap v seg [] = .ok (some child)) :
    strays realm heap base files v [seg] = false ↔
      built base (if isArray heap child then child else v) = true := by
  unfold strays
  rw [h]
  simp

theorem strays_some {v child : JsValue} {seg nextSeg : PathSegment} {rest : List PathSegment}
    (h : found realm heap v seg (nextSeg :: rest) = .ok (some child)) :
    strays realm heap base files v (seg :: nextSeg :: rest) = false ↔
      (built base child || isFile files child) = true ∧
        strays realm heap base files child (nextSeg :: rest) = false := by
  rw [strays, h]
  simp only [reduceCtorEq, if_false, Bool.or_eq_false_iff, Bool.not_eq_false']

theorem found_name (v : JsValue) (name : String) (rest : List PathSegment) :
    found realm heap v (.name name) rest =
      .ok (if isNullish (get realm heap v name) then none else some (get realm heap v name)) := by
  cases rest <;> rfl

/-- A walk stays in its tree exactly when its path does not stray in what is
    there before. -/
theorem assignPath_within_iff (hheap : Sound heap) (hrealm : realm.Live heap.length)
    (hbase : base ≤ heap.length) (hlacks : Lacks heap base realm.arrayPrototype "-1")
    {v : JsValue} (hv : Live heap.length v) (value : JsValue) (segments : List PathSegment) :
    (∀ access ∈ (assignPath realm heap v value segments).accesses, access.Within base files) ↔
      strays realm heap base files v segments = false := by
  have hchild := fun seg => createChild_live (hrealm.mono (Nat.le_succ _)) seg
  -- after a new object was created, nothing strays any more
  have hfresh : ∀ {v : JsValue} {seg : PathSegment} {rest : List PathSegment} {effect : Effect},
      Creation heap (createChild realm seg) v effect → built base v = true → ∀ access ∈
        (assignPath realm effect.heap (.ref heap.length) value (seg :: rest)).accesses,
          access.Within base files :=
    fun hcreation hbuilt => (hcreation.fresh hrealm hbase hlacks hbuilt).within value
  induction segments generalizing v with
  | nil => exact iff_of_true (fun access hmem => (nomatch hmem)) rfl
  | cons seg rest ih =>
    cases seg with
    | name name =>
      have hfound : found realm heap v (.name name) rest = .ok (if isNullish (get realm heap v name)
          then none else some (get realm heap v name)) := found_name v name rest
      by_cases hnullish : isNullish (get realm heap v name) = true
      · rw [if_pos hnullish] at hfound
        rw [strays_none hfound]
        cases rest with
        | nil =>
          rw [assignPath, if_pos hnullish]
          exact stores_within _ _
        | cons nextSeg rest =>
          rw [assignPath, if_pos hnullish]
          exact created_within hbase (hfresh (assign_creation hheap (hchild nextSeg) hv name))
      · rw [if_neg hnullish] at hfound
        cases rest with
        | nil =>
          rw [strays_last hfound, assignPath, if_neg hnullish]
          by_cases harray : isArray heap (get realm heap v name) = true
          · rw [if_pos harray, if_pos harray]
            exact stores_within _ _
          · rw [if_neg harray, if_neg harray]
            exact stores_within _ _
        | cons nextSeg rest =>
          rw [strays_some hfound, assignPath, if_neg hnullish, after_container_within]
          exact Iff.and Iff.rfl (ih (get_live hheap hrealm v name))
    | next =>
      cases rest with
      | nil =>
        rw [strays_none rfl, assignPath]
        exact stores_within _ _
      | cons nextSeg rest =>
        rw [assignPath]
        cases hlast : lastElement realm heap v with
        | error message =>
          have hfound : found realm heap v .next (nextSeg :: rest) = .error message := by
            rw [found, hlast]
          exact iff_of_true (fun access hmem => (nomatch hmem)) (strays_stop hfound)
        | ok last =>
          have hfound : found realm heap v .next (nextSeg :: rest) =
              (canMerge realm heap last nextSeg).map fun merges =>
                if merges then some last else none := by
            rw [found, hlast]
          cases hmerge : canMerge realm heap last nextSeg with
          | error message =>
            rw [hmerge] at hfound
            simp only [hmerge]
            exact iff_of_true (fun access hmem => (nomatch hmem)) (strays_stop hfound)
          | ok merges =>
            rw [hmerge] at hfound
            cases merges with
            | true =>
              simp only [hmerge]
              rw [strays_some hfound, after_container_within]
              exact Iff.and Iff.rfl (ih (lastElement_live hheap hrealm hlast))
            | false =>
              simp only [hmerge]
              rw [strays_none hfound]
              exact created_within hbase (hfresh (push_creation hheap (hchild nextSeg) hv))

/-! ## Section 5: All pairs -/

/-- The files of a form. -/
def uploaded (pairs : List (String × List FormValue)) : List Ref :=
  pairs.flatMap fun pair => pair.2.filterMap fun value =>
    match value with
    | .file r => some r
    | .text _ => none

theorem assignments_live {pairs : List (String × List FormValue)} {size : Nat}
    (hfiles : ∀ r ∈ uploaded pairs, r < size) :
    ∀ entry ∈ assignments pairs, Live size entry.2.value := by
  intro entry hmem
  obtain ⟨pair, hpair, hentry⟩ := List.mem_flatMap.mp hmem
  split at hentry
  · exact nomatch hentry
  · obtain ⟨value, hvalue, rfl⟩ := List.mem_map.mp hentry
    cases value with
    | text s => exact live_primitive fun r heq => (nomatch heq)
    | file r =>
      apply live_ref
      exact hfiles r (List.mem_flatMap.mpr ⟨pair, hpair, List.mem_filterMap.mpr ⟨_, hvalue, rfl⟩⟩)

theorem assignAll_throws {root : JsValue} {entry : List PathSegment × FormValue}
    {rest : List (List PathSegment × FormValue)} {message : String}
    (h : (assignPath realm heap root entry.2.value entry.1).error = some message) :
    assignAll realm root heap (entry :: rest) = assignPath realm heap root entry.2.value entry.1 := by
  simp only [assignAll, h]

theorem assignAll_goesOn {root : JsValue} {entry : List PathSegment × FormValue}
    {rest : List (List PathSegment × FormValue)}
    (h : (assignPath realm heap root entry.2.value entry.1).error = none) :
    assignAll realm root heap (entry :: rest) =
      (assignAll realm root (assignPath realm heap root entry.2.value entry.1).heap rest).after
        (assignPath realm heap root entry.2.value entry.1).accesses := by
  simp only [assignAll, h]

theorem assignAll_spec (hheap : Sound heap) (hrealm : realm.Live heap.length)
    (hbase : base ≤ heap.length) {root : JsValue} (hroot : Live heap.length root)
    {entries : List (List PathSegment × FormValue)}
    (hvalues : ∀ entry ∈ entries, Live heap.length entry.2.value) :
    WalkSpec heap base files (assignAll realm root heap entries) := by
  induction entries generalizing heap with
  | nil => exact stop_spec hheap none
  | cons entry rest ih =>
    have hwalk : WalkSpec heap base files (assignPath realm heap root entry.2.value entry.1) :=
      assignPath_spec hheap hrealm hbase hroot (hvalues entry List.mem_cons_self) entry.1
    cases herror : (assignPath realm heap root entry.2.value entry.1).error with
    | some message =>
      rw [assignAll_throws herror]
      exact hwalk
    | none =>
      rw [assignAll_goesOn herror]
      refine WalkSpec.after (ih hwalk.sound (hrealm.mono hwalk.grows)
        (Nat.le_trans hbase hwalk.grows) (hroot.mono hwalk.grows) ?_) hwalk.grows hwalk.unchanged
      exact fun other hmem => (hvalues other (List.mem_cons_of_mem _ hmem)).mono hwalk.grows

theorem assignAll_within_iff (hheap : Sound heap) (hrealm : realm.Live heap.length)
    (hbase : base ≤ heap.length) (hlacks : Lacks heap base realm.arrayPrototype "-1")
    {root : JsValue} (hroot : Live heap.length root)
    {entries : List (List PathSegment × FormValue)}
    (hvalues : ∀ entry ∈ entries, Live heap.length entry.2.value) :
    (∀ access ∈ (assignAll realm root heap entries).accesses, access.Within base files) ↔
      KeepsInside realm base files root heap entries := by
  induction entries generalizing heap with
  | nil => exact iff_of_true (fun access hmem => (nomatch hmem)) trivial
  | cons entry rest ih =>
    have hwalk : WalkSpec heap base files (assignPath realm heap root entry.2.value entry.1) :=
      assignPath_spec hheap hrealm hbase hroot (hvalues entry List.mem_cons_self) entry.1
    unfold KeepsInside
    rw [← assignPath_within_iff hheap hrealm hbase hlacks hroot entry.2.value entry.1]
    cases herror : (assignPath realm heap root entry.2.value entry.1).error with
    | some message =>
      rw [assignAll_throws herror]
      exact ⟨fun hwithin => ⟨hwithin, fun hnone => (nomatch herror.symm.trans hnone)⟩,
        fun hboth => hboth.1⟩
    | none =>
      rw [assignAll_goesOn herror]
      -- what the first assignment leaves is again a heap to start from
      have hrest : (∀ access ∈ (assignPath realm heap root entry.2.value entry.1).accesses,
          access.Within base files) → _ := fun hwithin =>
        ih hwalk.sound (hrealm.mono hwalk.grows) (Nat.le_trans hbase hwalk.grows)
          (hlacks.unchanged (hwalk.unchanged hwithin)) (hroot.mono hwalk.grows)
          (fun other hmem => (hvalues other (List.mem_cons_of_mem _ hmem)).mono hwalk.grows)
      constructor
      · intro hwithin
        have hbefore := fun access hmem => hwithin access (List.mem_append_left _ hmem)
        exact ⟨hbefore, fun _ => (hrest hbefore).mp
          fun access hmem => hwithin access (List.mem_append_right _ hmem)⟩
      · rintro ⟨hbefore, hafter⟩ access hmem
        rcases List.mem_append.mp hmem with hmem | hmem
        · exact hbefore access hmem
        · exact (hrest hbefore).mpr (hafter herror) access hmem

end Walk

/-- A form is stored in its own tree, and leaves all that was there before as it
    is, exactly when no name leads, through what the names before it have built,
    to an object that was there before. -/
theorem parseFormData_contained_iff {realm : Realm} {before : Heap} (hsound : Sound before)
    (hrealm : realm.Live before.length)
    (hlacks : Lacks before before.length realm.arrayPrototype "-1")
    {pairs : List (String × List FormValue)} (hfiles : ∀ r ∈ uploaded pairs, r < before.length) :
    Contained before (uploaded pairs) (parseFormData realm before pairs) ↔
      KeepsInside realm before.length (uploaded pairs) (.ref before.length)
        (before ++ [bareObject]) (assignments pairs) := by
  have hlength : (before ++ [bareObject]).length = before.length + 1 := by simp
  have hle : before.length ≤ (before ++ [bareObject]).length := by rw [hlength]; exact Nat.le_succ _
  have hbare : bareObject.Live (before.length + 1) :=
    ⟨fun _ heq => (nomatch heq), fun _ _ hget => (nomatch hget)⟩
  have hsame : ∀ r < before.length, (before ++ [bareObject])[r]? = before[r]? :=
    fun _ hlt => List.getElem?_append_left hlt
  have hroot : Live (before ++ [bareObject]).length (.ref before.length) :=
    live_ref (by rw [hlength]; exact Nat.lt_succ_self _)
  have hvalues := fun entry hmem => (assignments_live hfiles entry hmem).mono hle
  have hspec : WalkSpec (before ++ [bareObject]) before.length (uploaded pairs) _ :=
    assignAll_spec (sound_append hsound hbare) (hrealm.mono hle) hle hroot hvalues
  rw [← assignAll_within_iff (sound_append hsound hbare) (hrealm.mono hle) hle
    (hlacks.unchanged hsame) hroot hvalues]
  constructor
  · exact fun h => h.accesses
  · exact fun hwithin => ⟨hwithin, fun r hlt => (hspec.unchanged hwithin r hlt).trans (hsame r hlt)⟩

/-- `Object.prototype`, `Array.prototype` with its `push`, and the prototypes of
    strings and numbers. -/
def platform : Heap :=
  [{ prototype := none, properties := [("__proto__", .prototypeAccessor)], length := none,
      callable := false },
    { prototype := some 0, properties := [("push", .data (.ref 2) true)], length := some 0,
      callable := false },
    { prototype := some 0, properties := [], length := none, callable := true },
    { prototype := some 0, properties := [], length := none, callable := false },
    { prototype := some 0, properties := [], length := none, callable := false }]

def platformRealm : Realm where
  arrayPrototype := 1
  stringPrototype := 3
  numberPrototype := 4
  arrayPush := 2
  indexBefore := fun _ _ => .ok "NaN"

theorem platform_sound : Sound platform := by
  intro r o hget
  have hmem := List.mem_of_getElem? hget
  have hlive : ∀ o ∈ platform, (∀ p ∈ o.prototype, p < 5) ∧
      ∀ entry ∈ o.properties, entry.2.Live 5 := by
    simp [platform, Property.Live, Live]
  refine ⟨fun p heq => (hlive o hmem).1 p heq, fun key property hfound => ?_⟩
  obtain ⟨entry, hfind, rfl⟩ := Option.map_eq_some_iff.mp hfound
  exact (hlive o hmem).2 entry (List.mem_of_find?_eq_some hfind)

theorem platform_lacks : Lacks platform platform.length platformRealm.arrayPrototype "-1" := by
  refine ⟨fun r => r = 1 ∨ r = 0, .inl rfl, ?_⟩
  rintro r (rfl | rfl)
  · refine ⟨by decide, ?_⟩
    rintro o ⟨⟩
    refine ⟨by decide, ?_⟩
    rintro p ⟨⟩
    exact .inr rfl
  · refine ⟨by decide, ?_⟩
    rintro o ⟨⟩
    exact ⟨rfl, fun p heq => (nomatch heq)⟩

/-- A list of contacts, tags, and a property that is called `__proto__`. -/
theorem contacts_contained :
    let pairs := [("contacts[][email]", [FormValue.text "a@b"]), ("contacts[][name]", [.text "A"]),
      ("tags[]", [.text "x"]), ("tags[]", [.text "y"]), ("address[__proto__]", [.text "z"])]
    Contained platform (uploaded pairs) (parseFormData platformRealm platform pairs) := by
  intro pairs
  have hrealm : platformRealm.Live platform.length := ⟨by decide, by decide, by decide⟩
  have hfiles : ∀ r ∈ uploaded pairs, r < platform.length := by decide
  apply (parseFormData_contained_iff platform_sound hrealm platform_lacks hfiles).mpr
  decide

/-- A name that goes on under `__proto__` of an array writes to
    `Array.prototype`. -/
theorem array_prototype_polluted :
    let pairs := [("a[]", [FormValue.text "1"]), ("a[__proto__][polluted]", [.text "1"])]
    get platformRealm platform (.ref 1) "polluted" = .undefined ∧
      get platformRealm (parseFormData platformRealm platform pairs).heap (.ref 1) "polluted" =
        .text [49] ∧
      ¬ Contained platform (uploaded pairs) (parseFormData platformRealm platform pairs) := by
  refine ⟨by decide, by decide, fun h => ?_⟩
  have hstore : Access.store (.ref 1) ∈ (parseFormData platformRealm platform
      [("a[]", [FormValue.text "1"]), ("a[__proto__][polluted]", [.text "1"])]).accesses := by
    decide
  have hbuilt : built 5 (.ref 1) = true := h.accesses _ hstore
  exact nomatch hbuilt

end Cossack.Core
