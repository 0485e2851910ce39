import Cossack.Core.StoreLoops
import Cossack.Lib.Walks
import Mathlib

/-! # What a store reports and what changes in it

    `matchesTrackedPath` compares a dependency with the paths that the proxies of a
    store report.  A proxy keeps the path at which its object was first read, and an
    array changes its length without a write to it, so the comparison can miss a
    change. -/

namespace StoreProxy

variable {α : Type}

/-! ## Section 1: Dotted paths -/

/-- Whether `path` continues `start` with further segments. -/
def isSegmentPrefix (start path : List Char) : Bool :=
  decide (start.length < path.length) && path[start.length]? == some '.' && start.isPrefixOf path

/-- `matchesTrackedPath` for a dependency that is a string. -/
def matchesTrackedPath (dep : List Char) (changedPaths : List (List Char)) : Bool :=
  changedPaths.any fun changed =>
    changed == dep || isSegmentPrefix dep changed || isSegmentPrefix changed dep

/-- The path of a place in a store. -/
def dotted (base : List Char) (path : List Key) : List Char := path.foldl childPath base

@[simp] theorem dotted_nil (base : List Char) : dotted base [] = base := rfl

@[simp] theorem dotted_append (base : List Char) (path path' : List Key) :
    dotted base (path ++ path') = dotted (dotted base path) path' :=
  List.foldl_append

@[simp] theorem dotted_cons (base : List Char) (key : Key) (path : List Key) :
    dotted base (key :: path) = dotted (childPath base key) path := rfl

theorem isSegmentPrefix_iff {start path : List Char} :
    isSegmentPrefix start path = true ↔ ∃ rest, path = start ++ '.' :: rest := by
  constructor
  · intro h
    simp only [isSegmentPrefix, Bool.and_eq_true, decide_eq_true_eq, beq_iff_eq,
      List.isPrefixOf_iff_prefix] at h
    obtain ⟨⟨hlt, hdot⟩, rest, rfl⟩ := h
    rw [List.getElem?_append_right (Nat.le_refl _), Nat.sub_self] at hdot
    cases rest with
    | nil => exact nomatch hdot
    | cons c rest =>
      have hc : c = '.' := by simpa using hdot
      exact ⟨rest, by rw [hc]⟩
  · rintro ⟨rest, rfl⟩
    simp [isSegmentPrefix]

theorem prefix_dotted (base : List Char) (path : List Key) :
    path = [] ∨ ∃ rest, dotted base path = base ++ '.' :: rest := by
  induction path generalizing base with
  | nil => exact .inl rfl
  | cons key path ih =>
    rw [dotted_cons]
    rcases ih (childPath base key) with rfl | ⟨rest, h⟩
    · exact .inr ⟨key.text, rfl⟩
    · refine .inr ⟨key.text ++ '.' :: rest, ?_⟩
      rw [h]
      simp [childPath]

/-- A dependency on a place above or below a reported one is met. -/
theorem matches_of_comparable {base : List Char} {dep reported : List Key}
    {changedPaths : List (List Char)} (hmem : dotted base reported ∈ changedPaths)
    (h : dep <+: reported ∨ reported <+: dep) :
    matchesTrackedPath (dotted base dep) changedPaths = true := by
  refine List.any_eq_true.mpr ⟨_, hmem, ?_⟩
  simp only [Bool.or_eq_true, beq_iff_eq, isSegmentPrefix_iff]
  rcases h with ⟨rest, rfl⟩ | ⟨rest, rfl⟩
  · rcases prefix_dotted (dotted base dep) rest with rfl | hrest
    · exact .inl (.inl (by simp))
    · exact .inl (.inr (by simpa using hrest))
  · rcases prefix_dotted (dotted base reported) rest with rfl | hrest
    · exact .inl (.inl (by simp))
    · exact .inr (by simpa using hrest)

/-- Among the slots of one array a dependency on a slot is met by that slot only. -/
theorem mem_of_matches {base : List Char} {key : Key} {changedPaths : List (List Char)}
    (hkey : key.OfArray)
    (hpaths : ∀ path ∈ changedPaths, ∃ other : Key, other.OfArray ∧ path = childPath base other)
    (h : matchesTrackedPath (childPath base key) changedPaths = true) :
    childPath base key ∈ changedPaths := by
  obtain ⟨path, hmem, hmatch⟩ := List.any_eq_true.mp h
  obtain ⟨other, hother, rfl⟩ := hpaths path hmem
  simp only [Bool.or_eq_true, beq_iff_eq, isSegmentPrefix_iff] at hmatch
  rcases hmatch with (heq | ⟨rest, hrest⟩) | ⟨rest, hrest⟩
  · rwa [← heq]
  · have htext : other.text = key.text ++ '.' :: rest := by simpa [childPath] using hrest
    exact absurd (htext ▸ (by simp)) hother.dotless
  · have htext : key.text = other.text ++ '.' :: rest := by simpa [childPath] using hrest
    exact absurd (htext ▸ (by simp)) hkey.dotless

/-! ## Section 2: Places in a store -/

/-- `value[key]`. -/
def Store.member (runtime : Runtime α) (s : Store α) : Value α → Key → Value α
  | .object r, key => (s.heap r).get key
  | .scalar a, key => runtime.member a key
  | .undefined, _ | .number _, _ => .undefined

/-- The value at a place. -/
def Store.find (runtime : Runtime α) (s : Store α) (path : List Key) : Value α :=
  Walks.follow (s.member runtime) (.object s.root) path

/-- Something at a place or below it is another value than before. -/
def Changed (runtime : Runtime α) (s s' : Store α) (path : List Key) : Prop :=
  ∃ below, s.find runtime (path ++ below) ≠ s'.find runtime (path ++ below)

def Attached (runtime : Runtime α) (s : Store α) (r : Ref) : Prop :=
  ∃ path, s.find runtime path = .object r

/-- No object of the store has two places in it; then none is inside itself. -/
def IsTree (runtime : Runtime α) (s : Store α) : Prop :=
  ∀ r path path', s.find runtime path = .object r → s.find runtime path' = .object r → path = path'

/-- The proxy of an object still has the path of the place its object is at. -/
def Placed (runtime : Runtime α) (s : Store α) (r : Ref) : Prop :=
  ∃ path, s.find runtime path = .object r ∧ s.inner r = some (dotted s.storeKey path)

section Places

variable {runtime : Runtime α} {s s' : Store α} {target : Ref}

theorem Store.SameBut.member (h : s.SameBut target s') {v : Value α} (hv : v ≠ .object target)
    (key : Key) : s'.member runtime v key = s.member runtime v key := by
  cases v with
  | object r =>
    have hr : r ≠ target := fun heq => hv (by rw [heq])
    exact congrArg (·.get key) (h.others r hr)
  | undefined => rfl
  | number n => rfl
  | scalar a => rfl

/-- What changes in a tree when one object of it does is at or below a slot of that
    object that reads differently. -/
theorem Changed.exists_slot (h : s.SameBut target s') (htree : IsTree runtime s)
    {place : List Key} (hplace : s.find runtime place = .object target) {path : List Key}
    (hchanged : Changed runtime s s' path) :
    ∃ key, (s'.heap target).get key ≠ (s.heap target).get key ∧
      (path <+: place ++ [key] ∨ place ++ [key] <+: path) := by
  obtain ⟨below, hbelow⟩ := hchanged
  unfold Store.find at hbelow
  rw [h.root] at hbelow
  obtain ⟨before, key, after, hpath, -, hparts⟩ := Walks.exists_parting hbelow
  have htarget : s.find runtime before = .object target := by
    by_contra hother
    exact hparts (h.member hother key).symm
  obtain rfl : before = place := htree target before place htarget hplace
  refine ⟨key, fun hsame => hparts ?_, ?_⟩
  · unfold Store.find at htarget
    rw [htarget]
    exact hsame.symm
  · have hprefix : path <+: before ++ key :: after := ⟨below, hpath⟩
    have hslot : before ++ [key] <+: before ++ key :: after := ⟨after, by simp⟩
    exact List.prefix_or_prefix_of_prefix hprefix hslot

/-- A slot of an object of a tree that reads differently is a change. -/
theorem changed_of_slot (h : s.SameBut target s') (htree : IsTree runtime s) {place : List Key}
    (hplace : s.find runtime place = .object target) {key : Key}
    (hslot : (s'.heap target).get key ≠ (s.heap target).get key) :
    Changed runtime s s' (place ++ [key]) := by
  have hreach : s'.find runtime place = .object target := by
    unfold Store.find at hplace ⊢
    rw [h.root]
    refine (Walks.follow_of_alone (fun w hw => h.member ?_) fun before hbefore => ?_).trans hplace
    · rwa [hplace] at hw
    · exact htree target before place (hbefore.trans hplace) hplace
  refine ⟨[], fun heq => hslot ?_⟩
  have hstep : ∀ t : Store α, t.find runtime place = .object target →
      t.find runtime (place ++ [key] ++ []) = (t.heap target).get key := by
    intro t ht
    unfold Store.find at ht ⊢
    simp [ht, Store.member]
  rw [hstep s hplace, hstep s' hreach] at heq
  exact heq.symm

end Places

/-! ## Section 3: Operations -/

/-- The length that assigning a value to the length of an array gives. -/
def lengthOf (runtime : Runtime α) : Value α → Option Nat
  | .number n => some n
  | v => runtime.toLength v

/-- The order a comparison gives is one of the elements there are. -/
def Operation.Legal (o : Obj α) : Operation α → Prop
  | .sort order =>
      ∀ len, o.length = some len →
        order.Perm ((List.range len).filterMap fun k => o.slots (.index k))
  | _ => True

/-- No array changes its length without an assignment to it, and no such assignment
    takes an element away: an index lies inside, a part is replaced by no more than it
    had, or by more before a last element that is a hole. -/
def Operation.Fits (runtime : Runtime α) (o : Obj α) (op : Operation α) : Prop :=
  ∀ len, o.length = some len →
    match op with
    | .assign (.index i) _ => i < len
    | .assign (.name s) v =>
        s = "length" → ∀ n, lengthOf runtime v = some n → ∀ i, n ≤ i →
          o.get (.index i) = .undefined
    | op =>
        match op.splice? len with
        | none => True
        | some (start, deleteCount, items) =>
            items.length ≤ deleteCount ∨
              start + deleteCount < len ∧ o.slots (.index (len - 1)) = none

theorem Operation.splice?_fits {len start deleteCount : Nat} {items : List (Value α)}
    {op : Operation α} (h : op.splice? len = some (start, deleteCount, items)) :
    start + deleteCount ≤ len := by
  cases op with
  | splice first count list =>
    obtain ⟨rfl, rfl, rfl⟩ : actualStart len first = start ∧
        actualDeleteCount len first count = deleteCount ∧ list = items := by
      simpa [Operation.splice?] using h
    unfold actualDeleteCount actualStart
    cases count <;> dsimp only <;> split <;> omega
  | push list | unshift list =>
    obtain ⟨rfl, rfl, rfl⟩ := Option.some.inj h
    omega
  | pop | shift =>
    obtain ⟨rfl, rfl, rfl⟩ := Option.some.inj h
    omega
  | assign _ _ | delete _ | sort _ | reverse => exact nomatch h

section Operations

variable [DecidableEq α] {runtime : Runtime α} {s : Store α} {target : Ref} {basePath : List Char}
  {len : Nat}

/-- The call of an operation on a proxy with that base path. -/
def Operation.call (runtime : Runtime α) (s : Store α) (target : Ref) (basePath : List Char)
    (op : Operation α) : Call α :=
  (Call.mk s []).run runtime target basePath (op.accesses (s.heap target))

theorem splicing_noted {start deleteCount : Nat} {items : List (Value α)}
    (hlen : (s.heap target).length = some len) (hfit : start + deleteCount ≤ len)
    (h : items.length ≤ deleteCount ∨
      start + deleteCount < len ∧ (s.heap target).slots (.index (len - 1)) = none) (key : Key) :
    Noted (s.heap target) target basePath
      (Call.run runtime target basePath ⟨s, []⟩ (splicing len start deleteCount items)) key := by
  unfold splicing
  rw [Call.run_append]
  show Noted _ _ _ (Call.set runtime target basePath _ _ _) key
  by_cases hle : items.length ≤ deleteCount
  · obtain ⟨hloop, hcleared⟩ := looping_shrink runtime basePath hlen hfit hle
    refine hloop.finish hlen hcleared ?_ key
    obtain ⟨m, hm, hlow, hhigh⟩ := hloop.long
    rcases Nat.lt_or_eq_of_le hle with hlt | heq
    · refine .inr fun hsame => ?_
      have hn := Option.some.inj (hm.symm.trans hsame)
      omega
    · exact .inl (by omega)
  · obtain ⟨hbehind, hhole⟩ := h.resolve_left hle
    have hloop := looping_hole runtime basePath hlen (Nat.not_le.mp hle) hbehind hhole
    obtain ⟨m, hm, -, hhigh⟩ := hloop.long
    refine hloop.finish hlen (cleared_of_length hm (by omega)) (.inr fun hsame => ?_) key
    have hn := Option.some.inj (hm.symm.trans hsame)
    omega

theorem splicing_not_noted {start deleteCount : Nat} {items : List (Value α)}
    (hlen : (s.heap target).length = some len) (hfit : start + deleteCount ≤ len)
    (h : ¬ (items.length ≤ deleteCount ∨
      start + deleteCount < len ∧ (s.heap target).slots (.index (len - 1)) = none)) :
    ¬ Noted (s.heap target) target basePath
      (Call.run runtime target basePath ⟨s, []⟩ (splicing len start deleteCount items))
      .length := by
  obtain ⟨hlt, hfull⟩ := not_or.mp h
  have hlt := Nat.not_le.mp hlt
  have hfull : start + deleteCount = len ∨ (s.heap target).slots (.index (len - 1)) ≠ none := by
    by_cases hend : start + deleteCount = len
    · exact .inl hend
    · exact .inr fun hhole => hfull ⟨by omega, hhole⟩
  have hloop := looping_grow runtime basePath hlen hlt hfit hfull
  obtain ⟨m, hm, hlow, hhigh⟩ := hloop.long
  obtain rfl : m = len - deleteCount + items.length := by omega
  unfold splicing
  rw [Call.run_append]
  exact hloop.not_noted hlen hm (by omega)

/-- All slots of a plain object are written one at a time. -/
theorem noted_of_plain (hlen : (s.heap target).length = none) (op : Operation α) (key : Key) :
    Noted (s.heap target) target basePath (op.call runtime s target basePath) key := by
  have hstart : Noted (s.heap target) target basePath ⟨s, []⟩ key := fun h => absurd rfl h
  have hnothing : op.accesses (s.heap target) = [] →
      Noted (s.heap target) target basePath (op.call runtime s target basePath) key := by
    intro h
    unfold Operation.call
    rw [h]
    exact hstart
  cases op with
  | assign other v =>
    refine hstart.set fun hne o' ho' => ?_
    obtain rfl := Option.some.inj ((Obj.set_of_plain hlen).symm.trans ho')
    exact Obj.put_get_of_ne hne (.inr (by rw [hlen]; rfl))
  | delete other => exact hstart.delete
  | push _ | pop | shift | unshift _ | splice _ _ _ | sort _ | reverse =>
    exact hnothing (by unfold Operation.accesses; rw [hlen])

omit [DecidableEq α] in
theorem set_length {o o' : Obj α} {v : Value α} (hlen : o.length = some len) :
    o.set runtime .length v = some o' ↔ ∃ n, lengthOf runtime v = some n ∧ o.setLength n = o' := by
  have hset : o.set runtime .length v = (lengthOf runtime v).map o.setLength := by
    unfold Obj.set lengthOf
    rw [if_pos ⟨by simp [hlen], rfl⟩]
    cases v <;> rfl
  rw [hset, Option.map_eq_some_iff]

/-- An assignment to a slot of an array notes all it changes when it fits. -/
theorem assign_noted (hlen : (s.heap target).length = some len) {other : Key} {v : Value α}
    (hfits : (Operation.assign other v).Fits runtime (s.heap target)) (key : Key) :
    Noted (s.heap target) target basePath
      ((Operation.assign other v).call runtime s target basePath) key := by
  have hstart : Noted (s.heap target) target basePath ⟨s, []⟩ key := fun h => absurd rfl h
  have hfits := hfits len hlen
  refine hstart.set fun hne o' ho' => ?_
  by_cases hlength : other = .length
  · subst hlength
    obtain ⟨n, hn, rfl⟩ := (set_length hlen).mp ho'
    cases key with
    | index i => exact Obj.setLength_get_index fun hi => hfits rfl n hn i hi
    | name _ => exact Obj.setLength_get_name hne
  · obtain rfl := Option.some.inj ((Obj.set_of_ne_length hlength).symm.trans ho')
    refine Obj.put_get_of_ne hne (.inr ?_)
    show (s.heap target).length.map _ = (s.heap target).length
    rw [hlen, Option.map_some]
    cases other with
    | index i =>
      have hi : i < len := hfits
      exact congrArg some (Nat.max_eq_left hi)
    | name _ => rfl

theorem assign_reported (op : Operation α) {other : Key} {v : Value α}
    (hop : op = .assign other v) :
    ∀ path ∈ (op.call runtime s target basePath).reported, path = childPath basePath other := by
  subst hop
  intro path hmem
  change path ∈ (Call.set runtime target basePath ⟨s, []⟩ other v).reported at hmem
  rcases Call.set_cases runtime ⟨s, []⟩ target basePath other v with
    ⟨-, hset⟩ | ⟨o', -, -, -, hset⟩
  · rw [hset] at hmem
    exact absurd hmem List.not_mem_nil
  · rw [hset] at hmem
    split at hmem
    · exact absurd hmem List.not_mem_nil
    · simpa using hmem

/-- A write past the end of an array does not note the length. -/
theorem assign_past_end (hlen : (s.heap target).length = some len) {i : Nat} {v : Value α}
    (hi : len ≤ i) :
    ¬ Noted (s.heap target) target basePath
      ((Operation.assign (.index i) v).call runtime s target basePath) .length := by
  intro hnoted
  have hput : (Call.object target ⟨s, []⟩).set runtime (.index i) v =
      some ((s.heap target).put (.index i) v) := Obj.set_of_ne_length (by simp)
  have hchanged : ((Operation.call runtime s target basePath (.assign (.index i) v)).object
      target).get .length ≠ (s.heap target).get .length := by
    show (Call.object target (Call.set runtime target basePath ⟨s, []⟩ (.index i) v)).get .length ≠ _
    rcases Call.set_cases runtime ⟨s, []⟩ target basePath (.index i) v with
      ⟨hnone, -⟩ | ⟨o', ho', hobject, -, -⟩
    · exact absurd (hput.symm.trans hnone) (by simp)
    · obtain rfl := Option.some.inj (hput.symm.trans ho')
      have hlong : ((s.heap target).put (.index i) v).length = some (max len (i + 1)) := by
        rw [Obj.put_length, hlen]
        rfl
      rw [hobject, Obj.get_length hlong, Obj.get_length hlen]
      simp only [ne_eq, Value.number.injEq]
      omega
  exact childPath_length_ne_index basePath i (assign_reported _ rfl _ (hnoted hchanged))

/-- A shorter length does not note the elements it takes away. -/
theorem assign_cut (hlen : (s.heap target).length = some len) {v : Value α} {n i : Nat}
    (hn : lengthOf runtime v = some n) (hi : n ≤ i)
    (hthere : (s.heap target).get (.index i) ≠ .undefined) :
    ¬ Noted (s.heap target) target basePath
      ((Operation.assign .length v).call runtime s target basePath) (.index i) := by
  intro hnoted
  have hset : (Call.object target ⟨s, []⟩).set runtime .length v =
      some ((s.heap target).setLength n) := (set_length hlen).mpr ⟨n, hn, rfl⟩
  have hchanged : ((Operation.call runtime s target basePath (.assign .length v)).object
      target).get (.index i) ≠ (s.heap target).get (.index i) := by
    show (Call.object target (Call.set runtime target basePath ⟨s, []⟩ .length v)).get (.index i) ≠ _
    rcases Call.set_cases runtime ⟨s, []⟩ target basePath .length v with
      ⟨hnone, -⟩ | ⟨o', ho', hobject, -, -⟩
    · exact absurd (hset.symm.trans hnone) (by simp)
    · obtain rfl := Option.some.inj (hset.symm.trans ho')
      have hgone : ((s.heap target).setLength n).get (.index i) = .undefined := by
        simp [Obj.setLength, Nat.not_lt.mpr hi]
      rw [hobject, hgone]
      exact hthere.symm
  exact childPath_length_ne_index basePath i (assign_reported _ rfl _ (hnoted hchanged)).symm

theorem Looping.noted_all {c : Call α} (h : Looping s target basePath len len c)
    (hlen : (s.heap target).length = some len) (key : Key) :
    Noted (s.heap target) target basePath c key := by
  obtain ⟨m, hm, hlow, hhigh⟩ := h.long
  obtain rfl : m = len := Nat.le_antisymm hhigh hlow
  by_cases hkey : key = .length
  · subst hkey
    exact fun hchanged => absurd (by rw [Obj.get_length hm, Obj.get_length hlen]) hchanged
  · exact h.noted key hkey

/-- `sort` and `reverse` write inside the array. -/
theorem sort_noted (hlen : (s.heap target).length = some len) {order : List (Value α)}
    (hlegal : (Operation.sort order).Legal (s.heap target)) (key : Key) :
    Noted (s.heap target) target basePath
      ((Operation.sort order).call runtime s target basePath) key := by
  have hle : order.length ≤ len := by
    rw [(hlegal len hlen).length_eq]
    exact (List.length_filterMap_le _ _).trans (by simp)
  refine Looping.noted_all ?_ hlen key
  refine (looping_kept runtime s target basePath len len).run (fun a ha => ?_)
    (looping_start hlen (Nat.le_refl _) (Nat.le_refl _))
  unfold Operation.accesses at ha
  rw [hlen] at ha
  dsimp only at ha
  rcases List.mem_append.mp ha with ha | ha
  · rcases List.mem_append.mp ha with ha | ha
    · obtain ⟨k, -, rfl⟩ := List.mem_map.mp ha
      trivial
    · obtain ⟨k, hk, rfl⟩ := List.mem_mapIdx.mp ha
      show k < len
      omega
  · obtain ⟨k, -, rfl⟩ := List.mem_map.mp ha
    trivial

theorem reverse_noted (hlen : (s.heap target).length = some len) (key : Key) :
    Noted (s.heap target) target basePath
      ((Operation.reverse : Operation α).call runtime s target basePath) key := by
  refine Looping.noted_all ?_ hlen key
  refine (looping_kept runtime s target basePath len len).run (fun a ha => ?_)
    (looping_start hlen (Nat.le_refl _) (Nat.le_refl _))
  unfold Operation.accesses at ha
  rw [hlen] at ha
  obtain ⟨lower, hlower, rfl⟩ := List.mem_map.mp ha
  have hlt := List.mem_range.mp hlower
  exact ⟨⟨show lower < len by omega, trivial⟩, show len - lower - 1 < len by omega, trivial⟩

/-- An operation that fits notes every slot it changes. -/
theorem Operation.Fits.noted {op : Operation α} (h : op.Fits runtime (s.heap target))
    (hlegal : op.Legal (s.heap target)) (key : Key) :
    Noted (s.heap target) target basePath (op.call runtime s target basePath) key := by
  cases hlen : (s.heap target).length with
  | none => exact noted_of_plain hlen op key
  | some len =>
    have hsplice : ∀ start deleteCount items, op.splice? len = some (start, deleteCount, items) →
        op.accesses (s.heap target) = splicing len start deleteCount items →
        (items.length ≤ deleteCount ∨
          start + deleteCount < len ∧ (s.heap target).slots (.index (len - 1)) = none) →
        Noted (s.heap target) target basePath (op.call runtime s target basePath) key := by
      intro start deleteCount items hop haccesses hfit
      unfold Operation.call
      rw [haccesses]
      exact splicing_noted hlen (Operation.splice?_fits hop) hfit key
    have hfits := h len hlen
    cases op with
    | assign other v => exact assign_noted hlen h key
    | delete other =>
      have hstart : Noted (s.heap target) target basePath ⟨s, []⟩ key := fun h => absurd rfl h
      exact hstart.delete
    | sort order => exact sort_noted hlen hlegal key
    | reverse => exact reverse_noted hlen key
    | push _ | pop | shift | unshift _ | splice _ _ _ =>
      exact hsplice _ _ _ rfl (by unfold Operation.accesses; rw [hlen]; rfl) hfits

/-- One that does not fit leaves a slot of an array out. -/
theorem exists_unnoted (basePath : List Char) {op : Operation α}
    (h : ¬ op.Fits runtime (s.heap target)) :
    ∃ key : Key, key.OfArray ∧
      ¬ Noted (s.heap target) target basePath (op.call runtime s target basePath) key := by
  unfold Operation.Fits at h
  push Not at h
  obtain ⟨len, hlen, h⟩ := h
  have hsplice : ∀ start deleteCount items, op.splice? len = some (start, deleteCount, items) →
      op.accesses (s.heap target) = splicing len start deleteCount items →
      ¬ (items.length ≤ deleteCount ∨
        start + deleteCount < len ∧ (s.heap target).slots (.index (len - 1)) = none) →
      ∃ key : Key, key.OfArray ∧
        ¬ Noted (s.heap target) target basePath (op.call runtime s target basePath) key := by
    intro start deleteCount items hop haccesses hfit
    refine ⟨.length, rfl, ?_⟩
    unfold Operation.call
    rw [haccesses]
    exact splicing_not_noted hlen (Operation.splice?_fits hop) hfit
  cases op with
  | assign other v =>
    cases other with
    | index i => exact ⟨.length, rfl, assign_past_end hlen (Nat.not_lt.mp h)⟩
    | name name =>
      simp only [Classical.not_imp, not_forall] at h
      obtain ⟨rfl, n, hn, i, hi, hthere⟩ := h
      exact ⟨.index i, trivial, assign_cut hlen hn hi hthere⟩
  | delete _ | sort _ | reverse => exact absurd trivial h
  | push _ | pop | shift | unshift _ | splice _ _ _ =>
    exact hsplice _ _ _ rfl (by unfold Operation.accesses; rw [hlen]; rfl) h

/-- The methods of arrays and assignments to elements or to a length. -/
def Operation.OnArray : Operation α → Prop
  | .assign key _ | .delete key => key.OfArray
  | _ => True

omit [DecidableEq α] in
theorem Operation.Fits.of_not_onArray {op : Operation α} (h : ¬ op.OnArray) (o : Obj α) :
    op.Fits runtime o := by
  intro len hlen
  cases op with
  | assign key v =>
    cases key with
    | index i => exact absurd trivial h
    | name name => exact fun hname => absurd hname h
  | delete key => trivial
  | push _ | pop | shift | unshift _ | splice _ _ _ | sort _ | reverse => exact absurd trivial h

end Operations

/-! ## Section 4: What is tracked -/

section Tracking

variable [DecidableEq α] (runtime : Runtime α)

/-- A dependency on a place that an operation changes is met by what it reports. -/
def Tracked (s : Store α) (target : Ref) (op : Operation α) : Prop :=
  ∀ path, Changed runtime s (operate runtime s target op).store path →
    matchesTrackedPath (dotted s.storeKey path) (operate runtime s target op).reported = true

variable {runtime} {s : Store α} {target : Ref} {basePath : List Char}

/-- Calls leave all other objects as they are. -/
theorem sameBut_kept (s : Store α) :
    Kept runtime target basePath (fun _ => True) (fun _ => True)
      (fun c : Call α => s.SameBut target c.store) where
  get := fun _ _ h => h.trans Call.get_same
  set := by
    intro c key v _ h
    rcases Call.set_cases runtime c target basePath key v with ⟨-, hset⟩ | ⟨_, -, -, hsame, -⟩
    · rwa [hset]
    · exact h.trans hsame
  delete := by
    intro c key _ h
    rcases c.delete_cases target basePath key with hdelete | ⟨-, -, hsame, -⟩
    · rwa [hdelete]
    · exact h.trans hsame

theorem call_same (op : Operation α) :
    s.SameBut target (op.call runtime s target basePath).store := by
  refine (sameBut_kept s).run (fun a _ => ?_) (.refl target s)
  cases a with
  | get _ | set _ _ | delete _ => trivial
  | move _ _ => exact ⟨trivial, trivial⟩
  | swap _ _ => exact ⟨⟨trivial, trivial⟩, trivial, trivial⟩

/-- All paths reported are of slots that arrays have. -/
def OfArray (basePath : List Char) (c : Call α) : Prop :=
  ∀ path ∈ c.reported, ∃ key : Key, key.OfArray ∧ path = childPath basePath key

theorem ofArray_kept : Kept runtime target basePath Key.OfArray Key.OfArray (OfArray (α := α) basePath) where
  get := fun c key h => by
    unfold OfArray at h ⊢
    rwa [Call.get_reported]
  set := by
    intro c key v hkey h path hmem
    rcases Call.set_cases runtime c target basePath key v with ⟨-, hset⟩ | ⟨_, -, -, -, hset⟩
    · exact h path (hset ▸ hmem)
    · rw [hset] at hmem
      split at hmem
      · exact h path hmem
      · rcases List.mem_append.mp hmem with hmem | hmem
        · exact h path hmem
        · exact ⟨key, hkey, List.mem_singleton.mp hmem⟩
  delete := by
    intro c key hkey h path hmem
    rcases c.delete_cases target basePath key with hdelete | ⟨-, -, -, hdelete⟩
    · exact h path (hdelete ▸ hmem)
    · rw [hdelete] at hmem
      rcases List.mem_append.mp hmem with hmem | hmem
      · exact h path hmem
      · exact ⟨key, hkey, List.mem_singleton.mp hmem⟩

omit [DecidableEq α] in
theorem onArray_accesses {op : Operation α} (h : op.OnArray) (o : Obj α) :
    ∀ a ∈ op.accesses o, a.On Key.OfArray Key.OfArray := by
  intro a ha
  have hsplice : ∀ len start deleteCount (items : List (Value α)),
      a ∈ splicing len start deleteCount items → a.On Key.OfArray Key.OfArray := by
    intro len start deleteCount items ha
    unfold splicing spliceLoops spliceMoves at ha
    simp only [List.mem_append, List.mem_singleton] at ha
    rcases ha with ((ha | ha) | ha) | rfl
    · obtain ⟨k, -, rfl⟩ := List.mem_map.mp ha
      trivial
    · split at ha
      · rcases List.mem_append.mp ha with ha | ha
        · obtain ⟨k, -, rfl⟩ := List.mem_map.mp ha
          exact ⟨trivial, trivial⟩
        · obtain ⟨k, -, rfl⟩ := List.mem_map.mp ha
          trivial
      · split at ha
        · obtain ⟨k, -, rfl⟩ := List.mem_map.mp ha
          exact ⟨trivial, trivial⟩
        · exact absurd ha List.not_mem_nil
    · obtain ⟨k, hk, rfl⟩ := List.mem_mapIdx.mp ha
      trivial
    · rfl
  cases op with
  | assign key v =>
    obtain rfl := List.mem_singleton.mp ha
    exact h
  | delete key =>
    obtain rfl := List.mem_singleton.mp ha
    exact h
  | sort order =>
    unfold Operation.accesses at ha
    cases hlen : o.length with rw [hlen] at ha
    | none => exact absurd ha List.not_mem_nil
    | some len =>
      simp only [List.mem_append] at ha
      rcases ha with (ha | ha) | ha
      · obtain ⟨k, -, rfl⟩ := List.mem_map.mp ha
        trivial
      · obtain ⟨k, hk, rfl⟩ := List.mem_mapIdx.mp ha
        trivial
      · obtain ⟨k, -, rfl⟩ := List.mem_map.mp ha
        trivial
  | reverse =>
    unfold Operation.accesses at ha
    cases hlen : o.length with rw [hlen] at ha
    | none => exact absurd ha List.not_mem_nil
    | some len =>
      obtain ⟨k, -, rfl⟩ := List.mem_map.mp ha
      exact ⟨⟨trivial, trivial⟩, trivial, trivial⟩
  | push _ | pop | shift | unshift _ | splice _ _ _ =>
    unfold Operation.accesses at ha
    cases hlen : o.length with rw [hlen] at ha
    | none => exact absurd ha List.not_mem_nil
    | some len => exact hsplice _ _ _ _ ha

theorem call_ofArray {op : Operation α} (h : op.OnArray) :
    OfArray basePath (op.call runtime s target basePath) :=
  ofArray_kept.run (onArray_accesses h _) fun _ hmem => absurd hmem List.not_mem_nil

theorem operate_eq (h : s.inner target = some basePath) (op : Operation α) :
    operate runtime s target op = op.call runtime s target basePath := by
  unfold operate Operation.call
  rw [h]

theorem tracked_iff_fits (htree : IsTree runtime s) (hplaced : Placed runtime s target)
    {op : Operation α} (hlegal : op.Legal (s.heap target)) :
    Tracked runtime s target op ↔ op.Fits runtime (s.heap target) := by
  obtain ⟨place, hplace, hinner⟩ := hplaced
  unfold Tracked
  rw [operate_eq hinner]
  constructor
  · intro htracked
    by_contra hfits
    have harray : op.OnArray := by
      by_contra hother
      exact hfits (Operation.Fits.of_not_onArray hother _)
    obtain ⟨key, hkey, hunnoted⟩ := exists_unnoted (dotted s.storeKey place) hfits
    refine hunnoted fun hslot => ?_
    have hmatch := htracked _ (changed_of_slot (call_same op) htree hplace hslot)
    rw [dotted_append] at hmatch
    exact mem_of_matches hkey (call_ofArray harray) hmatch
  · intro hfits path hchanged
    obtain ⟨key, hslot, hcomparable⟩ := hchanged.exists_slot (call_same op) htree hplace
    have hmem := hfits.noted hlegal key hslot
    rw [← dotted_nil (childPath _ _), ← dotted_cons, ← dotted_append] at hmem
    exact matches_of_comparable hmem hcomparable

end Tracking

/-! ## Section 5: Trees -/

/-- A store is a tree when each object has one slot that holds it. -/
theorem isTree_of_parent {runtime : Runtime α} {s : Store α} (parent : Ref → Option (Ref × Key))
    (hroot : parent s.root = none)
    (hscalars : ∀ a key r, runtime.member a key ≠ .object r)
    (hslots : ∀ r key child, (s.heap r).get key = .object child → parent child = some (r, key)) :
    IsTree runtime s := by
  intro r path path' h h'
  have hlast : ∀ (r : Ref) (path : List Key) (key : Key),
      s.find runtime (path ++ [key]) = .object r →
        ∃ up, parent r = some (up, key) ∧ s.find runtime path = .object up := by
    intro r path key h
    unfold Store.find at h
    rw [Walks.follow_append] at h
    change s.member runtime (s.find runtime path) key = .object r at h
    cases hup : s.find runtime path with
    | object up =>
      rw [hup] at h
      exact ⟨up, hslots up key r h, rfl⟩
    | scalar a =>
      rw [hup] at h
      exact absurd h (hscalars a key r)
    | undefined | number _ =>
      rw [hup] at h
      exact nomatch h
  induction path using List.reverseRecOn generalizing r path' with
  | nil =>
    obtain rfl := Value.object.inj h
    rcases List.eq_nil_or_concat path' with rfl | ⟨init, key, hpath⟩
    · rfl
    · rw [List.concat_eq_append] at hpath
      subst hpath
      obtain ⟨up, hparent, -⟩ := hlast _ init key h'
      rw [hroot] at hparent
      exact nomatch hparent
  | append_singleton path key ih =>
    obtain ⟨up, hparent, hup⟩ := hlast r path key h
    rcases List.eq_nil_or_concat path' with rfl | ⟨init, other, hpath⟩
    · obtain rfl := Value.object.inj h'
      rw [hroot] at hparent
      exact nomatch hparent
    · rw [List.concat_eq_append] at hpath
      subst hpath
      obtain ⟨up', hparent', hup'⟩ := hlast r init other h'
      rw [hparent] at hparent'
      obtain ⟨rfl, rfl⟩ := Prod.mk.inj (Option.some.inj hparent')
      rw [ih _ _ hup hup']

/-! ## Section 6: Runs -/

section Runs

variable [DecidableEq α] (runtime : Runtime α)

/-- A property is read through a proxy, an operation is made through one, or the
    program makes or changes an object outside of the store. -/
inductive Action (α : Type) where
  | read (target : Ref) (key : Key)
  | operate (target : Ref) (op : Operation α)
  | prepare (r : Ref) (o : Obj α)

def step (s : Store α) : Action α → Store α
  | .read target key =>
      match s.inner target with
      | none => s
      | some basePath => ((Call.mk s []).get target basePath key).store
  | .operate target op => (operate runtime s target op).store
  | .prepare r o => { s with heap := Function.update s.heap r o }

/-- What holds of every action of a run in the state it starts from. -/
def Along (P : Store α → Action α → Prop) : Store α → List (Action α) → Prop
  | _, [] => True
  | s, action :: actions => P s action ∧ Along P (step runtime s action) actions

/-- Proxies are there before they are used, and operations are on objects of a store
    that is a tree before and after them. -/
def Admissible (s : Store α) : Action α → Prop
  | .read target _ => (s.inner target).isSome
  | .operate target op =>
      (s.inner target).isSome ∧ Attached runtime s target ∧ op.Legal (s.heap target) ∧
        IsTree runtime s ∧ IsTree runtime (operate runtime s target op).store
  | .prepare r _ => ¬ Attached runtime s r

/-- What holds of each operation. -/
def OfOperations (P : Store α → Ref → Operation α → Prop) (s : Store α) : Action α → Prop
  | .operate target op => P s target op
  | .read _ _ | .prepare _ _ => True

/-- As long as operations go through proxies whose objects are where they were first
    read, the operations of a run are tracked exactly when they fit. -/
theorem changes_tracked_iff (s : Store α) (run : List (Action α))
    (hrun : Along runtime (Admissible runtime) s run)
    (hplaced : Along runtime (OfOperations fun s target _ => Placed runtime s target) s run) :
    Along runtime (OfOperations (Tracked runtime)) s run ↔
      Along runtime (OfOperations fun s target op => op.Fits runtime (s.heap target)) s run := by
  induction run generalizing s with
  | nil => exact Iff.rfl
  | cons action run ih =>
    obtain ⟨hadmissible, hrun⟩ := hrun
    obtain ⟨hat, hplaced⟩ := hplaced
    refine and_congr ?_ (ih _ hrun hplaced)
    cases action with
    | operate target op => exact tracked_iff_fits hadmissible.2.2.2.1 hat hadmissible.2.2.1
    | read _ _ | prepare _ _ => exact Iff.rfl

end Runs

/-! Scalars are left out in what follows. -/

def noScalars : Runtime Empty := ⟨fun a => a.elim, fun _ => none⟩

/-- A store as it is made, with a proxy for its value only. -/
def Store.fresh (storeKey : List Char) (root : Ref) (heap : Ref → Obj α) : Store α :=
  (Store.mk storeKey root heap fun _ => none).createStoreProxy root storeKey

def emptyArray : Obj Empty := ⟨fun _ => none, some 0, fun _ _ _ _ => rfl⟩

/-- `form = { user: {} }`. -/
def formStore : Store Empty :=
  .fresh "form".toList 0 fun r =>
    if r = 0 then
      ⟨fun key => if key = .name "user" then some (.object 1) else none, none, nofun⟩
    else ⟨fun _ => none, none, nofun⟩

theorem formStore_parent (r : Ref) (key : Key) (child : Ref)
    (h : (formStore.heap r).get key = .object child) :
    (if child = 1 then some ((0 : Ref), Key.name "user") else none) = some (r, key) := by
  change Obj.get (if r = 0 then _ else _) key = _ at h
  split at h
  · subst r
    rw [Obj.get_of_plain rfl] at h
    dsimp only at h
    split at h
    · subst key
      obtain rfl := Value.object.inj h
      rfl
    · cases h
  · cases h

/-- A number put into an object brings no object into it, and a new length neither. -/
theorem put_number_get {o : Obj α} {key other : Key} {n : Nat} {r : Ref}
    (h : (o.put key (.number n)).get other = .object r) : o.get other = .object r := by
  by_cases hlength : o.length.isSome ∧ other = .length
  · unfold Obj.get at h
    rw [if_pos (by simpa using hlength)] at h
    exact nomatch h
  · unfold Obj.get at h ⊢
    rw [if_neg (by simpa using hlength)] at h
    rw [if_neg hlength]
    by_cases hkey : other = key
    · subst hkey
      rw [Obj.put_slots_self] at h
      exact nomatch h
    · rwa [Obj.put_slots_of_ne hkey] at h

theorem setLength_get {o : Obj α} {key : Key} {n : Nat} {r : Ref}
    (h : (o.setLength n).get key = .object r) (hkey : key ≠ .length) : o.get key = .object r := by
  rw [Obj.get_of_ne_length hkey] at h ⊢
  cases key with
  | index i =>
    by_cases hi : i < n
    · simpa [Obj.setLength, hi] using h
    · simp [Obj.setLength, hi] at h
  | name s => exact h

theorem changes_tracked_user :
    Along noScalars (OfOperations (Tracked noScalars)) formStore
      [.read 0 (.name "user"), .operate 1 (.assign (.name "name") (.number 1))] := by
  have hparent : ∀ r key child, (formStore.heap r).get key = .object child →
      (if child = 1 then some (0, .name "user") else none) = some (r, key) := formStore_parent
  have htree : IsTree noScalars (step noScalars formStore (.read 0 (.name "user"))) :=
    isTree_of_parent _ rfl (fun a => a.elim) hparent
  have htree' : IsTree noScalars (operate noScalars
      (step noScalars formStore (.read 0 (.name "user"))) 1
      (.assign (.name "name") (.number 1))).store := by
    refine isTree_of_parent _ rfl (fun a => a.elim) fun r key child h => hparent r key child ?_
    by_cases hr : r = 1
    · subst hr
      exact put_number_get h
    · change (Function.update formStore.heap 1 _ r).get key = _ at h
      rwa [Function.update_of_ne hr] at h
  have hplaced : Placed noScalars (step noScalars formStore (.read 0 (.name "user"))) 1 :=
    ⟨[.name "user"], rfl, rfl⟩
  exact (changes_tracked_iff noScalars formStore
    [.read 0 (.name "user"), .operate 1 (.assign (.name "name") (.number 1))]
    ⟨rfl, ⟨rfl, ⟨[.name "user"], rfl⟩, trivial, htree, htree'⟩, trivial⟩
    ⟨trivial, hplaced, trivial⟩).mpr ⟨trivial, nofun, trivial⟩

/-- `rows = []; rows.push(1)` changes `rows.length` and reports `rows.0`. -/
theorem push_untracked :
    Along noScalars (Admissible noScalars) (.fresh "rows".toList 0 fun _ => emptyArray)
        [.operate 0 (.push [.number 1])] ∧
      ¬ Along noScalars (OfOperations (Tracked noScalars))
        (.fresh "rows".toList 0 fun _ => emptyArray) [.operate 0 (.push [.number 1])] := by
  have hempty : ∀ key r, emptyArray.get key ≠ .object r := by
    intro key r h
    by_cases hkey : key = .length
    · subst hkey
      exact nomatch h
    · rw [Obj.get_of_ne_length hkey] at h
      exact nomatch h
  refine ⟨⟨⟨rfl, ⟨[], rfl⟩, trivial, ?_, ?_⟩, trivial⟩, fun h => ?_⟩
  · exact isTree_of_parent (fun _ => none) rfl (fun a => a.elim)
      fun r key child h => absurd h (hempty key child)
  · refine isTree_of_parent (fun _ => none) rfl (fun a => a.elim) fun r key child h => ?_
    by_cases hr : r = 0
    · subst hr
      change (Obj.setLength (Obj.put _ _ _) _).get key = _ at h
      by_cases hkey : key = .length
      · subst hkey
        exact nomatch h
      · exact absurd (put_number_get (setLength_get h hkey)) (hempty key child)
    · have hsame : (Store.fresh "rows".toList 0 fun _ => emptyArray).SameBut 0
          (operate noScalars (.fresh "rows".toList 0 fun _ => emptyArray) 0
            (.push [.number 1])).store := call_same (.push [.number 1])
      rw [hsame.others r hr] at h
      exact absurd h (hempty key child)
  · have hchanged := h.1 [.length] ⟨[], by decide⟩
    exact absurd hchanged (by decide)

end StoreProxy
