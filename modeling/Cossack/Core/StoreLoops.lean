import Cossack.Core.StoreProxy
import Cossack.Lib.JsString

/-! # What the array methods report

    A call on a proxy has noted a slot when it has reported it or left it as it was.
    Every loop of a method notes the elements; the assignment of the length, which
    comes last, is reported unless the array has that length already. -/

namespace StoreProxy

variable {α : Type}

/-! ## Section 1: The keys of arrays -/

theorem childPath_inj {base : List Char} {key other : Key} :
    childPath base key = childPath base other ↔ key.text = other.text := by
  simp [childPath]

/-- The keys of an array that its methods write. -/
def Key.OfArray : Key → Prop
  | .index _ => True
  | .name s => s = "length"

theorem Key.not_mem_text {c : Char} (hc : c.isDigit = false) (i : Nat) :
    c ∉ (Key.index i).text := by
  intro hmem
  have hdigit := List.all_eq_true.mp (JsString.all_isDigit i) c hmem
  rw [hc] at hdigit
  exact nomatch hdigit

theorem Key.OfArray.dotless {key : Key} (h : key.OfArray) : '.' ∉ key.text := by
  cases key with
  | index i => exact Key.not_mem_text rfl i
  | name s =>
    obtain rfl := h
    decide

theorem childPath_length_ne_index (base : List Char) (i : Nat) :
    childPath base .length ≠ childPath base (.index i) := by
  rw [Ne, childPath_inj]
  intro h
  have hl : 'l' ∈ Key.length.text := by decide
  rw [h] at hl
  exact Key.not_mem_text rfl i hl

/-! ## Section 2: What a call reports of its object -/

section Calls

variable [DecidableEq α] {runtime : Runtime α} {target : Ref} {basePath : List Char} {o : Obj α}
  {c c' : Call α} {key other : Key} {v : Value α}

/-- A slot that reads differently than in `o` has been reported. -/
def Noted (o : Obj α) (target : Ref) (basePath : List Char) (c : Call α) (key : Key) : Prop :=
  (c.object target).get key ≠ o.get key → childPath basePath key ∈ c.reported

theorem Noted.step (h : Noted o target basePath c key)
    (hreported : ∀ path ∈ c.reported, path ∈ c'.reported)
    (hslot : childPath basePath key ∈ c'.reported ∨
      (c'.object target).get key = (c.object target).get key) :
    Noted o target basePath c' key := by
  intro hchanged
  rcases hslot with hmem | hsame
  · exact hmem
  · rw [hsame] at hchanged
    exact hreported _ (h hchanged)

theorem Noted.get (h : Noted o target basePath c key) :
    Noted o target basePath (c.get target basePath other) key :=
  h.step (fun path hmem => by simpa using hmem) (.inr (by simp))

/-- What an assignment through the proxy does. -/
theorem Call.set_cases (runtime : Runtime α) (c : Call α) (target : Ref) (basePath : List Char)
    (key : Key) (v : Value α) :
    (c.object target).set runtime key v = none ∧ c.set runtime target basePath key v = c ∨
      ∃ o', (c.object target).set runtime key v = some o' ∧
        ((c.set runtime target basePath key v).object target = o') ∧
        c.store.SameBut target (c.set runtime target basePath key v).store ∧
        (c.set runtime target basePath key v).reported =
          if (c.object target).get key = v then c.reported
          else c.reported ++ [childPath basePath key] := by
  unfold Call.set
  cases hset : (c.object target).set runtime key v with
  | none => exact .inl ⟨rfl, rfl⟩
  | some o' =>
    refine .inr ⟨o', rfl, ?_⟩
    by_cases hsame : (c.object target).get key = v
    · simp only [hsame, if_true]
      exact ⟨Call.write_object, Call.write_same, rfl⟩
    · simp only [hsame, if_false]
      exact ⟨Call.write_object, Call.write_same, rfl⟩

theorem Obj.set_get_self {o o' : Obj α} (hset : o.set runtime key v = some o')
    (hsame : o.get key = v) : o'.get key = v := by
  unfold Obj.set at hset
  split at hset
  next hlength =>
    obtain ⟨hlong, rfl⟩ := hlength
    obtain ⟨n, hn⟩ := Option.isSome_iff_exists.mp hlong
    rw [Obj.get_length hn] at hsame
    subst hsame
    cases hset
    exact Obj.get_length rfl
  next hlength =>
    cases hset
    refine Obj.put_get_self ?_
    by_cases h : key = .length
    · exact .inl (by simpa [h] using hlength)
    · exact .inr h

theorem Call.set_reported_mono {path : List Char} (hmem : path ∈ c.reported) :
    path ∈ (c.set runtime target basePath key v).reported := by
  rcases Call.set_cases runtime c target basePath key v with ⟨-, hset⟩ | ⟨o', -, -, -, hset⟩
  · rwa [hset]
  · rw [hset]
    split
    · exact hmem
    · exact List.mem_append_left _ hmem

/-- An assignment reports the slot it is to; the others must stay as they are. -/
theorem Noted.set (h : Noted o target basePath c other)
    (hothers : other ≠ key → ∀ o', (c.object target).set runtime key v = some o' →
      o'.get other = (c.object target).get other) :
    Noted o target basePath (c.set runtime target basePath key v) other := by
  refine h.step (fun path => Call.set_reported_mono) ?_
  rcases Call.set_cases runtime c target basePath key v with
    ⟨-, hset⟩ | ⟨o', hset, hobject, -, hreported⟩
  · exact .inr (by rw [hset])
  · by_cases hkey : other = key
    · subst hkey
      by_cases hsame : (c.object target).get other = v
      · rw [hobject, Obj.set_get_self hset hsame, hsame]
        exact .inr rfl
      · rw [hreported, if_neg hsame]
        exact .inl (by simp)
    · rw [hobject]
      exact .inr (hothers hkey o' hset)

/-- What deleting a slot through the proxy does. -/
theorem Call.delete_cases (c : Call α) (target : Ref) (basePath : List Char) (key : Key) :
    c.delete target basePath key = c ∨
      (((c.delete target basePath key).object target).length = (c.object target).length ∧
        (∀ other, ((c.delete target basePath key).object target).slots other =
          if other = key then none else (c.object target).slots other) ∧
        c.store.SameBut target (c.delete target basePath key).store ∧
        (c.delete target basePath key).reported = c.reported ++ [childPath basePath key]) := by
  unfold Call.delete Obj.deleteProperty
  by_cases hlength : (c.object target).length.isSome ∧ key = .length
  · rw [if_pos hlength]
    exact .inl rfl
  · rw [if_neg hlength]
    refine .inr ⟨?_, fun other => ?_, Call.write_same, rfl⟩
    · rw [Call.report_object, Call.write_object]
    · rw [Call.report_object, Call.write_object]
      exact Function.update_apply ..

theorem Call.delete_reported_mono {path : List Char} (hmem : path ∈ c.reported) :
    path ∈ (c.delete target basePath key).reported := by
  rcases c.delete_cases target basePath key with hdelete | ⟨-, -, -, hdelete⟩
  · rwa [hdelete]
  · rw [hdelete]
    exact List.mem_append_left _ hmem

theorem Noted.delete (h : Noted o target basePath c other) :
    Noted o target basePath (c.delete target basePath key) other := by
  refine h.step (fun path => Call.delete_reported_mono) ?_
  rcases c.delete_cases target basePath key with hdelete | ⟨hlength, hslots, -, hreported⟩
  · exact .inr (by rw [hdelete])
  · by_cases hkey : other = key
    · subst hkey
      rw [hreported]
      exact .inl (by simp)
    · refine .inr ?_
      unfold Obj.get
      rw [hlength, hslots, if_neg hkey]

end Calls

/-! ## Section 3: The loops of the array methods

    All that a method does before it assigns the length is to read slots and to
    write or delete elements. -/

section Loops

variable [DecidableEq α] {runtime : Runtime α} {target : Ref} {basePath : List Char}
  {I : Call α → Prop} {c : Call α}

/-- The slots an access writes are among `writes`, those it may delete among
    `deletes`. -/
def Access.On (writes deletes : Key → Prop) : Access α → Prop
  | .get _ => True
  | .set key _ => writes key
  | .delete key => deletes key
  | .move _ dest => writes (.index dest) ∧ deletes (.index dest)
  | .swap lower upper =>
      (writes (.index lower) ∧ deletes (.index lower)) ∧
        writes (.index upper) ∧ deletes (.index upper)

/-- What an invariant must survive to hold after a loop. -/
structure Kept (runtime : Runtime α) (target : Ref) (basePath : List Char)
    (writes deletes : Key → Prop) (I : Call α → Prop) : Prop where
  get : ∀ c key, I c → I (c.get target basePath key)
  set : ∀ c key v, writes key → I c → I (c.set runtime target basePath key v)
  delete : ∀ c key, deletes key → I c → I (c.delete target basePath key)

variable {writes deletes : Key → Prop}

theorem Kept.move (h : Kept runtime target basePath writes deletes I) {source dest : Nat}
    (hdest : writes (.index dest) ∧ deletes (.index dest)) (hc : I c) :
    I (c.move runtime target basePath source dest) := by
  unfold Call.move
  split
  · exact h.set _ _ _ hdest.1 (h.get _ _ hc)
  · exact h.delete _ _ hdest.2 hc

theorem Kept.swap (h : Kept runtime target basePath writes deletes I) {lower upper : Nat}
    (hlower : writes (.index lower) ∧ deletes (.index lower))
    (hupper : writes (.index upper) ∧ deletes (.index upper)) (hc : I c) :
    I (c.swap runtime target basePath lower upper) := by
  unfold Call.swap
  dsimp only
  split
  · exact h.set _ _ _ hupper.1 (h.set _ _ _ hlower.1 (h.get _ _ (h.get _ _ hc)))
  · exact h.delete _ _ hupper.2 (h.set _ _ _ hlower.1 (h.get _ _ hc))
  · exact h.set _ _ _ hupper.1 (h.delete _ _ hlower.2 (h.get _ _ hc))
  · exact hc

theorem Kept.access (h : Kept runtime target basePath writes deletes I) {a : Access α}
    (ha : a.On writes deletes) (hc : I c) : I (a.run runtime target basePath c) := by
  cases a with
  | get key => exact h.get c key hc
  | set key v => exact h.set c key v ha hc
  | delete key => exact h.delete c key ha hc
  | move source dest => exact h.move ha hc
  | swap lower upper => exact h.swap ha.1 ha.2 hc

theorem Kept.run (h : Kept runtime target basePath writes deletes I) {accesses : List (Access α)}
    (hon : ∀ a ∈ accesses, a.On writes deletes) (hc : I c) :
    I (c.run runtime target basePath accesses) := by
  unfold Call.run
  induction accesses generalizing c with
  | nil => exact hc
  | cons a accesses ih =>
    have ha : I (a.run runtime target basePath c) := h.access (hon a List.mem_cons_self) hc
    exact ih (fun b hb => hon b (List.mem_cons_of_mem _ hb)) ha

/-- Elements below a bound; all elements. -/
def Key.Below (high : Nat) : Key → Prop
  | .index i => i < high
  | .name _ => False

def Key.IsIndex : Key → Prop
  | .index _ => True
  | .name _ => False

theorem Call.run_append (c : Call α) (first second : List (Access α)) :
    c.run runtime target basePath (first ++ second) =
      (c.run runtime target basePath first).run runtime target basePath second :=
  List.foldl_append

theorem Call.run_cons (c : Call α) (a : Access α) (accesses : List (Access α)) :
    c.run runtime target basePath (a :: accesses) =
      (a.run runtime target basePath c).run runtime target basePath accesses := rfl

/-- Before a method assigns the length: every element that reads differently has been
    reported, nothing but elements has, and the length is within bounds. -/
structure Looping (s : Store α) (target : Ref) (basePath : List Char) (low high : Nat)
    (c : Call α) : Prop where
  same : s.SameBut target c.store
  noted : ∀ key, key ≠ .length → Noted (s.heap target) target basePath c key
  reported : ∀ path ∈ c.reported, ∃ i, path = childPath basePath (.index i)
  long : ∃ m, (c.object target).length = some m ∧ low ≤ m ∧ m ≤ high

variable {s : Store α} {low high : Nat}

omit [DecidableEq α] in
theorem looping_start {len : Nat} (h : (s.heap target).length = some len) (hlow : low ≤ len)
    (hhigh : len ≤ high) : Looping s target basePath low high ⟨s, []⟩ where
  same := .refl target s
  noted := fun _ _ hchanged => absurd rfl hchanged
  reported := fun _ hmem => absurd hmem List.not_mem_nil
  long := ⟨len, h, hlow, hhigh⟩

theorem Looping.get (h : Looping s target basePath low high c) (key : Key) :
    Looping s target basePath low high (c.get target basePath key) where
  same := h.same.trans Call.get_same
  noted := fun other hother => (h.noted other hother).get
  reported := by simpa using h.reported
  long := by simpa using h.long

theorem Looping.set (h : Looping s target basePath low high c) (runtime : Runtime α) {i : Nat} (v : Value α)
    (hi : i < high) :
    Looping s target basePath low high (c.set runtime target basePath (.index i) v) ∧
      Looping s target basePath (i + 1) high (c.set runtime target basePath (.index i) v) := by
  have hput : (c.object target).set runtime (.index i) v = some ((c.object target).put (.index i) v) :=
    Obj.set_of_ne_length (by simp)
  obtain ⟨m, hm, hlow, hhigh⟩ := h.long
  have hnoted : ∀ key, key ≠ .length →
      Noted (s.heap target) target basePath (c.set runtime target basePath (.index i) v) key := by
    intro key hkey
    refine (h.noted key hkey).set fun hne o' ho' => ?_
    obtain rfl := Option.some.inj (hput.symm.trans ho')
    exact Obj.put_get_of_ne hne (.inl hkey)
  rcases Call.set_cases runtime c target basePath (.index i) v with
    ⟨hnone, -⟩ | ⟨o', ho', hobject, hsame, hreported⟩
  · exact absurd (hput.symm.trans hnone) (by simp)
  · obtain rfl := Option.some.inj (hput.symm.trans ho')
    have hlength : ((c.set runtime target basePath (.index i) v).object target).length =
        some (max m (i + 1)) := by
      rw [hobject, Obj.put_length, hm]
      rfl
    have hpaths : ∀ path ∈ (c.set runtime target basePath (.index i) v).reported,
        ∃ i, path = childPath basePath (.index i) := by
      intro path hmem
      rw [hreported] at hmem
      split at hmem
      · exact h.reported path hmem
      · rcases List.mem_append.mp hmem with hmem | hmem
        · exact h.reported path hmem
        · exact ⟨i, List.mem_singleton.mp hmem⟩
    have hmax : max m (i + 1) ≤ high := Nat.max_le.mpr ⟨hhigh, hi⟩
    exact ⟨⟨h.same.trans hsame, hnoted, hpaths, _, hlength, hlow.trans (Nat.le_max_left _ _), hmax⟩,
      ⟨h.same.trans hsame, hnoted, hpaths, _, hlength, Nat.le_max_right _ _, hmax⟩⟩

theorem Looping.delete (h : Looping s target basePath low high c) (i : Nat) :
    Looping s target basePath low high (c.delete target basePath (.index i)) := by
  have hnoted : ∀ key, key ≠ .length →
      Noted (s.heap target) target basePath (c.delete target basePath (.index i)) key :=
    fun key hkey => (h.noted key hkey).delete
  rcases c.delete_cases target basePath (.index i) with hdelete | ⟨hlength, -, hsame, hreported⟩
  · rwa [hdelete]
  · refine ⟨h.same.trans hsame, hnoted, fun path hmem => ?_, by rw [hlength]; exact h.long⟩
    rw [hreported] at hmem
    rcases List.mem_append.mp hmem with hmem | hmem
    · exact h.reported path hmem
    · exact ⟨i, List.mem_singleton.mp hmem⟩

theorem looping_kept (runtime : Runtime α) (s : Store α) (target : Ref) (basePath : List Char)
    (low high : Nat) :
    Kept runtime target basePath (Key.Below high) Key.IsIndex
      (Looping s target basePath low high) where
  get := fun _ key h => h.get key
  set
    | _, .index _, v, hi, h => (h.set runtime v hi).1
    | _, .name _, _, hi, _ => hi.elim
  delete
    | _, .index i, _, h => h.delete i
    | _, .name _, hi, _ => hi.elim

/-- There is no element from `n` on. -/
def Cleared (target : Ref) (n : Nat) (c : Call α) : Prop :=
  ∀ i, n ≤ i → (c.object target).slots (.index i) = none

omit [DecidableEq α] in
theorem cleared_of_length {n m : Nat} (h : (c.object target).length = some m) (hle : m ≤ n) :
    Cleared target n c :=
  fun i hi => (c.object target).bounded m i h (hle.trans hi)

theorem Cleared.delete {n : Nat} (h : Cleared target n c) (basePath : List Char) (i : Nat) :
    Cleared target n (c.delete target basePath (.index i)) ∧
      (n = i + 1 → Cleared target i (c.delete target basePath (.index i))) := by
  unfold Cleared Call.delete Obj.deleteProperty at *
  simp only [reduceCtorEq, and_false, if_false, Call.report_object, Call.write_object]
  constructor
  · intro j hj
    rw [Function.update_apply, h j hj, ite_self]
  · rintro rfl j hj
    by_cases hji : j = i
    · rw [hji, Function.update_self]
    · rw [Function.update_of_ne (by simpa using hji)]
      exact h j (by omega)

theorem cleared_kept (runtime : Runtime α) (target : Ref) (basePath : List Char) (n : Nat) :
    Kept runtime target basePath (Key.Below n) Key.IsIndex (Cleared target n) where
  get := fun c key h i hi => by rw [Call.get_object]; exact h i hi
  set := by
    rintro c (i | name) v hi h j hj
    case name => exact hi.elim
    change i < n at hi
    have hput : (c.object target).set runtime (.index i) v =
        some ((c.object target).put (.index i) v) := Obj.set_of_ne_length (by simp)
    have hne : Key.index j ≠ .index i := by
      rintro ⟨⟩
      omega
    rcases Call.set_cases runtime c target basePath (.index i) v with
      ⟨hnone, -⟩ | ⟨o', ho', hobject, -, -⟩
    · exact absurd (hput.symm.trans hnone) (by simp)
    · obtain rfl := Option.some.inj (hput.symm.trans ho')
      rw [hobject, Obj.put_slots_of_ne hne]
      exact h j hj
  delete
    | _, .index i, _, h => (h.delete basePath i).1
    | _, .name _, hi, _ => hi.elim

/-- The loop of `splice` that deletes the end of an array. -/
theorem Cleared.run_deletes {len : Nat} (h : Cleared target len c) (count : Nat)
    (hcount : count ≤ len) :
    Cleared target (len - count) (c.run runtime target basePath
      ((List.range count).map fun k => .delete (.index (len - 1 - k)))) := by
  induction count with
  | zero => exact h
  | succ count ih =>
    rw [List.range_succ, List.map_append, Call.run_append]
    have hnext : len - count = (len - 1 - count) + 1 := by omega
    have hlast := ((ih (by omega)).delete basePath (len - 1 - count)).2 hnext
    rwa [show len - (count + 1) = len - 1 - count by omega]

/-- After the assignment of the length every slot has been noted, unless the array
    already had its new length by then. -/
theorem Looping.finish (h : Looping s target basePath low high c) {len n : Nat}
    (hlen : (s.heap target).length = some len) (hcleared : Cleared target n c)
    (hlength : n = len ∨ (c.object target).length ≠ some n) (key : Key) :
    Noted (s.heap target) target basePath
      (c.set runtime target basePath .length (.number n)) key := by
  obtain ⟨m, hm, -⟩ := h.long
  have hset : (c.object target).set runtime .length (.number n) =
      some ((c.object target).setLength n) := if_pos ⟨by simp [hm], rfl⟩
  by_cases hkey : key = .length
  · subst hkey
    rcases Call.set_cases runtime c target basePath .length (.number n) with
      ⟨hnone, -⟩ | ⟨o', ho', hobject, -, hreported⟩
    · exact absurd (hset.symm.trans hnone) (by simp)
    · obtain rfl := Option.some.inj (hset.symm.trans ho')
      intro hchanged
      rw [hobject, Obj.get_length rfl, Obj.get_length hlen] at hchanged
      have hne : m ≠ n := by
        rintro rfl
        rcases hlength with rfl | hlength
        · exact hchanged rfl
        · exact hlength hm
      rw [hreported, Obj.get_length hm, if_neg (by simpa using hne)]
      simp
  · refine (h.noted key hkey).set fun _ o' ho' => ?_
    obtain rfl := Option.some.inj (hset.symm.trans ho')
    cases key with
    | index i =>
      refine Obj.setLength_get_index fun hi => ?_
      rw [Obj.get_index, hcleared i hi]
      rfl
    | name name => exact Obj.setLength_get_name hkey

/-- An array that grew by a write to an element has not had its length noted. -/
theorem Looping.not_noted (h : Looping s target basePath low high c) {len n : Nat}
    (hlen : (s.heap target).length = some len) (hn : (c.object target).length = some n)
    (hne : n ≠ len) :
    ¬ Noted (s.heap target) target basePath
      (c.set runtime target basePath .length (.number n)) .length := by
  intro hnoted
  have hset : (c.object target).set runtime .length (.number n) =
      some ((c.object target).setLength n) := if_pos ⟨by simp [hn], rfl⟩
  rcases Call.set_cases runtime c target basePath .length (.number n) with
    ⟨hnone, -⟩ | ⟨o', ho', hobject, -, hreported⟩
  · exact absurd (hset.symm.trans hnone) (by simp)
  · obtain rfl := Option.some.inj (hset.symm.trans ho')
    have hmem := hnoted (by
      rw [hobject, Obj.get_length rfl, Obj.get_length hlen]
      simpa using hne)
    rw [hreported, if_pos (Obj.get_length hn)] at hmem
    obtain ⟨i, hi⟩ := h.reported _ hmem
    exact childPath_length_ne_index basePath i hi

/-! ## Section 4: Splicing -/

variable {len start deleteCount : Nat} {items : List (Value α)}

omit [DecidableEq α] in
theorem on_gets (writes deletes : Key → Prop) (start count : Nat) :
    ∀ a ∈ (List.range count).map (fun k => (Access.get (.index (start + k)) : Access α)),
      a.On writes deletes := by
  intro a ha
  obtain ⟨k, -, rfl⟩ := List.mem_map.mp ha
  trivial

omit [DecidableEq α] in
theorem on_sets {high : Nat} (items : List (Value α)) (start : Nat)
    (h : start + items.length ≤ high) :
    ∀ a ∈ items.mapIdx (fun k item => (Access.set (.index (start + k)) item : Access α)),
      a.On (Key.Below high) Key.IsIndex := by
  intro a ha
  obtain ⟨k, hk, rfl⟩ := List.mem_mapIdx.mp ha
  show start + k < high
  omega

omit [DecidableEq α] in
theorem on_moves {high : Nat} (start deleteCount itemCount : Nat) {indices : List Nat}
    (h : ∀ k ∈ indices, start + k + itemCount < high) :
    ∀ a ∈ indices.map
        (fun k => (Access.move (start + k + deleteCount) (start + k + itemCount) : Access α)),
      a.On (Key.Below high) Key.IsIndex := by
  intro a ha
  obtain ⟨k, hk, rfl⟩ := List.mem_map.mp ha
  exact ⟨h k hk, trivial⟩

omit [DecidableEq α] in
theorem on_deletes (high len count : Nat) :
    ∀ a ∈ (List.range count).map (fun k => (Access.delete (.index (len - 1 - k)) : Access α)),
      a.On (Key.Below high) Key.IsIndex := by
  intro a ha
  obtain ⟨k, -, rfl⟩ := List.mem_map.mp ha
  trivial

theorem gets_object (runtime : Runtime α) (s : Store α) (target : Ref) (basePath : List Char)
    (start count : Nat) :
    (Call.run runtime target basePath ⟨s, []⟩ ((List.range count).map fun k =>
      .get (.index (start + k)))).object target = s.heap target := by
  have hkept : Kept runtime target basePath (fun _ => False) (fun _ => False)
      (fun c : Call α => c.object target = s.heap target) :=
    ⟨fun c key h => by rw [Call.get_object]; exact h, fun _ _ _ h => h.elim, fun _ _ h => h.elim⟩
  exact hkept.run (on_gets _ _ start count) rfl

/-- Behind a part that gets no longer the array is cleared from its new end on. -/
theorem Looping.moves_shrink (runtime : Runtime α) (h : Looping s target basePath len len c)
    (hempty : Cleared target len c) {itemCount : Nat} (hfit : start + deleteCount ≤ len)
    (hle : itemCount ≤ deleteCount) :
    Looping s target basePath len len
        (c.run runtime target basePath (spliceMoves len start deleteCount itemCount)) ∧
      Cleared target (len - deleteCount + itemCount)
        (c.run runtime target basePath (spliceMoves len start deleteCount itemCount)) := by
  have hkept := looping_kept runtime s target basePath len len
  unfold spliceMoves
  dsimp only
  rcases Nat.lt_or_eq_of_le hle with hlt | heq
  · have hmoves := on_moves (α := α) start deleteCount itemCount
      (h := fun k (hk : k ∈ List.range (len - deleteCount - start)) =>
        show start + k + itemCount < len by
          have hlast := List.mem_range.mp hk
          omega)
    rw [if_pos hlt, Call.run_append]
    refine ⟨hkept.run (on_deletes len len _) (hkept.run hmoves h), ?_⟩
    have hmoved := (cleared_kept runtime target basePath len).run hmoves hempty
    have hend : len - (deleteCount - itemCount) = len - deleteCount + itemCount := by omega
    exact hend ▸ hmoved.run_deletes (deleteCount - itemCount) (by omega)
  · have hend : len - deleteCount + itemCount = len := by omega
    rw [if_neg (by omega), if_neg (by omega), hend]
    exact ⟨h, hempty⟩

/-- A part that gets no longer leaves the length to the assignment. -/
theorem looping_shrink (runtime : Runtime α) (basePath : List Char)
    (hlen : (s.heap target).length = some len)
    (hfit : start + deleteCount ≤ len) (hle : items.length ≤ deleteCount) :
    Looping s target basePath len len
        (Call.run runtime target basePath ⟨s, []⟩ (spliceLoops len start deleteCount items)) ∧
      Cleared target (len - deleteCount + items.length)
        (Call.run runtime target basePath ⟨s, []⟩ (spliceLoops len start deleteCount items)) := by
  have hkept := looping_kept runtime s target basePath len len
  have hloop := hkept.run (on_gets _ _ start deleteCount)
    (looping_start hlen (Nat.le_refl _) (Nat.le_refl _))
  have hempty := (cleared_kept runtime target basePath len).run (on_gets _ _ start deleteCount)
    (cleared_of_length (c := ⟨s, []⟩) hlen (Nat.le_refl _))
  obtain ⟨hmoved, hcleared⟩ := hloop.moves_shrink runtime hempty hfit hle
  unfold spliceLoops
  rw [Call.run_append, Call.run_append]
  exact ⟨hkept.run (on_sets items start (by omega)) hmoved,
    (cleared_kept runtime target basePath _).run (on_sets items start (by omega)) hcleared⟩

theorem Call.move_hole {source : Nat} (h : (c.object target).slots (.index source) = none)
    (dest : Nat) : c.move runtime target basePath source dest =
      c.delete target basePath (.index dest) := by
  have hhas : c.has target source = false := by simp [Call.has, h]
  unfold Call.move
  simp [hhas]

theorem Looping.move_grow (h : Looping s target basePath low high c) (runtime : Runtime α)
    {source dest : Nat} (hhas : c.has target source = true) (hdest : dest < high) :
    Looping s target basePath (dest + 1) high (c.move runtime target basePath source dest) := by
  unfold Call.move
  rw [if_pos hhas]
  exact ((h.get (.index source)).set runtime _ hdest).2

/-- Where the last element is a hole, the loops do not reach the new end. -/
theorem looping_hole (runtime : Runtime α) (basePath : List Char)
    (hlen : (s.heap target).length = some len) (hlt : deleteCount < items.length)
    (hbehind : start + deleteCount < len) (hhole : (s.heap target).slots (.index (len - 1)) = none) :
    Looping s target basePath 0 (len - deleteCount + items.length - 1)
      (Call.run runtime target basePath ⟨s, []⟩ (spliceLoops len start deleteCount items)) := by
  have hkept := looping_kept runtime s target basePath 0 (len - deleteCount + items.length - 1)
  have hloop := hkept.run (on_gets _ _ start deleteCount)
    (looping_start hlen (Nat.zero_le _) (by omega))
  have hempty : Cleared target (len - 1) (⟨s, []⟩ : Call α) := by
    intro i hi
    rcases Nat.lt_or_eq_of_le hi with h | rfl
    · exact (s.heap target).bounded len i hlen (by omega)
    · exact hhole
  have hstill := (cleared_kept runtime target basePath (len - 1)).run
    (on_gets _ _ start deleteCount) hempty
  obtain ⟨count, hcount⟩ : ∃ count, len - deleteCount - start = count + 1 :=
    ⟨len - deleteCount - start - 1, by omega⟩
  unfold spliceLoops spliceMoves
  dsimp only
  rw [Call.run_append, Call.run_append, if_neg (by omega), if_pos hlt, hcount, List.range_succ,
    List.reverse_concat, List.map_cons, Call.run_cons]
  refine hkept.run (on_sets items start (by omega)) ?_
  have hmoves : ∀ k ∈ (List.range count).reverse,
      start + k + items.length < len - deleteCount + items.length - 1 := by
    intro k hk
    have hlast := List.mem_range.mp (List.mem_reverse.mp hk)
    omega
  refine hkept.run (on_moves start deleteCount items.length hmoves) ?_
  show Looping s target basePath _ _ (Call.move runtime target basePath _ _ _)
  rw [Call.move_hole (hstill _ (by omega))]
  exact hloop.delete _

/-- Otherwise a write to the last element makes the array longer. -/
theorem looping_grow (runtime : Runtime α) (basePath : List Char)
    (hlen : (s.heap target).length = some len) (hlt : deleteCount < items.length)
    (hfit : start + deleteCount ≤ len)
    (hfull : start + deleteCount = len ∨ (s.heap target).slots (.index (len - 1)) ≠ none) :
    Looping s target basePath (len - deleteCount + items.length)
      (len - deleteCount + items.length)
      (Call.run runtime target basePath ⟨s, []⟩ (spliceLoops len start deleteCount items)) := by
  have hkept (low : Nat) :=
    looping_kept runtime s target basePath low (len - deleteCount + items.length)
  have hloop := (hkept 0).run (on_gets _ _ start deleteCount)
    (looping_start hlen (Nat.zero_le _) (by omega))
  have hgot := gets_object runtime s target basePath start deleteCount
  unfold spliceLoops spliceMoves
  dsimp only
  rw [Call.run_append, Call.run_append, if_neg (by omega), if_pos hlt]
  by_cases hend : start + deleteCount = len
  · -- nothing is behind the deleted part, and the last item is the new last element
    obtain ⟨init, last, rfl⟩ : ∃ init last, items = init ++ [last] := by
      rcases List.eq_nil_or_concat items with rfl | ⟨init, last, h⟩
      · exact absurd hlt (Nat.not_lt_zero _)
      · exact ⟨init, last, by simpa using h⟩
    rw [List.length_append, List.length_singleton] at *
    have hzero : len - deleteCount - start = 0 := by omega
    rw [hzero, List.mapIdx_concat, Call.run_append]
    have hinit := (hkept 0).run (on_sets init start (by omega)) hloop
    have hlast := (hinit.set runtime last (show start + init.length < _ by omega)).2
    have hnew : start + init.length + 1 = len - deleteCount + (init.length + 1) := by omega
    rw [hnew] at hlast
    exact hlast
  · obtain ⟨count, hcount⟩ : ∃ count, len - deleteCount - start = count + 1 :=
      ⟨len - deleteCount - start - 1, by omega⟩
    rw [hcount, List.range_succ, List.reverse_concat, List.map_cons, Call.run_cons]
    have hmoves : ∀ k ∈ (List.range count).reverse,
        start + k + items.length < len - deleteCount + items.length := by
      intro k hk
      have hlast := List.mem_range.mp (List.mem_reverse.mp hk)
      omega
    refine (hkept _).run (on_sets items start (by omega)) ?_
    refine (hkept _).run (on_moves start deleteCount items.length hmoves) ?_
    have hhas : (Call.run runtime target basePath ⟨s, []⟩ ((List.range deleteCount).map fun k =>
        .get (.index (start + k)))).has target (start + count + deleteCount) = true := by
      have hsource : start + count + deleteCount = len - 1 := by omega
      rw [Call.has, hgot, hsource]
      exact Option.isSome_iff_ne_none.mpr (hfull.resolve_left hend)
    have hlast := hloop.move_grow runtime hhas (show start + count + items.length < _ by omega)
    have hnew : start + count + items.length + 1 = len - deleteCount + items.length := by omega
    rw [hnew] at hlast
    exact hlast

end Loops

end StoreProxy
