import Mathlib.Data.List.Nodup

/-! # Association lists with distinct keys

    Forms, objects and maps in insertion order, read by key. -/

namespace Entries

variable {K V : Type} [DecidableEq K] {entries : List (K × V)} {key : K} {v : V}

theorem filter_of_mem (h : (entries.map Prod.fst).Nodup) (hmem : (key, v) ∈ entries) :
    entries.filter (·.1 == key) = [(key, v)] := by
  induction entries with
  | nil => exact absurd hmem List.not_mem_nil
  | cons e rest ih =>
    rw [List.map_cons, List.nodup_cons] at h
    rcases List.mem_cons.mp hmem with rfl | hrest
    · have hnone : rest.filter (·.1 == key) = [] := by
        rw [List.filter_eq_nil_iff]
        intro u hu heq
        exact h.1 (List.mem_map.mpr ⟨u, hu, by simpa using heq⟩)
      simp [hnone]
    · have hne : e.1 ≠ key := fun heq => h.1 (heq ▸ List.mem_map.mpr ⟨_, hrest, rfl⟩)
      rw [List.filter_cons_of_neg (by simpa using hne), ih h.2 hrest]

theorem filter_of_not_mem (h : key ∉ entries.map Prod.fst) :
    entries.filter (·.1 == key) = [] := by
  rw [List.filter_eq_nil_iff]
  intro e he heq
  exact h (List.mem_map.mpr ⟨e, he, by simpa using heq⟩)

theorem find_of_mem (h : (entries.map Prod.fst).Nodup) (hmem : (key, v) ∈ entries) :
    entries.find? (·.1 == key) = some (key, v) := by
  rw [← List.head?_filter, filter_of_mem h hmem]
  rfl

theorem find_of_not_mem (h : key ∉ entries.map Prod.fst) :
    entries.find? (·.1 == key) = none := by
  rw [← List.head?_filter, filter_of_not_mem h]
  rfl

/-- A key has one entry or none. -/
theorem exists_or_not_mem (entries : List (K × V)) (key : K) :
    (∃ v, (key, v) ∈ entries) ∨ key ∉ entries.map Prod.fst := by
  by_cases h : key ∈ entries.map Prod.fst
  · obtain ⟨e, he, rfl⟩ := List.mem_map.mp h
    exact .inl ⟨e.2, he⟩
  · exact .inr h

/-! ## Maps in insertion order -/

def get (entries : List (K × V)) (key : K) : Option V :=
  (entries.find? (·.1 == key)).map Prod.snd

/-- Replace the value in place, or append the entry. -/
def set (entries : List (K × V)) (key : K) (v : V) : List (K × V) :=
  match entries with
  | [] => [(key, v)]
  | e :: rest => if e.1 = key then (key, v) :: rest else e :: set rest key v

def erase (entries : List (K × V)) (key : K) : List (K × V) := entries.filter (·.1 != key)

@[simp] theorem get_nil (key : K) : get ([] : List (K × V)) key = none := rfl

theorem get_cons (e : K × V) (rest : List (K × V)) (key : K) :
    get (e :: rest) key = if e.1 = key then some e.2 else get rest key := by
  by_cases h : e.1 = key <;> simp [get, h]

@[simp] theorem get_set_self (entries : List (K × V)) (key : K) (v : V) :
    get (set entries key v) key = some v := by
  induction entries with
  | nil => simp [set, get_cons]
  | cons e rest ih =>
    by_cases h : e.1 = key
    · simp [set, h, get_cons]
    · simp [set, h, get_cons, ih]

theorem get_set_of_ne (entries : List (K × V)) {key other : K} (v : V) (h : key ≠ other) :
    get (set entries key v) other = get entries other := by
  induction entries with
  | nil => simp [set, get_cons, h]
  | cons e rest ih =>
    by_cases he : e.1 = key
    · simp [set, he, get_cons, h]
    · simp [set, he, get_cons, ih]

@[simp] theorem get_erase_self (entries : List (K × V)) (key : K) :
    get (erase entries key) key = none := by
  have hnone : (erase entries key).find? (·.1 == key) = none := by
    rw [List.find?_eq_none]
    intro e he
    have := (List.mem_filter.mp he).2
    simpa using this
  simp [get, hnone]

theorem get_erase_of_ne (entries : List (K × V)) {key other : K} (h : key ≠ other) :
    get (erase entries key) other = get entries other := by
  induction entries with
  | nil => rfl
  | cons e rest ih =>
    by_cases he : e.1 = key
    · simp only [erase, List.filter_cons] at ih ⊢
      simp [he, ih, get_cons, h]
    · simp only [erase, List.filter_cons] at ih ⊢
      simp [he, get_cons, ih]

theorem keys_set (entries : List (K × V)) (key : K) (v : V) :
    (set entries key v).map Prod.fst =
      if key ∈ entries.map Prod.fst then entries.map Prod.fst
      else entries.map Prod.fst ++ [key] := by
  induction entries with
  | nil => simp [set]
  | cons e rest ih =>
    by_cases h : e.1 = key
    · simp [set, h]
    · have hne : key ≠ e.1 := fun heq => h heq.symm
      by_cases hmem : key ∈ rest.map Prod.fst
      · simp only [set, h, if_false, List.map_cons, ih, hmem, if_true]
        simp [hmem]
      · simp only [set, h, if_false, List.map_cons, ih, hmem]
        simp [hne, hmem]

/-- A key that is new comes last. -/
theorem set_of_get_none {entries : List (K × V)} {key : K} (h : get entries key = none) (v : V) :
    set entries key v = entries ++ [(key, v)] := by
  induction entries with
  | nil => rfl
  | cons e rest ih =>
    rw [get_cons] at h
    by_cases he : e.1 = key
    · rw [if_pos he] at h
      cases h
    · rw [if_neg he] at h
      simp [set, he, ih h]

theorem nodup_set {entries : List (K × V)} (h : (entries.map Prod.fst).Nodup) (key : K) (v : V) :
    ((set entries key v).map Prod.fst).Nodup := by
  rw [keys_set]
  by_cases hmem : key ∈ entries.map Prod.fst
  · rwa [if_pos hmem]
  · rw [if_neg hmem]
    exact List.Nodup.append h (List.nodup_singleton key) (by simpa using hmem)

theorem nodup_erase {entries : List (K × V)} (h : (entries.map Prod.fst).Nodup) (key : K) :
    ((erase entries key).map Prod.fst).Nodup :=
  h.sublist (List.Sublist.map _ List.filter_sublist)

theorem get_eq_some {entries : List (K × V)} (h : (entries.map Prod.fst).Nodup) {key : K} {v : V} :
    get entries key = some v ↔ (key, v) ∈ entries := by
  constructor
  · intro hget
    obtain ⟨e, he, rfl⟩ := Option.map_eq_some_iff.mp hget
    have hkey : e.1 = key := by simpa using List.find?_some he
    rw [← hkey]
    exact List.mem_of_find?_eq_some he
  · intro hmem
    rw [get, find_of_mem h hmem]
    rfl

/-- An entry that is replaced by one the search treats alike is found where it was. -/
theorem find_set {entries : List (K × V)} {key : K} {v w : V} (h : get entries key = some v)
    (p : K × V → Bool) (hp : p (key, w) = p (key, v)) :
    ((set entries key w).find? p).map Prod.fst = (entries.find? p).map Prod.fst := by
  induction entries with
  | nil => exact (nomatch h)
  | cons e rest ih =>
    rw [get_cons] at h
    by_cases he : e.1 = key
    · rw [if_pos he] at h
      have hentry : e = (key, v) := Prod.ext he (Option.some.inj h)
      rw [hentry]
      simp only [set, if_true, List.find?_cons, hp]
      cases p (key, v) <;> rfl
    · rw [if_neg he] at h
      simp only [set, he, if_false, List.find?_cons]
      cases p e with
      | true => rfl
      | false => exact ih h

end Entries
