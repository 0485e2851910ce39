import Cossack.Lib.Entries

/-! # Records

    Objects as data: their own properties in insertion order, no key twice. -/

structure Record (V : Type) where
  entries : List (String × V)
  nodup : (entries.map Prod.fst).Nodup

namespace Record

variable {V W : Type}

/-! ## Section 1: Properties -/

def get (r : Record V) (key : String) : Option V := Entries.get r.entries key

def empty : Record V := ⟨[], List.nodup_nil⟩

def set (r : Record V) (key : String) (v : V) : Record V :=
  ⟨Entries.set r.entries key v, Entries.nodup_set r.nodup key v⟩

@[simp] theorem get_empty (key : String) : (empty : Record V).get key = none := rfl

@[simp] theorem get_set_self (r : Record V) (key : String) (v : V) :
    (r.set key v).get key = some v := Entries.get_set_self _ _ _

theorem get_set_of_ne (r : Record V) {key other : String} (v : V) (h : key ≠ other) :
    (r.set key v).get other = r.get other := Entries.get_set_of_ne _ _ h

/-! ## Section 2: Spreads -/

/-- The properties of `entries` written over those of a record, one by one. -/
def assignAll (r : Record V) (entries : List (String × V)) : Record V :=
  entries.foldl (fun r e => r.set e.1 e.2) r

/-- `{ ...r, ...s }`. -/
def spread (r s : Record V) : Record V := r.assignAll s.entries

theorem get_assignAll (r : Record V) {entries : List (String × V)}
    (h : (entries.map Prod.fst).Nodup) (key : String) :
    (r.assignAll entries).get key = (Entries.get entries key).or (r.get key) := by
  induction entries generalizing r with
  | nil => rfl
  | cons e rest ih =>
    rw [List.map_cons, List.nodup_cons] at h
    show (assignAll (r.set e.1 e.2) rest).get key = _
    rw [ih (r.set e.1 e.2) h.2, Entries.get_cons]
    by_cases hkey : e.1 = key
    · subst hkey
      have hnone : Entries.get rest e.1 = none := by
        rw [Entries.get, Entries.find_of_not_mem h.1]
        rfl
      simp [hnone]
    · rw [if_neg hkey, get_set_of_ne _ _ hkey]

@[simp] theorem get_spread (r s : Record V) (key : String) :
    (r.spread s).get key = (s.get key).or (r.get key) :=
  get_assignAll r s.nodup key

/-! ## Section 3: Images -/

/-- The properties whose value has an image. -/
def mapSome (f : V → Option W) (r : Record V) : Record W :=
  ⟨r.entries.filterMap fun e => (f e.2).map (e.1, ·), by
    refine r.nodup.sublist ?_
    induction r.entries with
    | nil => exact List.Sublist.refl _
    | cons e rest ih =>
      cases hf : f e.2 with
      | none => simpa [List.filterMap_cons, hf] using ih.cons e.1
      | some w => simpa [List.filterMap_cons, hf] using ih⟩

theorem get_filterMap (f : V → Option W) {entries : List (String × V)}
    (h : (entries.map Prod.fst).Nodup) (key : String) :
    Entries.get (entries.filterMap fun e => (f e.2).map (e.1, ·)) key =
      (Entries.get entries key).bind f := by
  induction entries with
  | nil => rfl
  | cons e rest ih =>
    rw [List.map_cons, List.nodup_cons] at h
    have hrest := ih h.2
    rw [Entries.get_cons]
    by_cases hkey : e.1 = key
    · subst hkey
      have hnone : Entries.get rest e.1 = none := by
        rw [Entries.get, Entries.find_of_not_mem h.1]
        rfl
      cases hf : f e.2 with
      | none => simp [List.filterMap_cons, hf, hrest, hnone]
      | some w => simp [List.filterMap_cons, hf, Entries.get_cons]
    · cases hf : f e.2 with
      | none => simp [List.filterMap_cons, hf, hrest, hkey]
      | some w => simp [List.filterMap_cons, hf, hrest, hkey, Entries.get_cons]

@[simp] theorem get_mapSome (f : V → Option W) (r : Record V) (key : String) :
    (r.mapSome f).get key = (r.get key).bind f :=
  get_filterMap f r.nodup key

/-! ## Section 4: Records with the same keys -/

/-- The same keys in the same order, with related values. -/
def Related (R : String → V → W → Prop) (r : Record V) (s : Record W) : Prop :=
  List.Forall₂ (fun a b => a.1 = b.1 ∧ R a.1 a.2 b.2) r.entries s.entries

section
variable {R : String → V → W → Prop}

theorem related_empty : Related R empty empty := List.Forall₂.nil

theorem get_related {l : List (String × V)} {l' : List (String × W)}
    (h : List.Forall₂ (fun a b => a.1 = b.1 ∧ R a.1 a.2 b.2) l l') (key : String) :
    (Entries.get l key = none ∧ Entries.get l' key = none) ∨
      ∃ v w, Entries.get l key = some v ∧ Entries.get l' key = some w ∧ R key v w := by
  induction h with
  | nil => exact Or.inl ⟨rfl, rfl⟩
  | @cons a b as bs hab _ ih =>
    obtain ⟨hkey, hrel⟩ := hab
    rw [Entries.get_cons, Entries.get_cons, ← hkey]
    by_cases hfound : a.1 = key
    · rw [if_pos hfound, if_pos hfound, ← hfound]
      exact Or.inr ⟨a.2, b.2, rfl, rfl, hrel⟩
    · rw [if_neg hfound, if_neg hfound]
      exact ih

theorem set_related {l : List (String × V)} {l' : List (String × W)}
    (h : List.Forall₂ (fun a b => a.1 = b.1 ∧ R a.1 a.2 b.2) l l') {key : String} {v : V} {w : W}
    (hvw : R key v w) :
    List.Forall₂ (fun a b => a.1 = b.1 ∧ R a.1 a.2 b.2) (Entries.set l key v)
      (Entries.set l' key w) := by
  induction h with
  | nil => exact List.Forall₂.cons ⟨rfl, hvw⟩ List.Forall₂.nil
  | @cons a b as bs hab htail ih =>
    unfold Entries.set
    rw [← hab.1]
    by_cases hfound : a.1 = key
    · rw [if_pos hfound, if_pos hfound]
      exact List.Forall₂.cons ⟨rfl, hvw⟩ htail
    · rw [if_neg hfound, if_neg hfound]
      exact List.Forall₂.cons hab ih

theorem Related.get {r : Record V} {s : Record W} (h : Related R r s) (key : String) :
    (r.get key = none ∧ s.get key = none) ∨
      ∃ v w, r.get key = some v ∧ s.get key = some w ∧ R key v w :=
  get_related h key

theorem Related.set {r : Record V} {s : Record W} (h : Related R r s) {key : String} {v : V} {w : W}
    (hvw : R key v w) : Related R (r.set key v) (s.set key w) :=
  set_related h hvw

end

end Record
