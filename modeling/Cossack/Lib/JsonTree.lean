import Mathlib.Data.List.Basic

/-! # JSON trees

    Finite trees of null, booleans, numbers, strings, arrays and objects, with
    a further type of leaves for whatever a program mixes with JSON data.  An
    object is the list of its own properties in enumeration order.  Numbers
    are a parameter. -/

inductive JsonTree (N L : Type) where
  | null
  | bool (b : Bool)
  | num (n : N)
  | str (s : String)
  | arr (items : List (JsonTree N L))
  | obj (entries : List (String × JsonTree N L))
  | leaf (l : L)

namespace JsonTree

variable {N L M : Type}

/-- Induction with the hypotheses of an array and an object over their
    members. -/
@[elab_as_elim, induction_eliminator]
theorem ind {motive : JsonTree N L → Prop}
    (null : motive .null) (bool : ∀ b, motive (.bool b)) (num : ∀ n, motive (.num n))
    (str : ∀ s, motive (.str s))
    (arr : ∀ items, (∀ t ∈ items, motive t) → motive (.arr items))
    (obj : ∀ entries, (∀ e ∈ entries, motive e.2) → motive (.obj entries))
    (leaf : ∀ l, motive (.leaf l)) : ∀ t, motive t := fun t =>
  @JsonTree.rec N L motive (fun items => ∀ t ∈ items, motive t)
    (fun entries => ∀ e ∈ entries, motive e.2) (fun e => motive e.2)
    null bool num str arr obj leaf
    (fun _ h => absurd h List.not_mem_nil)
    (fun _ _ hhead htail _ hmem => (List.mem_cons.mp hmem).elim (fun h => h ▸ hhead) (htail _))
    (fun _ h => absurd h List.not_mem_nil)
    (fun _ _ hhead htail _ hmem => (List.mem_cons.mp hmem).elim (fun h => h ▸ hhead) (htail _))
    (fun _ _ h => h) t

/-- The value of the own property `key`. -/
def lookup (entries : List (String × JsonTree N L)) (key : String) : Option (JsonTree N L) :=
  (entries.find? fun e => e.1 == key).map Prod.snd

def hasKey (entries : List (String × JsonTree N L)) (key : String) : Bool :=
  entries.any fun e => e.1 == key

/-! ## Equality -/

mutual
/-- Structural equality. -/
def eqv [DecidableEq N] [DecidableEq L] : JsonTree N L → JsonTree N L → Bool
  | .null, .null => true
  | .bool a, .bool b => a == b
  | .num a, .num b => a == b
  | .str a, .str b => a == b
  | .arr a, .arr b => eqvItems a b
  | .obj a, .obj b => eqvEntries a b
  | .leaf a, .leaf b => a == b
  | _, _ => false
def eqvItems [DecidableEq N] [DecidableEq L] : List (JsonTree N L) → List (JsonTree N L) → Bool
  | [], [] => true
  | a :: s, b :: t => eqv a b && eqvItems s t
  | _, _ => false
def eqvEntries [DecidableEq N] [DecidableEq L] : List (String × JsonTree N L) → List (String × JsonTree N L) → Bool
  | [], [] => true
  | (k, a) :: s, (k', b) :: t => k == k' && eqv a b && eqvEntries s t
  | _, _ => false
end
theorem eqv_iff [DecidableEq N] [DecidableEq L] (a : JsonTree N L) : ∀ b, eqv a b = true ↔ a = b := by
  induction a using JsonTree.ind with
  | null | bool | num | str | leaf => intro b; cases b <;> simp [eqv]
  | arr items ih =>
    intro b
    cases b with
    | arr items' =>
      simp only [eqv, JsonTree.arr.injEq]
      induction items generalizing items' with
      | nil => cases items' <;> simp [eqvItems]
      | cons t rest ihr =>
        cases items' with
        | nil => simp [eqvItems]
        | cons u rest' =>
          simp [eqvItems, ih t List.mem_cons_self,
            ihr (fun v hv => ih v (List.mem_cons_of_mem _ hv))]
    | _ => simp [eqv]
  | obj entries ih =>
    intro b
    cases b with
    | obj entries' =>
      simp only [eqv, JsonTree.obj.injEq]
      induction entries generalizing entries' with
      | nil => cases entries' <;> simp [eqvEntries]
      | cons e rest ihr =>
        cases entries' with
        | nil => simp [eqvEntries]
        | cons e' rest' =>
          obtain ⟨k, t⟩ := e
          obtain ⟨k', t'⟩ := e'
          simp [eqvEntries, ih (k, t) List.mem_cons_self,
            ihr (fun v hv => ih v (List.mem_cons_of_mem _ hv))]
    | _ => simp [eqv]
instance [DecidableEq N] [DecidableEq L] : DecidableEq (JsonTree N L) := fun a b => decidable_of_iff _ (eqv_iff a b)

/-! ## Replacing leaves -/

mutual
/-- Replace every leaf by a tree. -/
def bind (f : L → JsonTree N M) : JsonTree N L → JsonTree N M
  | .null => .null
  | .bool b => .bool b
  | .num n => .num n
  | .str s => .str s
  | .arr items => .arr (bindItems f items)
  | .obj entries => .obj (bindEntries f entries)
  | .leaf l => f l

def bindItems (f : L → JsonTree N M) : List (JsonTree N L) → List (JsonTree N M)
  | [] => []
  | t :: rest => bind f t :: bindItems f rest

def bindEntries (f : L → JsonTree N M) :
    List (String × JsonTree N L) → List (String × JsonTree N M)
  | [] => []
  | (key, t) :: rest => (key, bind f t) :: bindEntries f rest
end

@[simp] theorem bindItems_eq_map (f : L → JsonTree N M) (items : List (JsonTree N L)) :
    bindItems f items = items.map (bind f) := by
  induction items with
  | nil => rfl
  | cons t rest ih => simp [bindItems, ih]

@[simp] theorem bindEntries_eq_map (f : L → JsonTree N M) (entries : List (String × JsonTree N L)) :
    bindEntries f entries = entries.map fun e => (e.1, bind f e.2) := by
  induction entries with
  | nil => rfl
  | cons e rest ih => simp [bindEntries, ih]

mutual
/-- The leaves from left to right. -/
def leaves : JsonTree N L → List L
  | .null => []
  | .bool _ => []
  | .num _ => []
  | .str _ => []
  | .arr items => leavesItems items
  | .obj entries => leavesEntries entries
  | .leaf l => [l]

def leavesItems : List (JsonTree N L) → List L
  | [] => []
  | t :: rest => leaves t ++ leavesItems rest

def leavesEntries : List (String × JsonTree N L) → List L
  | [] => []
  | (_, t) :: rest => leaves t ++ leavesEntries rest
end

/-! ## Nodes and their depth -/

mutual
/-- The nodes of a tree, each with its distance from `depth`. -/
def nodes (depth : Nat) : JsonTree N L → List (Nat × JsonTree N L)
  | .null => [(depth, .null)]
  | .bool b => [(depth, .bool b)]
  | .num n => [(depth, .num n)]
  | .str s => [(depth, .str s)]
  | .arr items => (depth, .arr items) :: nodesItems (depth + 1) items
  | .obj entries => (depth, .obj entries) :: nodesEntries (depth + 1) entries
  | .leaf l => [(depth, .leaf l)]

def nodesItems (depth : Nat) : List (JsonTree N L) → List (Nat × JsonTree N L)
  | [] => []
  | t :: rest => nodes depth t ++ nodesItems depth rest

def nodesEntries (depth : Nat) : List (String × JsonTree N L) → List (Nat × JsonTree N L)
  | [] => []
  | (_, t) :: rest => nodes depth t ++ nodesEntries depth rest
end

@[simp] theorem nodesItems_eq (depth : Nat) (items : List (JsonTree N L)) :
    nodesItems depth items = items.flatMap (nodes depth) := by
  induction items with
  | nil => rfl
  | cons t rest ih => simp [nodesItems, ih]

@[simp] theorem nodesEntries_eq (depth : Nat) (entries : List (String × JsonTree N L)) :
    nodesEntries depth entries = entries.flatMap fun e => nodes depth e.2 := by
  induction entries with
  | nil => rfl
  | cons e rest ih => simp [nodesEntries, ih]

/-- A property holds at every node of `t`, whose root is at `depth`. -/
def Everywhere (P : Nat → JsonTree N L → Prop) (depth : Nat) (t : JsonTree N L) : Prop :=
  ∀ e ∈ nodes depth t, P e.1 e.2

theorem everywhere_arr {P : Nat → JsonTree N L → Prop} {depth : Nat} {items : List (JsonTree N L)} :
    Everywhere P depth (.arr items) ↔
      P depth (.arr items) ∧ ∀ t ∈ items, Everywhere P (depth + 1) t := by
  simp only [Everywhere, nodes, nodesItems_eq, List.mem_cons, List.mem_flatMap]
  constructor
  · intro h
    exact ⟨h _ (.inl rfl), fun t ht e he => h e (.inr ⟨t, ht, he⟩)⟩
  · rintro ⟨hroot, hitems⟩ e (rfl | ⟨t, ht, he⟩)
    · exact hroot
    · exact hitems t ht e he

theorem everywhere_obj {P : Nat → JsonTree N L → Prop} {depth : Nat}
    {entries : List (String × JsonTree N L)} :
    Everywhere P depth (.obj entries) ↔
      P depth (.obj entries) ∧ ∀ e ∈ entries, Everywhere P (depth + 1) e.2 := by
  simp only [Everywhere, nodes, nodesEntries_eq, List.mem_cons, List.mem_flatMap]
  constructor
  · intro h
    exact ⟨h _ (.inl rfl), fun t ht e he => h e (.inr ⟨t, ht, he⟩)⟩
  · rintro ⟨hroot, hentries⟩ e (rfl | ⟨t, ht, he⟩)
    · exact hroot
    · exact hentries t ht e he

theorem Everywhere.root {P : Nat → JsonTree N L → Prop} {depth : Nat} {t : JsonTree N L}
    (h : Everywhere P depth t) : P depth t :=
  h (depth, t) (by cases t <;> simp [nodes])

/-- A property of values that are neither arrays nor objects. -/
theorem everywhere_scalar {P : Nat → JsonTree N L → Prop} {depth : Nat} {t : JsonTree N L}
    (hnodes : nodes depth t = [(depth, t)]) : Everywhere P depth t ↔ P depth t := by
  simp [Everywhere, hnodes]

end JsonTree
