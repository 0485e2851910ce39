import Mathlib.Logic.Function.Basic
import Mathlib.Data.List.Nodup
import Mathlib.Logic.Relation

/-! # Tearing down a tree

    Nodes are added below nodes.  A teardown is requested from outside or begun by
    the parent's; it begins those of the children there are, then works, then
    collects what it has to wait for, and is complete when all of that is.  What
    works is on a stack, and while it does nodes can be added and requested. -/

namespace Teardown

inductive Phase where
  | idle
  | children (rest : List Nat)
  | working
  | waiting (waits : List Nat)
  | complete (waits : List Nat)

namespace Phase

@[simp] def IsComplete : Phase → Prop
  | complete _ => True
  | _ => False

/-- On the stack. -/
@[simp] def IsActive : Phase → Prop
  | children _ | working => True
  | _ => False

def waits : Phase → List Nat
  | waiting waits | complete waits => waits
  | _ => []

/-- The children that are still to be begun. -/
def rest : Phase → List Nat
  | children rest => rest
  | _ => []

end Phase

/-- `begun` is the number of nodes there were when the teardown of a node began;
    `promises` are the teardowns of children that have begun and are not complete. -/
structure Tree where
  count : Nat
  parent : Nat → Option Nat
  phase : Nat → Phase
  children : Nat → List Nat
  promises : Nat → List Nat
  begun : Nat → Nat
  stack : List Nat
  requested : List Nat

/-- Changes the list of the parent of `s`. -/
def atParent (parent : Nat → Option Nat) (s : Nat) (f : Nat → List Nat) (change : List Nat → List Nat) :
    Nat → List Nat :=
  fun p => if parent s = some p then change (f p) else f p

namespace Tree

def new : Tree := ⟨0, fun _ => none, fun _ => .idle, fun _ => [], fun _ => [], fun _ => 0, [], []⟩

def add (t : Tree) (parent : Option Nat) : Tree :=
  { t with
    count := t.count + 1
    parent := Function.update t.parent t.count parent
    children := fun p => if parent = some p then t.children p ++ [t.count] else t.children p }

def goto (t : Tree) (s : Nat) (phase : Phase) : Tree := { t with phase := Function.update t.phase s phase }

def begin (t : Tree) (s : Nat) : Tree :=
  match t.phase s with
  | .idle =>
      { t with
        phase := Function.update t.phase s (.children (t.children s))
        begun := Function.update t.begun s t.count
        promises := atParent t.parent s t.promises (·.filter (· != s) ++ [s])
        stack := s :: t.stack }
  | _ => t

def request (t : Tree) (s : Nat) : Tree :=
  Tree.begin { t with requested := t.requested ++ [s] } s

def work (t : Tree) (s : Nat) : Tree :=
  { t.goto s .working with children := Function.update t.children s [] }

def collect (t : Tree) (s : Nat) : Tree :=
  { t.goto s (.waiting (t.promises s)) with
    children := atParent t.parent s t.children (·.filter (· != s))
    stack := t.stack.tail }

def complete (t : Tree) (s : Nat) (waits : List Nat) : Tree :=
  { t.goto s (.complete waits) with
    promises := atParent t.parent s (Function.update t.promises s []) (·.filter (· != s)) }

end Tree

inductive Step (t : Tree) : Tree → Prop
  | add (parent : Option Nat) (h : ∀ p, parent = some p → p < t.count) : Step t (t.add parent)
  | request (s : Nat) (h : s < t.count) : Step t (t.request s)
  | child (s c : Nat) (rest : List Nat) (h : t.phase s = .children (c :: rest)) :
      Step t ((t.goto s (.children rest)).begin c)
  | work (s : Nat) (h : t.phase s = .children []) : Step t (t.work s)
  | collect (s : Nat) (rest : List Nat) (hstack : t.stack = s :: rest) (h : t.phase s = .working) :
      Step t (t.collect s)
  | complete (s : Nat) (waits : List Nat) (hstack : t.stack = []) (h : t.phase s = .waiting waits)
      (hwaits : ∀ c ∈ waits, (t.phase c).IsComplete) : Step t (t.complete s waits)

/-! ## Section 2: What holds in every tree -/

/-- A teardown of `c` that goes on is known to its parent. -/
def Promised (t : Tree) (p c : Nat) : Prop :=
  t.phase c = .idle ∨ (t.phase c).IsComplete ∨ c ∈ t.promises p

/-- What holds between a node and a child of it. -/
def Edge (t : Tree) (p c : Nat) : Prop :=
  match t.phase p with
  | .idle => (t.phase c = .idle → c ∈ t.children p) ∧ Promised t p c
  | .children rest => (c < t.begun p → t.phase c = .idle → c ∈ rest) ∧ Promised t p c
  | .working => (c < t.begun p → t.phase c ≠ .idle) ∧ Promised t p c
  | .waiting waits => c < t.begun p → (t.phase c).IsComplete ∨ c ∈ waits
  | .complete _ => c < t.begun p → (t.phase c).IsComplete

/-- The teardown of `c` was requested, or its parent waits for it. -/
def Asked (t : Tree) (c : Nat) : Prop :=
  c ∈ t.requested ∨ ∃ p, t.parent c = some p ∧ ((t.phase p).IsActive ∧ c ∈ t.promises p ∨ c ∈ (t.phase p).waits)

structure Coordinated (t : Tree) : Prop where
  parents : ∀ p c, t.parent c = some p → p < c ∧ c < t.count
  begun : ∀ s, t.begun s ≤ t.count
  unknown : ∀ s, t.count ≤ s → t.phase s = .idle
  stack : t.stack.Nodup
  active : ∀ s, s ∈ t.stack ↔ (t.phase s).IsActive
  listed : ∀ p c, c ∈ t.children p ∨ c ∈ (t.phase p).rest ∨ c ∈ t.promises p ∨ c ∈ (t.phase p).waits →
    t.parent c = some p
  started : ∀ p c, c ∈ t.promises p ∨ c ∈ (t.phase p).waits → t.phase c ≠ .idle
  finished : ∀ p, (t.phase p).IsComplete → ∀ c ∈ (t.phase p).waits, (t.phase c).IsComplete
  distinct : ∀ p, (t.promises p).Nodup
  separate : ∀ p, (t.phase p).waits.Nodup
  edge : ∀ p c, t.parent c = some p → Edge t p c
  asked : ∀ c, t.phase c ≠ .idle → Asked t c

theorem coordinated_new : Coordinated .new where
  parents := nofun
  begun _ := Nat.le_refl 0
  unknown _ _ := rfl
  stack := List.nodup_nil
  active _ := by simp [Tree.new]
  listed _ _ := by simp [Tree.new, Phase.rest, Phase.waits]
  started _ _ := by simp [Tree.new, Phase.waits]
  finished _ := nofun
  distinct _ := List.nodup_nil
  separate _ := List.nodup_nil
  edge := nofun
  asked _ h := absurd rfl h

/-- A request that changes nothing else. -/
theorem Coordinated.note {t : Tree} (h : Coordinated t) (s : Nat) :
    Coordinated { t with requested := t.requested ++ [s] } :=
  { h with asked := fun c hc => (h.asked c hc).imp (List.mem_append_left _) id }

/-! ### A new node -/

theorem Coordinated.add {t : Tree} (h : Coordinated t) {parent : Option Nat}
    (hparent : ∀ p, parent = some p → p < t.count) : Coordinated (t.add parent) := by
  have hold : ∀ p c, t.parent c = some p → (t.add parent).parent c = some p := by
    intro p c hpc
    have := (h.parents p c hpc).2
    simp only [Tree.add]
    rw [Function.update_of_ne (by omega), hpc]
  have hidle := h.unknown t.count (Nat.le_refl _)
  exact {
    h with
    parents := by
      intro p c hpc
      simp only [Tree.add, Function.update_apply] at hpc ⊢
      split at hpc
      · have := hparent p hpc
        omega
      · have := h.parents p c hpc
        omega
    begun := fun s => Nat.le_succ_of_le (h.begun s)
    unknown := fun s hs => h.unknown s (Nat.le_of_succ_le hs)
    listed := by
      intro p c hc
      by_cases hnew : c ∈ t.children p
      · exact hold p c (h.listed p c (.inl hnew))
      rcases hc with hc | hc
      · simp only [Tree.add] at hc ⊢
        split at hc
        · obtain rfl : c = t.count := by simpa [hnew] using hc
          simpa
        · exact absurd hc hnew
      · exact hold p c (h.listed p c (.inr hc))
    edge := by
      intro p c hpc
      by_cases hc : c = t.count
      · -- the new node is idle and listed, and its parent's teardown does not count it
        subst hc
        have hp : parent = some p := by simpa [Tree.add] using hpc
        have hbegun := h.begun p
        simp only [Edge, Promised, Tree.add, hp, hidle, if_true]
        cases t.phase p <;> simp <;> omega
      · have hedge := h.edge p c (by simpa [Tree.add, hc] using hpc)
        simp only [Edge, Promised, Tree.add] at hedge ⊢
        cases hphase : t.phase p <;> simp only [hphase] at hedge ⊢ <;> grind
    asked := by
      intro c hc
      rcases h.asked c hc with hreq | ⟨p, hpc, hp⟩
      · exact .inl hreq
      · exact .inr ⟨p, hold p c hpc, hp⟩ }

/-! ### A teardown begins -/

theorem begin_eq {t : Tree} {s : Nat} (h : t.phase s = .idle) : t.begin s =
    { t with
      phase := Function.update t.phase s (.children (t.children s))
      begun := Function.update t.begun s t.count
      promises := atParent t.parent s t.promises (·.filter (· != s) ++ [s])
      stack := s :: t.stack } := by
  rw [Tree.begin, h]

/-- The teardown that begins is reached by its parent's. -/
theorem Coordinated.edge_begin {t : Tree} (ht : Coordinated t) {s : Nat} (h : t.phase s = .idle) {p c : Nat}
    (hpc : t.parent c = some p) : Edge (t.begin s) p c := by
  have hlt := ht.parents p c hpc
  have hedge := ht.edge p c hpc
  rw [begin_eq h]
  by_cases hc : c = s
  · subst hc
    have hp : p ≠ c := by omega
    simp only [Edge, Promised, atParent, hpc, Function.update_of_ne hp, Function.update_self, if_true] at hedge ⊢
    cases hphase : t.phase p <;> simp_all
  · by_cases hp : p = s
    · subst hp
      simp only [Edge, Promised, atParent, Function.update_of_ne hc, Function.update_self, h] at hedge ⊢
      refine ⟨fun _ => hedge.1, ?_⟩
      grind
    · simp only [Edge, Promised, atParent, Function.update_of_ne hc, Function.update_of_ne hp] at hedge ⊢
      cases hphase : t.phase p <;> grind

theorem mem_atParent {parent : Nat → Option Nat} {s p c : Nat} {f : Nat → List Nat}
    (hc : c ∈ atParent parent s f (·.filter (· != s) ++ [s]) p) : c ∈ f p ∨ c = s ∧ parent s = some p := by
  unfold atParent at hc
  split at hc
  · rename_i hs
    rcases List.mem_append.mp hc with hc | hc
    · exact .inl (List.mem_filter.mp hc).1
    · exact .inr ⟨List.mem_singleton.mp hc, hs⟩
  · exact .inl hc

theorem Coordinated.begin {t : Tree} (ht : Coordinated t) {s : Nat} (hs : s < t.count)
    (hasked : t.phase s = .idle → Asked (t.begin s) s) : Coordinated (t.begin s) := by
  by_cases h : t.phase s = .idle
  case neg =>
    have heq : t.begin s = t := by
      unfold Tree.begin
      split
      · exact absurd ‹_› h
      · rfl
    rw [heq]
    exact ht
  have heq := begin_eq h
  refine {
    parents := ?parents, begun := ?begun, unknown := ?unknown, stack := ?stack, active := ?active,
    listed := ?listed, started := ?started, finished := ?finished, distinct := ?distinct,
    separate := ?separate, edge := ?edge, asked := ?asked }
  case parents =>
    rw [heq]
    exact ht.parents
  case begun =>
    intro p
    rw [heq]
    simp only [Function.update_apply]
    split
    · exact Nat.le_refl _
    · exact ht.begun p
  case unknown =>
    intro p hp
    rw [heq] at hp ⊢
    simp only [Function.update_of_ne (show p ≠ s by simp at hp; omega)]
    exact ht.unknown p hp
  case stack =>
    rw [heq]
    refine List.nodup_cons.mpr ⟨?_, ht.stack⟩
    rw [ht.active, h]
    exact id
  case active =>
    intro p
    rw [heq]
    simp only [List.mem_cons, Function.update_apply]
    split
    · simp [*]
    · simp [*, ht.active]
  case listed =>
    intro p c hc
    rw [heq] at hc ⊢
    rcases hc with hc | hc | hc | hc
    · exact ht.listed p c (.inl hc)
    · simp only [Function.update_apply] at hc
      split at hc
      · subst p
        exact ht.listed s c (.inl hc)
      · exact ht.listed p c (.inr (.inl hc))
    · rcases mem_atParent hc with hc | ⟨rfl, hs⟩
      · exact ht.listed p c (.inr (.inr (.inl hc)))
      · exact hs
    · simp only [Function.update_apply] at hc
      split at hc
      · cases hc
      · exact ht.listed p c (.inr (.inr (.inr hc)))
  case started =>
    intro p c hc
    rw [heq] at hc ⊢
    simp only [Function.update_apply] at hc ⊢
    split
    · nofun
    rename_i hcs
    rcases hc with hc | hc
    · rcases mem_atParent hc with hc | ⟨rfl, -⟩
      · exact ht.started p c (.inl hc)
      · exact absurd rfl hcs
    · split at hc
      · cases hc
      · exact ht.started p c (.inr hc)
  case finished =>
    intro p hp c hc
    rw [heq] at hp hc ⊢
    simp only [Function.update_apply] at hp hc ⊢
    by_cases hps : p = s
    · simp [hps] at hp
    rw [if_neg hps] at hp hc
    have hdone := ht.finished p hp c hc
    rw [if_neg]
    · exact hdone
    · rintro rfl
      simp [h] at hdone
  case distinct =>
    intro p
    rw [heq]
    simp only [atParent]
    split
    · exact List.Nodup.append ((ht.distinct p).filter _) (List.nodup_singleton s) (by simp)
    · exact ht.distinct p
  case separate =>
    intro p
    rw [heq]
    simp only [Function.update_apply]
    split
    · exact List.nodup_nil
    · exact ht.separate p
  case edge =>
    intro p c hpc
    rw [heq] at hpc
    exact ht.edge_begin h hpc
  case asked =>
    intro c hc
    by_cases hcs : c = s
    · rw [hcs]
      exact hasked h
    rw [heq] at hc ⊢
    simp only [Function.update_of_ne hcs] at hc
    rcases ht.asked c hc with hreq | ⟨p, hpc, hp⟩
    · exact .inl hreq
    · have hps : p ≠ s := by
        rintro rfl
        simp [h, Phase.waits] at hp
      refine .inr ⟨p, hpc, ?_⟩
      simp only [Function.update_of_ne hps, atParent]
      rcases hp with ⟨hactive, hmem⟩ | hwaits
      · refine .inl ⟨hactive, ?_⟩
        split
        · exact List.mem_append_left _ (List.mem_filter.mpr ⟨hmem, by simpa using hcs⟩)
        · exact hmem
      · exact .inr hwaits
/-! ### A teardown goes on -/

/-- A teardown over its children that stays on the stack. -/
theorem Coordinated.stay {t : Tree} (ht : Coordinated t) {s : Nat} {before : List Nat} (phase : Phase)
    (children : Nat → List Nat) (h : t.phase s = .children before) (hactive : phase.IsActive)
    (hrest : ∀ c ∈ phase.rest, c ∈ before) (hchildren : ∀ p, ∀ c ∈ children p, c ∈ t.children p)
    (hother : ∀ p, p ≠ s → children p = t.children p)
    (hedge : ∀ c, t.parent c = some s → Edge { t.goto s phase with children } s c) :
    Coordinated { t.goto s phase with children } := by
  have hidle : ∀ c, Function.update t.phase s phase c = .idle ↔ t.phase c = .idle := by
    intro c
    by_cases hc : c = s
    · cases phase <;> simp_all
    · rw [Function.update_of_ne hc]
  have hdone : ∀ c, (Function.update t.phase s phase c).IsComplete ↔ (t.phase c).IsComplete := by
    intro c
    by_cases hc : c = s
    · cases phase <;> simp_all
    · rw [Function.update_of_ne hc]
  have hstack : ∀ c, (Function.update t.phase s phase c).IsActive ↔ (t.phase c).IsActive := by
    intro c
    by_cases hc : c = s
    · simp only [hc, h, Function.update_self]
      exact iff_of_true hactive trivial
    · rw [Function.update_of_ne hc]
  have hwaits : ∀ c, (Function.update t.phase s phase c).waits = (t.phase c).waits := by
    intro c
    by_cases hc : c = s
    · cases phase <;> simp_all [Phase.waits]
    · rw [Function.update_of_ne hc]
  refine {
    parents := ht.parents, begun := ht.begun, stack := ht.stack, distinct := ht.distinct
    unknown := fun c hc => (hidle c).mpr (ht.unknown c hc)
    active := fun c => (ht.active c).trans (hstack c).symm
    listed := ?listed
    started := ?started
    finished := ?finished
    separate := ?separate
    edge := ?edge
    asked := ?asked }
  case listed =>
    intro p c hc
    simp only [Tree.goto, hwaits] at hc
    rcases hc with hc | hc | hc
    · exact ht.listed p c (.inl (hchildren p c hc))
    · by_cases hp : p = s
      · subst hp
        rw [Function.update_self] at hc
        exact ht.listed p c (.inr (.inl (by simpa [h, Phase.rest] using hrest c hc)))
      · rw [Function.update_of_ne hp] at hc
        exact ht.listed p c (.inr (.inl hc))
    · exact ht.listed p c (.inr (.inr hc))
  case started =>
    intro p c hc
    simp only [Tree.goto, hwaits, ne_eq, hidle] at hc ⊢
    exact ht.started p c hc
  case finished =>
    intro p hp c hc
    simp only [Tree.goto, hwaits, hdone] at hp hc ⊢
    exact ht.finished p hp c hc
  case separate =>
    intro p
    simp only [Tree.goto, hwaits]
    exact ht.separate p
  case edge =>
    intro p c hpc
    by_cases hp : p = s
    · subst hp
      exact hedge c hpc
    · have hold := ht.edge p c hpc
      simpa only [Edge, Promised, Tree.goto, Function.update_of_ne hp, hidle, hdone, hother p hp, ne_eq] using hold
  case asked =>
    intro c hc
    simp only [Tree.goto, ne_eq, hidle] at hc
    rcases ht.asked c hc with hreq | ⟨p, hpc, hp⟩
    · exact .inl hreq
    · exact .inr ⟨p, hpc, by simpa only [Tree.goto, hstack, hwaits] using hp⟩

/-- The child on the list has begun. -/
theorem Coordinated.next {t : Tree} (ht : Coordinated t) {s c : Nat} {rest : List Nat}
    (h : t.phase s = .children (c :: rest)) (hc : t.phase c ≠ .idle) : Coordinated (t.goto s (.children rest)) := by
  refine ht.stay (.children rest) t.children h trivial (fun d hd => List.mem_cons_of_mem c hd) (fun _ _ hd => hd) (fun _ _ => rfl) ?_
  intro d hd
  have hold := ht.edge s d hd
  have hds : d ≠ s := by
    have := ht.parents s d hd
    omega
  simp only [Edge, Promised, h, Tree.goto, Function.update_self, Function.update_of_ne hds] at hold ⊢
  refine ⟨?_, hold.2⟩
  intro hlt hidle
  rcases List.mem_cons.mp (hold.1 hlt hidle) with rfl | hmem
  · exact absurd hidle hc
  · exact hmem

/-- All the children there were have begun. -/
theorem Coordinated.work {t : Tree} (ht : Coordinated t) {s : Nat} (h : t.phase s = .children []) :
    Coordinated (t.work s) := by
  refine ht.stay .working _ h trivial (fun _ hc => (nomatch hc)) ?_ (fun p hp => Function.update_of_ne hp _ _) ?_
  · intro p c hc
    rw [Function.update_apply] at hc
    split at hc
    · cases hc
    · exact hc
  · intro d hd
    have hold := ht.edge s d hd
    have hds : d ≠ s := by
      have := ht.parents s d hd
      omega
    simp only [Edge, Promised, h, Tree.goto, Function.update_self, Function.update_of_ne hds] at hold ⊢
    exact ⟨fun hlt hidle => (nomatch hold.1 hlt hidle), hold.2⟩

/-- What has begun and is not complete is waited for. -/
theorem Coordinated.collect {t : Tree} (ht : Coordinated t) {s : Nat} {rest : List Nat}
    (hstack : t.stack = s :: rest) (h : t.phase s = .working) : Coordinated (t.collect s) := by
  have hnodup := ht.stack
  rw [hstack, List.nodup_cons] at hnodup
  refine {
    parents := ht.parents, begun := ht.begun, distinct := ht.distinct
    unknown := ?unknown
    stack := by simpa [Tree.collect, hstack] using hnodup.2
    active := ?active
    listed := ?listed
    started := ?started
    finished := ?finished
    separate := ?separate
    edge := ?edge
    asked := ?asked }
  all_goals simp only [Tree.collect, Tree.goto]
  case unknown =>
    intro c hc
    have hcs : c ≠ s := by
      rintro rfl
      rw [ht.unknown c hc] at h
      cases h
    rw [Function.update_of_ne hcs]
    exact ht.unknown c hc
  case active =>
    intro c
    rw [hstack]
    by_cases hc : c = s
    · simp [hc, hnodup.1]
    · rw [Function.update_of_ne hc, ← ht.active, hstack]
      simp [hc]
  case listed =>
    intro p c hc
    rcases hc with hc | hc | hc | hc
    · unfold atParent at hc
      split at hc
      · exact ht.listed p c (.inl (List.mem_filter.mp hc).1)
      · exact ht.listed p c (.inl hc)
    · by_cases hp : p = s
      · simp [hp, Phase.rest] at hc
      · rw [Function.update_of_ne hp] at hc
        exact ht.listed p c (.inr (.inl hc))
    · exact ht.listed p c (.inr (.inr (.inl hc)))
    · by_cases hp : p = s
      · subst hp
        exact ht.listed p c (.inr (.inr (.inl (by simpa [Phase.waits] using hc))))
      · rw [Function.update_of_ne hp] at hc
        exact ht.listed p c (.inr (.inr (.inr hc)))
  case started =>
    intro p c hc
    by_cases hcs : c = s
    · simp [hcs]
    rw [Function.update_of_ne hcs]
    rcases hc with hc | hc
    · exact ht.started p c (.inl hc)
    · by_cases hp : p = s
      · subst hp
        exact ht.started p c (.inl (by simpa [Phase.waits] using hc))
      · rw [Function.update_of_ne hp] at hc
        exact ht.started p c (.inr hc)
  case finished =>
    intro p hp c hc
    have hps : p ≠ s := by
      rintro rfl
      simp at hp
    rw [Function.update_of_ne hps] at hp hc
    have hdone := ht.finished p hp c hc
    have hcs : c ≠ s := by
      rintro rfl
      simp [h] at hdone
    rwa [Function.update_of_ne hcs]
  case separate =>
    intro p
    by_cases hp : p = s
    · subst hp
      simpa [Phase.waits] using ht.distinct p
    · rw [Function.update_of_ne hp]
      exact ht.separate p
  case edge =>
    intro p c hpc
    have hlt := ht.parents p c hpc
    have hold := ht.edge p c hpc
    by_cases hp : p = s
    · subst hp
      have hcs : c ≠ p := by omega
      simp only [Edge, Promised, h, Function.update_self, Function.update_of_ne hcs] at hold ⊢
      intro hbegun
      rcases hold.2 with hidle | hdone | hpromised
      · exact absurd hidle (hold.1 hbegun)
      · exact .inl hdone
      · exact .inr hpromised
    · by_cases hcs : c = s
      · subst hcs
        simp only [Edge, Promised, h, Function.update_self, Function.update_of_ne hp] at hold ⊢
        cases hphase : t.phase p <;> simp_all
      · simp only [Edge, Promised, atParent, Function.update_of_ne hp, Function.update_of_ne hcs] at hold ⊢
        cases hphase : t.phase p <;> simp only [hphase] at hold ⊢ <;> grind
  case asked =>
    intro c hc
    have hc : t.phase c ≠ .idle := by
      by_cases hcs : c = s
      · simp [hcs, h]
      · rwa [Function.update_of_ne hcs] at hc
    rcases ht.asked c hc with hreq | ⟨p, hpc, hp⟩
    · exact .inl hreq
    · refine .inr ⟨p, hpc, ?_⟩
      by_cases hps : p = s
      · subst hps
        rcases hp with ⟨-, hp⟩ | hp
        · exact .inr (by simpa [Phase.waits] using hp)
        · simp [h, Phase.waits] at hp
      · simpa only [Function.update_of_ne hps] using hp

theorem Coordinated.complete {t : Tree} (ht : Coordinated t) {s : Nat} {waits : List Nat}
    (hstack : t.stack = []) (h : t.phase s = .waiting waits) (hwaits : ∀ c ∈ waits, (t.phase c).IsComplete) :
    Coordinated (t.complete s waits) := by
  have hpromises : ∀ p, ∀ c ∈ atParent t.parent s (Function.update t.promises s []) (·.filter (· != s)) p,
      c ∈ t.promises p := by
    intro p c hc
    have hmem : c ∈ Function.update t.promises s [] p := by
      unfold atParent at hc
      split at hc
      · exact (List.mem_filter.mp hc).1
      · exact hc
    rw [Function.update_apply] at hmem
    split at hmem
    · cases hmem
    · exact hmem
  have hidle : ∀ c, Function.update t.phase s (.complete waits) c = .idle ↔ t.phase c = .idle := by
    intro c
    by_cases hc : c = s
    · simp [hc, h]
    · rw [Function.update_of_ne hc]
  have hsame : ∀ c, (Function.update t.phase s (.complete waits) c).waits = (t.phase c).waits := by
    intro c
    by_cases hc : c = s
    · simp [hc, h, Phase.waits]
    · rw [Function.update_of_ne hc]
  have hmore : ∀ c, (t.phase c).IsComplete → (Function.update t.phase s (.complete waits) c).IsComplete := by
    intro c hc
    by_cases hcs : c = s
    · simp [hcs]
    · rwa [Function.update_of_ne hcs]
  have hnone : ∀ p, ¬ (t.phase p).IsActive := by
    intro p hp
    rw [← ht.active, hstack] at hp
    cases hp
  refine {
    parents := ht.parents, begun := ht.begun, stack := ht.stack
    unknown := fun c hc => (hidle c).mpr (ht.unknown c hc)
    active := ?active
    listed := ?listed
    started := ?started
    finished := ?finished
    distinct := ?distinct
    separate := ?separate
    edge := ?edge
    asked := ?asked }
  all_goals simp only [Tree.complete, Tree.goto]
  case active =>
    intro c
    rw [ht.active]
    by_cases hc : c = s
    · simp [hc, h]
    · rw [Function.update_of_ne hc]
  case listed =>
    intro p c hc
    rw [hsame] at hc
    rcases hc with hc | hc | hc | hc
    · exact ht.listed p c (.inl hc)
    · by_cases hp : p = s
      · simp [hp, Phase.rest] at hc
      · rw [Function.update_of_ne hp] at hc
        exact ht.listed p c (.inr (.inl hc))
    · exact ht.listed p c (.inr (.inr (.inl (hpromises p c hc))))
    · exact ht.listed p c (.inr (.inr (.inr hc)))
  case started =>
    intro p c hc
    rw [ne_eq, hidle]
    rw [hsame] at hc
    exact ht.started p c (hc.imp_left (hpromises p c))
  case finished =>
    intro p hp c hc
    rw [hsame] at hc
    apply hmore
    by_cases hps : p = s
    · subst hps
      exact hwaits c (by simpa [h, Phase.waits] using hc)
    · rw [Function.update_of_ne hps] at hp
      exact ht.finished p hp c hc
  case distinct =>
    intro p
    have hupdate : (Function.update t.promises s [] p).Nodup := by
      rw [Function.update_apply]
      split
      · exact List.nodup_nil
      · exact ht.distinct p
    unfold atParent
    split
    · exact hupdate.filter _
    · exact hupdate
  case separate =>
    intro p
    rw [hsame]
    exact ht.separate p
  case edge =>
    intro p c hpc
    have hlt := ht.parents p c hpc
    have hold := ht.edge p c hpc
    by_cases hp : p = s
    · subst hp
      simp only [Edge, h, Function.update_self] at hold ⊢
      intro hbegun
      rcases hold hbegun with hdone | hmem
      · exact hmore c hdone
      · exact hmore c (hwaits c hmem)
    · by_cases hcs : c = s
      · subst hcs
        simp only [Edge, Promised, h, Function.update_self, Function.update_of_ne hp] at hold ⊢
        cases hphase : t.phase p <;> simp_all
      · simp only [Edge, Promised, atParent, Function.update_of_ne hp, Function.update_of_ne hcs] at hold ⊢
        cases hphase : t.phase p <;> simp only [hphase] at hold ⊢ <;> grind
  case asked =>
    intro c hc
    rw [ne_eq, hidle] at hc
    rcases ht.asked c hc with hreq | ⟨p, hpc, ⟨hactive, -⟩ | hp⟩
    · exact .inl hreq
    · exact absurd hactive (hnone p)
    · exact .inr ⟨p, hpc, .inr (by rwa [hsame])⟩

/-! ### Runs -/

theorem begin_of_ne {t : Tree} {s : Nat} (h : t.phase s ≠ .idle) : t.begin s = t := by
  unfold Tree.begin
  split
  · exact absurd ‹_› h
  · rfl

theorem request_eq (t : Tree) (s : Nat) : t.request s = { t.begin s with requested := t.requested ++ [s] } := by
  unfold Tree.request
  by_cases hs : t.phase s = .idle
  · rw [begin_eq (t := { t with requested := t.requested ++ [s] }) hs, begin_eq hs]
  · rw [begin_of_ne (t := { t with requested := t.requested ++ [s] }) hs, begin_of_ne hs]

theorem begin_phase_of_ne (t : Tree) {s c : Nat} (h : c ≠ s) : (t.begin s).phase c = t.phase c := by
  by_cases hs : t.phase s = .idle
  · rw [begin_eq hs]
    exact Function.update_of_ne h _ _
  · rw [begin_of_ne hs]

theorem begin_started (t : Tree) (s : Nat) : (t.begin s).phase s ≠ .idle := by
  by_cases hs : t.phase s = .idle
  · simp [begin_eq hs]
  · rwa [begin_of_ne hs]

theorem goto_begin (t : Tree) {s c : Nat} (h : c ≠ s) (phase : Phase) :
    (t.goto s phase).begin c = (t.begin c).goto s phase := by
  have hc : (t.goto s phase).phase c = t.phase c := Function.update_of_ne h _ _
  by_cases hidle : t.phase c = .idle
  · rw [begin_eq (hc.trans hidle), begin_eq hidle]
    simp only [Tree.goto, Tree.mk.injEq, true_and, and_true]
    exact Function.update_comm h.symm _ _ _
  · rw [begin_of_ne (by rwa [hc]), begin_of_ne hidle]

theorem Coordinated.child {t : Tree} (ht : Coordinated t) {s c : Nat} {rest : List Nat}
    (h : t.phase s = .children (c :: rest)) : Coordinated ((t.goto s (.children rest)).begin c) := by
  have hparent : t.parent c = some s := ht.listed s c (.inr (.inl (by simp [h, Phase.rest])))
  have hlt := ht.parents s c hparent
  have hne : s ≠ c := by omega
  have hasked : t.phase c = .idle → Asked (t.begin c) c := by
    intro hidle
    refine .inr ⟨s, ?_, .inl ?_⟩
    · rw [begin_eq hidle]
      exact hparent
    · rw [begin_phase_of_ne t hne, begin_eq hidle]
      simp [h, atParent, hparent]
  rw [goto_begin t hne.symm]
  refine (ht.begin hlt.2 hasked).next ?_ (begin_started t c)
  rw [begin_phase_of_ne t hne, h]

theorem Coordinated.request {t : Tree} (ht : Coordinated t) {s : Nat} (hs : s < t.count) :
    Coordinated (t.request s) := by
  refine (ht.note s).begin hs ?_
  intro hidle
  rw [begin_eq hidle]
  exact .inl (List.mem_append_right _ List.mem_cons_self)

theorem Coordinated.step {t t' : Tree} (ht : Coordinated t) (h : Step t t') : Coordinated t' := by
  cases h with
  | add parent hparent => exact ht.add hparent
  | request s hs => exact ht.request hs
  | child s c rest h => exact ht.child h
  | work s h => exact ht.work h
  | collect s rest hstack h => exact ht.collect hstack h
  | complete s waits hstack h hwaits => exact ht.complete hstack h hwaits

theorem Coordinated.steps {t t' : Tree} (ht : Coordinated t) (h : Relation.ReflTransGen Step t t') :
    Coordinated t' := by
  induction h with
  | refl => exact ht
  | tail _ hstep ih => exact ih.step hstep

/-! ## Section 3: When nothing works -/

/-- The descendants there were when the teardowns above them began. -/
inductive Covers (t : Tree) (s : Nat) : Nat → Prop
  | self : Covers t s s
  | child {p c : Nat} : Covers t s p → t.parent c = some p → c < t.begun p → Covers t s c

/-- The nodes whose completion a teardown waits for, itself included. -/
inductive Gathers (t : Tree) (s : Nat) : Nat → Prop
  | self : Gathers t s s
  | waits {p c : Nat} : Gathers t s p → c ∈ (t.phase p).waits → Gathers t s c

theorem Coordinated.not_active {t : Tree} (ht : Coordinated t) (hstack : t.stack = []) (s : Nat) :
    ¬ (t.phase s).IsActive := by
  intro h
  rw [← ht.active, hstack] at h
  cases h

/-- Nothing that a teardown covers is left out. -/
theorem Coordinated.covered_started {t : Tree} (ht : Coordinated t) (hstack : t.stack = []) {s c : Nat}
    (hs : t.phase s ≠ .idle) (h : Covers t s c) : t.phase c ≠ .idle := by
  induction h with
  | self => exact hs
  | @child p c _ hparent hlt ih =>
    have hedge := ht.edge p c hparent
    have hactive := ht.not_active hstack p
    intro hidle
    cases hphase : t.phase p with
    | idle => exact ih hphase
    | children rest => simp [hphase] at hactive
    | working => simp [hphase] at hactive
    | waiting waits =>
      simp only [Edge, hphase, hidle] at hedge
      rcases hedge hlt with hdone | hmem
      · exact hdone
      · exact ht.started p c (.inr (by simpa [hphase, Phase.waits] using hmem)) hidle
    | complete waits =>
      simp only [Edge, hphase, hidle] at hedge
      exact hedge hlt

/-- What a complete teardown covers is complete. -/
theorem Coordinated.covered_complete {t : Tree} (ht : Coordinated t) {s c : Nat}
    (hs : (t.phase s).IsComplete) (h : Covers t s c) : (t.phase c).IsComplete := by
  induction h with
  | self => exact hs
  | @child p c _ hparent hlt ih =>
    have hedge := ht.edge p c hparent
    cases hphase : t.phase p <;> simp_all [Edge]

theorem Coordinated.gathered_complete {t : Tree} (ht : Coordinated t) {s c : Nat}
    (hs : (t.phase s).IsComplete) (h : Gathers t s c) : (t.phase c).IsComplete := by
  induction h with
  | self => exact hs
  | @waits p c _ hmem ih => exact ht.finished p ih c hmem

theorem Coordinated.gathers_le {t : Tree} (ht : Coordinated t) {s c : Nat} (h : Gathers t s c) : s ≤ c := by
  induction h with
  | self => exact Nat.le_refl _
  | @waits p c _ hmem ih =>
    have := ht.parents p c (ht.listed p c (.inr (.inr (.inr hmem))))
    omega

theorem Gathers.trans {t : Tree} {s c d : Nat} (h : Gathers t s c) (h' : Gathers t c d) : Gathers t s d := by
  induction h' with
  | self => exact h
  | waits _ hmem ih => exact .waits ih hmem

/-- Every teardown is gathered by one that was requested. -/
theorem Coordinated.requested {t : Tree} (ht : Coordinated t) (hstack : t.stack = []) {c : Nat}
    (hc : t.phase c ≠ .idle) : ∃ s ∈ t.requested, Gathers t s c := by
  induction c using Nat.strongRecOn with
  | _ c ih =>
    rcases ht.asked c hc with hreq | ⟨p, hparent, ⟨hactive, -⟩ | hmem⟩
    · exact ⟨c, hreq, .self⟩
    · exact absurd hactive (ht.not_active hstack p)
    · have hp : t.phase p ≠ .idle := by
        intro hidle
        simp [hidle, Phase.waits] at hmem
      obtain ⟨s, hs, hgathers⟩ := ih p (ht.parents p c hparent).1 hp
      exact ⟨s, hs, .waits hgathers hmem⟩

/-- Two children of a node gather nothing in common. -/
theorem Coordinated.gathers_unique {t : Tree} (ht : Coordinated t) {p a b c : Nat}
    (ha : t.parent a = some p) (hb : t.parent b = some p) (hac : Gathers t a c) (hbc : Gathers t b c) : a = b := by
  have hpa := (ht.parents p a ha).1
  have hpb := (ht.parents p b hb).1
  induction hac with
  | self =>
    cases hbc with
    | self => rfl
    | @waits q _ hbq hmem =>
      have hq := ht.listed q a (.inr (.inr (.inr hmem)))
      obtain rfl : p = q := Option.some.inj (ha.symm.trans hq)
      have := ht.gathers_le hbq
      omega
  | @waits q c haq hmem ih =>
    have hq := ht.listed q c (.inr (.inr (.inr hmem)))
    cases hbc with
    | self =>
      obtain rfl : p = q := Option.some.inj (hb.symm.trans hq)
      have := ht.gathers_le haq
      omega
    | @waits r _ hbr hmem' =>
      have hr := ht.listed r c (.inr (.inr (.inr hmem')))
      obtain rfl : q = r := Option.some.inj (hq.symm.trans hr)
      exact ih hbr

end Teardown
