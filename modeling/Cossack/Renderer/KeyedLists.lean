import Cossack.Lib.Siblings

/-! # Keyed lists

    `updateRepeat` on the siblings between the anchors of a part.  A child part is a
    number, which its two marker comments carry; what a child shows between its
    markers, and whether it throws, comes from the template. -/

namespace Cossack.Renderer.KeyedLists

open Siblings

/-! ## Section 1: Parts -/

inductive Node where
  | start (part : Nat)
  | stop (part : Nat)
  | other (n : Nat)
  deriving DecidableEq

/-- What `part.update(templateFn(item, index))` leaves between the markers, and what
    it throws. -/
structure Rendered where
  content : List Nat
  error : Option String

variable {Item Key : Type}

structure RepeatResult (Item Key : Type) where
  items : List Item
  keyFn : Item → Nat → Except String Key
  render : Nat → Item → Nat → Rendered

structure NodePart (Key : Type) where
  self : Nat
  /-- The children of the parent of both anchors. -/
  siblings : List Node
  childParts : List Nat
  partKeys : List Key
  /-- The parts on which `dispose` was called. -/
  disposed : List Nat
  /-- The number of the next part. -/
  made : Nat

namespace NodePart

variable (d : NodePart Key)

def createChildPart (insertAfter : Node) : Nat × NodePart Key :=
  let next := next d.siblings insertAfter
  let siblings := insertBefore d.siblings (.start d.made) next
  (d.made, { d with siblings := insertBefore siblings (.stop d.made) next, made := d.made + 1 })

def movePart (part : Nat) (insertAfter : Node) : NodePart Key :=
  { d with siblings := moveAfter d.siblings (.start part) (.stop part) insertAfter }

/-- The nodes of `part` without those between its markers. -/
def cleared (part : Nat) : List Node :=
  (between d.siblings (.start part) (.stop part)).foldl remove d.siblings

/-- The child shows `content`; a node that stands elsewhere is moved. -/
def update (part : Nat) (content : List Nat) : NodePart Key :=
  { d with siblings :=
      content.foldl (fun l n => insertBefore l (.other n) (some (.stop part))) (d.cleared part) }

def dispose (part : Nat) : NodePart Key :=
  { d with
    siblings := remove (remove (d.cleared part) (.start part)) (.stop part)
    disposed := d.disposed ++ [part] }

def disposeAll (parts : List Nat) : NodePart Key := parts.foldl dispose d

end NodePart

/-! ## Section 2: The list -/

variable [DecidableEq Key]

/-- The parts of each key, by the order in which the keys came. -/
abbrev Queues (Key : Type) := List (Key × List Nat)

namespace Queues

def enqueue (key : Key) (part : Nat) : Queues Key → Queues Key
  | [] => [(key, [part])]
  | (k, queue) :: rest =>
      if k = key then (k, queue ++ [part]) :: rest else (k, queue) :: enqueue key part rest

/-- `oldPartsMap.get(key)?.shift()` -/
def shift (key : Key) : Queues Key → Option Nat × Queues Key
  | [] => (none, [])
  | (k, queue) :: rest =>
      if k = key then
        match queue with
        | [] => (none, (k, []) :: rest)
        | part :: queue => (some part, (k, queue) :: rest)
      else
        let (part, rest) := shift key rest
        (part, (k, queue) :: rest)

/-- The parts of all queues, one key after the other. -/
def parts (q : Queues Key) : List Nat := q.flatMap Prod.snd

end Queues

/-- The queues, and the parts without a key. -/
def collect : List Nat → List Key → Queues Key → Queues Key × List Nat
  | [], _, q => (q, [])
  | part :: parts, [], q => (q, part :: parts)
  | part :: parts, key :: keys, q => collect parts keys (q.enqueue key part)

/-- The variables of the loop over the items. -/
structure Progress (Key : Type) where
  node : NodePart Key
  oldParts : Queues Key
  newParts : List Nat
  newKeys : List Key
  insertAfter : Node

namespace Progress

/-- The part of an item, at its place. -/
def place (s : Progress Key) (key : Key) : Nat × Progress Key :=
  match s.oldParts.shift key with
  | (some part, oldParts) =>
      let node := if previous s.node.siblings (.start part) ≠ some s.insertAfter then
        s.node.movePart part s.insertAfter else s.node
      (part, { s with node, oldParts, newParts := s.newParts ++ [part], newKeys := s.newKeys ++ [key] })
  | (none, oldParts) =>
      let (part, node) := s.node.createChildPart s.insertAfter
      (part, { s with node, oldParts, newParts := s.newParts ++ [part], newKeys := s.newKeys ++ [key] })

def shown (s : Progress Key) (part : Nat) (content : List Nat) : Progress Key :=
  { s with node := s.node.update part content, insertAfter := .stop part }

end Progress

/-- The loop over the items, up to the first error. -/
def loop (result : RepeatResult Item Key) :
    List Item → Nat → Progress Key → Progress Key × Option String
  | [], _, s => (s, none)
  | item :: items, index, s =>
      match result.keyFn item index with
      | .error error => (s, some error)
      | .ok key =>
          let (part, s) := s.place key
          let rendered := result.render part item index
          match rendered.error with
          | some error => ({ s with node := s.node.update part rendered.content }, some error)
          | none => loop result items (index + 1) (s.shown part rendered.content)

def NodePart.updateRepeat (d : NodePart Key) (result : RepeatResult Item Key) :
    NodePart Key × Option String :=
  let (oldParts, unkeyed) := collect d.childParts d.partKeys []
  match loop result result.items 0 ⟨d, oldParts, [], [], .start d.self⟩ with
  | (s, none) =>
      let node := (s.node.disposeAll s.oldParts.parts).disposeAll unkeyed
      ({ node with childParts := s.newParts, partKeys := s.newKeys }, none)
  | (s, some error) =>
      let failed := (d.childParts ++ s.newParts).eraseDups
      ({ s.node.disposeAll failed with childParts := [], partKeys := [] }, some error)

/-! ## Section 3: Which part an item gets -/

/-- The previous parts with their keys; parts past the keys have none. -/
def previousParts (d : NodePart Key) : List (Option Key × Nat) :=
  d.childParts.zipIdx.map fun e => (d.partKeys[e.2]?, e.1)

/-- Each key takes the first part with this key that no key before it took. -/
def reused : List (Option Key × Nat) → List Key → List (Option Nat)
  | _, [] => []
  | old, key :: keys =>
      ((old.find? fun e => e.1 = some key).map Prod.snd) ::
        reused (old.eraseP fun e => e.1 = some key) keys

/-- What is left of the parts after the keys. -/
def leftover : List (Option Key × Nat) → List Key → List (Option Key × Nat)
  | old, [] => old
  | old, key :: keys => leftover (old.eraseP fun e => e.1 = some key) keys

namespace Queues

/-- The parts that wait under a key. -/
def waiting (key : Key) : Queues Key → List Nat
  | [] => []
  | (k, queue) :: rest => if k = key then queue else waiting key rest

theorem waiting_enqueue (q : Queues Key) (key key' : Key) (part : Nat) :
    (q.enqueue key part).waiting key' =
      if key = key' then q.waiting key' ++ [part] else q.waiting key' := by
  induction q with
  | nil => simp [enqueue, waiting]
  | cons e rest ih =>
    obtain ⟨k, queue⟩ := e
    by_cases hk : k = key
    · subst hk
      by_cases hkey : k = key' <;> simp [enqueue, waiting, hkey]
    · by_cases hkey : k = key'
      · subst hkey
        simp [enqueue, waiting, hk, Ne.symm hk]
      · simp [enqueue, waiting, hk, hkey, ih]

theorem parts_enqueue (q : Queues Key) (key : Key) (part : Nat) :
    (q.enqueue key part).parts.Perm (part :: q.parts) := by
  induction q with
  | nil => simp [enqueue, parts]
  | cons e rest ih =>
    obtain ⟨k, queue⟩ := e
    by_cases hk : k = key
    · simp only [enqueue, hk, if_true, parts, List.flatMap_cons]
      rw [List.append_assoc]
      exact List.perm_middle
    · simp only [enqueue, hk, if_false, parts, List.flatMap_cons]
      exact (ih.append_left queue).trans List.perm_middle

theorem shift_none {q q' : Queues Key} {key : Key} (h : q.shift key = (none, q')) :
    q.waiting key = [] ∧ q' = q := by
  induction q generalizing q' with
  | nil =>
    obtain rfl := (Prod.mk.inj h).2
    exact ⟨rfl, rfl⟩
  | cons e rest ih =>
    obtain ⟨k, queue⟩ := e
    by_cases hk : k = key
    · cases queue with
      | nil =>
        simp only [shift, hk, if_true, Prod.mk.injEq] at h
        simp [waiting, hk, h.2]
      | cons part queue => simp [shift, hk] at h
    · cases hrest : shift key rest with
      | mk part rest' =>
        simp only [shift, hk, if_false, hrest, Prod.mk.injEq] at h
        obtain ⟨rfl, rfl⟩ := h
        obtain ⟨hwaiting, rfl⟩ := ih hrest
        exact ⟨by simp [waiting, hk, hwaiting], rfl⟩

theorem shift_some {q q' : Queues Key} {key : Key} {part : Nat} (h : q.shift key = (some part, q')) :
    (∃ queue, q.waiting key = part :: queue ∧
      ∀ key', q'.waiting key' = if key = key' then queue else q.waiting key') ∧
      q.parts.Perm (part :: q'.parts) := by
  induction q generalizing q' with
  | nil => simp [shift] at h
  | cons e rest ih =>
    obtain ⟨k, queue⟩ := e
    by_cases hk : k = key
    · subst hk
      cases queue with
      | nil => simp [shift] at h
      | cons p queue =>
        simp only [shift, if_true, Prod.mk.injEq, Option.some.injEq] at h
        obtain ⟨rfl, rfl⟩ := h
        refine ⟨⟨queue, by simp [waiting], fun key' => ?_⟩, by simp [parts]⟩
        by_cases hkey : k = key' <;> simp [waiting, hkey]
    · cases hrest : shift key rest with
      | mk p rest' =>
        simp only [shift, hk, if_false, hrest, Prod.mk.injEq] at h
        obtain ⟨rfl, rfl⟩ := h
        obtain ⟨⟨left, hwaiting, hothers⟩, hperm⟩ := ih hrest
        refine ⟨⟨left, by simp [waiting, hk, hwaiting], fun key' => ?_⟩, ?_⟩
        · by_cases hkey : k = key'
          · subst hkey
            simp [waiting, Ne.symm hk]
          · simp [waiting, hkey, hothers key']
        · simp only [parts, List.flatMap_cons]
          exact (hperm.append_left queue).trans List.perm_middle

end Queues

/-- The queues hold what is left of the parts, each under its key. -/
structure Matches (q : Queues Key) (unkeyed : List Nat) (old : List (Option Key × Nat)) : Prop where
  waiting : ∀ key, q.waiting key = (old.filter fun e => e.1 = some key).map Prod.snd
  parts : (q.parts ++ unkeyed).Perm (old.map Prod.snd)

theorem collect_matches (parts : List Nat) (keys : List Key) (q : Queues Key)
    (before : List (Option Key × Nat)) (h : Matches q [] before) :
    Matches (collect parts keys q).1 (collect parts keys q).2
      (before ++ parts.zipIdx.map fun e => (keys[e.2]?, e.1)) := by
  induction parts generalizing keys q before with
  | nil => simpa [collect] using h
  | cons part parts ih =>
    cases keys with
    | nil =>
      refine ⟨fun key => ?_, ?_⟩
      · have hnone : ((part :: parts).zipIdx.map fun e => (([] : List Key)[e.2]?, e.1)).filter
            (fun e => e.1 = some key) = [] := by
          refine List.filter_eq_nil_iff.mpr fun e he => ?_
          obtain ⟨x, -, rfl⟩ := List.mem_map.mp he
          simp
        rw [collect, List.filter_append, hnone, List.append_nil]
        exact h.waiting key
      · have hsnd : ((part :: parts).zipIdx.map fun e => (([] : List Key)[e.2]?, e.1)).map Prod.snd =
            part :: parts := by
          rw [List.map_map]
          exact List.zipIdx_map_fst 0 (part :: parts)
        rw [collect, List.map_append, hsnd]
        have hparts := h.parts
        rw [List.append_nil] at hparts
        exact hparts.append_right _
    | cons key keys =>
      have hnext : Matches (q.enqueue key part) [] (before ++ [(some key, part)]) := by
        refine ⟨fun key' => ?_, ?_⟩
        · rw [Queues.waiting_enqueue, h.waiting key']
          by_cases hkey : key = key' <;> simp [hkey]
        · have hparts := h.parts
          rw [List.append_nil] at hparts ⊢
          rw [List.map_append]
          exact (Queues.parts_enqueue q key part).trans
            ((hparts.cons part).trans (List.perm_append_singleton part _).symm)
      have hshift : ((part :: parts).zipIdx.map fun e => ((key :: keys)[e.2]?, e.1)) =
          (some key, part) :: parts.zipIdx.map fun e => (keys[e.2]?, e.1) := by
        rw [List.zipIdx_cons, List.map_cons, List.zipIdx_succ, List.map_map]
        rfl
      have := ih keys (q.enqueue key part) _ hnext
      rw [List.append_assoc] at this
      rw [hshift]
      exact this

theorem previousParts_matches (d : NodePart Key) :
    Matches (collect d.childParts d.partKeys []).1 (collect d.childParts d.partKeys []).2
      (previousParts d) :=
  collect_matches d.childParts d.partKeys [] [] ⟨fun _ => rfl, .nil⟩

section matching
variable {q q' : Queues Key} {unkeyed : List Nat} {old : List (Option Key × Nat)} {key : Key}

theorem find?_filter_head :
    old.find? (fun e => e.1 = some key) = (old.filter fun e => e.1 = some key).head? :=
  (List.head?_filter ..).symm

/-- A key without a waiting part takes none. -/
theorem Matches.shift_none (h : Matches q unkeyed old) (hshift : q.shift key = (none, q')) :
    old.find? (fun e => e.1 = some key) = none ∧
      Matches q' unkeyed (old.eraseP fun e => e.1 = some key) := by
  obtain ⟨hwaiting, rfl⟩ := Queues.shift_none hshift
  have hempty : old.filter (fun e => e.1 = some key) = [] := by
    have := h.waiting key
    rw [hwaiting] at this
    exact List.map_eq_nil_iff.mp this.symm
  have hnone : old.find? (fun e => e.1 = some key) = none := by
    rw [find?_filter_head, hempty]
    rfl
  refine ⟨hnone, ?_⟩
  rw [List.eraseP_of_forall_not (by simpa using hnone)]
  exact h

/-- The first part that waits under a key is the first one with this key. -/
theorem Matches.shift_some {part : Nat} (h : Matches q unkeyed old)
    (hshift : q.shift key = (some part, q')) :
    (∃ a b, old = a ++ (some key, part) :: b ∧ (old.eraseP fun e => e.1 = some key) = a ++ b) ∧
      old.find? (fun e => e.1 = some key) = some (some key, part) ∧
      Matches q' unkeyed (old.eraseP fun e => e.1 = some key) := by
  obtain ⟨⟨queue, hqueue, hothers⟩, hperm⟩ := Queues.shift_some hshift
  have hfirst := h.waiting key
  rw [hqueue] at hfirst
  obtain ⟨e, hfind⟩ : ∃ e, old.find? (fun e => e.1 = some key) = some e := by
    rw [find?_filter_head]
    cases hfilter : old.filter fun e => e.1 = some key with
    | nil => simp [hfilter] at hfirst
    | cons e rest => exact ⟨e, rfl⟩
  obtain ⟨hkey, a, b, hold, hno⟩ := List.find?_eq_some_iff_append.mp hfind
  have hkey : e.1 = some key := by simpa using hkey
  have hfilter : old.filter (fun e => e.1 = some key) = e :: b.filter fun e => e.1 = some key := by
    have ha : a.filter (fun e => e.1 = some key) = [] :=
      List.filter_eq_nil_iff.mpr fun x hx => by simpa using hno x hx
    rw [hold, List.filter_append, ha, List.nil_append, List.filter_cons_of_pos (by simpa using hkey)]
  rw [hfilter, List.map_cons] at hfirst
  obtain ⟨hpart, hrest⟩ := List.cons.inj hfirst
  obtain rfl : (some key, part) = e := by rw [hpart, ← hkey]
  have herase : (old.eraseP fun e => e.1 = some key) = a ++ b := by
    rw [hold, List.eraseP_append_right _ (by simpa using hno), List.eraseP_cons_of_pos (by simp)]
  refine ⟨⟨a, b, hold, herase⟩, hfind, fun key' => ?_, ?_⟩
  · rw [hothers key', herase]
    by_cases hkey' : key = key'
    · subst hkey'
      have ha : a.filter (fun e => e.1 = some key) = [] :=
        List.filter_eq_nil_iff.mpr fun x hx => by simpa using hno x hx
      rw [if_pos rfl, List.filter_append, ha, List.nil_append, hrest]
    · rw [if_neg hkey', h.waiting key', hold, List.filter_append, List.filter_append,
        List.filter_cons_of_neg (by simpa using hkey')]
  · rw [herase]
    have hparts := h.parts
    rw [hold, List.map_append, List.map_cons] at hparts
    rw [List.map_append]
    refine (List.perm_cons part).mp ?_
    exact ((hperm.append_right unkeyed).symm.trans hparts).trans List.perm_middle

end matching

/-! ## Section 4: The ranges between the anchors -/

/-- The nodes of a child: its markers with its content between them. -/
def range (inner : Nat → List Nat) (part : Nat) : List Node :=
  .start part :: ((inner part).map .other ++ [.stop part])

def ranges (inner : Nat → List Nat) (parts : List Nat) : List Node := parts.flatMap (range inner)

/-- What does not belong to the children: the nodes outside the anchors, and nodes
    that an earlier value left behind them. -/
structure Frame where
  self : Nat
  before : List Node
  after : List Node
  stale : List Nat

/-- The siblings are the ranges of `parts` between the anchors, in this order and with
    nothing in between. -/
def Shows (f : Frame) (parts : List Nat) (siblings : List Node) : Prop :=
  siblings.Nodup ∧ ∃ (inner : Nat → List Nat) (kept : List Nat), kept.Sublist f.stale ∧
    siblings = f.before ++ .start f.self ::
      (ranges inner parts ++ (kept.map .other ++ .stop f.self :: f.after))

/-- A content node that does not stand outside the anchors. -/
def Frame.Inside (f : Frame) (n : Nat) : Prop := .other n ∉ f.before ∧ .other n ∉ f.after

@[simp] theorem ranges_append (inner : Nat → List Nat) (a b : List Nat) :
    ranges inner (a ++ b) = ranges inner a ++ ranges inner b := List.flatMap_append ..

@[simp] theorem ranges_cons (inner : Nat → List Nat) (part : Nat) (parts : List Nat) :
    ranges inner (part :: parts) =
      .start part :: ((inner part).map .other ++ .stop part :: ranges inner parts) := by
  simp [ranges, range]

@[simp] theorem ranges_nil (inner : Nat → List Nat) : ranges inner [] = [] := rfl

@[simp] theorem remove_start (p n : Nat) (l : List Node) :
    remove (.start p :: l) (.other n) = .start p :: remove l (.other n) := remove_cons_ne (by nofun) l

@[simp] theorem remove_stop (p n : Nat) (l : List Node) :
    remove (.stop p :: l) (.other n) = .stop p :: remove l (.other n) := remove_cons_ne (by nofun) l

theorem remove_others (n : Nat) (content : List Nat) :
    remove (content.map Node.other) (.other n) = (content.filter fun m => m ≠ n).map .other := by
  induction content with
  | nil => rfl
  | cons m content ih =>
    by_cases h : m = n
    · subst h
      simpa [remove_cons_self] using ih
    · rw [List.map_cons, remove_cons_ne (by simpa using h), ih, List.filter_cons_of_pos (by simpa using h)]
      rfl

theorem remove_ranges (n : Nat) (inner : Nat → List Nat) (parts : List Nat) :
    remove (ranges inner parts) (.other n) =
      ranges (fun p => (inner p).filter fun m => m ≠ n) parts := by
  induction parts with
  | nil => rfl
  | cons p parts ih =>
    rw [ranges_cons, remove_start, remove_append, remove_others, remove_stop, ih, ranges_cons]

theorem ranges_congr {inner inner' : Nat → List Nat} {parts : List Nat}
    (h : ∀ p ∈ parts, inner p = inner' p) : ranges inner parts = ranges inner' parts := by
  induction parts with
  | nil => rfl
  | cons p parts ih =>
    obtain ⟨hp, hrest⟩ := List.forall_mem_cons.mp h
    rw [ranges_cons, ranges_cons, hp, ih hrest]

theorem start_mem_ranges {inner : Nat → List Nat} {parts : List Nat} {p : Nat} :
    .start p ∈ ranges inner parts ↔ p ∈ parts := by
  simp [ranges, range]

theorem stop_mem_ranges {inner : Nat → List Nat} {parts : List Nat} {p : Nat} :
    .stop p ∈ ranges inner parts ↔ p ∈ parts := by
  simp [ranges, range]

section shows
variable {K : Type} {d : NodePart K} {f : Frame} {parts a b : List Nat} {l : List Node} {p n : Nat}

theorem Shows.remove_other (h : Shows f parts l) (hn : f.Inside n) :
    Shows f parts (remove l (.other n)) := by
  obtain ⟨hnodup, inner, kept, hkept, rfl⟩ := h
  refine ⟨hnodup.filter _, fun p => (inner p).filter fun m => m ≠ n, kept.filter fun m => m ≠ n,
    (List.filter_sublist).trans hkept, ?_⟩
  rw [remove_append, remove_of_not_mem hn.1, remove_start, remove_append, remove_ranges,
    remove_append, remove_others, remove_stop, remove_of_not_mem hn.2]

/-- The siblings around the range of one child. -/
theorem Shows.split (h : Shows f (a ++ p :: b) l) :
    l.Nodup ∧ ∃ (inner : Nat → List Nat) (kept : List Nat), kept.Sublist f.stale ∧
      l = (f.before ++ .start f.self :: ranges inner a) ++ .start p ::
        ((inner p).map .other ++ .stop p ::
          (ranges inner b ++ (kept.map .other ++ .stop f.self :: f.after))) := by
  obtain ⟨hnodup, inner, kept, hkept, rfl⟩ := h
  exact ⟨hnodup, inner, kept, hkept, by simp⟩

theorem Shows.insert_other (h : Shows f parts l) (hp : p ∈ parts) (hn : f.Inside n) :
    Shows f parts (insertBefore l (.other n) (some (.stop p))) := by
  obtain ⟨a, b, rfl⟩ := List.append_of_mem hp
  obtain ⟨hnodup, inner, kept, hkept, hl⟩ := h.split
  have hshape : l = (f.before ++ .start f.self :: (ranges inner a ++ .start p ::
      (inner p).map .other)) ++ .stop p ::
      (ranges inner b ++ (kept.map .other ++ .stop f.self :: f.after)) := by simp [hl]
  rw [hshape] at hnodup ⊢
  have hstop : (.stop p : Node) ∉ f.before ++ .start f.self :: (ranges inner a ++ .start p ::
      (inner p).map .other) := fun hmem =>
    (List.nodup_append.mp hnodup).2.2 _ hmem _ List.mem_cons_self rfl
  have ha : p ∉ a := fun hmem => hstop (by simp [stop_mem_ranges.mpr hmem])
  have hb : p ∉ b := fun hmem => by
    have hrest := (List.nodup_cons.mp (List.nodup_append.mp hnodup).2.1).1
    exact hrest (by simp [stop_mem_ranges.mpr hmem])
  refine ⟨nodup_insertBefore (by nofun) hnodup,
    fun q => if q = p then ((inner p).filter fun m => m ≠ n) ++ [n] else (inner q).filter fun m => m ≠ n,
    kept.filter fun m => m ≠ n, (List.filter_sublist).trans hkept, ?_⟩
  have hothers (parts : List Nat) (hparts : p ∉ parts) :
      ranges (fun q => if q = p then ((inner p).filter fun m => m ≠ n) ++ [n]
        else (inner q).filter fun m => m ≠ n) parts =
      ranges (fun q => (inner q).filter fun m => m ≠ n) parts := by
    refine ranges_congr fun q hq => if_neg ?_
    rintro rfl
    exact hparts hq
  rw [insertBefore_append (by nofun) hstop, ranges_append, ranges_cons, hothers a ha, hothers b hb]
  simp only [remove_append, remove_of_not_mem hn.1, remove_of_not_mem hn.2, remove_ranges,
    remove_others, remove_start, remove_stop, if_true]
  simp

/-- The nodes between the markers of a child are content, and none stands outside. -/
theorem Shows.between_markers (h : Shows f (a ++ p :: b) l) :
    ∃ content : List Nat, between l (.start p) (.stop p) = content.map .other ∧
      ∀ n ∈ content, f.Inside n := by
  obtain ⟨hnodup, inner, kept, -, hl⟩ := h.split
  rw [hl] at hnodup
  obtain ⟨-, hrest, hdisjoint⟩ := List.nodup_append.mp hnodup
  have hstart : (.start p : Node) ∉ f.before ++ .start f.self :: ranges inner a := fun hmem =>
    hdisjoint _ hmem _ List.mem_cons_self rfl
  refine ⟨inner p, ?_, fun n hn => ⟨fun hmem => ?_, fun hmem => ?_⟩⟩
  · rw [hl]
    exact between_append hstart (by simp)
  · exact hdisjoint (.other n) (by simp [hmem]) (.other n) (by simp [hn]) rfl
  · have hcontent := (List.nodup_append.mp (List.nodup_cons.mp hrest).2).2.2
    exact hcontent (.other n) (by simp [hn]) (.other n) (by simp [hmem]) rfl

theorem Shows.remove_others (h : Shows f parts l) {content : List Nat}
    (hcontent : ∀ n ∈ content, f.Inside n) : Shows f parts ((content.map .other).foldl remove l) := by
  induction content generalizing l with
  | nil => exact h
  | cons n content ih =>
    obtain ⟨hn, hrest⟩ := List.forall_mem_cons.mp hcontent
    exact ih (h.remove_other hn) hrest

theorem Shows.insert_others (h : Shows f parts l) (hp : p ∈ parts) {content : List Nat}
    (hcontent : ∀ n ∈ content, f.Inside n) :
    Shows f parts (content.foldl (fun l n => insertBefore l (.other n) (some (.stop p))) l) := by
  induction content generalizing l with
  | nil => exact h
  | cons n content ih =>
    obtain ⟨hn, hrest⟩ := List.forall_mem_cons.mp hcontent
    exact ih (h.insert_other hp hn) hrest

theorem Shows.update (h : Shows f parts d.siblings) (hp : p ∈ parts)
    {content : List Nat} (hcontent : ∀ n ∈ content, f.Inside n) :
    Shows f parts (d.update p content).siblings := by
  obtain ⟨a, b, rfl⟩ := List.append_of_mem hp
  obtain ⟨removed, hremoved, hinside⟩ := h.between_markers
  have hcleared : Shows f (a ++ p :: b) (d.cleared p) := by
    rw [NodePart.cleared, hremoved]
    exact h.remove_others hinside
  exact hcleared.insert_others hp hcontent

/-- A child that is disposed leaves with its markers. -/
theorem Shows.dispose (h : Shows f (a ++ p :: b) d.siblings) :
    Shows f (a ++ b) (d.dispose p).siblings := by
  obtain ⟨hnodup, inner, kept, hkept, hl⟩ := h.split
  generalize hleft : f.before ++ .start f.self :: ranges inner a = left at hl
  generalize hright : ranges inner b ++ (kept.map .other ++ .stop f.self :: f.after) = right at hl
  have hshape : d.siblings = (left ++ [.start p]) ++ (inner p).map .other ++ .stop p :: right := by
    simp [hl]
  have hmarkers : (.start p : Node) ∉ left ∧ (.stop p : Node) ∉ left ∧ (.start p : Node) ∉ right ∧
      (.stop p : Node) ∉ right := by
    rw [hl] at hnodup
    obtain ⟨-, hrest, hdisjoint⟩ := List.nodup_append.mp hnodup
    obtain ⟨hstart, hrest⟩ := List.nodup_cons.mp hrest
    have hstop := (List.nodup_cons.mp (List.nodup_append.mp hrest).2.1).1
    exact ⟨fun hmem => hdisjoint _ hmem _ List.mem_cons_self rfl,
      fun hmem => hdisjoint _ hmem (.stop p) (by simp) rfl, fun hmem => hstart (by simp [hmem]), hstop⟩
  have hbetween : between d.siblings (.start p) (.stop p) = (inner p).map .other := by
    rw [hl]
    exact between_append hmarkers.1 (by simp)
  have hcleared : d.cleared p = (left ++ [.start p]) ++ .stop p :: right := by
    rw [NodePart.cleared, hbetween]
    rw [hshape] at hnodup ⊢
    exact foldl_remove _ _ _ hnodup
  have hgone : (d.dispose p).siblings = left ++ right := by
    have hstart : remove ((left ++ [.start p]) ++ .stop p :: right) (.start p) =
        left ++ .stop p :: right := by
      rw [remove_append, remove_append, remove_of_not_mem hmarkers.1, remove_cons_self,
        remove_cons_ne (by nofun), remove_of_not_mem hmarkers.2.2.1]
      simp [remove]
    have hstop : remove (left ++ .stop p :: right) (.stop p) = left ++ right := by
      rw [remove_append, remove_of_not_mem hmarkers.2.1, remove_cons_self,
        remove_of_not_mem hmarkers.2.2.2]
    rw [NodePart.dispose, hcleared, hstart, hstop]
  rw [hgone]
  refine ⟨?_, inner, kept, hkept, by simp [← hleft, ← hright]⟩
  refine hnodup.sublist ?_
  rw [hl]
  refine (List.Sublist.refl left).append ?_
  exact (((List.Sublist.refl right).cons _).trans (List.sublist_append_right _ _)).cons _

/-! ## Section 5: Places in the list -/

/-- The node that the next child follows. -/
def lead (self : Nat) (placed : List Nat) : Node :=
  match placed.getLast? with
  | none => .start self
  | some part => .stop part

theorem lead_split (self : Nat) (inner : Nat → List Nat) (placed : List Nat) :
    ∃ init, .start self :: ranges inner placed = init ++ [lead self placed] := by
  rcases List.eq_nil_or_concat placed with rfl | ⟨rest, last, rfl⟩
  · exact ⟨[], rfl⟩
  · refine ⟨.start self :: (ranges inner rest ++ .start last :: (inner last).map .other), ?_⟩
    simp [lead]

/-- The siblings up to the place of the next child, and from there. -/
theorem Shows.at_lead {placed rest : List Nat} (h : Shows f (placed ++ rest) l) :
    l.Nodup ∧ ∃ (inner : Nat → List Nat) (kept : List Nat) (init : List Node),
      kept.Sublist f.stale ∧ f.before ++ .start f.self :: ranges inner placed =
        init ++ [lead f.self placed] ∧
      l = init ++ lead f.self placed ::
        (ranges inner rest ++ (kept.map .other ++ .stop f.self :: f.after)) := by
  obtain ⟨hnodup, inner, kept, hkept, hl⟩ := h
  obtain ⟨init, hinit⟩ := lead_split f.self inner placed
  refine ⟨hnodup, inner, kept, f.before ++ init, hkept, by rw [hinit, List.append_assoc], ?_⟩
  have hall : l = f.before ++ (.start f.self :: ranges inner placed) ++
      (ranges inner rest ++ (kept.map .other ++ .stop f.self :: f.after)) := by simp [hl]
  rw [hall, hinit]
  simp

/-- A part that waits among the leftovers comes to its place. -/
theorem Shows.move {placed x y : List Nat}
    (h : Shows f (placed ++ (x ++ p :: y)) d.siblings) :
    Shows f (placed ++ p :: (x ++ y))
      (if previous d.siblings (.start p) ≠ some (lead f.self placed) then
        d.movePart p (lead f.self placed) else d).siblings := by
  obtain ⟨hnodup, inner, kept, init, hkept, hinit, hl⟩ := h.at_lead
  generalize htail : kept.map .other ++ .stop f.self :: f.after = tail at hl
  have hshape : d.siblings = init ++ lead f.self placed :: (ranges inner x ++ .start p ::
      ((inner p).map .other ++ .stop p :: (ranges inner y ++ tail))) := by simp [hl]
  have hstart : (.start p : Node) ∉ (inner p).map .other ++ .stop p :: (ranges inner y ++ tail) := by
    rw [hshape] at hnodup
    have hrest := (List.nodup_cons.mp (List.nodup_append.mp hnodup).2.1).2
    exact (List.nodup_cons.mp (List.nodup_append.mp hrest).2.1).1
  have hprevious : previous d.siblings (.start p) =
      ((init ++ [lead f.self placed]) ++ ranges inner x).getLast? := by
    have hat : d.siblings = ((init ++ [lead f.self placed]) ++ ranges inner x) ++ .start p ::
        ((inner p).map .other ++ .stop p :: (ranges inner y ++ tail)) := by simp [hshape]
    rw [hat, previous_append hstart]
  rcases List.eq_nil_or_concat x with rfl | ⟨rest, last, rfl⟩
  · have hhere : previous d.siblings (.start p) = some (lead f.self placed) := by
      rw [hprevious]
      simp
    rw [if_neg (not_not_intro hhere)]
    exact h
  · rw [List.concat_eq_append] at h hshape hprevious
    have hends : ranges inner (rest ++ [last]) =
        (ranges inner rest ++ .start last :: (inner last).map .other) ++ [.stop last] := by simp
    have hlast : previous d.siblings (.start p) = some (.stop last) := by
      rw [hprevious, hends, ← List.append_assoc, List.getLast?_concat]
    -- the leftover before it does not end in the lead
    have hne : (.stop last : Node) ≠ lead f.self placed := by
      intro heq
      rw [hshape] at hnodup
      have hlead := (List.nodup_cons.mp (List.nodup_append.mp hnodup).2.1).1
      exact hlead (by simp [← heq])
    rw [if_pos (by rw [hlast]; simpa using hne), NodePart.movePart, List.concat_eq_append]
    show Shows f _ (moveAfter d.siblings (.start p) (.stop p) (lead f.self placed))
    rw [hshape] at hnodup ⊢
    rw [moveAfter_append (by simp) hnodup]
    refine ⟨?_, inner, kept, hkept, ?_⟩
    · refine hnodup.perm ?_
      refine List.Perm.append_left init (List.Perm.cons _ ?_)
      have := List.perm_append_comm_assoc (ranges inner (rest ++ [last]))
        (.start p :: ((inner p).map .other ++ [.stop p])) (ranges inner y ++ tail)
      simpa using this
    · have hsplit : f.before ++ .start f.self :: (ranges inner (placed ++ p :: (rest ++ [last] ++ y)) ++
          tail) = (f.before ++ .start f.self :: ranges inner placed) ++
          (ranges inner (p :: (rest ++ [last] ++ y)) ++ tail) := by simp
      rw [htail, hsplit, hinit]
      simp

/-- A fresh part has its markers at its place, and nothing between them. -/
theorem Shows.create {placed rest : List Nat}
    (h : Shows f (placed ++ rest) d.siblings)
    (hfresh : .start d.made ∉ d.siblings ∧ .stop d.made ∉ d.siblings) :
    Shows f (placed ++ d.made :: rest) (d.createChildPart (lead f.self placed)).2.siblings := by
  obtain ⟨hnodup, inner, kept, init, hkept, hinit, hl⟩ := h.at_lead
  generalize hrest : ranges inner rest ++ (kept.map .other ++ .stop f.self :: f.after) = right at hl
  have hlead : lead f.self placed ∉ init := by
    rw [hl] at hnodup
    exact fun hmem => (List.nodup_append.mp hnodup).2.2 _ hmem _ List.mem_cons_self rfl
  obtain ⟨ref, after, hright⟩ : ∃ ref after, right = ref :: after := by
    cases hr : right with
    | nil => simp [hr] at hrest
    | cons ref after => exact ⟨ref, after, rfl⟩
  subst hright
  have hnext : next d.siblings (lead f.self placed) = some ref := by
    rw [hl, next_append hlead]
    rfl
  have hat : d.siblings = (init ++ [lead f.self placed]) ++ ref :: after := by simp [hl]
  have href : ref ∉ init ++ [lead f.self placed] := by
    rw [hat] at hnodup
    exact fun hmem => (List.nodup_append.mp hnodup).2.2 _ hmem _ List.mem_cons_self rfl
  -- both markers are inserted before the node that followed the lead
  have hone : insertBefore d.siblings (.start d.made) (some ref) =
      (init ++ [lead f.self placed]) ++ .start d.made :: ref :: after := by
    obtain ⟨hleft, hright⟩ := not_or.mp (List.mem_append.not.mp (hat ▸ hfresh.1))
    obtain ⟨hne, hafter⟩ := not_or.mp (List.mem_cons.not.mp hright)
    rw [hat, insertBefore_append hne href, remove_of_not_mem hleft, remove_of_not_mem hafter]
  have htwo : insertBefore (insertBefore d.siblings (.start d.made) (some ref)) (.stop d.made)
      (some ref) = (init ++ [lead f.self placed]) ++ .start d.made :: .stop d.made :: ref :: after := by
    obtain ⟨hleft, hright⟩ := not_or.mp (List.mem_append.not.mp (hat ▸ hfresh.2))
    obtain ⟨hne, hafter⟩ := not_or.mp (List.mem_cons.not.mp hright)
    have hshape : (init ++ [lead f.self placed]) ++ .start d.made :: ref :: after =
        (init ++ [lead f.self placed] ++ [.start d.made]) ++ ref :: after := by simp
    have hstart : ref ≠ .start d.made := by
      rintro rfl
      exact hfresh.1 (by simp [hat])
    rw [hone, hshape, insertBefore_append hne (by simpa [hstart] using href), remove_append,
      remove_of_not_mem hleft, remove_cons_ne (by nofun), remove_of_not_mem hafter]
    simp [remove]
  have hsiblings : (d.createChildPart (lead f.self placed)).2.siblings =
      (init ++ [lead f.self placed]) ++ .start d.made :: .stop d.made :: ref :: after := by
    rw [← htwo, NodePart.createChildPart, hnext]
  rw [hsiblings]
  refine ⟨?_, fun q => if q = d.made then [] else inner q, kept, hkept, ?_⟩
  · have hperm : ((init ++ [lead f.self placed]) ++ .start d.made :: .stop d.made :: ref :: after).Perm
        (.start d.made :: .stop d.made :: d.siblings) := by
      rw [hat]
      exact List.perm_middle.trans (List.Perm.cons _ List.perm_middle)
    refine hperm.nodup_iff.mpr (List.nodup_cons.mpr ⟨?_, List.nodup_cons.mpr ⟨hfresh.2, hnodup⟩⟩)
    simpa using hfresh.1
  · have hnot (parts : List Nat) (hparts : .start d.made ∉ ranges inner parts) :
        ranges (fun q => if q = d.made then [] else inner q) parts = ranges inner parts := by
      refine ranges_congr fun q hq => if_neg ?_
      rintro rfl
      exact hparts (start_mem_ranges.mpr hq)
    have hplaced : .start d.made ∉ ranges inner placed := fun hmem => by
      have : Node.start d.made ∈ init ++ [lead f.self placed] := by
        rw [← hinit]
        simp [hmem]
      exact hfresh.1 (hat ▸ List.mem_append_left _ this)
    have hwait : .start d.made ∉ ranges inner rest := fun hmem => by
      have : Node.start d.made ∈ ref :: after := by
        rw [← hrest]
        simp [hmem]
      exact hfresh.1 (hat ▸ List.mem_append_right _ this)
    have hsplit : f.before ++ .start f.self ::
        (ranges (fun q => if q = d.made then [] else inner q) (placed ++ d.made :: rest) ++
          (kept.map .other ++ .stop f.self :: f.after)) =
        (f.before ++ .start f.self :: ranges inner placed) ++ .start d.made :: .stop d.made ::
          (ranges inner rest ++ (kept.map .other ++ .stop f.self :: f.after)) := by
      rw [ranges_append, ranges_cons, hnot placed hplaced, hnot rest hwait]
      simp
    rw [hsplit, hinit, hrest]

/-- Disposing what is left, in any order, leaves the children that are placed. -/
theorem Shows.disposeAll {placed rest order : List Nat} (h : Shows f (placed ++ rest) d.siblings)
    (horder : order.Perm rest) : Shows f placed (d.disposeAll order).siblings := by
  induction order generalizing d rest with
  | nil =>
    obtain rfl := List.nil_perm.mp horder
    rw [List.append_nil] at h
    exact h
  | cons p order ih =>
    obtain ⟨x, y, rfl⟩ := List.append_of_mem (horder.subset List.mem_cons_self)
    rw [← List.append_assoc] at h
    have hnext := h.dispose
    rw [List.append_assoc] at hnext
    exact ih hnext ((List.perm_cons p).mp (horder.trans List.perm_middle))

theorem disposed_disposeAll (d : NodePart K) (parts : List Nat) :
    (d.disposeAll parts).disposed = d.disposed ++ parts := by
  induction parts generalizing d with
  | nil => exact (List.append_nil _).symm
  | cons p parts ih =>
    show ((d.dispose p).disposeAll parts).disposed = _
    rw [ih, NodePart.dispose, List.append_assoc]
    rfl

theorem Shows.nodup_parts (h : Shows f parts l) : parts.Nodup := by
  obtain ⟨hnodup, inner, kept, -, rfl⟩ := h
  have hranges : (ranges inner parts).Nodup :=
    (List.nodup_append.mp (List.nodup_cons.mp (List.nodup_append.mp hnodup).2.1).2).1
  clear hnodup
  induction parts with
  | nil => exact List.nodup_nil
  | cons p parts ih =>
    rw [ranges_cons] at hranges
    obtain ⟨hstart, hrest⟩ := List.nodup_cons.mp hranges
    have htail := (List.nodup_cons.mp (List.nodup_append.mp hrest).2.1).2
    refine List.nodup_cons.mpr ⟨fun hmem => hstart ?_, ih htail⟩
    simp [start_mem_ranges.mpr hmem]

/-- The numbers of all parts are below `made`. -/
structure Numbered (f : Frame) (parts : List Nat) (made : Nat) : Prop where
  self : f.self < made
  outside : ∀ p, (.start p ∈ f.before ++ f.after ∨ .stop p ∈ f.before ++ f.after) → p < made
  parts : ∀ p ∈ parts, p < made

theorem Numbered.fresh {made : Nat} (h : Numbered f parts made) (hl : Shows f parts l) :
    .start made ∉ l ∧ .stop made ∉ l := by
  obtain ⟨-, inner, kept, -, rfl⟩ := hl
  have hself : made ≠ f.self := Nat.ne_of_gt h.self
  have hparts : made ∉ parts := fun hmem => Nat.lt_irrefl made (h.parts made hmem)
  have hstart : .start made ∉ f.before ++ f.after := fun hmem =>
    Nat.lt_irrefl made (h.outside made (.inl hmem))
  have hstop : .stop made ∉ f.before ++ f.after := fun hmem =>
    Nat.lt_irrefl made (h.outside made (.inr hmem))
  simp only [List.mem_append, not_or] at hstart hstop
  simp [start_mem_ranges, stop_mem_ranges, hself, hparts, hstart, hstop]

end shows

/-! ## Section 6: The loop -/

/-- What holds of the parts that are placed and of what is left of the previous ones. -/
structure Going (f : Frame) (d : NodePart Key) (unkeyed : List Nat) (s : Progress Key)
    (old : List (Option Key × Nat)) : Prop where
  shows : Shows f (s.newParts ++ old.map Prod.snd) s.node.siblings
  queues : Matches s.oldParts unkeyed old
  numbered : Numbered f (s.newParts ++ old.map Prod.snd) s.node.made
  made : d.made ≤ s.node.made
  left : ∀ p ∈ old.map Prod.snd, p ∈ d.childParts
  kept : ∀ p ∈ d.childParts, p ∈ s.newParts ∨ p ∈ old.map Prod.snd
  same : s.node.disposed = d.disposed

/-- A part of the previous list, or one that was made since. -/
def Gets (made : Nat) (previous : Option Nat) (part : Nat) : Prop :=
  match previous with
  | some old => part = old
  | none => made ≤ part

section going
variable {f : Frame} {d : NodePart Key} {unkeyed : List Nat} {s : Progress Key}
  {old : List (Option Key × Nat)} {key : Key}

/-- A part that waits under the key. -/
theorem Going.reuse (h : Going f d unkeyed s old) (hlead : s.insertAfter = lead f.self s.newParts)
    {part : Nat} {oldParts : Queues Key} (hshift : s.oldParts.shift key = (some part, oldParts)) :
    Going f d unkeyed (s.place key).2 (old.eraseP fun e => e.1 = some key) ∧
      (s.place key).1 = part ∧ (s.place key).2.newParts = s.newParts ++ [part] ∧
      (s.place key).2.newKeys = s.newKeys ++ [key] ∧
      old.find? (fun e => e.1 = some key) = some (some key, part) := by
  obtain ⟨⟨a, b, hold, herase⟩, hfind, hqueues⟩ := h.queues.shift_some hshift
  have hmap : old.map Prod.snd = a.map Prod.snd ++ part :: b.map Prod.snd := by simp [hold]
  have hmem (p : Nat) : p ∈ s.newParts ++ [part] ++ (a ++ b).map Prod.snd ↔
      p ∈ s.newParts ++ old.map Prod.snd := by
    rw [hmap]
    simp only [List.map_append, List.mem_append, List.mem_cons, List.not_mem_nil, or_false]
    tauto
  have hshows := h.shows
  rw [hmap] at hshows
  have hmove := hshows.move
  rw [← hlead] at hmove
  generalize hnode : (if previous s.node.siblings (.start part) ≠ some s.insertAfter then
    s.node.movePart part s.insertAfter else s.node) = node at hmove
  have hsame : node.made = s.node.made ∧ node.disposed = s.node.disposed := by
    rw [← hnode]
    split <;> exact ⟨rfl, rfl⟩
  have hplace : s.place key = (part, { s with
      node, oldParts, newParts := s.newParts ++ [part], newKeys := s.newKeys ++ [key] }) := by
    rw [Progress.place, hshift]
    simp only [hnode]
  rw [hplace, herase]
  refine ⟨⟨by simpa using hmove, herase ▸ hqueues, ⟨?_, ?_, ?_⟩, ?_, ?_, ?_, ?_⟩, rfl, rfl, rfl, hfind⟩
  · exact hsame.1 ▸ h.numbered.self
  · exact hsame.1 ▸ h.numbered.outside
  · intro p hp
    rw [hsame.1]
    exact h.numbered.parts p ((hmem p).mp hp)
  · rw [hsame.1]
    exact h.made
  · intro p hp
    refine h.left p ?_
    rw [List.map_append, List.mem_append] at hp
    rw [hmap, List.mem_append, List.mem_cons]
    tauto
  · intro p hp
    exact List.mem_append.mp ((hmem p).mpr (List.mem_append.mpr (h.kept p hp)))
  · exact hsame.2.trans h.same

/-- A part that is made for the key. -/
theorem Going.fresh (h : Going f d unkeyed s old) (hlead : s.insertAfter = lead f.self s.newParts)
    {oldParts : Queues Key} (hshift : s.oldParts.shift key = (none, oldParts)) :
    Going f d unkeyed (s.place key).2 (old.eraseP fun e => e.1 = some key) ∧
      (s.place key).1 = s.node.made ∧ (s.place key).2.newParts = s.newParts ++ [s.node.made] ∧
      (s.place key).2.newKeys = s.newKeys ++ [key] ∧ old.find? (fun e => e.1 = some key) = none := by
  obtain ⟨hfind, hqueues⟩ := h.queues.shift_none hshift
  have herase : (old.eraseP fun e => e.1 = some key) = old :=
    List.eraseP_of_forall_not (by simpa using hfind)
  have hplace : s.place key = (s.node.made, { s with
      node := (s.node.createChildPart s.insertAfter).2
      oldParts, newParts := s.newParts ++ [s.node.made], newKeys := s.newKeys ++ [key] }) := by
    rw [Progress.place, hshift]
    rfl
  have hcreate := h.shows.create (h.numbered.fresh h.shows)
  rw [← hlead] at hcreate
  rw [herase] at hqueues
  rw [hplace, herase]
  refine ⟨⟨by simpa using hcreate, hqueues, ⟨Nat.lt_succ_of_lt h.numbered.self,
    fun p hp => Nat.lt_succ_of_lt (h.numbered.outside p hp), ?_⟩, Nat.le_succ_of_le h.made, h.left, ?_,
    h.same⟩, rfl, rfl, rfl, hfind⟩
  · intro p hp
    have hp : p ∈ s.newParts ++ old.map Prod.snd ∨ p = s.node.made := by
      simp only [List.mem_append, List.mem_singleton] at hp ⊢
      tauto
    rcases hp with hp | rfl
    · exact Nat.lt_succ_of_lt (h.numbered.parts p hp)
    · exact Nat.lt_succ_self _
  · intro p hp
    have hp := h.kept p hp
    simp only [List.mem_append, List.mem_singleton]
    tauto

/-- The part of a key is placed behind the parts before it. -/
theorem Going.place (h : Going f d unkeyed s old) (hlead : s.insertAfter = lead f.self s.newParts)
    (key : Key) :
    Going f d unkeyed (s.place key).2 (old.eraseP fun e => e.1 = some key) ∧
      (s.place key).2.newParts = s.newParts ++ [(s.place key).1] ∧
      (s.place key).2.newKeys = s.newKeys ++ [key] ∧
      Gets d.made ((old.find? fun e => e.1 = some key).map Prod.snd) (s.place key).1 := by
  cases hshift : s.oldParts.shift key with
  | mk found oldParts =>
    cases found with
    | some part =>
      obtain ⟨hgoing, hpart, hparts, hkeys, hfind⟩ := h.reuse hlead hshift
      refine ⟨hgoing, hpart ▸ hparts, hkeys, ?_⟩
      rw [hfind]
      exact hpart
    | none =>
      obtain ⟨hgoing, hpart, hparts, hkeys, hfind⟩ := h.fresh hlead hshift
      refine ⟨hgoing, hpart ▸ hparts, hkeys, ?_⟩
      rw [hfind, hpart]
      exact h.made

/-- A child of the list shows its content. -/
theorem Going.update (h : Going f d unkeyed s old) {part : Nat} (hpart : part ∈ s.newParts)
    {content : List Nat} (hcontent : ∀ n ∈ content, f.Inside n) (insertAfter : Node) :
    Going f d unkeyed { s with node := s.node.update part content, insertAfter } old :=
  ⟨h.shows.update (List.mem_append_left _ hpart) hcontent, h.queues, h.numbered, h.made, h.left, h.kept,
    h.same⟩

/-- The keys of the items from `index` on. -/
def KeysOf (result : RepeatResult Item Key) (items : List Item) (index : Nat) (keys : List Key) : Prop :=
  List.Forall₂ (fun e key => result.keyFn e.1 e.2 = .ok key) (items.zipIdx index) keys

/-- No child shows a node that stands outside the anchors. -/
def Confined (f : Frame) (result : RepeatResult Item Key) : Prop :=
  ∀ part item index, ∀ n ∈ (result.render part item index).content, f.Inside n

/-- What the loop does with its items, when none of them fails and when one does. -/
theorem Going.loop (result : RepeatResult Item Key) (hinside : Confined f result) (items : List Item) :
    ∀ (index : Nat) (s : Progress Key) (old : List (Option Key × Nat)), Going f d unkeyed s old →
      s.insertAfter = lead f.self s.newParts →
      match loop result items index s with
      | (s', none) => ∃ keys parts, KeysOf result items index keys ∧
          Going f d unkeyed s' (leftover old keys) ∧ s'.newParts = s.newParts ++ parts ∧
          s'.newKeys = s.newKeys ++ keys ∧ List.Forall₂ (Gets d.made) (reused old keys) parts
      | (s', some _) => ∃ old', Going f d unkeyed s' old' := by
  induction items with
  | nil =>
    intro index s old h hlead
    exact ⟨[], [], .nil, h, by simp, by simp, .nil⟩
  | cons item items ih =>
    intro index s old h hlead
    cases hkey : result.keyFn item index with
    | error error =>
      simp only [KeyedLists.loop, hkey]
      exact ⟨old, h⟩
    | ok key =>
      obtain ⟨hgoing, hparts, hkeys, hgets⟩ := h.place hlead key
      have hmem : (s.place key).1 ∈ (s.place key).2.newParts := by
        rw [hparts]
        exact List.mem_append_right _ (List.mem_singleton_self _)
      have hcontent := hinside (s.place key).1 item index
      cases herror : (result.render (s.place key).1 item index).error with
      | some error =>
        simp only [KeyedLists.loop, hkey, herror]
        exact ⟨_, hgoing.update hmem hcontent _⟩
      | none =>
        simp only [KeyedLists.loop, hkey, herror]
        have hnext := hgoing.update hmem hcontent (.stop (s.place key).1)
        have hrest := ih (index + 1) _ _ hnext (by
          show Node.stop _ = lead f.self (s.place key).2.newParts
          rw [hparts]
          simp [lead])
        split at hrest
        · rename_i s' heq
          have heq : KeyedLists.loop result items (index + 1) ((s.place key).2.shown (s.place key).1
            (result.render (s.place key).1 item index).content) = (s', none) := heq
          rw [heq]
          obtain ⟨keys, parts, hkeysOf, hgoing', hparts', hkeys', hgets'⟩ := hrest
          refine ⟨key :: keys, (s.place key).1 :: parts, .cons hkey hkeysOf, hgoing', ?_, ?_,
            .cons hgets hgets'⟩
          · rw [hparts']
            show (s.place key).2.newParts ++ parts = _
            rw [hparts, List.append_assoc]
            rfl
          · rw [hkeys']
            show (s.place key).2.newKeys ++ keys = _
            rw [hkeys, List.append_assoc]
            rfl
        · rename_i s' error heq
          have heq : KeyedLists.loop result items (index + 1) ((s.place key).2.shown (s.place key).1
            (result.render (s.place key).1 item index).content) = (s', some error) := heq
          rw [heq]
          exact hrest

end going

/-! ## Section 7: The whole update -/

section update
variable {f : Frame} {d d' : NodePart Key} {result : RepeatResult Item Key}

/-- Before the first item nothing is placed. -/
theorem going_start (h : Shows f d.childParts d.siblings)
    (hnumbered : Numbered f d.childParts d.made) :
    Going f d (collect d.childParts d.partKeys []).2
      ⟨d, (collect d.childParts d.partKeys []).1, [], [], .start d.self⟩ (previousParts d) := by
  have hsnd : (previousParts d).map Prod.snd = d.childParts := by
    rw [previousParts, List.map_map]
    exact List.zipIdx_map_fst 0 d.childParts
  refine ⟨?_, previousParts_matches d, ?_, Nat.le_refl _, ?_, ?_, rfl⟩
  · rwa [List.nil_append, hsnd]
  · rwa [List.nil_append, hsnd]
  · rw [hsnd]
    exact fun p hp => hp
  · rw [hsnd]
    exact fun p hp => .inr hp

/-- What is disposed at the end: each previous part that was not reused, once. -/
theorem Going.gone {unkeyed : List Nat} {s : Progress Key} {old : List (Option Key × Nat)}
    (h : Going f d unkeyed s old) : (s.oldParts.parts ++ unkeyed).Nodup ∧
      ∀ p, p ∈ s.oldParts.parts ++ unkeyed ↔ p ∈ d.childParts ∧ p ∉ s.newParts := by
  obtain ⟨-, hold, hdisjoint⟩ := List.nodup_append.mp h.shows.nodup_parts
  refine ⟨h.queues.parts.nodup_iff.mpr hold, fun p => ?_⟩
  rw [h.queues.parts.mem_iff]
  constructor
  · exact fun hp => ⟨h.left p hp, fun hnew => hdisjoint p hnew p hp rfl⟩
  · exact fun ⟨hp, hnew⟩ => (h.kept p hp).resolve_left hnew

/-- After an update the children stand between the anchors in the order of the items;
    each item has the first part with its key that was not taken yet, or a fresh one;
    every other previous part is disposed once; what is outside stays. -/
theorem updateRepeat_exact (hself : f.self = d.self) (h : Shows f d.childParts d.siblings)
    (hnumbered : Numbered f d.childParts d.made) (hinside : Confined f result)
    (hdone : d.updateRepeat result = (d', none)) :
    Shows f d'.childParts d'.siblings ∧ Numbered f d'.childParts d'.made ∧
      (∃ keys, KeysOf result result.items 0 keys ∧ d'.partKeys = keys ∧
        List.Forall₂ (Gets d.made) (reused (previousParts d) keys) d'.childParts) ∧
      ∃ gone, d'.disposed = d.disposed ++ gone ∧ gone.Nodup ∧
        ∀ p, p ∈ gone ↔ p ∈ d.childParts ∧ p ∉ d'.childParts := by
  have hstart := going_start h hnumbered
  have hloop := hstart.loop result hinside result.items 0 _ _ (by rw [hself]; rfl)
  unfold NodePart.updateRepeat at hdone
  dsimp only at hdone
  cases hrun : KeyedLists.loop result result.items 0
      ⟨d, (collect d.childParts d.partKeys []).1, [], [], .start d.self⟩ with
  | mk s result' =>
    rw [hrun] at hdone hloop
    cases result' with
    | some _ => cases (Prod.mk.inj hdone).2
    | none =>
      obtain ⟨keys, parts, hkeys, hgoing, hparts, hnewKeys, hgets⟩ := hloop
      obtain rfl := (Prod.mk.inj hdone).1
      obtain rfl : s.newParts = parts := hparts
      obtain ⟨hnodup, hgone⟩ := hgoing.gone
      have hall (d : NodePart Key) (a b : List Nat) :
          (d.disposeAll a).disposeAll b = d.disposeAll (a ++ b) := (List.foldl_append ..).symm
      have hmade (d : NodePart Key) (order : List Nat) : (d.disposeAll order).made = d.made := by
        induction order generalizing d with
        | nil => rfl
        | cons p order ih => exact ih _
      rw [hall]
      refine ⟨hgoing.shows.disposeAll hgoing.queues.parts, ⟨?_, ?_, ?_⟩,
        ⟨keys, hkeys, hnewKeys, hgets⟩, _, ?_, hnodup, hgone⟩
      · exact (hmade _ _).symm ▸ hgoing.numbered.self
      · exact (hmade _ _).symm ▸ hgoing.numbered.outside
      · intro p hp
        show p < (s.node.disposeAll _).made
        rw [hmade]
        exact hgoing.numbered.parts p (List.mem_append_left _ hp)
      · exact (disposed_disposeAll _ _).trans (by rw [hgoing.same])

end update

/-- Three children, of which the last has no key. -/
def threeChildren : NodePart String where
  self := 0
  siblings := [.other 7, .start 0, .start 1, .other 11, .stop 1, .start 2, .other 12, .stop 2,
    .start 3, .other 13, .stop 3, .stop 0, .other 8]
  childParts := [1, 2, 3]
  partKeys := ["a", "b"]
  disposed := []
  made := 4

/-- A key that is known, one that is new, and the first again; each child shows one node. -/
def keyedItems : RepeatResult String String where
  items := ["b", "c", "b"]
  keyFn := fun item _ => .ok item
  render := fun part _ _ => ⟨[part + 10], none⟩

theorem updateRepeat_exact_three : ∃ d', threeChildren.updateRepeat keyedItems = (d', none) ∧
    Shows ⟨0, [.other 7], [.other 8], []⟩ [2, 4, 5] d'.siblings ∧ d'.disposed = [1, 3] := by
  refine ⟨_, rfl, ?_, rfl⟩
  have hshows : Shows ⟨0, [.other 7], [.other 8], []⟩ threeChildren.childParts
      threeChildren.siblings := ⟨by decide, fun p => [p + 10], [], .slnil, rfl⟩
  have hnumbered : Numbered ⟨0, [.other 7], [.other 8], []⟩ threeChildren.childParts
      threeChildren.made := by
    refine ⟨by decide, fun p hp => ?_, by decide⟩
    simp at hp
  have hinside : Confined ⟨0, [.other 7], [.other 8], []⟩ keyedItems := by
    intro part item index n hn
    obtain rfl := List.mem_singleton.mp hn
    exact ⟨by simp, by simp⟩
  exact (updateRepeat_exact rfl hshows hnumbered hinside rfl).1

end Cossack.Renderer.KeyedLists
