import Cossack.Core.OptimisticFields

/-! # The replay of one field

    A field shows its base, and on it the contributions newer than the base.
    What each update of the ledger does to that value. -/

namespace Cossack.Core

open Sequences

variable {N L : Type}

/-! ## Section 1: Fields in order -/

/-- The contributions of a field, its local edit included. -/
def recorded (field : OwnedField N L) : List (Change N L) :=
  field.changes ++ field.localEdit.toList

/-- The sequences of a field, up to the clock. -/
structure Ordered (clock : Nat) (field : OwnedField N L) : Prop where
  distinct : ((recorded field).map Change.sequence).Nodup
  bounded : ∀ change ∈ recorded field, change.sequence ≤ clock
  base_bounded : field.sequence ≤ clock
  copied : ∀ change ∈ field.changes, change.operations = none →
    copy change.value = .ok change.value
  edit_direct : ∀ edit, field.localEdit = some edit → edit.operations = none
  edit_newer : ∀ edit, field.localEdit = some edit → field.sequence < edit.sequence

theorem Ordered.mono {clock clock' : Nat} {field : OwnedField N L} (h : Ordered clock field)
    (hle : clock ≤ clock') : Ordered clock' field :=
  { h with
    bounded := fun change hmem => Nat.le_trans (h.bounded change hmem) hle
    base_bounded := Nat.le_trans h.base_bounded hle }

theorem mem_recorded {field : OwnedField N L} {change : Change N L} :
    change ∈ recorded field ↔ change ∈ field.changes ∨ field.localEdit = some change := by
  simp [recorded]

theorem changes_distinct {clock : Nat} {field : OwnedField N L} (h : Ordered clock field) :
    (field.changes.map Change.sequence).Nodup := by
  have hdistinct := h.distinct
  rw [recorded, List.map_append] at hdistinct
  exact hdistinct.of_append_left

theorem newer_eq {clock : Nat} {field : OwnedField N L} (h : Ordered clock field) :
    newer field = sorted Change.sequence
      ((recorded field).filter fun change => decide (field.sequence < change.sequence)) :=
  (sorted_filter h.distinct _).symm

theorem newer_strict {clock : Nat} {field : OwnedField N L} (h : Ordered clock field) :
    (newer field).Pairwise fun a b => a.sequence < b.sequence :=
  (sorted_strict h.distinct).filter _

theorem mem_newer {field : OwnedField N L} {change : Change N L} :
    change ∈ newer field ↔ change ∈ recorded field ∧ field.sequence < change.sequence := by
  unfold newer contributions
  rw [List.mem_filter, mem_sorted, decide_eq_true_eq]
  rfl

/-- A contribution newer than all others is replayed last. -/
theorem newer_append {clock : Nat} {field : OwnedField N L} (h : Ordered clock field)
    {change : Change N L} (hnew : clock < change.sequence) :
    newer { field with changes := field.changes ++ [change] } = newer field ++ [change] := by
  have hlast : sorted Change.sequence (field.changes ++ change :: field.localEdit.toList) =
      sorted Change.sequence (recorded field) ++ [change] :=
    sorted_insert_last h.distinct fun other hmem =>
      Nat.lt_of_le_of_lt (h.bounded other hmem) hnew
  have hbase : field.sequence < change.sequence := Nat.lt_of_le_of_lt h.base_bounded hnew
  unfold newer contributions
  simp only [List.append_assoc, List.singleton_append]
  rw [hlast, List.filter_append, List.filter_cons_of_pos (by simpa using hbase)]
  rfl

theorem newer_edit {clock : Nat} {field : OwnedField N L} (h : Ordered clock field)
    {edit : Change N L} (hnew : clock < edit.sequence) :
    newer { field with localEdit := some edit } =
      newer { field with localEdit := none } ++ [edit] := by
  have hchanges := changes_distinct h
  have hlast : sorted Change.sequence (field.changes ++ [edit]) =
      sorted Change.sequence (field.changes ++ []) ++ [edit] :=
    sorted_insert_last (by rwa [List.append_nil]) fun other hmem => by
      rw [List.append_nil] at hmem
      exact Nat.lt_of_le_of_lt (h.bounded other (mem_recorded.mpr (.inl hmem))) hnew
  have hbase : field.sequence < edit.sequence := Nat.lt_of_le_of_lt h.base_bounded hnew
  show (sorted Change.sequence (field.changes ++ [edit])).filter _ =
    (sorted Change.sequence (field.changes ++ [])).filter _ ++ [edit]
  rw [hlast, List.filter_append, List.filter_cons_of_pos (by simpa using hbase)]
  rfl

theorem changes_kept {clock : Nat} {field : OwnedField N L} (h : Ordered clock field)
    {sequence : Nat} (hnew : clock < sequence) :
    field.changes.filter (·.sequence != sequence) = field.changes := by
  rw [List.filter_eq_self]
  intro other hmem
  have := h.bounded other (mem_recorded.mpr (.inl hmem))
  simp only [bne_iff_ne, ne_eq]
  omega

theorem dropChange_newer {clock : Nat} {field : OwnedField N L} (h : Ordered clock field)
    {sequence : Nat} (hnew : clock < sequence) : dropChange field sequence = field := by
  unfold dropChange
  rw [changes_kept h hnew]

theorem dropChange_append {clock : Nat} {field : OwnedField N L} (h : Ordered clock field)
    {change : Change N L} (hnew : clock < change.sequence) :
    dropChange { field with changes := field.changes ++ [change] } change.sequence = field := by
  unfold dropChange
  rw [List.filter_append, changes_kept h hnew]
  simp

theorem dropChange_ordered {clock : Nat} {field : OwnedField N L} (h : Ordered clock field)
    (sequence : Nat) : Ordered clock (dropChange field sequence) := by
  have hsub : (recorded (dropChange field sequence)).Sublist (recorded field) :=
    List.Sublist.append List.filter_sublist (List.Sublist.refl _)
  exact {
    distinct := h.distinct.sublist (hsub.map _)
    bounded := fun change hmem => h.bounded change (hsub.subset hmem)
    base_bounded := h.base_bounded
    copied := fun change hmem => h.copied change (List.mem_of_mem_filter hmem)
    edit_direct := h.edit_direct
    edit_newer := h.edit_newer }

theorem releaseEdit_recorded (field : OwnedField N L) (sequence : Nat) :
    (recorded (releaseEdit field sequence)).Sublist (recorded field) := by
  apply List.Sublist.append (List.Sublist.refl _)
  show (field.localEdit.filter fun e => decide (sequence < e.sequence)).toList.Sublist
    field.localEdit.toList
  cases field.localEdit with
  | none => exact List.Sublist.refl _
  | some edit => by_cases hlt : sequence < edit.sequence <;> simp [Option.filter, hlt]

theorem releaseEdit_some {field : OwnedField N L} {sequence : Nat} {edit : Change N L}
    (h : (releaseEdit field sequence).localEdit = some edit) :
    field.localEdit = some edit ∧ sequence < edit.sequence := by
  obtain ⟨hsome, hlt⟩ := Option.filter_eq_some_iff.mp h
  exact ⟨hsome, of_decide_eq_true hlt⟩

/-- A new base at `sequence`, with the older edits released. -/
theorem rebased_ordered {clock : Nat} {field : OwnedField N L} (h : Ordered clock field)
    (base : Value N L) {sequence : Nat} (hle : sequence ≤ clock) :
    Ordered clock (releaseEdit { field with base, sequence } sequence) := by
  have hsub := releaseEdit_recorded { field with base, sequence } sequence
  exact {
    distinct := h.distinct.sublist (hsub.map _)
    bounded := fun change hmem => h.bounded change (hsub.subset hmem)
    base_bounded := hle
    copied := h.copied
    edit_direct := fun edit heq => h.edit_direct edit (releaseEdit_some heq).1
    edit_newer := fun edit heq => (releaseEdit_some heq).2 }

theorem releaseEdit_ordered {clock : Nat} {field : OwnedField N L} (h : Ordered clock field)
    (sequence : Nat) : Ordered clock (releaseEdit field sequence) := by
  have hsub := releaseEdit_recorded field sequence
  exact {
    distinct := h.distinct.sublist (hsub.map _)
    bounded := fun change hmem => h.bounded change (hsub.subset hmem)
    base_bounded := h.base_bounded
    copied := h.copied
    edit_direct := fun edit heq => h.edit_direct edit (releaseEdit_some heq).1
    edit_newer := fun edit heq => h.edit_newer edit (releaseEdit_some heq).1 }

theorem appended_ordered {clock : Nat} {field : OwnedField N L} (h : Ordered clock field)
    {change : Change N L} (hnew : clock < change.sequence)
    (hcopied : change.operations = none → copy change.value = .ok change.value) :
    Ordered change.sequence { field with changes := field.changes ++ [change] } := by
  have hperm : (recorded { field with changes := field.changes ++ [change] }).Perm
      (change :: recorded field) := by
    unfold recorded
    rw [List.append_assoc]
    exact List.perm_middle
  refine ⟨?_, ?_, ?_, ?_, h.edit_direct, h.edit_newer⟩
  · rw [(hperm.map Change.sequence).nodup_iff, List.map_cons, List.nodup_cons]
    refine ⟨?_, h.distinct⟩
    intro hmem
    obtain ⟨other, hother, heq⟩ := List.mem_map.mp hmem
    have := h.bounded other hother
    omega
  · intro other hmem
    rcases List.mem_cons.mp (hperm.mem_iff.mp hmem) with rfl | hmem
    · exact Nat.le_refl _
    · have := h.bounded other hmem
      omega
  · have := h.base_bounded
    show field.sequence ≤ change.sequence
    omega
  · intro other hmem hdirect
    rcases List.mem_append.mp hmem with hmem | hmem
    · exact h.copied other hmem hdirect
    · cases List.mem_singleton.mp hmem
      exact hcopied hdirect

theorem edited_ordered {clock : Nat} {field : OwnedField N L} (h : Ordered clock field)
    {edit : Change N L} (hnew : clock < edit.sequence) (hdirect : edit.operations = none) :
    Ordered edit.sequence { field with localEdit := some edit } := by
  have hchanges := changes_distinct h
  have hbound : ∀ change ∈ field.changes, change.sequence < edit.sequence := by
    intro change hmem
    have := h.bounded change (mem_recorded.mpr (.inl hmem))
    omega
  refine ⟨?_, ?_, ?_, h.copied, ?_, ?_⟩
  · show ((field.changes ++ [edit]).map Change.sequence).Nodup
    rw [List.map_append]
    apply List.Nodup.append hchanges (List.nodup_singleton _)
    intro sequence hmem hedit
    obtain ⟨change, hchange, rfl⟩ := List.mem_map.mp hmem
    exact absurd (hbound change hchange) (by simp at hedit; omega)
  · intro change hmem
    rcases mem_recorded.mp hmem with hmem | hmem
    · exact Nat.le_of_lt (hbound change hmem)
    · cases hmem
      exact Nat.le_refl _
  · have := h.base_bounded
    show field.sequence ≤ edit.sequence
    omega
  · rintro other ⟨⟩
    exact hdirect
  · rintro other ⟨⟩
    have := h.base_bounded
    show field.sequence < edit.sequence
    omega

theorem findChange_eq_some {clock : Nat} {field : OwnedField N L} (h : Ordered clock field)
    {sequence : Nat} {change : Change N L} :
    findChange field sequence = some change ↔
      change ∈ field.changes ∧ change.sequence = sequence := by
  constructor
  · intro hfind
    exact ⟨List.mem_of_find?_eq_some hfind, by simpa using List.find?_some hfind⟩
  · rintro ⟨hmem, rfl⟩
    have hchanges := changes_distinct h
    cases hfind : findChange field change.sequence with
    | none =>
      exact absurd (List.find?_eq_none.mp hfind change hmem) (by simp)
    | some other =>
      have hother : other ∈ field.changes := List.mem_of_find?_eq_some hfind
      have hseq : other.sequence = change.sequence := by simpa using List.find?_some hfind
      rw [List.inj_on_of_nodup_map hchanges hother hmem hseq]

/-! ## Section 2: The value shown

    One lemma for each update of a field. -/

variable [JsNumber N] [DecidableEq N] [DecidableEq L]

/-- The field shows `value`, and the property holds it. -/
structure Shows (clock : Nat) (value : Value N L) (field : OwnedField N L) : Prop
    extends Ordered clock field where
  displayed : field.displayed = value
  shown : shown field = .ok value

theorem Shows.mono {clock clock' : Nat} {field : OwnedField N L} {value : Value N L}
    (h : Shows clock value field) (hle : clock ≤ clock') : Shows clock' value field :=
  { h with toOrdered := h.toOrdered.mono hle }

theorem shown_append {clock : Nat} {field : OwnedField N L} (h : Ordered clock field)
    {change : Change N L} (hnew : clock < change.sequence) {value : Value N L}
    (hshown : shown field = .ok value) :
    shown { field with changes := field.changes ++ [change] } = applyChange value change := by
  rw [shown_eq] at hshown ⊢
  rw [newer_append h hnew, List.foldlM_append]
  show (newer field).foldlM applyChange field.base >>= _ = _
  rw [hshown, Outcome.ok_bind, List.foldlM_cons]
  exact bind_pure _

theorem shown_edit {clock : Nat} {field : OwnedField N L} (h : Ordered clock field)
    {edit : Change N L} (hnew : clock < edit.sequence) (hdirect : edit.operations = none)
    {value : Value N L} (hshown : shown { field with localEdit := none } = .ok value) :
    shown { field with localEdit := some edit } = .ok edit.value := by
  rw [shown_eq] at hshown ⊢
  rw [newer_edit h hnew, List.foldlM_append]
  show (newer { field with localEdit := none }).foldlM applyChange field.base >>= _ = _
  rw [hshown, Outcome.ok_bind, List.foldlM_cons, applyChange_direct hdirect]
  rfl

/-- From a direct contribution on, only what is newer than it matters. -/
theorem shown_from {clock : Nat} {field : OwnedField N L} (h : Ordered clock field)
    {change : Change N L} (hmem : change ∈ newer field) (hdirect : change.operations = none)
    {value : Value N L} (hshown : shown field = .ok value) :
    ((newer field).filter fun other => decide (change.sequence < other.sequence)).foldlM
      applyChange change.value = .ok value := by
  obtain ⟨before, hsplit⟩ := exists_split (newer_strict h) hmem
  rw [shown_eq, hsplit] at hshown
  exact foldlM_from_direct hdirect hshown

/-- `write` of a field whose replay is defined. -/
theorem write_eq {current value : Value N L} {field : OwnedField N L}
    (h : shown field = .ok value) :
    write current field = .ok (value, { field with displayed := value }) := by
  have hcurrent : (if current = value then current else value) = value := by
    split
    · assumption
    · rfl
  unfold write
  rw [h, Outcome.ok_bind, hcurrent]
  rfl

/-! ## Section 3: A direct assignment that succeeds -/

/-- The field once the assignment `change` is its base. -/
def committedField (field : OwnedField N L) (change : Change N L) : OwnedField N L :=
  dropChange (releaseEdit { field with base := change.value, sequence := change.sequence }
    change.sequence) change.sequence

/-- Moving a direct assignment into the base leaves the replay as it is. -/
theorem shown_committed {clock : Nat} {field : OwnedField N L} (h : Ordered clock field)
    {change : Change N L} (hmem : change ∈ field.changes) (hdirect : change.operations = none)
    (hnewer : field.sequence < change.sequence) {value : Value N L}
    (hshown : shown field = .ok value) : shown (committedField field change) = .ok value := by
  have hle : change.sequence ≤ clock := h.bounded change (mem_recorded.mpr (.inl hmem))
  have hordered : Ordered clock (committedField field change) :=
    dropChange_ordered (rebased_ordered h change.value hle) change.sequence
  -- the same contributions are newer than the assignment in both fields
  have hrecorded : (recorded (committedField field change)).filter
        (fun other => decide (change.sequence < other.sequence)) =
      ((recorded field).filter fun other => decide (field.sequence < other.sequence)).filter
        fun other => decide (change.sequence < other.sequence) := by
    have hchanges : (field.changes.filter (·.sequence != change.sequence)).filter
          (fun other => decide (change.sequence < other.sequence)) =
        (field.changes.filter fun other => decide (field.sequence < other.sequence)).filter
          fun other => decide (change.sequence < other.sequence) := by
      simp only [List.filter_filter]
      apply List.filter_congr
      intro other _
      by_cases hlt : change.sequence < other.sequence
      · simp [hlt, Nat.ne_of_gt hlt, Nat.lt_trans hnewer hlt]
      · simp [hlt]
    have hedit : (field.localEdit.filter fun e => decide (change.sequence < e.sequence)).toList.filter
          (fun other => decide (change.sequence < other.sequence)) =
        (field.localEdit.toList.filter fun other => decide (field.sequence < other.sequence)).filter
          fun other => decide (change.sequence < other.sequence) := by
      cases field.localEdit with
      | none => rfl
      | some edit =>
        by_cases hlt : change.sequence < edit.sequence
        · simp [Option.filter, hlt, Nat.lt_trans hnewer hlt]
        · by_cases hbase : field.sequence < edit.sequence <;> simp [Option.filter, hlt, hbase]
    show ((field.changes.filter (·.sequence != change.sequence)) ++
      (field.localEdit.filter fun e => decide (change.sequence < e.sequence)).toList).filter _ = _
    unfold recorded
    rw [List.filter_append, List.filter_append, List.filter_append, hchanges, hedit]
  have hdistinct : (((recorded field).filter fun other =>
      decide (field.sequence < other.sequence)).map Change.sequence).Nodup :=
    h.distinct.sublist (List.filter_sublist.map _)
  have hnewer_eq : newer (committedField field change) =
      (newer field).filter fun other => decide (change.sequence < other.sequence) := by
    rw [newer_eq hordered, newer_eq h, ← sorted_filter hdistinct]
    exact congrArg _ hrecorded
  rw [shown_eq, hnewer_eq]
  exact shown_from h (mem_newer.mpr ⟨mem_recorded.mpr (.inl hmem), hnewer⟩) hdirect hshown

/-- What is no newer than the base does not count. -/
theorem shown_outdated {clock : Nat} {field : OwnedField N L} (h : Ordered clock field)
    {sequence : Nat} (hle : sequence ≤ field.sequence) :
    shown (dropChange (releaseEdit field sequence) sequence) = shown field := by
  have hordered := dropChange_ordered (releaseEdit_ordered h sequence) sequence
  have hedit : field.localEdit.filter (fun e => decide (sequence < e.sequence)) = field.localEdit := by
    cases heq : field.localEdit with
    | none => rfl
    | some edit => simp [Option.filter, Nat.lt_of_le_of_lt hle (h.edit_newer edit heq)]
  have hrecorded : (recorded (dropChange (releaseEdit field sequence) sequence)).filter
        (fun other => decide (field.sequence < other.sequence)) =
      (recorded field).filter fun other => decide (field.sequence < other.sequence) := by
    show (field.changes.filter (·.sequence != sequence) ++
      (field.localEdit.filter fun e => decide (sequence < e.sequence)).toList).filter _ = _
    unfold recorded
    rw [hedit, List.filter_append, List.filter_append, List.filter_filter]
    congr 1
    apply List.filter_congr
    intro other _
    by_cases hlt : field.sequence < other.sequence
    · simp [hlt, Nat.ne_of_gt (Nat.lt_of_le_of_lt hle hlt)]
    · simp [hlt]
  have hnewer : newer (dropChange (releaseEdit field sequence) sequence) = newer field := by
    rw [newer_eq hordered, newer_eq h]
    exact congrArg _ hrecorded
  rw [shown_eq, shown_eq, hnewer]
  rfl

end Cossack.Core
