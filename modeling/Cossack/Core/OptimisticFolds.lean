import Cossack.Core.OptimisticCalls
import Mathlib

/-! # What the calls leave displayed

    The invariant between a component and its calls, and that every field
    displays the fold of the calls that have not failed. -/

namespace Cossack.Core

open Sequences Runs

variable {N L : Type} [JsNumber N] [DecidableEq N] [DecidableEq L]

/-! ## Section 1: The ledger and its calls -/

def ledgerOf (c : Component N L) : Ledger N L :=
  c.ledger.getD { clock := 0, calls := [], fields := [] }

/-- A ledger that was made after the calls `old`, when `offset` calls had begun,
    and has seen the calls `new`. -/
structure TracksLedger (keys : Keys) (start target : String → Value N L) (begun : Nat)
    (ledger : Ledger N L) (old new : List (BegunCall N L)) (offset : Nat) : Prop where
  clock : ledger.clock + offset = begun
  finished : ∀ call ∈ old, call.outcome ≠ none
  ascending : Ascending offset new
  bounded : ∀ call ∈ new, call.id < begun
  pending : ∀ call ∈ new, call.outcome = none → ∃ opened ∈ ledger.calls, opened.id = call.id
  calls : ∀ opened ∈ ledger.calls, opened.sequence + offset = opened.id + 1 ∧
    opened.fields.Nodup ∧ ∃ call ∈ new, call.id = opened.id ∧ call.outcome = none ∧
      ∀ key, operationsOn key call.operations ≠ [] → key ∈ opened.fields
  owned : ∀ key field, Entries.get ledger.fields key = some field →
    key ∈ keys.1 ∧ Tracks (start key) (target key) key old new offset field
  unowned : ∀ key, Entries.get ledger.fields key = none →
    (∀ call ∈ new, operationsOn key call.operations = []) ∧
      ∀ v, applyOperations (start key) (retained key old) = .ok v → target key = v

/-- The component and its calls, split where the ledger was made. -/
def Tracking (keys : Keys) (start : String → Value N L) (s : Tracked N L) : Prop :=
  ∃ old new offset, s.calls = old ++ new ∧
    TracksLedger keys start s.component.target s.component.begun (ledgerOf s.component) old new offset

section TracksLedger

variable {keys : Keys} {start target : String → Value N L} {begun : Nat} {ledger : Ledger N L}
  {old new : List (BegunCall N L)} {offset : Nat}

omit [JsNumber N] [DecidableEq N] [DecidableEq L] in
theorem retained_nil {key : String} {calls : List (BegunCall N L)}
    (h : ∀ call ∈ calls, operationsOn key call.operations = []) : retained key calls = [] := by
  apply List.flatMap_eq_nil_iff.mpr
  intro call hmem
  rw [h call hmem, ite_self]

/-- The fold of all calls is displayed, where it is defined. -/
theorem TracksLedger.value_of_fold (h : TracksLedger keys start target begun ledger old new offset)
    {key : String} {v : Value N L}
    (hfold : applyOperations (start key) (retained key (old ++ new)) = .ok v) : target key = v := by
  cases hget : Entries.get ledger.fields key with
  | some field => exact ((h.owned key field hget).2.value_of_fold h.ascending hfold).1
  | none =>
    obtain ⟨hnone, hvalue⟩ := h.unowned key hget
    rw [retained_append, retained_nil hnone, List.append_nil] at hfold
    exact hvalue v hfold

/-- A ledger without calls. -/
theorem tracksLedger_empty {calls : List (BegunCall N L)} (hfinished : ∀ call ∈ calls, call.outcome ≠ none)
    (hvalue : ∀ key v, applyOperations (start key) (retained key calls) = .ok v → target key = v)
    (begun : Nat) : TracksLedger keys start target begun ⟨0, [], []⟩ calls [] begun where
  clock := Nat.zero_add _
  finished := hfinished
  ascending := ⟨fun _ hmem => (nomatch hmem), List.Pairwise.nil⟩
  bounded := fun _ hmem => (nomatch hmem)
  pending := fun _ hmem => (nomatch hmem)
  calls := fun _ hmem => (nomatch hmem)
  owned := fun _ _ hget => (nomatch hget)
  unowned := fun key _ => ⟨fun _ hmem => (nomatch hmem), hvalue key⟩

theorem TracksLedger.displayed (h : TracksLedger keys start target begun ledger old new offset)
    {key : String} {field : OwnedField N L} (hget : Entries.get ledger.fields key = some field) :
    target key = field.displayed :=
  (h.owned key field hget).2.displayed.symm

/-- The field a handler starts from. -/
theorem TracksLedger.startField (h : TracksLedger keys start target begun ledger old new offset)
    (key : String) : Tracks (start key) (target key) key old new offset
      ((Entries.get ledger.fields key).getD (newField (target key))) := by
  cases hget : Entries.get ledger.fields key with
  | some field => exact (h.owned key field hget).2
  | none =>
    obtain ⟨hnone, hvalue⟩ := h.unowned key hget
    exact newField_tracks hnone hvalue

/-- Where all folds are defined, the fields show their replays. -/
theorem TracksLedger.consistent (h : TracksLedger keys start target begun ledger old new offset)
    (hdefined : ∀ key, ∃ v, applyOperations (start key) (retained key (old ++ new)) = .ok v) :
    Consistent keys target ledger where
  calls := by
    intro opened hmem
    obtain ⟨hsequence, hnodup, call, hcall, hid, -⟩ := h.calls opened hmem
    have hbegun := h.bounded call hcall
    have hclock := h.clock
    exact ⟨by omega, hnodup⟩
  reactive := fun key field hget => (h.owned key field hget).1
  fields := by
    intro key field hget
    obtain ⟨-, htracks⟩ := h.owned key field hget
    obtain ⟨v, hv⟩ := hdefined key
    obtain ⟨hvalue, hshown⟩ := htracks.value_of_fold h.ascending hv
    have hordered : Ordered ledger.clock field := by
      apply htracks.toContributed.ordered h.ascending
      intro call hmem
      have hbegun := h.bounded call hmem
      have hclock := h.clock
      omega
    exact { hordered with
      displayed := htracks.displayed
      shown := hvalue ▸ hshown }

/-! ## Section 2: A call begins -/

/-- A call that has begun, with the fields it touched. -/
theorem TracksLedger.begin (h : TracksLedger keys start target begun ledger old new offset)
    {operations : List (String × OptimisticOperation N L)} {touched : List String}
    (htouched : touched.Nodup)
    (hoperations : ∀ key, operationsOn key operations ≠ [] → key ∈ touched)
    {target' : String → Value N L} {fields : List (String × OwnedField N L)}
    (howned : ∀ key field, Entries.get fields key = some field → key ∈ keys.1 ∧
      Tracks (start key) (target' key) key old (new ++ [⟨begun, operations, none⟩]) offset field)
    (hunowned : ∀ key, Entries.get fields key = none → Entries.get ledger.fields key = none ∧
      operationsOn key operations = [] ∧ target' key = target key) :
    TracksLedger keys start target' (begun + 1)
      ⟨ledger.clock + 1, ledger.calls ++ [⟨begun, ledger.clock + 1, touched⟩], fields⟩ old
      (new ++ [⟨begun, operations, none⟩]) offset where
  clock := by
    have hclock := h.clock
    show ledger.clock + 1 + offset = begun + 1
    omega
  finished := h.finished
  ascending := by
    have hclock := h.clock
    exact h.ascending.snoc (by show offset ≤ begun; omega) h.bounded
  bounded := by
    intro call hmem
    rcases List.mem_append.mp hmem with hmem | hmem
    · exact Nat.lt_succ_of_lt (h.bounded call hmem)
    · cases List.mem_singleton.mp hmem
      exact Nat.lt_succ_self _
  pending := by
    intro call hmem hpending
    rcases List.mem_append.mp hmem with hmem | hmem
    · obtain ⟨opened, hopened, hid⟩ := h.pending call hmem hpending
      exact ⟨opened, List.mem_append_left _ hopened, hid⟩
    · cases List.mem_singleton.mp hmem
      exact ⟨_, List.mem_append_right _ (List.mem_singleton.mpr rfl), rfl⟩
  calls := by
    intro opened hmem
    rcases List.mem_append.mp hmem with hmem | hmem
    · obtain ⟨hsequence, hnodup, call, hcall, hrest⟩ := h.calls opened hmem
      exact ⟨hsequence, hnodup, call, List.mem_append_left _ hcall, hrest⟩
    · cases List.mem_singleton.mp hmem
      have hclock := h.clock
      refine ⟨?_, htouched, _, List.mem_append_right _ (List.mem_singleton.mpr rfl), rfl, rfl,
        hoperations⟩
      show ledger.clock + 1 + offset = begun + 1
      omega
  owned := howned
  unowned := by
    intro key hget
    obtain ⟨hnone, hempty, hsame⟩ := hunowned key hget
    obtain ⟨hcalls, hvalue⟩ := h.unowned key hnone
    constructor
    · intro call hmem
      rcases List.mem_append.mp hmem with hmem | hmem
      · exact hcalls call hmem
      · cases List.mem_singleton.mp hmem
        exact hempty
    · rw [hsame]
      exact hvalue

end TracksLedger

/-! ## Section 3: Handlers -/

section Handlers

variable {keys : Keys} {start target : String → Value N L} {capture : Capture N L}
  {operations : List (String × OptimisticOperation N L)}

/-- A handler touches the fields it recorded operations on. -/
theorem Recorded.touches_iff (h : Recorded keys target operations capture) (key : String) :
    touches capture key (target key) = true ↔ operationsOn key operations ≠ [] := by
  unfold touches
  rw [h.kept key]
  by_cases hnil : operationsOn key operations = []
  · have htarget := h.target key
    rw [hnil] at htarget
    have hsame : target key = capture.target key := Except.ok.inj htarget
    simp [hnil, hsame]
  · simp [hnil]

theorem Recorded.unchanged (h : Recorded keys target operations capture) {key : String}
    (hnil : operationsOn key operations = []) : capture.target key = target key := by
  have htarget := h.target key
  rw [hnil] at htarget
  exact (Except.ok.inj htarget).symm

theorem Recorded.reactive (h : Recorded keys target operations capture) {key : String}
    (hoperations : operationsOn key operations ≠ []) : key ∈ keys.1 := by
  obtain ⟨operation, hmem⟩ := List.exists_mem_of_ne_nil _ hoperations
  obtain ⟨entry, hentry, hsome⟩ := List.mem_filterMap.mp hmem
  split at hsome
  · next heq => exact heq ▸ (h.checked entry hentry).1
  · exact nomatch hsome

/-- The value of a field that a handler recorded operations on is captured. -/
theorem Recorded.captured (h : Recorded keys target operations capture) {key : String}
    (hcopy : copy (capture.target key) = .ok (capture.target key)) (sequence : Nat)
    (own : Option (OwnedField N L)) :
    (captureField sequence capture key (target key) own).2 = false := by
  have hvalue : capturedValue key (target key) (capture.target key)
      (Entries.get capture.operations key) = .ok (capture.target key) := by
    unfold capturedValue
    rw [hcopy, h.kept key, Outcome.ok_bind]
    split
    · next hnone => rfl
    · next recorded hsome =>
      split at hsome
      · exact nomatch hsome
      · cases hsome
        rw [h.target key, Outcome.ok_bind, if_neg (not_not_intro rfl)]
        rfl
  rw [captureField_ok hvalue]

/-- What a handler recorded, and that it is all when nothing was refused. -/
theorem recordingHandler_recorded (keys : Keys) (target : String → Value N L)
    (operations : List (String × OptimisticOperation N L)) :
    ∃ recorded, Recorded keys target recorded
        (runActions (keys.1.map fun key => (key, target key)) (recordingHandler operations).actions
          ⟨target, []⟩).1 ∧
      ((runActions (keys.1.map fun key => (key, target key)) (recordingHandler operations).actions
          ⟨target, []⟩).2 = false → recorded = operations) :=
  runActions_recorded (recorded_nil keys target) operations

variable {begun : Nat} {ledger : Ledger N L} {old new : List (BegunCall N L)} {offset : Nat}
  {captured : Captured N L} {failed : Bool}

/-- The fields of a handler whose operations are all recorded. -/
theorem TracksLedger.record (h : TracksLedger keys start target begun ledger old new offset)
    (hrecorded : Recorded keys target operations capture)
    (hcopied : ∀ key ∈ keys.1, copy (capture.target key) = .ok (capture.target key))
    (hspec : CapturedAt (ledger.clock + 1) capture keys.1 target
      ⟨ledger.fields, [], failed⟩ captured) :
    TracksLedger keys start capture.target (begun + 1)
      ⟨ledger.clock + 1, ledger.calls ++ [⟨begun, ledger.clock + 1, captured.touched⟩],
        captured.fields⟩ old (new ++ [⟨begun, operations, none⟩]) offset := by
  have hclock := h.clock
  have hcalls : Ascending offset (new ++ [⟨begun, operations, none⟩]) :=
    h.ascending.snoc (by show offset ≤ begun; omega) h.bounded
  have htouches := hrecorded.touches_iff
  have hfields : ∀ key, Entries.get captured.fields key =
      if operationsOn key operations = [] then Entries.get ledger.fields key
      else some (captureField (ledger.clock + 1) capture key (target key)
        (Entries.get ledger.fields key)).1 := by
    intro key
    rw [hspec.fields key]
    by_cases hnil : operationsOn key operations = []
    · rw [if_pos hnil, if_neg fun hboth => (htouches key).mp hboth.2 hnil]
    · rw [if_neg hnil, if_pos ⟨hrecorded.reactive hnil, (htouches key).mpr hnil⟩]
  apply h.begin
  · rw [hspec.touched]
    exact keys.2.filter _
  · intro key hoperations
    rw [hspec.touched]
    exact List.mem_filter.mpr ⟨hrecorded.reactive hoperations, (htouches key).mpr hoperations⟩
  · intro key field hget
    rw [hfields key] at hget
    by_cases hnil : operationsOn key operations = []
    · rw [if_pos hnil] at hget
      obtain ⟨hkey, htracks⟩ := h.owned key field hget
      rw [hrecorded.unchanged hnil]
      exact ⟨hkey, htracks.pass hnil⟩
    · rw [if_neg hnil] at hget
      cases hget
      have hkey := hrecorded.reactive hnil
      obtain ⟨change, hsequence, hchange, -, -, heq⟩ := captureField_accepted
        (hrecorded.captured (hcopied key hkey) (ledger.clock + 1) (Entries.get ledger.fields key))
      rw [hrecorded.kept key, if_neg hnil] at hchange
      rw [heq]
      refine ⟨hkey, (h.startField key).join h.ascending hcalls hnil rfl ?_ hchange
        (hrecorded.target key)⟩
      rw [hsequence]
      show ledger.clock + 1 = begun + 1 - offset
      omega
  · intro key hget
    rw [hfields key] at hget
    by_cases hnil : operationsOn key operations = []
    · rw [if_pos hnil] at hget
      exact ⟨hget, hnil, hrecorded.unchanged hnil⟩
    · rw [if_neg hnil] at hget
      exact nomatch hget

/-- A handler that is not refused is one whose operations are accepted. -/
theorem accepts_of_captured {before : List (String × Value N L)}
    (hbefore : snapshotFields target keys.1 = .ok before)
    (hrecorded : Recorded keys target operations capture) {sequence : Nat}
    {fields : List (String × OwnedField N L)}
    (hspec : CapturedAt sequence capture keys.1 target ⟨fields, [], failed⟩ captured)
    (haccepted : captured.failed = false) : accepts keys target operations = true := by
  refine accepts_iff.mpr ⟨⟨before, hbefore⟩, hrecorded.checked, ?_⟩
  intro key hkey
  refine ⟨capture.target key, hrecorded.target key, ?_⟩
  by_cases hnil : operationsOn key operations = []
  · rw [hrecorded.unchanged hnil]
    exact copied_of_snapshot hbefore hkey
  · have htouch := (hrecorded.touches_iff key).mpr hnil
    cases hrejected : (captureField sequence capture key (target key)
        (Entries.get fields key)).2 with
    | true =>
      have hfailed := hspec.failed.mpr (.inr ⟨key, hkey, htouch, hrejected⟩)
      rw [haccepted] at hfailed
      exact nomatch hfailed
    | false =>
      cases hvalue : capturedValue key (target key) (capture.target key)
          (Entries.get capture.operations key) with
      | error message =>
        rw [captureField_error hvalue] at hrejected
        exact nomatch hrejected
      | ok next =>
        obtain ⟨rfl, hcopy, -⟩ := capturedValue_ok hvalue sequence
        exact hcopy

end Handlers

section Begin

variable {keys : Keys} {start : String → Value N L} {c : Component N L}
  {old new : List (BegunCall N L)} {offset : Nat}
  {operations : List (String × OptimisticOperation N L)}

theorem begin_accepted
    (h : TracksLedger keys start c.target c.begun (ledgerOf c) old new offset)
    (haccepts : accepts keys c.target operations = true) {c' : Component N L}
    (hc : (beginOptimisticCall c (some (recordingHandler operations)) keys.1).1 = c') :
    TracksLedger keys start c'.target c'.begun (ledgerOf c') old
      (new ++ [⟨c.begun, operations, none⟩]) offset := by
  obtain ⟨⟨before, hbefore⟩, hchecked, happlies⟩ := accepts_iff.mp haccepts
  have hobserve : observeAll c.target (ledgerOf c) = ledgerOf c :=
    observeAll_displayed fun key field hget => h.displayed hget
  have hran : (runActions (keys.1.map fun key => (key, c.target key))
      (recordingHandler operations).actions ⟨c.target, []⟩).2 = false :=
    runActions_accepted (recorded_nil keys c.target) hchecked
      fun key hkey => (happlies key hkey).imp fun _ hboth => hboth.1
  obtain ⟨recorded, hrecorded, hall⟩ := recordingHandler_recorded keys c.target operations
  rw [hall hran] at hrecorded
  subst hc
  unfold beginOptimisticCall
  rw [← ledgerOf, hobserve, hbefore, snapshotFields_eq hbefore]
  simp only
  generalize runActions _ (recordingHandler operations).actions _ = ran at hrecorded hran ⊢
  have hspec := captureFields_spec ((ledgerOf c).clock + 1) ran.1 keys.2 c.target
    ⟨(ledgerOf c).fields, [], ran.2 || (recordingHandler operations).throws⟩
  generalize captureFields ((ledgerOf c).clock + 1) ran.1 _ _ = captured at hspec ⊢
  have hcopied : ∀ key ∈ keys.1, copy (ran.1.target key) = .ok (ran.1.target key) := by
    intro key hkey
    obtain ⟨value, hvalue, hcopy⟩ := happlies key hkey
    cases hvalue.symm.trans (hrecorded.target key)
    exact hcopy
  have haccepted : captured.failed = false := by
    by_contra hfailed
    rcases hspec.failed.mp (by simpa using hfailed) with hthrew | ⟨key, hkey, -, hrejected⟩
    · rw [hran] at hthrew
      exact nomatch hthrew
    · rw [hrecorded.captured (hcopied key hkey)] at hrejected
      exact nomatch hrejected
  simp only [haccepted, Bool.false_eq_true, if_false]
  exact h.record hrecorded hcopied hspec

/-- A refused handler leaves the fields as they were, where all folds are
    defined. -/
theorem begin_refused
    (h : TracksLedger keys start c.target c.begun (ledgerOf c) old new offset)
    (hdefined : ∀ key, ∃ v, applyOperations (start key) (retained key (old ++ new)) = .ok v)
    (hrefused : ¬ accepts keys c.target operations = true) {c' : Component N L}
    (hc : (beginOptimisticCall c (some (recordingHandler operations)) keys.1).1 = c') :
    TracksLedger keys start c'.target c'.begun (ledgerOf c') old
      (new ++ [⟨c.begun, [], none⟩]) offset := by
  have hobserve : observeAll c.target (ledgerOf c) = ledgerOf c :=
    observeAll_displayed fun key field hget => h.displayed hget
  subst hc
  unfold beginOptimisticCall
  rw [← ledgerOf, hobserve]
  simp only
  cases hbefore : snapshotFields c.target keys.1 with
  | error message =>
    apply h.begin List.nodup_nil (fun key hne => absurd rfl hne)
    · intro key field hget
      obtain ⟨hkey, htracks⟩ := h.owned key field hget
      exact ⟨hkey, htracks.pass rfl⟩
    · exact fun key hget => ⟨hget, rfl, rfl⟩
  | ok before =>
    obtain ⟨recorded, hrecorded, hall⟩ := recordingHandler_recorded keys c.target operations
    rw [snapshotFields_eq hbefore]
    simp only
    generalize runActions _ (recordingHandler operations).actions _ = ran at hrecorded hall ⊢
    have hspec := captureFields_spec ((ledgerOf c).clock + 1) ran.1 keys.2 c.target
      ⟨(ledgerOf c).fields, [], ran.2 || (recordingHandler operations).throws⟩
    generalize captureFields ((ledgerOf c).clock + 1) ran.1 _ _ = captured at hspec ⊢
    have hfailed : captured.failed = true := by
      by_contra hnot
      have haccepted : captured.failed = false := by simpa using hnot
      have hran : ran.2 = false := by
        by_contra hthrew
        refine hnot (hspec.failed.mpr (.inl ?_))
        show (ran.2 || false) = true
        simpa using hthrew
      rw [hall hran] at hrecorded
      exact hrefused (accepts_of_captured hbefore hrecorded hspec haccepted)
    simp only [hfailed, if_true]
    generalize hwithdrawn : eachField false _ captured.touched ran.1.target _ = withdrawn
    have hspecified := withdrawn_spec (h.consistent hdefined) hspec _ hwithdrawn
    have hsame : ∀ key, withdrawn.1 key = c.target key := by
      intro key
      by_cases hkey : key ∈ keys.1
      · exact hspecified.target key hkey
      · rw [hspecified.elsewhere key hkey]
        apply hrecorded.unchanged
        by_contra hoperations
        exact hkey (hrecorded.reactive hoperations)
    simp only [hspecified.done, Option.isSome_none]
    show TracksLedger keys start withdrawn.1 (c.begun + 1)
      ⟨withdrawn.2.1.clock, (ledgerOf c).calls ++ [⟨c.begun, (ledgerOf c).clock + 1, []⟩],
        withdrawn.2.1.fields⟩ old _ offset
    rw [hspecified.clock]
    apply h.begin List.nodup_nil (fun key hne => absurd rfl hne)
    · intro key field hget
      obtain ⟨hkey, rfl⟩ := hspecified.fields key field hget
      have htracks : Tracks (start key) (c.target key) key old (new ++ [⟨c.begun, [], none⟩]) offset
          ((Entries.get (ledgerOf c).fields key).getD (newField (c.target key))) :=
        (h.startField key).pass rfl
      rw [hsame key]
      exact ⟨hkey, { htracks with displayed := rfl, shows := htracks.shows }⟩
    · intro key hget
      refine ⟨?_, rfl, hsame key⟩
      cases hown : Entries.get (ledgerOf c).fields key with
      | none => rfl
      | some field =>
        obtain ⟨field', hget'⟩ := hspecified.owned key field hown
        rw [hget] at hget'
        exact nomatch hget'

end Begin

/-! ## Section 4: A call finishes -/

section Finish

variable {keys : Keys} {start target : String → Value N L} {begun : Nat} {ledger : Ledger N L}
  {old new : List (BegunCall N L)} {offset : Nat}

/-- The fields of a finished call are written, all others stay. -/
theorem TracksLedger.settle (h : TracksLedger keys start target begun ledger old new offset)
    {call : OptimisticCall} (hfind : findCall ledger call.id = some call) (success : Bool)
    {result : (String → Value N L) × Ledger N L × Option String}
    (hresult : eachField true (settleField call success) call.fields target
      { ledger with calls := ledger.calls.filter (·.id != call.id) } = result) :
    TracksLedger keys start result.1 begun result.2.1 old
      (new.map (finishBegun call.id success)) offset := by
  obtain ⟨hsequence, hnodup, begunCall, hbegun, hid, hpending, htouched⟩ :=
    h.calls call (findCall_mem hfind).1
  have hsame : ∀ other ∈ new, other.id = call.id → other = begunCall :=
    fun other hother heq => h.ascending.unique hother hbegun (heq.trans hid.symm)
  have hoffset : offset ≤ call.id := hid ▸ h.ascending.from_offset begunCall hbegun
  have hsettle : ∀ key field, Entries.get ledger.fields key = some field →
      (settleField call success (target key) field).2.2 = none ∧
        Tracks (start key) (settleField call success (target key) field).1 key old
          (new.map (finishBegun call.id success)) offset
          (settleField call success (target key) field).2.1 := by
    intro key field hget
    apply (h.owned key field hget).2.settle h.ascending hsequence _ hoffset
    intro other hother heq
    rw [hsame other hother heq]
    exact hpending
  have hspec : UpdatedAt (settleField call success) call.fields target
      { ledger with calls := ledger.calls.filter (·.id != call.id) } result := by
    rw [← hresult]
    apply eachField_spec hnodup
    · exact fun _ key _ field hget => h.displayed hget
    · exact fun key _ field hget => (hsettle key field hget).1
  refine ⟨?_, h.finished, h.ascending.finish _ _, ?_, ?_, ?_, ?_, ?_⟩
  · rw [hspec.clock]
    exact h.clock
  · intro other hmem
    obtain ⟨before, hbefore, rfl⟩ := List.mem_map.mp hmem
    rw [finishBegun_id]
    exact h.bounded before hbefore
  · intro other hmem hopen
    obtain ⟨before, hbefore, rfl⟩ := List.mem_map.mp hmem
    -- a call that is still open after this one is another call
    have hne : before.id ≠ call.id := by
      intro heq
      rw [finishBegun, if_pos ⟨heq, hsame before hbefore heq ▸ hpending⟩] at hopen
      cases hopen
    rw [finishBegun_of_ne hne] at hopen ⊢
    obtain ⟨opened, hopened, hopenedId⟩ := h.pending before hbefore hopen
    refine ⟨opened, ?_, hopenedId⟩
    rw [hspec.calls]
    exact List.mem_filter.mpr ⟨hopened, by simpa [hopenedId] using hne⟩
  · intro opened hmem
    rw [hspec.calls] at hmem
    obtain ⟨hmem, hne⟩ := List.mem_filter.mp hmem
    obtain ⟨hopenedSequence, hopenedNodup, other, hother, hotherId, hotherPending, hotherTouched⟩ :=
      h.calls opened hmem
    have hotherNe : other.id ≠ call.id := by
      rw [hotherId]
      simpa using hne
    exact ⟨hopenedSequence, hopenedNodup, other,
      List.mem_map.mpr ⟨other, hother, finishBegun_of_ne hotherNe⟩, hotherId, hotherPending,
      hotherTouched⟩
  · intro key field' hget'
    by_cases hkey : key ∈ call.fields
    · cases hget : Entries.get ledger.fields key with
      | none =>
        rw [(hspec.unowned key hget).2] at hget'
        cases hget'
      | some field =>
        obtain ⟨htarget, hfield⟩ := hspec.owned key field hget hkey
        cases hget'.symm.trans hfield
        rw [htarget]
        exact ⟨(h.owned key field hget).1, (hsettle key field hget).2⟩
    · obtain ⟨htarget, hfield⟩ := hspec.elsewhere key hkey
      obtain ⟨hreactive, htracks⟩ := h.owned key field' (hfield.symm.trans hget')
      have hcontributions : contributionsOf key offset (new.map (finishBegun call.id success)) =
          contributionsOf key offset new := by
        apply contributionsOf_elsewhere
        intro other hother heq
        rw [hsame other hother heq]
        by_contra hoperations
        exact hkey (htouched key hoperations)
      rw [htarget]
      exact ⟨hreactive, { htracks with changes := htracks.changes.trans hcontributions.symm }⟩
  · intro key hget'
    have hget : Entries.get ledger.fields key = none := by
      cases hget : Entries.get ledger.fields key with
      | none => rfl
      | some field =>
        by_cases hkey : key ∈ call.fields
        · rw [(hspec.owned key field hget hkey).2] at hget'
          cases hget'
        · rw [(hspec.elsewhere key hkey).2] at hget'
          exact hget.symm.trans hget'
    obtain ⟨hnone, hvalue⟩ := h.unowned key hget
    constructor
    · intro other hmem
      obtain ⟨before, hbefore, rfl⟩ := List.mem_map.mp hmem
      rw [finishBegun_operations]
      exact hnone before hbefore
    · rw [(hspec.unowned key hget).1]
      exact hvalue

/-- The last call takes the ledger with it. -/
theorem TracksLedger.release (h : TracksLedger keys start target begun ledger old new offset)
    (hcalls : ledger.calls = []) :
    TracksLedger keys start target begun ⟨0, [], []⟩ (old ++ new) [] begun := by
  apply tracksLedger_empty
  · intro call hmem
    rcases List.mem_append.mp hmem with hmem | hmem
    · exact h.finished call hmem
    · intro hpending
      obtain ⟨opened, hopened, -⟩ := h.pending call hmem hpending
      rw [hcalls] at hopened
      exact nomatch hopened
  · exact fun key v hfold => h.value_of_fold hfold

theorem finish_tracks {c : Component N L}
    (h : TracksLedger keys start c.target c.begun (ledgerOf c) old new offset) (id : Nat)
    (success : Bool) : ∃ old' new' offset',
      (old ++ new).map (finishBegun id success) = old' ++ new' ∧
        TracksLedger keys start (finishOptimisticCall c id success).target
          (finishOptimisticCall c id success).begun (ledgerOf (finishOptimisticCall c id success))
          old' new' offset' := by
  have hold : old.map (finishBegun id success) = old :=
    (List.map_congr_left fun call hmem => finishBegun_finished (h.finished call hmem)).trans
      (List.map_id old)
  rw [List.map_append, hold]
  unfold finishOptimisticCall
  cases hpending : c.ledger.bind (findCall · id) with
  | none =>
    -- no open call has this id
    have hnew : new.map (finishBegun id success) = new := by
      refine (List.map_congr_left fun call hmem => ?_).trans (List.map_id new)
      apply if_neg
      rintro ⟨rfl, hopen⟩
      obtain ⟨opened, hopened, hid⟩ := h.pending call hmem hopen
      cases hledger : c.ledger with
      | none =>
        rw [ledgerOf, hledger] at hopened
        exact nomatch hopened
      | some ledger =>
        rw [ledgerOf, hledger] at hopened
        rw [hledger] at hpending
        exact absurd (List.find?_eq_none.mp hpending opened hopened) (by simpa using hid)
    rw [hnew]
    exact ⟨old, new, offset, rfl, h⟩
  | some call =>
    obtain ⟨ledger, hledger, hfind⟩ := Option.bind_eq_some_iff.mp hpending
    obtain ⟨-, rfl⟩ := findCall_mem hfind
    have hsame : ledgerOf c = ledger := by rw [ledgerOf, hledger]; rfl
    rw [hsame] at h
    simp only [settleCall, hledger, hfind]
    generalize hresult : eachField true _ call.fields c.target _ = result
    have hsettled := h.settle hfind success hresult
    by_cases hcalls : result.2.1.calls = []
    · refine ⟨_, [], c.begun, (List.append_nil _).symm, ?_⟩
      have hreleased : ledgerOf (releaseLedger ⟨result.1, some result.2.1, c.begun⟩) = ⟨0, [], []⟩ := by
        simp [ledgerOf, releaseLedger, Option.filter, hcalls]
      rw [hreleased]
      exact hsettled.release hcalls
    · refine ⟨old, _, offset, rfl, ?_⟩
      have hkept : ledgerOf (releaseLedger ⟨result.1, some result.2.1, c.begun⟩) = result.2.1 := by
        simp [ledgerOf, releaseLedger, Option.filter, hcalls]
      rw [hkept]
      exact hsettled

end Finish

/-! ## Section 5: Runs -/

theorem tracking_fresh (keys : Keys) (start : String → Value N L) :
    Tracking keys start ⟨fresh start, []⟩ := by
  refine ⟨[], [], 0, rfl, tracksLedger_empty (fun call hmem => ?_) (fun key v hvalue => ?_) 0⟩
  · exact nomatch hmem
  · exact Except.ok.inj hvalue

theorem tracking_step {keys : Keys} {start : String → Value N L} {s s' : Tracked N L}
    {event : CallEvent N L} (h : Tracking keys start s) (hsteady : Steady keys start s event)
    (hstep : trackedStep keys s event = some s') : Tracking keys start s' := by
  obtain ⟨old, new, offset, hcalls, h⟩ := h
  cases event with
  | beginCall operations =>
    cases hstep
    by_cases haccepts : accepts keys s.component.target operations = true
    · refine ⟨old, _, offset, ?_, begin_accepted h haccepts rfl⟩
      rw [hcalls, if_pos haccepts, List.append_assoc]
    · refine ⟨old, _, offset, ?_, begin_refused h ?_ haccepts rfl⟩
      · rw [hcalls, if_neg haccepts, List.append_assoc]
      · rw [← hcalls]
        exact hsteady.resolve_left haccepts
  | finishCall id success =>
    cases hstep
    obtain ⟨old', new', offset', hsplit, h'⟩ := finish_tracks h id success
    refine ⟨old', new', offset', ?_, h'⟩
    rw [hcalls]
    exact hsplit

omit [JsNumber N] [DecidableEq N] [DecidableEq L] in
theorem retained_finished {calls : List (BegunCall N L)} (h : ∀ call ∈ calls, call.outcome ≠ none)
    (key : String) : retained key calls = succeeded key calls := by
  unfold retained succeeded
  rw [List.flatMap_congr]
  intro call hmem
  cases houtcome : call.outcome with
  | none => exact absurd houtcome (h call hmem)
  | some success => cases success <;> simp

/-- After every event of every run, every field displays the fold of the
    operations of the calls begun and not failed so far, in the order they
    began; of the successful calls, once all have finished. -/
theorem fields_display_folds (keys : Keys) {start : String → Value N L} {s : Tracked N L}
    (hrun : Run (trackedStep keys) (Steady keys start) ⟨fresh start, []⟩ s) :
    (∀ key v, foldOf start s.calls key = .ok v → s.component.target key = v) ∧
      ((∀ call ∈ s.calls, call.outcome ≠ none) → ∀ key v,
        applyOperations (start key) (succeeded key s.calls) = .ok v → s.component.target key = v) := by
  obtain ⟨old, new, offset, hcalls, h⟩ := hrun.invariant (tracking_fresh keys start)
    fun _ _ _ h hsteady hstep => tracking_step h hsteady hstep
  have hfold : ∀ key v, foldOf start s.calls key = .ok v → s.component.target key = v := by
    intro key v hv
    unfold foldOf at hv
    rw [hcalls] at hv
    exact h.value_of_fold hv
  refine ⟨hfold, fun hfinished key v hv => hfold key v ?_⟩
  unfold foldOf
  rw [retained_finished hfinished]
  exact hv

/-- Of two overlapping calls the older one fails after the other has succeeded. -/
theorem overlapping_calls_folded :
    ∃ s : Tracked Int Empty,
      exec (trackedStep ⟨["count", "items"], by decide⟩)
        ⟨fresh fun key => if key = "count" then .num 0 else .arr [], []⟩
        [.beginCall [("count", .increment 2), ("items", .append (.str "a"))],
          .beginCall [("items", .remove (.str "a")), ("count", .increment 3)],
          .finishCall 1 true, .finishCall 0 false] = some s ∧
      s.component.target "count" = .num 3 ∧ s.component.target "items" = .arr [] := by
  let keys : Keys := ⟨["count", "items"], by decide⟩
  let start : String → Value Int Empty := fun key => if key = "count" then .num 0 else .arr []
  let events : List (CallEvent Int Empty) :=
    [.beginCall [("count", .increment 2), ("items", .append (.str "a"))],
      .beginCall [("items", .remove (.str "a")), ("count", .increment 3)],
      .finishCall 1 true, .finishCall 0 false]
  have hsteady : Admits (trackedStep keys) (Steady keys start) ⟨fresh start, []⟩ events := by
    refine ⟨.inl (by decide), fun s hs => ?_⟩
    cases hs
    refine ⟨.inl (by decide), fun s hs => ?_⟩
    exact ⟨trivial, fun _ _ => ⟨trivial, fun _ _ => trivial⟩⟩
  -- the calls that are left, and what they fold to
  have hend : (exec (trackedStep keys) ⟨fresh start, []⟩ events).any (fun s =>
      s.calls.all (fun call => call.outcome.isSome) &&
        decide (applyOperations (start "count") (succeeded "count" s.calls) = .ok (.num 3)) &&
        decide (applyOperations (start "items") (succeeded "items" s.calls) = .ok (.arr []))) =
      true := by decide
  obtain ⟨s, hs, hfolds⟩ := (Option.any_eq_true _ _).mp hend
  simp only [Bool.and_eq_true, List.all_eq_true, decide_eq_true_eq,
    Option.isSome_iff_ne_none] at hfolds
  obtain ⟨⟨hfinished, hcount⟩, hitems⟩ := hfolds
  have hdisplayed := (fields_display_folds keys (run_of_exec hs hsteady)).2 hfinished
  exact ⟨s, hs, hdisplayed "count" _ hcount, hdisplayed "items" _ hitems⟩

/-- `[[…[]…]]`, with `depth` arrays around the innermost one. -/
def nested : Nat → Value Int Empty
  | 0 => .arr []
  | depth + 1 => .arr [nested depth]

/-- A value at the depth limit can be recorded, but the field that holds it
    cannot be copied: the handler is refused.  And when the older of two calls
    fails, the increment of the other one has no finite result any more; what
    was displayed before stays. -/
theorem refused_and_overflowing_calls :
    ((exec (trackedStep ⟨["items"], by decide⟩) ⟨fresh fun _ => .arr [], []⟩
          [.beginCall [("items", .append (nested 256))]]).map fun s =>
        s.component.target "items") = some (.arr []) ∧
      applyOperations (.arr []) [.append (nested 256)] = .ok (.arr [nested 256]) ∧
      ((exec (trackedStep (L := Empty) ⟨["count"], by decide⟩) ⟨fresh fun _ => .num (2 ^ 1023), []⟩
          [.beginCall [("count", .increment (-2 ^ 1023))],
            .beginCall [("count", .increment (2 ^ 1023))], .finishCall 0 false]).map fun s =>
        s.component.target "count") = some (.num (2 ^ 1023)) ∧
      (2 : Int) ^ 1023 + 2 ^ 1023 ≠ 2 ^ 1023 :=
  ⟨by decide +kernel, by decide +kernel, by decide +kernel, by decide +kernel⟩

end Cossack.Core
