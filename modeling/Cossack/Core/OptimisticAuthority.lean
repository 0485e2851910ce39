import Cossack.Core.OptimisticEvents
import Mathlib

/-! # Authority, edits and what is displayed

    Responses, broadcasts and local edits race on one base value.  In a run
    whose replays are defined every event leaves the fields showing their
    replays, never puts an older state under a newer one, and loses no edit. -/

namespace Cossack.Core

open Sequences Runs

variable {N L : Type} [JsNumber N] [DecidableEq N] [DecidableEq L]

/-! ## Section 1: What a run promises -/

/-- The base, and on it in sequence order what is newer than it, is displayed. -/
def ShowsReplay (c : Component N L) : Prop :=
  ∀ key field, owned c key = some field →
    (newer field).foldlM applyChange field.base = .ok (c.target key)

/-- The base changes for a broadcast, or for a call no older than the one whose
    state was last applied; `sequence` is then the sequence of that call. -/
def StateNotOlder (before after : Component N L) (event : Event N L) : Prop :=
  ∀ key field field', owned before key = some field → owned after key = some field' →
    field'.sequence = field.sequence ∧
        (field'.base = field.base ∨ event = .frame key field'.base none false) ∨
      ∃ call, pendingCall before call.id = some call ∧ field.sequence ≤ call.sequence ∧
        field'.sequence = call.sequence ∧
        (event = .frame key field'.base (some call.id) false ∨ event = .finishCall call.id true)

/-- What ends an edit made at `sequence`: a state or a direct assignment of a
    call that is no older, or a later edit. -/
def Supersedes (c : Component N L) (key : String) (sequence : Nat) : Event N L → Prop
  | .frame k _ (some id) false => k = key ∧
      ∃ call, pendingCall c id = some call ∧ sequence ≤ call.sequence
  | .finishCall id true => ∃ call, pendingCall c id = some call ∧ key ∈ call.fields ∧
      sequence ≤ call.sequence ∧ ∀ field change, owned c key = some field →
        findChange field call.sequence = some change → change.operations = none
  | .edit k _ => k = key
  | _ => False

/-- An edit stays what the displayed value starts from until it is superseded. -/
def EditKept (before after : Component N L) (event : Event N L) : Prop :=
  ∀ key field edit, owned before key = some field → field.localEdit = some edit →
    ¬ Supersedes before key edit.sequence event →
      ∃ field', owned after key = some field' ∧ field'.localEdit = some edit ∧
        field'.sequence < edit.sequence ∧
        ((newer field').filter fun change => decide (edit.sequence < change.sequence)).foldlM
          applyChange edit.value = .ok (after.target key)

/-- A local edit of an owned field is recorded above all contributions. -/
def EditRecorded (before after : Component N L) (event : Event N L) : Prop :=
  ∀ key value field, event = .edit key value → owned before key = some field →
    ∃ field' edit, owned after key = some field' ∧ field'.localEdit = some edit ∧
      edit.value = value ∧ ∀ change ∈ field.changes, change.sequence < edit.sequence

/-- The contribution of a call that fails, that assigned directly and succeeds,
    or whose older snapshot arrives. -/
def Withdraws (c : Component N L) (key : String) (change : Change N L) : Event N L → Prop
  | .finishCall id success => ∃ call, pendingCall c id = some call ∧
      change.sequence = call.sequence ∧ (success = true → change.operations = none)
  | .confirm id keys => key ∈ keys.1 ∧
      ∃ call, pendingCall c id = some call ∧ change.sequence = call.sequence
  | _ => False

/-- Pending contributions and committed operations are retained. -/
def ContributionsRetained (before after : Component N L) (event : Event N L) : Prop :=
  ∀ key field, owned before key = some field → ∃ field', owned after key = some field' ∧
    (∀ change ∈ field.changes, change ∈ field'.changes ∨ Withdraws before key change event) ∧
    ∀ change ∈ field'.changes, change ∈ field.changes ∨ ∃ handler, event = .beginCall handler

/-! ## Section 2: One event -/

section Step

omit [JsNumber N] [DecidableEq N] [DecidableEq L]

variable {ledger : Ledger N L} {key : String} {field field' : OwnedField N L} {event : Event N L}

theorem FieldStep.not_older (h : FieldStep ledger key field event field') :
    field'.sequence = field.sequence ∧
        (field'.base = field.base ∨ event = .frame key field'.base none false) ∨
      ∃ call, findCall ledger call.id = some call ∧ field.sequence ≤ call.sequence ∧
        field'.sequence = call.sequence ∧
        (event = .frame key field'.base (some call.id) false ∨ event = .finishCall call.id true) := by
  cases h with
  | kept | joined | withdrawn | settled | edited | confirmed => exact .inl ⟨rfl, .inl rfl⟩
  | broadcast => exact .inl ⟨rfl, .inr rfl⟩
  | responded call value displayed hcall hle => exact .inr ⟨call, hcall, hle, rfl, .inl rfl⟩
  | committed call change displayed hcall hkey hfind hdirect hlt =>
    have hseq : change.sequence = call.sequence := by simpa using List.find?_some hfind
    exact .inr ⟨call, hcall, Nat.le_of_lt hlt, hseq, .inr rfl⟩

/-- An edit leaves a field only when it is released or replaced. -/
theorem FieldStep.edit_kept (h : FieldStep ledger key field event field')
    {c : Component N L} (hledger : c.ledger = some ledger)
    (hget : Entries.get ledger.fields key = some field) {edit : Change N L}
    (hedit : field.localEdit = some edit)
    (hopen : ¬ Supersedes c key edit.sequence event) : field'.localEdit = some edit := by
  have hreleased : ∀ sequence, sequence < edit.sequence →
      (releaseEdit field sequence).localEdit = some edit := by
    intro sequence hlt
    simp [releaseEdit, hedit, Option.filter, hlt]
  have hpending : ∀ id, pendingCall c id = findCall ledger id := by
    intro id
    rw [pendingCall, hledger]
    rfl
  have howned : owned c key = some field := by
    rw [owned, hledger]
    exact hget
  cases h with
  | kept | joined | withdrawn | broadcast | confirmed => exact hedit
  | edited => exact absurd rfl hopen
  | responded call value displayed hcall hle =>
    apply hreleased call.sequence
    by_contra hlt
    exact hopen ⟨rfl, call, (hpending _).trans hcall, Nat.le_of_not_lt hlt⟩
  | committed call change displayed hcall hkey hfind hdirect hlt =>
    have hseq : change.sequence = call.sequence := by simpa using List.find?_some hfind
    apply hreleased change.sequence
    by_contra hold
    refine hopen ⟨call, (hpending _).trans hcall, hkey, by omega, ?_⟩
    intro f other hf hother
    cases howned.symm.trans hf
    cases hfind.symm.trans hother
    exact hdirect
  | settled call displayed hcall hkey hchange =>
    apply hreleased call.sequence
    by_contra hold
    refine hopen ⟨call, (hpending _).trans hcall, hkey, Nat.le_of_not_lt hold, ?_⟩
    intro f other hf hother
    cases howned.symm.trans hf
    exact (hchange other hother).1

theorem FieldStep.retained (h : FieldStep ledger key field event field')
    {c : Component N L} (hledger : c.ledger = some ledger) {clock : Nat}
    (hordered : Ordered clock field) :
    (∀ change ∈ field.changes, change ∈ field'.changes ∨ Withdraws c key change event) ∧
      ∀ change ∈ field'.changes, change ∈ field.changes ∨ ∃ handler, event = .beginCall handler := by
  have hpending : ∀ id, pendingCall c id = findCall ledger id := by
    intro id
    rw [pendingCall, hledger]
    rfl
  -- dropping the change of one call keeps all others
  have hdrop : ∀ sequence, ∀ change ∈ field.changes,
      change ∈ field.changes.filter (·.sequence != sequence) ∨ change.sequence = sequence := by
    intro sequence change hmem
    by_cases heq : change.sequence = sequence
    · exact .inr heq
    · exact .inl (List.mem_filter.mpr ⟨hmem, by simpa using heq⟩)
  cases h with
  | kept | broadcast | responded | edited => exact ⟨fun _ hmem => .inl hmem, fun _ hmem => .inl hmem⟩
  | joined handler change displayed hnew =>
    exact ⟨fun _ hmem => .inl (List.mem_append_left _ hmem), fun _ _ => .inr ⟨handler, rfl⟩⟩
  | withdrawn call displayed hcall =>
    refine ⟨?_, fun _ hmem => .inl (List.mem_of_mem_filter hmem)⟩
    intro change hmem
    exact (hdrop call.sequence change hmem).imp id fun heq =>
      ⟨call, (hpending _).trans hcall, heq, fun hfalse => (by cases hfalse)⟩
  | confirmed call keys displayed hcall hkey =>
    refine ⟨?_, fun _ hmem => .inl (List.mem_of_mem_filter hmem)⟩
    intro change hmem
    exact (hdrop call.sequence change hmem).imp id fun heq =>
      ⟨hkey, call, (hpending _).trans hcall, heq⟩
  | committed call change displayed hcall hkey hfind hdirect hlt =>
    have hseq : change.sequence = call.sequence := by simpa using List.find?_some hfind
    refine ⟨?_, fun _ hmem => .inl (List.mem_of_mem_filter hmem)⟩
    intro other hmem
    refine (hdrop change.sequence other hmem).imp id fun heq =>
      ⟨call, (hpending _).trans hcall, heq.trans hseq, fun _ => ?_⟩
    have hother := (findChange_eq_some hordered).mpr ⟨hmem, heq.trans hseq⟩
    cases hfind.symm.trans hother
    exact hdirect
  | settled call displayed hcall hkey hchange =>
    refine ⟨?_, fun _ hmem => .inl (List.mem_of_mem_filter hmem)⟩
    intro other hmem
    refine (hdrop call.sequence other hmem).imp id fun heq =>
      ⟨call, (hpending _).trans hcall, heq, fun _ => ?_⟩
    exact (hchange other ((findChange_eq_some hordered).mpr ⟨hmem, heq⟩)).1

end Step

/-! ## Section 3: Runs -/

/-- Every field of a ledger shows its replay, in order. -/
def Settled (keys : Keys) (c : Component N L) : Prop :=
  ∀ ledger, c.ledger = some ledger → Consistent keys c.target ledger

theorem settled_fresh (keys : Keys) (start : String → Value N L) : Settled keys (fresh start) :=
  fun _ h => (nomatch h)

/-- An event whose replays are defined reaches a settled ledger field by field. -/
theorem act_reaches {keys : Keys} {c : Component N L} (h : Settled keys c) {event : Event N L}
    (hreplays : Replays c event) {ledger : Ledger N L} (hledger : c.ledger = some ledger) :
    Reaches keys ledger event (act keys c event) := by
  cases event with
  | beginCall handler =>
    exact (begin_spec (by rw [hledger]; rfl) (h ledger hledger) handler).1
  | finishCall id success => exact finish_spec hledger (h ledger hledger) hreplays
  | frame key value call echo => exact frame_spec hledger (h ledger hledger) hreplays
  | edit key value => exact edit_spec hledger (h ledger hledger) hreplays
  | confirm id confirmed => exact confirm_spec hledger (h ledger hledger) hreplays

theorem settled_act {keys : Keys} {c : Component N L} (h : Settled keys c) {event : Event N L}
    (hreplays : Replays c event) : Settled keys (act keys c event) := by
  intro ledger' hledger'
  cases hledger : c.ledger with
  | some ledger =>
    obtain ⟨after, hafter, hconsistent, -⟩ := act_reaches h hreplays hledger
    cases hafter.symm.trans hledger'
    exact hconsistent
  | none =>
    cases event with
    | beginCall handler =>
      -- the first call makes the ledger
      have hempty : Consistent keys c.target (⟨0, [], []⟩ : Ledger N L) :=
        ⟨fun _ hmem => (nomatch hmem), fun _ _ hget => (nomatch hget), fun _ _ hget => (nomatch hget)⟩
      obtain ⟨after, hafter, hconsistent, -⟩ :=
        (begin_spec (by rw [hledger]; rfl) hempty handler).1
      cases hafter.symm.trans hledger'
      exact hconsistent
    | finishCall | frame | edit | confirm =>
      simp [act, settleCall, applyOptimisticState, localEdit, confirmOptimisticFields, hledger]
        at hledger'

/-- A finished call may delete the ledger, and changes nothing else. -/
theorem step_act {keys : Keys} {c c' : Component N L} {event : Event N L}
    (h : step keys c event = some c') :
    c'.target = (act keys c event).target ∧
      ∀ ledger, c'.ledger = some ledger → (act keys c event).ledger = some ledger := by
  cases event with
  | finishCall id success =>
    cases h
    show (finishOptimisticCall c id success).target = (settleCall c id success).target ∧
      ∀ ledger, (finishOptimisticCall c id success).ledger = some ledger →
        (settleCall c id success).ledger = some ledger
    unfold finishOptimisticCall
    split
    · next hnone =>
      have hsame : settleCall c id success = c := by
        unfold settleCall
        cases hledger : c.ledger with
        | none => rfl
        | some ledger =>
          rw [hledger] at hnone
          simp only [Option.bind_some] at hnone
          simp only [hnone]
      rw [hsame]
      exact ⟨rfl, fun _ hledger => hledger⟩
    · exact ⟨rfl, fun ledger hledger => (Option.filter_eq_some_iff.mp hledger).1⟩
  | beginCall | frame | edit | confirm =>
    cases h
    exact ⟨rfl, fun _ hledger => hledger⟩

theorem settled_step {keys : Keys} {c c' : Component N L} {event : Event N L}
    (h : Settled keys c) (hreplays : Replays c event) (hstep : step keys c event = some c') :
    Settled keys c' := by
  intro ledger hledger
  obtain ⟨htarget, hkept⟩ := step_act hstep
  rw [htarget]
  exact settled_act h hreplays ledger (hkept ledger hledger)

omit [JsNumber N] [DecidableEq N] [DecidableEq L] in
theorem owned_eq_some {c : Component N L} {key : String} {field : OwnedField N L} :
    owned c key = some field ↔
      ∃ ledger, c.ledger = some ledger ∧ Entries.get ledger.fields key = some field :=
  Option.bind_eq_some_iff

theorem edit_recorded {keys : Keys} {c : Component N L} (h : Settled keys c) (event : Event N L) :
    EditRecorded c (act keys c event) event := by
  rintro key value field rfl howned
  obtain ⟨ledger, hledger, hget⟩ := owned_eq_some.mp howned
  let edit : Change N L := ⟨ledger.clock + 1, value, none⟩
  have hafter : (act keys c (.edit key value)).ledger =
      some (setField { ledger with clock := ledger.clock + 1 } key
        { field with localEdit := some edit, displayed := value }) := by
    simp [act, localEdit, noteOptimisticWrite, hledger, hget, edit]
  refine ⟨_, edit, owned_eq_some.mpr ⟨_, hafter, Entries.get_set_self _ _ _⟩, rfl, rfl, ?_⟩
  intro change hmem
  have hbound := ((h ledger hledger).fields key field hget).bounded change
    (mem_recorded.mpr (.inl hmem))
  exact Nat.lt_succ_of_le hbound

/-- In every run whose steps replay, every event leaves the fields showing
    their bases and what is newer, replaces a base by no older state, keeps
    every edit that is not superseded and retains every contribution that is
    not withdrawn. -/
theorem replayed_run_consistent (keys : Keys) {start : String → Value N L} {c : Component N L}
    (hrun : Run (step keys) Replays (fresh start) c) {event : Event N L}
    (hreplays : Replays c event) :
    ShowsReplay (act keys c event) ∧ StateNotOlder c (act keys c event) event ∧
      EditRecorded c (act keys c event) event ∧ EditKept c (act keys c event) event ∧
      ContributionsRetained c (act keys c event) event := by
  have hsettled : Settled keys c :=
    hrun.invariant (settled_fresh keys start) fun _ _ _ h hreplays hstep =>
      settled_step h hreplays hstep
  have hafter : Settled keys (act keys c event) := settled_act hsettled hreplays
  have hfield : ∀ key field, owned c key = some field → ∃ ledger,
      c.ledger = some ledger ∧ Entries.get ledger.fields key = some field ∧
      ∃ field', owned (act keys c event) key = some field' ∧
        FieldStep ledger key field event field' := by
    intro key field howned
    obtain ⟨ledger, hledger, hget⟩ := owned_eq_some.mp howned
    obtain ⟨ledger', hledger', -, hsteps⟩ := act_reaches hsettled hreplays hledger
    obtain ⟨field', hget', hstep⟩ := hsteps key field hget
    exact ⟨ledger, hledger, hget, field', owned_eq_some.mpr ⟨ledger', hledger', hget'⟩, hstep⟩
  refine ⟨?_, ?_, edit_recorded hsettled event, ?_, ?_⟩
  · intro key field howned
    obtain ⟨ledger, hledger, hget⟩ := owned_eq_some.mp howned
    rw [← shown_eq]
    exact ((hafter ledger hledger).fields key field hget).shown
  · intro key field field' howned howned'
    obtain ⟨ledger, hledger, -, field'', howned'', hstep⟩ := hfield key field howned
    cases howned'.symm.trans howned''
    rcases hstep.not_older with hsame | ⟨call, hcall, hrest⟩
    · exact .inl hsame
    · refine .inr ⟨call, ?_, hrest⟩
      rw [pendingCall, hledger]
      exact hcall
  · intro key field edit howned hedit hopen
    obtain ⟨ledger, hledger, hget, field', howned', hstep⟩ := hfield key field howned
    have hedit' := hstep.edit_kept hledger hget hedit hopen
    obtain ⟨ledger', hledger', hget'⟩ := owned_eq_some.mp howned'
    have hshows := (hafter ledger' hledger').fields key field' hget'
    have hmem : edit ∈ newer field' :=
      mem_newer.mpr ⟨mem_recorded.mpr (.inr hedit'), hshows.edit_newer edit hedit'⟩
    exact ⟨field', howned', hedit', hshows.edit_newer edit hedit',
      shown_from hshows.toOrdered hmem (hshows.edit_direct edit hedit') hshows.shown⟩
  · intro key field howned
    obtain ⟨ledger, hledger, hget, field', howned', hstep⟩ := hfield key field howned
    exact ⟨field', howned', hstep.retained hledger
      ((hsettled ledger hledger).fields key field hget).toOrdered⟩

/-- One call increments a counter, and fails. -/
theorem rejected_increment_consistent :
    ∃ c : Component Int Empty, Replays c (.finishCall 0 false) ∧ c.target "count" = .num 1 ∧
      ShowsReplay (act ⟨["count"], by decide⟩ c (.finishCall 0 false)) ∧
      (act ⟨["count"], by decide⟩ c (.finishCall 0 false)).target "count" = .num 0 := by
  let keys : Keys := ⟨["count"], by decide⟩
  let handler : Handler Int Empty := ⟨[.record "count" (.increment 1) false], false⟩
  let c : Component Int Empty := act keys (fresh fun _ => .num 0) (.beginCall (some handler))
  have hrun : Run (step keys) Replays (fresh fun _ => .num 0) c :=
    .tail (.refl _) (show Replays _ (.beginCall (some handler)) from trivial) rfl
  have hpending : pendingCall c 0 = some ⟨0, 1, ["count"]⟩ := rfl
  have hreplays : Replays c (.finishCall 0 false) := by
    intro call hcall key hkey field hfield
    cases hpending.symm.trans hcall
    cases List.mem_singleton.mp hkey
    have howned : owned c "count" =
        some ⟨.num 0, 0, [⟨1, .num 1, some [.increment 1]⟩], .num 1, none⟩ := rfl
    cases howned.symm.trans hfield
    exact ⟨.num 0, rfl⟩
  exact ⟨c, hreplays, rfl, (replayed_run_consistent keys hrun hreplays).1, rfl⟩

/-- Over 0 one call assigns an empty array and another appends to it.  When the
    assignment is rejected the operation has no array left, and the value of
    the rejected call stays displayed. -/
theorem rejected_assignment_displayed :
    ∃ c : Component Int Empty, ∃ field,
      exec (step ⟨["items"], by decide⟩) (fresh fun _ => .num 0)
        [.beginCall (some ⟨[.assign "items" (.arr [])], false⟩),
          .beginCall (some ⟨[.record "items" (.append (.str "next")) false], false⟩),
          .finishCall 0 false] = some c ∧
      owned c "items" = some field ∧ field.base = .num 0 ∧
      c.target "items" = .arr [.str "next"] ∧
      (newer field).foldlM applyChange field.base ≠ .ok (c.target "items") := by
  refine ⟨_, _, rfl, rfl, rfl, rfl, ?_⟩
  intro h
  exact nomatch h

end Cossack.Core
