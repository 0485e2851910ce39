import Cossack.Core.OptimisticState
import Cossack.Lib.Outcome

/-! # What the ledger does to one field

    The loops of `optimistic-state.ts` over keys, read one key at a time, and
    the replay of the contributions of one field. -/

namespace Cossack.Core

open Sequences

variable {N L : Type}

/-! ## Section 1: Copies are the value itself -/

theorem copyItems_eq {items items' : List (Value N L)} {depth : Nat}
    (ih : ∀ t ∈ items, ∀ depth w, copyAt depth t = .ok w → w = t)
    (h : copyItems depth items = .ok items') : items' = items := by
  induction items generalizing items' with
  | nil => exact (Except.ok.inj h).symm
  | cons t rest ihrest =>
    obtain ⟨t', ht, h⟩ := Outcome.bind_eq_ok.mp h
    obtain ⟨rest', hrest, h⟩ := Outcome.bind_eq_ok.mp h
    rw [← Outcome.pure_eq_ok.mp h, ih t List.mem_cons_self _ _ ht,
      ihrest (fun u hu => ih u (List.mem_cons_of_mem _ hu)) hrest]

theorem copyEntries_eq {entries entries' : List (String × Value N L)} {depth : Nat}
    (ih : ∀ e ∈ entries, ∀ depth w, copyAt depth e.2 = .ok w → w = e.2)
    (h : copyEntries depth entries = .ok entries') : entries' = entries := by
  induction entries generalizing entries' with
  | nil => exact (Except.ok.inj h).symm
  | cons e rest ihrest =>
    obtain ⟨t', ht, h⟩ := Outcome.bind_eq_ok.mp h
    obtain ⟨rest', hrest, h⟩ := Outcome.bind_eq_ok.mp h
    rw [← Outcome.pure_eq_ok.mp h, ih e List.mem_cons_self _ _ ht,
      ihrest (fun u hu => ih u (List.mem_cons_of_mem _ hu)) hrest]

theorem copyAt_eq {value w : Value N L} {depth : Nat} (h : copyAt depth value = .ok w) :
    w = value := by
  induction value using JsonTree.ind generalizing depth w with
  | null | bool | num | str | leaf => exact (Except.ok.inj h).symm
  | arr items ih =>
    unfold copyAt at h
    split at h
    · exact nomatch h
    · obtain ⟨items', hitems, rfl⟩ := Outcome.map_eq_ok.mp h
      rw [copyItems_eq (fun t ht _ _ => ih t ht) hitems]
  | obj entries ih =>
    unfold copyAt at h
    split at h
    · exact nomatch h
    · obtain ⟨entries', hentries, rfl⟩ := Outcome.map_eq_ok.mp h
      rw [copyEntries_eq (fun e he _ _ => ih e he) hentries]

/-- A copy is not told from its value. -/
theorem copy_eq {value w : Value N L} (h : copy value = .ok w) : w = value := copyAt_eq h

theorem get_snapshot {target : String → Value N L} {keys : List String} (key : String) :
    Entries.get (keys.map fun key => (key, target key)) key =
      if key ∈ keys then some (target key) else none := by
  induction keys with
  | nil => rfl
  | cons k rest ih =>
    rw [List.map_cons, Entries.get_cons, ih]
    by_cases hk : k = key
    · simp [hk]
    · simp [hk, Ne.symm hk]

theorem snapshotFields_eq {target : String → Value N L} {keys : List String}
    {before : List (String × Value N L)} (h : snapshotFields target keys = .ok before) :
    before = keys.map fun key => (key, target key) := by
  induction keys generalizing before with
  | nil => exact (Except.ok.inj h).symm
  | cons key rest ih =>
    rw [snapshotFields, List.mapM_cons] at h
    obtain ⟨e, he, h⟩ := Outcome.bind_eq_ok.mp h
    obtain ⟨before', hbefore, h⟩ := Outcome.bind_eq_ok.mp h
    obtain ⟨value, hvalue, rfl⟩ := Outcome.map_eq_ok.mp he
    rw [← Outcome.pure_eq_ok.mp h, ih hbefore, copy_eq hvalue]
    rfl

theorem copied_of_snapshot {target : String → Value N L} {keys : List String}
    {before : List (String × Value N L)} (h : snapshotFields target keys = .ok before) {key : String}
    (hkey : key ∈ keys) : copy (target key) = .ok (target key) := by
  induction keys generalizing before with
  | nil => exact nomatch hkey
  | cons k rest ih =>
    rw [snapshotFields, List.mapM_cons] at h
    obtain ⟨e, he, h⟩ := Outcome.bind_eq_ok.mp h
    obtain ⟨before', hbefore, -⟩ := Outcome.bind_eq_ok.mp h
    rcases List.mem_cons.mp hkey with rfl | hkey
    · obtain ⟨value, hvalue, -⟩ := Outcome.map_eq_ok.mp he
      have hsame := copy_eq hvalue
      rwa [hsame] at hvalue
    · exact ih hbefore hkey

/-! ## Section 2: The replay of a field -/

variable [JsNumber N] [DecidableEq N] [DecidableEq L]

/-- What one contribution makes of the value before it. -/
def applyChange (value : Value N L) (change : Change N L) : Except String (Value N L) :=
  match change.operations with
  | some operations => applyOperations value operations
  | none => .ok change.value

theorem applyChange_direct {change : Change N L} (h : change.operations = none)
    (value : Value N L) : applyChange value change = .ok change.value := by
  unfold applyChange
  rw [h]

theorem applyChange_operations {change : Change N L} {operations : List (OptimisticOperation N L)}
    (h : change.operations = some operations) (value : Value N L) :
    applyChange value change = applyOperations value operations := by
  unfold applyChange
  rw [h]

/-- The contributions newer than the base, in sequence order. -/
def newer (field : OwnedField N L) : List (Change N L) :=
  (contributions field).filter fun change => decide (field.sequence < change.sequence)

theorem replay_eq (sequence : Nat) (value : Value N L) (changes : List (Change N L)) :
    replay sequence value changes =
      (changes.filter fun change => decide (sequence < change.sequence)).foldlM applyChange value := by
  induction changes generalizing value with
  | nil => rfl
  | cons change rest ih =>
    unfold replay
    by_cases hold : change.sequence ≤ sequence
    · rw [if_pos hold, List.filter_cons_of_neg (by simpa using hold), ih]
    · rw [if_neg hold, List.filter_cons_of_pos (by simpa using hold), List.foldlM_cons]
      cases hops : change.operations with
      | some operations =>
        rw [applyChange_operations hops]
        simp only [ih]
      | none =>
        rw [applyChange_direct hops]
        exact ih _

theorem shown_eq (field : OwnedField N L) :
    shown field = (newer field).foldlM applyChange field.base :=
  replay_eq _ _ _

/-- A directly assigned value is the starting value of what follows it. -/
theorem foldlM_from_direct {before after : List (Change N L)} {x : Change N L}
    (hdirect : x.operations = none) {base value : Value N L}
    (h : (before ++ x :: after).foldlM applyChange base = .ok value) :
    after.foldlM applyChange x.value = .ok value := by
  rw [List.foldlM_append] at h
  obtain ⟨old, -, h⟩ := Outcome.bind_eq_ok.mp h
  rw [List.foldlM_cons, applyChange_direct hdirect] at h
  exact h

/-! ## Section 3: Updates of fields one after the other -/

/-- What `eachField` did: `update` at every owned key of `keys`, nothing else. -/
structure UpdatedAt (update : FieldUpdate N L) (keys : List String) (target : String → Value N L)
    (ledger : Ledger N L)
    (result : (String → Value N L) × Ledger N L × Option String) : Prop where
  owned : ∀ key field, Entries.get ledger.fields key = some field → key ∈ keys →
    result.1 key = (update (target key) field).1 ∧
      Entries.get result.2.1.fields key = some (update (target key) field).2.1
  elsewhere : ∀ key, key ∉ keys → result.1 key = target key ∧
    Entries.get result.2.1.fields key = Entries.get ledger.fields key
  unowned : ∀ key, Entries.get ledger.fields key = none → result.1 key = target key ∧
    Entries.get result.2.1.fields key = none
  clock : result.2.1.clock = ledger.clock
  calls : result.2.1.calls = ledger.calls
  done : result.2.2 = none

omit [JsNumber N] in
theorem observeExternal_displayed {target : String → Value N L} {ledger : Ledger N L} {key : String}
    (h : ∀ field, Entries.get ledger.fields key = some field → target key = field.displayed) :
    observeExternal target ledger key = ledger := by
  unfold observeExternal
  cases hget : Entries.get ledger.fields key with
  | none => rfl
  | some field =>
    show (if target key = field.displayed then ledger else _) = ledger
    rw [if_pos (h field hget)]

omit [JsNumber N] [DecidableEq N] [DecidableEq L] in
@[simp] theorem assign_self (target : String → Value N L) (key : String) (value : Value N L) :
    assign target key value key = value := if_pos rfl

omit [JsNumber N] [DecidableEq N] [DecidableEq L] in
theorem assign_of_ne (target : String → Value N L) {key other : String} (value : Value N L)
    (h : other ≠ key) : assign target key value other = target other := if_neg h

omit [JsNumber N] in
/-- One round of `eachField` that does not throw. -/
theorem eachField_cons {observe : Bool} {update : FieldUpdate N L} {key : String}
    {rest : List String} {target : String → Value N L} {ledger : Ledger N L}
    {field : OwnedField N L} (hget : Entries.get ledger.fields key = some field)
    (hdisplayed : observe = true → target key = field.displayed)
    (hdone : (update (target key) field).2.2 = none) :
    eachField observe update (key :: rest) target ledger =
      eachField observe update rest (assign target key (update (target key) field).1)
        (setField ledger key (update (target key) field).2.1) := by
  have hobserve : (if observe then observeExternal target ledger key else ledger) = ledger := by
    cases hobs : observe with
    | false => rfl
    | true =>
      apply observeExternal_displayed
      intro f hf
      rw [Option.some.inj (hf.symm.trans hget)]
      exact hdisplayed hobs
  simp only [eachField, hobserve, hget, hdone]

omit [JsNumber N] in
/-- A key without a field is passed over. -/
theorem eachField_cons_unowned {observe : Bool} {update : FieldUpdate N L} {key : String}
    {rest : List String} {target : String → Value N L} {ledger : Ledger N L}
    (hget : Entries.get ledger.fields key = none) :
    eachField observe update (key :: rest) target ledger =
      eachField observe update rest target ledger := by
  have hobserve : (if observe then observeExternal target ledger key else ledger) = ledger := by
    simp [observeExternal, hget]
  simp only [eachField, hobserve, hget]

omit [JsNumber N] in
theorem eachField_spec {observe : Bool} {update : FieldUpdate N L} {keys : List String}
    (hkeys : keys.Nodup) {target : String → Value N L} {ledger : Ledger N L}
    (hdisplayed : observe = true → ∀ key ∈ keys, ∀ field,
      Entries.get ledger.fields key = some field → target key = field.displayed)
    (hdone : ∀ key ∈ keys, ∀ field, Entries.get ledger.fields key = some field →
      (update (target key) field).2.2 = none) :
    UpdatedAt update keys target ledger (eachField observe update keys target ledger) := by
  induction keys generalizing target ledger with
  | nil =>
    exact ⟨fun _ _ _ hmem => (nomatch hmem), fun _ _ => ⟨rfl, rfl⟩, fun _ h => ⟨rfl, h⟩, rfl, rfl, rfl⟩
  | cons key rest ih =>
    rw [List.nodup_cons] at hkeys
    cases hget : Entries.get ledger.fields key with
    | none =>
      rw [eachField_cons_unowned hget]
      have hrest := ih hkeys.2 (fun hobs k hk => hdisplayed hobs k (List.mem_cons_of_mem _ hk))
        (fun k hk => hdone k (List.mem_cons_of_mem _ hk))
      refine ⟨?_, ?_, hrest.unowned, hrest.clock, hrest.calls, hrest.done⟩
      · intro k field hk hmem
        rcases List.mem_cons.mp hmem with rfl | hmem
        · rw [hget] at hk
          exact nomatch hk
        · exact hrest.owned k field hk hmem
      · intro k hk
        exact hrest.elsewhere k (fun hmem => hk (List.mem_cons_of_mem _ hmem))
    | some field =>
      rw [eachField_cons hget (fun hobs => hdisplayed hobs key List.mem_cons_self field hget)
        (hdone key List.mem_cons_self field hget)]
      have hother : ∀ k, k ≠ key →
          Entries.get (setField ledger key (update (target key) field).2.1).fields k =
            Entries.get ledger.fields k := fun k hk =>
        Entries.get_set_of_ne _ _ (Ne.symm hk)
      have hne : ∀ k ∈ rest, k ≠ key := fun k hk heq => hkeys.1 (heq ▸ hk)
      have hrest := @ih hkeys.2 (assign target key (update (target key) field).1)
        (setField ledger key (update (target key) field).2.1)
        (fun hobs k hk f hf => by
          rw [assign_of_ne _ _ (hne k hk)]
          rw [hother k (hne k hk)] at hf
          exact hdisplayed hobs k (List.mem_cons_of_mem _ hk) f hf)
        (fun k hk f hf => by
          rw [assign_of_ne _ _ (hne k hk)]
          rw [hother k (hne k hk)] at hf
          exact hdone k (List.mem_cons_of_mem _ hk) f hf)
      refine ⟨?_, ?_, ?_, hrest.clock, hrest.calls, hrest.done⟩
      · intro k f hk hmem
        rcases List.mem_cons.mp hmem with rfl | hmem
        · cases hget.symm.trans hk
          obtain ⟨htarget, hfield⟩ := hrest.elsewhere k hkeys.1
          rw [htarget, hfield, assign_self]
          exact ⟨rfl, Entries.get_set_self _ _ _⟩
        · have h := hrest.owned k f ((hother k (hne k hmem)).trans hk) hmem
          rwa [assign_of_ne _ _ (hne k hmem)] at h
      · intro k hk
        rw [List.mem_cons, not_or] at hk
        obtain ⟨htarget, hfield⟩ := hrest.elsewhere k hk.2
        rw [htarget, hfield, assign_of_ne _ _ hk.1, hother k hk.1]
        exact ⟨rfl, rfl⟩
      · intro k hk
        have hkey : k ≠ key := fun heq => by
          rw [heq, hget] at hk
          exact nomatch hk
        obtain ⟨htarget, hfield⟩ := hrest.unowned k ((hother k hkey).trans hk)
        rw [htarget, hfield, assign_of_ne _ _ hkey]
        exact ⟨rfl, rfl⟩

omit [JsNumber N] in
theorem observeAll_displayed {target : String → Value N L} {ledger : Ledger N L}
    (h : ∀ key field, Entries.get ledger.fields key = some field → target key = field.displayed) :
    observeAll target ledger = ledger := by
  unfold observeAll
  generalize ledger.fields.map Prod.fst = keys
  induction keys with
  | nil => rfl
  | cons key rest ih => rw [List.foldl_cons, observeExternal_displayed (h key), ih]

/-! ## Section 4: The fields a handler changed -/

/-- What the loop over the snapshot did: `captureField` at every key the
    handler touched. -/
structure CapturedAt (sequence : Nat) (capture : Capture N L) (keys : List String)
    (start : String → Value N L) (done result : Captured N L) : Prop where
  touched : result.touched =
    done.touched ++ keys.filter fun key => touches capture key (start key)
  fields : ∀ key, Entries.get result.fields key =
    if key ∈ keys ∧ touches capture key (start key) = true then
      some (captureField sequence capture key (start key) (Entries.get done.fields key)).1
    else Entries.get done.fields key
  failed : result.failed = true ↔ done.failed = true ∨ ∃ key ∈ keys,
    touches capture key (start key) = true ∧
      (captureField sequence capture key (start key) (Entries.get done.fields key)).2 = true

theorem captureFields_spec (sequence : Nat) (capture : Capture N L) {keys : List String}
    (hkeys : keys.Nodup) (start : String → Value N L) (done : Captured N L) :
    CapturedAt sequence capture keys start done
      (captureFields sequence capture (keys.map fun key => (key, start key)) done) := by
  induction keys generalizing done with
  | nil => exact ⟨by simp [captureFields], by simp [captureFields], by simp [captureFields]⟩
  | cons key rest ih =>
    rw [List.nodup_cons] at hkeys
    have hne : ∀ k ∈ rest, k ≠ key := fun k hk heq => hkeys.1 (heq ▸ hk)
    rw [List.map_cons]
    unfold captureFields
    by_cases htouch : touches capture key (start key) = true
    · simp only [htouch, if_true]
      generalize hc : captureField sequence capture key (start key) (Entries.get done.fields key) = c
      have hrest := ih hkeys.2
        { fields := Entries.set done.fields key c.1, touched := done.touched ++ [key],
          failed := done.failed || c.2 }
      refine ⟨?_, ?_, ?_⟩
      · simp [hrest.touched, htouch]
      · intro k
        rw [hrest.fields]
        by_cases hk : k = key
        · subst hk
          simp [hkeys.1, htouch, hc]
        · simp [hk, Entries.get_set_of_ne _ _ (Ne.symm hk)]
      · rw [hrest.failed]
        constructor
        · rintro (hdone | ⟨k, hk, htouched, hfails⟩)
          · rcases Bool.or_eq_true_iff.mp hdone with hdone | hfails
            · exact .inl hdone
            · exact .inr ⟨key, List.mem_cons_self, htouch, hc ▸ hfails⟩
          · rw [Entries.get_set_of_ne _ _ (Ne.symm (hne k hk))] at hfails
            exact .inr ⟨k, List.mem_cons_of_mem _ hk, htouched, hfails⟩
        · rintro (hdone | ⟨k, hk, htouched, hfails⟩)
          · exact .inl (by simp [hdone])
          · rcases List.mem_cons.mp hk with rfl | hk
            · exact .inl (by simp [← hc, hfails])
            · refine .inr ⟨k, hk, htouched, ?_⟩
              rwa [Entries.get_set_of_ne _ _ (Ne.symm (hne k hk))]
    · simp only [htouch]
      have hrest := ih hkeys.2 done
      refine ⟨?_, ?_, ?_⟩
      · simp [hrest.touched, htouch]
      · intro k
        rw [if_neg Bool.false_ne_true, hrest.fields]
        by_cases hk : k = key
        · subst hk
          simp [hkeys.1, htouch]
        · simp [hk]
      · rw [if_neg Bool.false_ne_true, hrest.failed]
        simp [htouch]

end Cossack.Core
