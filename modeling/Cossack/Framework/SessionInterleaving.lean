import Cossack.Framework.Session

/-! # Interleaved session operations

    `bindUser` copies the bag in several store operations, so a write, a
    deletion or a second rotation that overlaps it can be lost or can leave a
    row behind.  As long as a rotation overlaps only `unset` calls, no
    interleaving loses a write and nothing is left after `destroy`. -/

namespace Cossack.Framework.Session

open Runs (Run Free)

variable {V : Type}

/-! ## Section 1: What a run must keep -/

/-- The value of the latest write to a key, unless it was removed. -/
def lastWrite : List (Write V) → String → Option V
  | [], _ => none
  | .set k v :: rest, key => if k = key then some v else lastWrite rest key
  | .unset k :: rest, key => if k = key then none else lastWrite rest key

/-- The row `id` shows every write that no later `unset` or `set` replaced. -/
def Holds (s : State V) (id : Nat) : Prop :=
  ∃ row, s.store.rows id = some row ∧
    ∀ key v, lastWrite s.writes key = some v → Entries.get row.data key = some v

/-- Once every call has settled, the writes are under the handle's final id. -/
def NothingLost (s : State V) : Prop :=
  (∀ i, s.tasks i = none) → s.destroyed = false → Holds s s.sessionId

/-- Once a `destroy` has resolved, no row of the handle is left and its id
    cannot be used. -/
def NothingLeft (s : State V) : Prop :=
  s.destroyed = true →
    (∀ id ∈ s.created, s.store.rows id = none) ∧ ∀ id, currentId s ≠ .ok id

/-! ## Section 2: Rotations that do not overlap -/

/-- A phase of `bindUser`. -/
def Task.Rotating : Task V → Prop
  | .read _ _ | .create _ _ _ | .copy _ _ _ _ | .remove _ _ | .rotate _ | .undo _ => True
  | _ => False

/-- An `unset` that runs, or a `set` or `unset` that only has to resume. -/
def Task.Harmless : Task V → Prop
  | .unset _ _ | .done => True
  | _ => False

/-- A rotation starts when no `set`, `destroy` or other rotation is running,
    and these start when no rotation is running. -/
def Serialized (s : State V) : Event V → Prop
  | .call (.bindUser _) => ∀ i t, s.tasks i = some t → t.Harmless
  | .call (.set _ _) | .call .destroy => ∀ i t, s.tasks i = some t → ¬ t.Rotating
  | _ => True

/-! ## Section 3: The invariant -/

theorem Store.update_rows (store : Store V) (id i : Nat) (f : Row V → Row V) :
    (store.update id f).rows i = if i = id then (store.rows i).map f else store.rows i := rfl

theorem Store.destroy_rows (store : Store V) (id i : Nat) :
    (store.destroy id).rows i = if i = id then none else store.rows i := rfl

theorem Store.update_none {store : Store V} {id i : Nat} {f : Row V → Row V}
    (h : store.rows i = none) : (store.update id f).rows i = none := by
  rw [Store.update_rows]
  by_cases hi : i = id
  · rw [if_pos hi, h]
    rfl
  · rw [if_neg hi, h]

theorem Store.destroy_none {store : Store V} {id i : Nat} (h : store.rows i = none) :
    (store.destroy id).rows i = none := by
  rw [Store.destroy_rows]
  by_cases hi : i = id
  · rw [if_pos hi]
  · rw [if_neg hi, h]

/-- Rows are never brought back, and a row that is there has an issued id. -/
theorem Store.lt_next {store : Store V} {id : Nat} {row : Row V} (h : store.rows id = some row) :
    id < store.next := by
  by_contra hge
  have := store.fresh id (by omega)
  rw [h] at this
  exact nomatch this

/-- `destroy` has taken effect. -/
def Gone (s : State V) : Prop := s.destroyed = true ∨ ∃ i, s.tasks i = some .destroyed

/-- An operation that runs while there is no rotation works on the current id. -/
def Pending (s : State V) : Task V → Prop
  | .set id _ _ | .destroy id => id = s.sessionId
  | .unset _ _ | .done | .destroyed => True
  | _ => False

/-- No rotation is running. -/
structure Idle (s : State V) : Prop where
  pending : ∀ i t, s.tasks i = some t → Pending s t
  others : ∀ id ∈ s.created, id ≠ s.sessionId → s.store.rows id = none
  row : Holds s s.sessionId ∨ Gone s
  gone : Gone s → s.store.rows s.sessionId = none

/-- The entries still to be copied, and the replacement so far. -/
def Copying (s : State V) (replacement : Nat) (rest : List (String × V)) : Prop :=
  (rest.map Prod.fst).Nodup ∧ ∃ row, s.store.rows replacement = some row ∧
    ∀ key v, lastWrite s.writes key = some v →
      if key ∈ rest.map Prod.fst then (key, v) ∈ rest else Entries.get row.data key = some v

/-- What has been read of the bag. -/
def Snapshot (s : State V) (data : List (String × V)) : Prop :=
  (data.map Prod.fst).Nodup ∧ ∀ key v, lastWrite s.writes key = some v → (key, v) ∈ data

/-- The rows of the handle are among `ids`. -/
def Only (s : State V) (ids : List Nat) : Prop :=
  ∀ id ∈ s.created, id ∉ ids → s.store.rows id = none

/-- The state during each phase of a rotation. -/
def Phase (s : State V) : Task V → Prop
  | .read previous _ => previous = s.sessionId ∧ Holds s previous ∧ Only s [previous]
  | .create previous _ data =>
      previous = s.sessionId ∧ Holds s previous ∧ Only s [previous] ∧ Snapshot s data
  | .copy previous _ replacement rest =>
      previous = s.sessionId ∧ replacement ≠ previous ∧ Holds s previous ∧
        Only s [previous, replacement] ∧ Copying s replacement rest
  | .remove previous replacement =>
      previous = s.sessionId ∧ replacement ≠ previous ∧ Holds s previous ∧
        Only s [previous, replacement] ∧ Holds s replacement
  | .rotate replacement => Holds s replacement ∧ Only s [replacement]
  | .undo replacement =>
      replacement ≠ s.sessionId ∧ Holds s s.sessionId ∧ Only s [s.sessionId, replacement]
  | _ => False

/-- One rotation is running, next to `unset` calls only. -/
structure Rotation (s : State V) (i : Nat) (t : Task V) : Prop where
  task : s.tasks i = some t
  phase : Phase s t
  alone : ∀ j u, j ≠ i → s.tasks j = some u → u.Harmless
  live : s.destroyed = false

structure Inv (s : State V) : Prop where
  calls : ∀ i, s.calls ≤ i → s.tasks i = none
  state : Idle s ∨ ∃ i t, Rotation s i t

theorem inv_initial (store : Store V) (id : Nat) (auth : Bool) (row : Row V)
    (h : store.rows id = some row) : Inv (initial store id auth) := by
  refine ⟨fun _ _ => rfl, .inl ⟨fun _ _ ht => (nomatch ht), ?_, .inl ⟨row, h, ?_⟩, ?_⟩⟩
  · intro i hi hne
    exact absurd (List.mem_singleton.mp hi) hne
  · intro key v hv
    exact nomatch hv
  · intro hgone
    rcases hgone with h | ⟨i, h⟩
    · exact nomatch h
    · exact nomatch h

/-- The invariant gives both halves of the claim. -/
theorem Inv.sound {s : State V} (h : Inv s) : NothingLost s ∧ NothingLeft s := by
  constructor
  · intro hquiet hlive
    rcases h.state with hidle | ⟨i, t, hrot⟩
    · rcases hidle.row with hrow | hgone | ⟨i, hi⟩
      · exact hrow
      · rw [hlive] at hgone
        exact nomatch hgone
      · rw [hquiet i] at hi
        exact nomatch hi
    · have := hrot.task
      rw [hquiet i] at this
      exact nomatch this
  · intro hdestroyed
    rcases h.state with hidle | ⟨i, t, hrot⟩
    · refine ⟨fun id hid => ?_, fun id hid => ?_⟩
      · by_cases hcur : id = s.sessionId
        · rw [hcur]
          exact hidle.gone (.inl hdestroyed)
        · exact hidle.others id hid hcur
      · rw [currentId, if_pos hdestroyed] at hid
        exact nomatch hid
    · have := hrot.live
      rw [hdestroyed] at this
      exact nomatch this

/-! ## Section 4: Effects on one row -/

theorem lastWrite_unset {writes : List (Write V)} {k key : String} {v : V}
    (h : lastWrite (.unset k :: writes) key = some v) :
    k ≠ key ∧ lastWrite writes key = some v := by
  by_cases hk : k = key
  · simp [lastWrite, hk] at h
  · simp only [lastWrite, hk, if_false] at h
    exact ⟨hk, h⟩

theorem Holds.frame {s s' : State V} {id : Nat} (h : Holds s id)
    (hrow : s'.store.rows id = s.store.rows id) (hwrites : s'.writes = s.writes) : Holds s' id := by
  obtain ⟨row, hr, hall⟩ := h
  exact ⟨row, by rw [hrow, hr], fun key v hv => hall key v (by rw [← hwrites]; exact hv)⟩

theorem Holds.set {s s' : State V} {id : Nat} {key : String} {value : V} (h : Holds s id)
    (hstore : s'.store = s.store.set id key value)
    (hwrites : s'.writes = .set key value :: s.writes) : Holds s' id := by
  obtain ⟨row, hr, hall⟩ := h
  refine ⟨row.set key value, ?_, fun k v hv => ?_⟩
  · rw [hstore, Store.set, Store.update_rows, if_pos rfl, hr]
    rfl
  · rw [hwrites] at hv
    by_cases hk : key = k
    · simp only [lastWrite, hk, if_true, Option.some.injEq] at hv
      rw [← hk, ← hv]
      exact Entries.get_set_self row.data key value
    · simp only [lastWrite, hk, if_false] at hv
      show Entries.get (Entries.set row.data key value) k = some v
      rw [Entries.get_set_of_ne row.data value hk]
      exact hall k v hv

/-- Removing a key from any row keeps what is left of the writes. -/
theorem unset_row {s s' : State V} {id : Nat} {key : String}
    (hstore : s'.store = s.store.unset id key) {other : Nat} {row : Row V}
    (hr : s.store.rows other = some row) :
    ∃ row', s'.store.rows other = some row' ∧
      ∀ k, key ≠ k → Entries.get row'.data k = Entries.get row.data k := by
  rw [hstore, Store.unset, Store.update_rows]
  by_cases hid : other = id
  · refine ⟨row.unset key, by rw [if_pos hid, hr]; rfl, fun k hk => ?_⟩
    exact Entries.get_erase_of_ne row.data hk
  · exact ⟨row, by rw [if_neg hid, hr], fun _ _ => rfl⟩

theorem Holds.unset {s s' : State V} {id other : Nat} {key : String} (h : Holds s other)
    (hstore : s'.store = s.store.unset id key) (hwrites : s'.writes = .unset key :: s.writes) :
    Holds s' other := by
  obtain ⟨row, hr, hall⟩ := h
  obtain ⟨row', hr', hget⟩ := unset_row hstore hr
  refine ⟨row', hr', fun k v hv => ?_⟩
  rw [hwrites] at hv
  obtain ⟨hk, hv⟩ := lastWrite_unset hv
  rw [hget k hk]
  exact hall k v hv

theorem Phase.unset {s s' : State V} {t : Task V} {id : Nat} {key : String} (h : Phase s t)
    (hstore : s'.store = s.store.unset id key) (hwrites : s'.writes = .unset key :: s.writes)
    (hid : s'.sessionId = s.sessionId) (hcreated : s'.created = s.created) : Phase s' t := by
  have honly : ∀ {ids}, Only s ids → Only s' ids := by
    intro ids hids i hi hout
    rw [hstore]
    rw [hcreated] at hi
    exact Store.update_none (hids i hi hout)
  have hholds : ∀ {i}, Holds s i → Holds s' i := fun hi => hi.unset hstore hwrites
  have hlast : ∀ {k v}, lastWrite s'.writes k = some v → key ≠ k ∧ lastWrite s.writes k = some v :=
    fun hv => lastWrite_unset (hwrites ▸ hv)
  cases t with
  | read previous userId => exact ⟨hid ▸ h.1, hholds h.2.1, honly h.2.2⟩
  | create previous userId data =>
    obtain ⟨hprev, hrow, hids, hnodup, hdata⟩ := h
    exact ⟨hid ▸ hprev, hholds hrow, honly hids, hnodup, fun k v hv => hdata k v (hlast hv).2⟩
  | copy previous userId replacement rest =>
    obtain ⟨hprev, hne, hrow, hids, hnodup, row, hr, hall⟩ := h
    obtain ⟨row', hr', hget⟩ := unset_row hstore hr
    refine ⟨hid ▸ hprev, hne, hholds hrow, honly hids, hnodup, row', hr', fun k v hv => ?_⟩
    obtain ⟨hk, hv⟩ := hlast hv
    have := hall k v hv
    rwa [hget k hk]
  | remove previous replacement =>
    obtain ⟨hprev, hne, hrow, hids, hnew⟩ := h
    exact ⟨hid ▸ hprev, hne, hholds hrow, honly hids, hholds hnew⟩
  | rotate replacement => exact ⟨hholds h.1, honly h.2⟩
  | undo replacement =>
    obtain ⟨hne, hrow, hids⟩ := h
    exact ⟨by rw [hid]; exact hne, by rw [hid]; exact hholds hrow, by rw [hid]; exact honly hids⟩
  | set | unset | done | destroy | destroyed => exact h

/-! ## Section 5: One step keeps the invariant -/

theorem put_tasks (s : State V) (i j : Nat) (task : Option (Task V)) :
    (s.put i task).tasks j = if j = i then task else s.tasks j := rfl

/-- Replacing a task that is not the end of a `destroy` by another one. -/
theorem gone_put {s s' : State V} {i : Nat} {task : Option (Task V)}
    (htasks : s'.tasks = (s.put i task).tasks) (hd : s'.destroyed = s.destroyed)
    (hold : s.tasks i ≠ some .destroyed) (hnew : task ≠ some .destroyed) : Gone s' ↔ Gone s := by
  unfold Gone
  rw [hd]
  refine or_congr Iff.rfl (exists_congr fun j => ?_)
  rw [htasks, put_tasks]
  by_cases hj : j = i
  · rw [if_pos hj, hj]
    exact ⟨fun h => absurd h hnew, fun h => absurd h hold⟩
  · rw [if_neg hj]

/-- An idle handle stays idle when a pending operation is replaced by another
    one, or by nothing, and the rows change as described. -/
theorem Idle.replace {s s' : State V} {i : Nat} {task : Option (Task V)} (h : Idle s)
    (htasks : s'.tasks = (s.put i task).tasks) (hid : s'.sessionId = s.sessionId)
    (hcreated : s'.created = s.created) (hd : s'.destroyed = s.destroyed)
    (hold : s.tasks i ≠ some .destroyed) (hnew : task ≠ some .destroyed)
    (hpending : ∀ t, task = some t → Pending s t)
    (hnone : ∀ id, s.store.rows id = none → s'.store.rows id = none)
    (hrow : Holds s s.sessionId → Holds s' s.sessionId) : Idle s' := by
  have hgone := gone_put htasks hd hold hnew
  have hpend : ∀ t, Pending s t → Pending s' t := by
    intro t ht
    cases t with
    | set | destroy => exact Eq.trans ht hid.symm
    | _ => exact ht
  refine ⟨fun j t ht => ?_, fun id hmem hne => ?_, ?_, fun hg => ?_⟩
  · rw [htasks, put_tasks] at ht
    by_cases hj : j = i
    · rw [if_pos hj] at ht
      exact hpend t (hpending t ht)
    · rw [if_neg hj] at ht
      exact hpend t (h.pending j t ht)
  · rw [hcreated] at hmem
    rw [hid] at hne
    exact hnone id (h.others id hmem hne)
  · rw [hid, hgone]
    exact h.row.imp_left hrow
  · rw [hid]
    exact hnone _ (h.gone (hgone.mp hg))

/-- A rotation goes on when one of the harmless tasks next to it changes. -/
theorem Rotation.beside {s s' : State V} {i j : Nat} {t : Task V} {task : Option (Task V)}
    (h : Rotation s i t) (hj : j ≠ i) (htasks : s'.tasks = (s.put j task).tasks)
    (hharmless : ∀ u, task = some u → u.Harmless) (hd : s'.destroyed = s.destroyed)
    (hphase : Phase s' t) : Rotation s' i t := by
  refine ⟨?_, hphase, fun k u hk hu => ?_, by rw [hd]; exact h.live⟩
  · rw [htasks, put_tasks, if_neg (Ne.symm hj)]
    exact h.task
  · rw [htasks, put_tasks] at hu
    by_cases hkj : k = j
    · rw [if_pos hkj] at hu
      exact hharmless u hu
    · rw [if_neg hkj] at hu
      exact h.alone k u hk hu

/-- A rotation goes to its next phase. -/
theorem Rotation.next {s s' : State V} {i : Nat} {t t' : Task V} (h : Rotation s i t)
    (htasks : s'.tasks = (s.put i (some t')).tasks) (hd : s'.destroyed = s.destroyed)
    (hphase : Phase s' t') : Rotation s' i t' := by
  refine ⟨by rw [htasks, put_tasks, if_pos rfl], hphase, fun k u hk hu => ?_,
    by rw [hd]; exact h.live⟩
  rw [htasks, put_tasks, if_neg hk] at hu
  exact h.alone k u hk hu

/-- A rotation ends, and the row of the final id is the only one. -/
theorem Rotation.finish {s s' : State V} {i : Nat} {t : Task V} (h : Rotation s i t)
    (htasks : s'.tasks = (s.put i none).tasks) (hd : s'.destroyed = s.destroyed)
    (hrow : Holds s' s'.sessionId) (honly : Only s' [s'.sessionId]) : Idle s' := by
  have hharmless : ∀ j u, s'.tasks j = some u → u.Harmless := by
    intro j u hu
    rw [htasks, put_tasks] at hu
    by_cases hj : j = i
    · rw [if_pos hj] at hu
      exact nomatch hu
    · rw [if_neg hj] at hu
      exact h.alone j u hj hu
  refine ⟨fun j u hu => ?_, fun id hmem hne => honly id hmem (by simpa using hne), .inl hrow, ?_⟩
  · have := hharmless j u hu
    cases u <;> trivial
  · intro hgone
    rcases hgone with hdes | ⟨j, hj⟩
    · rw [hd, h.live] at hdes
      exact nomatch hdes
    · exact absurd (hharmless j _ hj) id

/-- Without a rotation, an operation takes effect or resumes. -/
theorem Idle.advance {s : State V} {i : Nat} {t : Task V} (h : Idle s) (ht : s.tasks i = some t) :
    Idle (advance s i t) := by
  have hpend := h.pending i t ht
  cases t with
  | set id key value =>
    have hid : id = s.sessionId := hpend
    subst hid
    refine h.replace rfl rfl rfl rfl (by rw [ht]; simp) (by simp) ?_ ?_ ?_
    · intro u hu
      cases hu
      trivial
    · exact fun _ hnone => Store.update_none hnone
    · exact fun hrow => hrow.set rfl rfl
  | unset id key =>
    refine h.replace rfl rfl rfl rfl (by rw [ht]; simp) (by simp) ?_ ?_ ?_
    · intro u hu
      cases hu
      trivial
    · exact fun _ hnone => Store.update_none hnone
    · exact fun hrow => hrow.unset rfl rfl
  | done =>
    refine h.replace rfl rfl rfl rfl (by rw [ht]; simp) (by simp) ?_ ?_ ?_
    · exact fun u hu => nomatch hu
    · exact fun _ hnone => hnone
    · exact fun hrow => hrow.frame rfl rfl
  | destroy id =>
    have hid : id = s.sessionId := hpend
    subst hid
    have hdeleted : (s.store.destroy s.sessionId).rows s.sessionId = none := by
      rw [Store.destroy_rows, if_pos rfl]
    refine ⟨fun j u hu => ?_, fun id hmem hne => ?_, .inr (.inr ⟨i, ?_⟩), fun _ => hdeleted⟩
    · by_cases hj : j = i
      · simp only [Session.advance, put_tasks, hj, if_true, Option.some.injEq] at hu
        rw [← hu]
        trivial
      · simp only [Session.advance, put_tasks, hj, if_false] at hu
        exact h.pending j u hu
    · exact Store.destroy_none (h.others id hmem hne)
    · simp [Session.advance, put_tasks]
  | destroyed =>
    have hnone := h.gone (.inr ⟨i, ht⟩)
    refine ⟨fun j u hu => ?_, fun id hmem hne => h.others id hmem hne, .inr (.inl rfl),
      fun _ => hnone⟩
    by_cases hj : j = i
    · simp [Session.advance, put_tasks, hj] at hu
    · simp only [Session.advance, put_tasks, hj, if_false] at hu
      exact h.pending j u hu
  | read | create | copy | remove | rotate | undo => exact absurd hpend id

/-- Without a rotation, an operation may fail. -/
theorem Idle.reject {s s' : State V} {i : Nat} {t : Task V} (h : Idle s) (ht : s.tasks i = some t)
    (hstep : reject s i t = some s') : Idle s' := by
  have hpend := h.pending i t ht
  have hdrop : t ≠ .destroyed → Idle (s.put i none) := by
    intro hne
    refine h.replace rfl rfl rfl rfl (by rw [ht]; simpa using hne) (by simp) ?_ ?_ ?_
    · exact fun u hu => nomatch hu
    · exact fun _ hnone => hnone
    · exact fun hrow => hrow.frame rfl rfl
  cases t with
  | set | unset | destroy =>
    cases hstep
    exact hdrop (by simp)
  | done | destroyed => exact nomatch hstep
  | read | create | copy | remove | rotate | undo => exact absurd hpend id

/-- The copy of one entry. -/
theorem Copying.step {s s' : State V} {replacement : Nat} {key : String} {value : V}
    {rest : List (String × V)} (h : Copying s replacement ((key, value) :: rest))
    (hstore : s'.store = s.store.set replacement key value) (hwrites : s'.writes = s.writes) :
    Copying s' replacement rest := by
  obtain ⟨hnodup, row, hr, hall⟩ := h
  rw [List.map_cons, List.nodup_cons] at hnodup
  refine ⟨hnodup.2, row.set key value, ?_, fun k v hv => ?_⟩
  · rw [hstore, Store.set, Store.update_rows, if_pos rfl, hr]
    rfl
  · have hk := hall k v (by rw [← hwrites]; exact hv)
    show if k ∈ rest.map Prod.fst then (k, v) ∈ rest
      else Entries.get (Entries.set row.data key value) k = some v
    by_cases hkey : k = key
    · -- the entry itself: its value is the latest write
      have hin : k ∈ ((key, value) :: rest).map Prod.fst := by simp [hkey]
      rw [if_pos hin] at hk
      have hout : k ∉ rest.map Prod.fst := by rw [hkey]; exact hnodup.1
      rw [if_neg hout]
      rcases List.mem_cons.mp hk with heq | hmem
      · cases heq
        exact Entries.get_set_self row.data key value
      · exact absurd (List.mem_map.mpr ⟨_, hmem, rfl⟩) hout
    · by_cases hin : k ∈ rest.map Prod.fst
      · rw [if_pos (by simp [hin])] at hk
        rw [if_pos hin]
        exact (List.mem_cons.mp hk).resolve_left fun heq => hkey (congrArg Prod.fst heq)
      · rw [if_neg (by simpa [hkey] using hin)] at hk
        rw [if_neg hin, Entries.get_set_of_ne row.data value (Ne.symm hkey)]
        exact hk

/-- A rotation goes on to its next phase, or ends. -/
theorem Rotation.advance {s : State V} {i : Nat} {t : Task V} (h : Rotation s i t) :
    Idle (advance s i t) ∨ ∃ t', Rotation (advance s i t) i t' := by
  have hphase := h.phase
  cases t with
  | read previous userId =>
    obtain ⟨hprev, hrow, honly⟩ := hphase
    refine .inr ⟨_, h.next rfl rfl ⟨hprev, hrow.frame rfl rfl, honly, ?_⟩⟩
    obtain ⟨row, hr, hall⟩ := hrow
    have hdata : s.store.getAll previous = row.data := by rw [Store.getAll, hr]; rfl
    rw [hdata]
    exact ⟨row.nodup, fun k v hv => (Entries.get_eq_some row.nodup).mp (hall k v hv)⟩
  | create previous userId data =>
    obtain ⟨hprev, hrow, honly, hnodup, hdata⟩ := hphase
    have hlt : previous < s.store.next := by
      obtain ⟨row, hr, -⟩ := hrow
      exact Store.lt_next hr
    have hne : s.store.create.1 ≠ previous := by
      show s.store.next ≠ previous
      omega
    have hrows : ∀ id, id ≠ s.store.next → s.store.create.2.rows id = s.store.rows id :=
      fun id hid => if_neg hid
    refine .inr ⟨_, h.next rfl rfl ⟨hprev, hne, ?_, ?_, hnodup, .empty, if_pos rfl, ?_⟩⟩
    · exact hrow.frame (hrows previous (by omega)) rfl
    · intro id hmem hout
      rcases List.mem_cons.mp hmem with rfl | hmem
      · exact absurd (List.mem_cons_of_mem _ (List.mem_singleton.mpr rfl)) hout
      · have hid : id ≠ s.store.next := fun heq => hout (by simp [heq, Store.create])
        show s.store.create.2.rows id = none
        rw [hrows id hid]
        exact honly id hmem fun hin => hout (List.mem_cons.mpr (.inl (List.mem_singleton.mp hin)))
    · intro k v hv
      have hmem := hdata k v hv
      rw [if_pos (List.mem_map.mpr ⟨_, hmem, rfl⟩)]
      exact hmem
  | copy previous userId replacement rest =>
    obtain ⟨hprev, hne, hrow, honly, hcopy⟩ := hphase
    cases rest with
    | nil =>
      obtain ⟨-, row, hr, hall⟩ := hcopy
      refine .inr ⟨_, h.next rfl rfl ⟨hprev, hne, ?_, ?_, { row with userId := some userId }, ?_, ?_⟩⟩
      · exact hrow.frame (if_neg hne.symm) rfl
      · exact fun id hmem hout => Store.update_none (honly id hmem hout)
      · show (s.store.bindUser replacement userId).rows replacement = _
        rw [Store.bindUser, Store.update_rows, if_pos rfl, hr]
        rfl
      · intro k v hv
        have := hall k v hv
        rwa [if_neg (by simp)] at this
    | cons e rest =>
      obtain ⟨key, value⟩ := e
      refine .inr ⟨_, h.next rfl rfl ⟨hprev, hne, ?_, ?_, hcopy.step rfl rfl⟩⟩
      · exact hrow.frame (if_neg hne.symm) rfl
      · exact fun id hmem hout => Store.update_none (honly id hmem hout)
  | remove previous replacement =>
    obtain ⟨hprev, hne, hrow, honly, hnew⟩ := hphase
    refine .inr ⟨_, h.next rfl rfl ⟨hnew.frame (if_neg hne) rfl, fun id hmem hout => ?_⟩⟩
    show (s.store.destroy previous).rows id = none
    by_cases hid : id = previous
    · rw [Store.destroy_rows, if_pos hid]
    · refine Store.destroy_none (honly id hmem ?_)
      have : id ≠ replacement := by simpa using hout
      simp [hid, this]
  | rotate replacement =>
    obtain ⟨hrow, honly⟩ := hphase
    exact .inl (h.finish rfl rfl (hrow.frame rfl rfl) honly)
  | undo replacement =>
    obtain ⟨hne, hrow, honly⟩ := hphase
    refine .inl (h.finish rfl rfl (hrow.frame (if_neg hne.symm) rfl) fun id hmem hout => ?_)
    show (s.store.destroy replacement).rows id = none
    by_cases hid : id = replacement
    · rw [Store.destroy_rows, if_pos hid]
    · refine Store.destroy_none (honly id hmem ?_)
      have hcur : id ∉ [s.sessionId] := hout
      have hne' : id ≠ s.sessionId := by simpa using hcur
      simp [hid, hne']
  | set | unset | done | destroy | destroyed => exact absurd hphase id

/-- A rotation fails before it has a replacement, or undoes the replacement. -/
theorem Rotation.reject {s s' : State V} {i : Nat} {t : Task V} (h : Rotation s i t)
    (hstep : reject s i t = some s') : Idle s' ∨ ∃ t', Rotation s' i t' := by
  have hphase := h.phase
  cases t with
  | read previous userId =>
    cases hstep
    obtain ⟨rfl, hrow, honly⟩ := hphase
    exact .inl (h.finish rfl rfl (hrow.frame rfl rfl) honly)
  | create previous userId data =>
    cases hstep
    obtain ⟨rfl, hrow, honly, -⟩ := hphase
    exact .inl (h.finish rfl rfl (hrow.frame rfl rfl) honly)
  | copy previous userId replacement rest =>
    cases hstep
    obtain ⟨rfl, hne, hrow, honly, -⟩ := hphase
    exact .inr ⟨_, h.next rfl rfl ⟨hne, hrow.frame rfl rfl, honly⟩⟩
  | remove previous replacement =>
    cases hstep
    obtain ⟨rfl, hne, hrow, honly, -⟩ := hphase
    exact .inr ⟨_, h.next rfl rfl ⟨hne, hrow.frame rfl rfl, honly⟩⟩
  | rotate | undo => exact nomatch hstep
  | set | unset | done | destroy | destroyed => exact absurd hphase id

/-- The state of the handle is kept, whatever happens to its other fields. -/
theorem Phase.frame {s s' : State V} {t : Task V} (h : Phase s t) (hstore : s'.store = s.store)
    (hwrites : s'.writes = s.writes) (hid : s'.sessionId = s.sessionId)
    (hcreated : s'.created = s.created) : Phase s' t := by
  have honly : ∀ {ids}, Only s ids → Only s' ids := by
    intro ids hids i hi hout
    rw [hstore]
    rw [hcreated] at hi
    exact hids i hi hout
  have hholds : ∀ {i}, Holds s i → Holds s' i := fun hi => hi.frame (by rw [hstore]) hwrites
  cases t with
  | read previous userId => exact ⟨hid ▸ h.1, hholds h.2.1, honly h.2.2⟩
  | create previous userId data =>
    obtain ⟨hprev, hrow, hids, hdata⟩ := h
    exact ⟨hid ▸ hprev, hholds hrow, honly hids, hdata.1, hwrites ▸ hdata.2⟩
  | copy previous userId replacement rest =>
    obtain ⟨hprev, hne, hrow, hids, hcopy⟩ := h
    exact ⟨hid ▸ hprev, hne, hholds hrow, honly hids, hcopy.1, by rw [hstore, hwrites]; exact hcopy.2⟩
  | remove previous replacement =>
    obtain ⟨hprev, hne, hrow, hids, hnew⟩ := h
    exact ⟨hid ▸ hprev, hne, hholds hrow, honly hids, hholds hnew⟩
  | rotate replacement => exact ⟨hholds h.1, honly h.2⟩
  | undo replacement =>
    obtain ⟨hne, hrow, hids⟩ := h
    exact ⟨by rw [hid]; exact hne, by rw [hid]; exact hholds hrow, by rw [hid]; exact honly hids⟩
  | set | unset | done | destroy | destroyed => exact h

/-- A harmless task next to a rotation takes effect or resumes. -/
theorem Rotation.advance_beside {s : State V} {i j : Nat} {t u : Task V} (h : Rotation s i t)
    (hj : j ≠ i) (hu : s.tasks j = some u) : Rotation (Session.advance s j u) i t := by
  have hharmless := h.alone j u hj hu
  cases u with
  | unset id key =>
    refine h.beside hj rfl (fun v hv => ?_) rfl (h.phase.unset rfl rfl rfl rfl)
    cases hv
    trivial
  | done =>
    exact h.beside hj rfl (fun v hv => nomatch hv) rfl (h.phase.frame rfl rfl rfl rfl)
  | set | destroy | destroyed | read | create | copy | remove | rotate | undo =>
    exact absurd hharmless id

theorem Rotation.reject_beside {s s' : State V} {i j : Nat} {t u : Task V} (h : Rotation s i t)
    (hj : j ≠ i) (hu : s.tasks j = some u) (hstep : Session.reject s j u = some s') :
    Rotation s' i t := by
  have hharmless := h.alone j u hj hu
  cases u with
  | unset id key =>
    cases hstep
    exact h.beside hj rfl (fun v hv => nomatch hv) rfl (h.phase.frame rfl rfl rfl rfl)
  | done => exact nomatch hstep
  | set | destroy | destroyed | read | create | copy | remove | rotate | undo =>
    exact absurd hharmless id

/-- The tasks a call can start, on the current id of a live handle. -/
theorem enter_eq_some {s : State V} {operation : Call V} {t : Task V}
    (h : enter s operation = some t) :
    s.destroyed = false ∧ match operation with
      | .set key value => t = .set s.sessionId key value
      | .unset key => t = .unset s.sessionId key
      | .bindUser userId => t = .read s.sessionId userId
      | .destroy => t = .destroy s.sessionId := by
  have hcur : ∀ {f : Nat → Task V}, (currentId s).toOption.map f = some t →
      s.destroyed = false ∧ t = f s.sessionId := by
    intro f hf
    cases hd : s.destroyed with
    | true => simp [currentId, hd, Except.toOption] at hf
    | false =>
      simp only [currentId, hd, Except.toOption, Bool.false_eq_true, if_false, Option.map_some,
        Option.some.injEq] at hf
      exact ⟨rfl, hf.symm⟩
  cases operation with
  | set key value => exact hcur h
  | unset key => exact hcur h
  | bindUser userId =>
    rw [enter] at h
    split at h
    · exact nomatch h
    · exact hcur h
  | destroy =>
    rw [enter] at h
    split at h
    · exact nomatch h
    · exact hcur h

/-- The state after a call. -/
def called (s : State V) (task : Option (Task V)) : State V :=
  { s.put s.calls task with calls := s.calls + 1 }

/-- A call on an idle handle. -/
theorem Idle.call {s : State V} (h : Idle s) (hfree : s.tasks s.calls = none)
    {operation : Call V} (hserial : Serialized s (.call operation)) :
    Idle (called s (enter s operation)) ∨ ∃ i t, Rotation (called s (enter s operation)) i t := by
  have hold : s.tasks s.calls ≠ some .destroyed := by
    rw [hfree]
    simp
  have hplain : ∀ task, task ≠ some .destroyed → (∀ t, task = some t → Pending s t) →
      Idle (called s task) := by
    intro task hnew hpending
    exact h.replace rfl rfl rfl rfl hold hnew hpending (fun _ hnone => hnone)
      fun hrow => hrow.frame rfl rfl
  cases henter : enter s operation with
  | none => exact .inl (hplain none (by simp) fun t ht => nomatch ht)
  | some t =>
    obtain ⟨hlive, ht⟩ := enter_eq_some henter
    cases operation with
    | set key value =>
      have hstart : t = .set s.sessionId key value := ht
      rw [hstart]
      exact .inl (hplain _ (by simp) fun u hu => by cases hu; rfl)
    | unset key =>
      have hstart : t = .unset s.sessionId key := ht
      rw [hstart]
      exact .inl (hplain _ (by simp) fun u hu => by cases hu; trivial)
    | destroy =>
      have hstart : t = .destroy s.sessionId := ht
      rw [hstart]
      exact .inl (hplain _ (by simp) fun u hu => by cases hu; rfl)
    | bindUser userId =>
      have hstart : t = .read s.sessionId userId := ht
      rw [hstart]
      have hharmless : ∀ i u, s.tasks i = some u → u.Harmless := hserial
      have hrow : Holds s s.sessionId := by
        rcases h.row with hrow | hgone | ⟨i, hi⟩
        · exact hrow
        · rw [hlive] at hgone
          exact nomatch hgone
        · exact absurd (hharmless i _ hi) id
      refine .inr ⟨s.calls, .read s.sessionId userId, ⟨by simp [called, put_tasks], ?_, fun j u hj hu => ?_, hlive⟩⟩
      · have honly : Only (called s (some (.read s.sessionId userId))) [s.sessionId] :=
          fun id hmem hout => h.others id hmem (by simpa using hout)
        exact ⟨rfl, hrow.frame rfl rfl, honly⟩
      · simp only [called, put_tasks, hj, if_false] at hu
        exact hharmless j u hu

/-- A call next to a rotation. -/
theorem Rotation.call {s : State V} {i : Nat} {t : Task V} (h : Rotation s i t)
    (hfree : s.tasks s.calls = none) {operation : Call V}
    (hserial : Serialized s (.call operation)) :
    Rotation (called s (enter s operation)) i t := by
  have hne : s.calls ≠ i := by
    rintro rfl
    have := h.task
    rw [hfree] at this
    exact nomatch this
  have hrotating : t.Rotating := by
    have hphase := h.phase
    cases t <;> trivial
  cases operation with
  | unset key =>
    refine h.beside hne rfl (fun u hu => ?_) rfl (h.phase.frame rfl rfl rfl rfl)
    rw [(enter_eq_some hu).2]
    trivial
  | set key value => exact absurd hrotating (hserial i t h.task)
  | destroy => exact absurd hrotating (hserial i t h.task)
  | bindUser userId =>
    have hharmless : t.Harmless := hserial i t h.task
    cases t <;> first | exact absurd hharmless id | exact absurd hrotating id

theorem advance_calls (s : State V) (i : Nat) (t : Task V) : (advance s i t).calls = s.calls := by
  cases t with
  | copy previous userId replacement rest => cases rest <;> rfl
  | set | unset | done | destroy | destroyed | read | create | remove | rotate | undo => rfl

theorem advance_tasks (s : State V) (i j : Nat) (t : Task V) (hj : j ≠ i) :
    (advance s i t).tasks j = s.tasks j := by
  cases t with
  | copy previous userId replacement rest => cases rest <;> exact if_neg hj
  | set | unset | done | destroy | destroyed | read | create | remove | rotate | undo =>
    exact if_neg hj

theorem reject_frame {s s' : State V} {i : Nat} {t : Task V} (h : reject s i t = some s') :
    s'.calls = s.calls ∧ ∀ j, j ≠ i → s'.tasks j = s.tasks j := by
  cases t with
  | set | unset | destroy | read | create | copy | remove =>
    cases h
    exact ⟨rfl, fun j hj => if_neg hj⟩
  | done | destroyed | rotate | undo => exact nomatch h

/-- One step of a run whose rotations overlap only `unset` calls. -/
theorem Inv.step {s s' : State V} {e : Event V} (h : Inv s) (hserial : Serialized s e)
    (hstep : step s e = some s') : Inv s' := by
  have hlt : ∀ {i t}, s.tasks i = some t → i < s.calls := by
    intro i t ht
    by_contra hge
    have := h.calls i (by omega)
    rw [ht] at this
    exact nomatch this
  cases e with
  | call operation =>
    cases hstep
    have hfree := h.calls s.calls (by omega)
    refine ⟨fun i hi => ?_, ?_⟩
    · have hi' : s.calls + 1 ≤ i := hi
      show (if i = s.calls then _ else _) = none
      rw [if_neg (by omega)]
      exact h.calls i (by omega)
    · rcases h.state with hidle | ⟨i, t, hrot⟩
      · exact hidle.call hfree hserial
      · exact .inr ⟨i, t, hrot.call hfree hserial⟩
  | advance i =>
    obtain ⟨t, ht, rfl⟩ := Option.map_eq_some_iff.mp hstep
    refine ⟨fun j hj => ?_, ?_⟩
    · rw [advance_calls] at hj
      have hne : j ≠ i := by
        have := hlt ht
        omega
      rw [advance_tasks s i j t hne]
      exact h.calls j hj
    · rcases h.state with hidle | ⟨k, u, hrot⟩
      · exact .inl (hidle.advance ht)
      · by_cases hk : i = k
        · subst hk
          have hsame : t = u := Option.some.inj (ht.symm.trans hrot.task)
          subst hsame
          exact hrot.advance.imp id fun ⟨t', h'⟩ => ⟨i, t', h'⟩
        · exact .inr ⟨k, u, hrot.advance_beside hk ht⟩
  | reject i =>
    obtain ⟨t, ht, hrej⟩ := Option.bind_eq_some_iff.mp hstep
    obtain ⟨hcalls, htasks⟩ := reject_frame hrej
    refine ⟨fun j hj => ?_, ?_⟩
    · rw [hcalls] at hj
      have hne : j ≠ i := by
        have := hlt ht
        omega
      rw [htasks j hne]
      exact h.calls j hj
    · rcases h.state with hidle | ⟨k, u, hrot⟩
      · exact .inl (hidle.reject ht hrej)
      · by_cases hk : i = k
        · subst hk
          have hsame : t = u := Option.some.inj (ht.symm.trans hrot.task)
          subst hsame
          exact (hrot.reject hrej).imp id fun ⟨t', h'⟩ => ⟨i, t', h'⟩
        · exact .inr ⟨k, u, hrot.reject_beside hk ht hrej⟩
  | commitHeaders =>
    cases hstep
    refine ⟨h.calls, ?_⟩
    rcases h.state with hidle | ⟨i, t, hrot⟩
    · exact .inl ⟨hidle.pending, hidle.others, hidle.row, hidle.gone⟩
    · exact .inr ⟨i, t, hrot.task, hrot.phase.frame rfl rfl rfl rfl, hrot.alone, hrot.live⟩

/-! ## Section 6: The claims about runs -/

/-- In every interleaving in which a rotation overlaps only `unset` calls, no
    write is lost and nothing is left after `destroy`. -/
theorem serialized_sound (store : Store V) (id : Nat) (row : Row V)
    (hrow : store.rows id = some row) (auth : Bool) (s : State V)
    (h : Run step Serialized (initial store id auth) s) : NothingLost s ∧ NothingLeft s :=
  (h.invariant (inv_initial store id auth row hrow) fun _ _ _ => Inv.step).sound

/-! ### Runs on one session -/

def oneSession : Store String where
  rows i := if i = 0 then some .empty else none
  next := 1
  fresh i hi := if_neg (by omega)

/-- A `set` that runs between the first and the last step of a `bindUser`. -/
def overlappingSet : List (Event String) :=
  [.call (.bindUser "user-1"), .advance 0, .call (.set "cart" "book"), .advance 1, .advance 1,
    .advance 0, .advance 0, .advance 0, .advance 0]

/-- A `destroy` that resolves before a running `bindUser` has finished. -/
def overlappingDestroy : List (Event String) :=
  [.call (.bindUser "user-1"), .advance 0, .advance 0, .call .destroy, .advance 1, .advance 1,
    .advance 0, .advance 0, .advance 0]

/-- Two rotations side by side, then a `destroy`. -/
def overlappingRotations : List (Event String) :=
  [.call (.bindUser "user-1"), .call (.bindUser "user-2"), .advance 0, .advance 1, .advance 0,
    .advance 1, .advance 0, .advance 1, .advance 0, .advance 1, .advance 0, .advance 1,
    .call .destroy, .advance 2, .advance 2]

/-- The written value is gone with the old row; and each of the two other
    overlaps leaves a row behind after a `destroy` has resolved. -/
theorem overlapping_rotation_unsound :
    (¬ ∀ s, Run step Free (initial oneSession 0 false) s → NothingLost s ∧ NothingLeft s) ∧
      (∃ s, Runs.exec step (initial oneSession 0 false) overlappingSet = some s ∧
        ¬ NothingLost s) ∧
      (∃ s, Runs.exec step (initial oneSession 0 false) overlappingDestroy = some s ∧
        ¬ NothingLeft s) ∧
      ∃ s, Runs.exec step (initial oneSession 0 false) overlappingRotations = some s ∧
        ¬ NothingLeft s := by
  have hset : ∃ s, Runs.exec step (initial oneSession 0 false) overlappingSet = some s ∧
      ¬ NothingLost s := by
    refine ⟨_, rfl, fun hkeep => ?_⟩
    obtain ⟨row, hr, hall⟩ := hkeep (fun i => match i with | 0 => rfl | 1 => rfl | _ + 2 => rfl) rfl
    cases hr
    exact nomatch hall "cart" "book" rfl
  refine ⟨fun hclaim => ?_, hset, ⟨_, rfl, fun hleft => ?_⟩, ⟨_, rfl, fun hleft => ?_⟩⟩
  · obtain ⟨s, hs, hlost⟩ := hset
    exact hlost (hclaim s (Runs.run_of_exec hs (Runs.admits_free _ _))).1
  · exact nomatch (hleft rfl).1 1 (by decide)
  · exact nomatch (hleft rfl).1 1 (by decide)

/-- A `set`, then a rotation, one after the other. -/
theorem set_then_rotate_sound :
    ∃ s, Run step Serialized (initial oneSession 0 false) s ∧ s.sessionId = 1 ∧
      NothingLost s ∧ NothingLeft s := by
  have hexec : ∃ s, Runs.exec step (initial oneSession 0 false)
      [.call (.set "cart" "book"), .advance 0, .advance 0, .call (.bindUser "user-1"), .advance 1,
        .advance 1, .advance 1, .advance 1, .advance 1, .advance 1] = some s ∧ s.sessionId = 1 :=
    ⟨_, rfl, rfl⟩
  obtain ⟨s, hs, hid⟩ := hexec
  have hrun : Run step Serialized (initial oneSession 0 false) s := by
    refine Runs.run_of_exec hs ⟨fun i t ht => (nomatch ht), fun s₁ h₁ => ⟨trivial, fun s₂ h₂ =>
      ⟨trivial, fun s₃ h₃ => ⟨?_, fun _ _ => ⟨trivial, fun _ _ => ⟨trivial, fun _ _ => ⟨trivial,
        fun _ _ => ⟨trivial, fun _ _ => ⟨trivial, fun _ _ => ⟨trivial, fun _ _ => trivial⟩⟩⟩⟩⟩⟩⟩⟩⟩⟩
    -- the `set` has resolved when the rotation is called
    cases h₁
    cases h₂
    cases h₃
    intro i t ht
    cases i <;> exact nomatch ht
  exact ⟨s, hrun, hid, serialized_sound oneSession 0 .empty rfl false s hrun⟩

end Cossack.Framework.Session
