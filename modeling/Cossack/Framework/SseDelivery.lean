import Cossack.Framework.SseLog
import Cossack.Lib.Runs
import Mathlib.Data.List.Nodup

/-! # Nothing is skipped or delivered twice

    The events that are kept are the newest ones, so a cursor is either in reach
    of the log or older than all of it, and a subscriber that follows the log is
    brought from its cursor to the newest event or told to resync.  All of it
    rests on a scope that has a snapshot: an event that is appended without one
    has a cursor that the snapshot never gets. -/

namespace Cossack.Framework.SseLog

open Core.RpcStream (maxFrameBytes)
open Runs

/-! ## Section 1: What is retained -/

theorem totals_ge {total : Nat} {events : List EventRow} {x : EventRow × Nat}
    (h : x ∈ totals total events) : total ≤ x.2 := by
  induction events generalizing total with
  | nil => simp [totals] at h
  | cons row rest ih =>
    rcases List.mem_cons.mp h with rfl | hrest
    · simp
    · have hle := ih hrest
      omega

/-- The totals only grow, so those in bounds come first. -/
theorem totals_filter (total : Nat) (events : List EventRow) :
    ∃ n, ((totals total events).filter fun row => row.2 ≤ maxLogBytes).map Prod.fst =
      events.take n := by
  induction events generalizing total with
  | nil => exact ⟨0, rfl⟩
  | cons row rest ih =>
    by_cases h : total + row.bytes ≤ maxLogBytes
    · obtain ⟨n, hn⟩ := ih (total + row.bytes)
      exact ⟨n + 1, by simp [totals, h, hn]⟩
    · have hnone :
          (totals (total + row.bytes) rest).filter (fun row => row.2 ≤ maxLogBytes) = [] := by
        rw [List.filter_eq_nil_iff]
        intro x hx
        have hge := totals_ge hx
        simp only [decide_eq_true_eq]
        omega
      exact ⟨0, by simp [totals, h, hnone]⟩

/-- The kept cursors are those of the newest events, and of the newest one where
    it is in bounds by itself. -/
theorem keptCursors_append (events : List EventRow) (row : EventRow)
    (h : row.bytes ≤ maxLogBytes) :
    ∃ n, keptCursors (events ++ [row]) =
      ((row :: events.reverse).take (n + 1)).map EventRow.cursor := by
  obtain ⟨n, hn⟩ := totals_filter row.bytes events.reverse
  have hkept : keptCursors (events ++ [row]) =
      ((((totals 0 (row :: events.reverse)).filter fun row => row.2 ≤ maxLogBytes).map
        Prod.fst).take maxEvents).map EventRow.cursor := by
    simp only [keptCursors, List.reverse_append, List.reverse_cons, List.reverse_nil,
      List.nil_append, List.singleton_append, ← List.map_take, List.map_map]
    rfl
  refine ⟨min (maxEvents - 1) n, ?_⟩
  rw [hkept]
  simp [totals, h, hn, List.take_take, maxEvents]

/-- What is left of a log with different cursors when some of its newest events
    are kept. -/
theorem filter_cursors {events : List EventRow} (hnodup : (events.map EventRow.cursor).Nodup)
    (j : Nat) :
    events.filter (fun row => row.cursor ∈ (events.drop j).map EventRow.cursor) =
      events.drop j := by
  have hsplit := List.take_append_drop j events
  rw [← hsplit, List.map_append, List.nodup_append] at hnodup
  obtain ⟨-, -, hdisjoint⟩ := hnodup
  have hold : (events.take j).filter
      (fun row => row.cursor ∈ (events.drop j).map EventRow.cursor) = [] := by
    rw [List.filter_eq_nil_iff]
    intro row hrow hkept
    exact hdisjoint _ (List.mem_map_of_mem hrow) _ (by simpa using hkept) rfl
  have hnew : (events.drop j).filter
      (fun row => row.cursor ∈ (events.drop j).map EventRow.cursor) = events.drop j := by
    rw [List.filter_eq_self]
    intro row hrow
    exact decide_eq_true (List.mem_map_of_mem hrow)
  calc events.filter (fun row => row.cursor ∈ (events.drop j).map EventRow.cursor)
      = (events.take j ++ events.drop j).filter
          (fun row => row.cursor ∈ (events.drop j).map EventRow.cursor) := by rw [hsplit]
    _ = events.drop j := by rw [List.filter_append, hold, hnew, List.nil_append]

/-- After an event in bounds, the log is a suffix of what it was with the event. -/
theorem trim_append (events : List EventRow) (row : EventRow) (h : row.bytes ≤ maxLogBytes)
    (hnodup : ((events ++ [row]).map EventRow.cursor).Nodup) :
    ∃ j ≤ events.length, trim (events ++ [row]) = (events ++ [row]).drop j := by
  obtain ⟨n, hn⟩ := keptCursors_append events row h
  have hkept : keptCursors (events ++ [row]) =
      (((events ++ [row]).drop (events.length - n)).map EventRow.cursor).reverse := by
    rw [hn, ← List.map_reverse, List.reverse_drop]
    simp only [List.length_append, List.length_singleton, List.reverse_append, List.reverse_cons,
      List.reverse_nil, List.nil_append, List.singleton_append]
    congr 1
    by_cases hle : n ≤ events.length
    · congr 1
      omega
    · rw [List.take_of_length_le (by simp; omega), List.take_of_length_le (by simp; omega)]
  refine ⟨events.length - n, Nat.sub_le _ _, ?_⟩
  rw [← filter_cursors hnodup, trim, hkept]
  simp only [List.mem_reverse]

/-! ## Section 2: The scope -/

/-- Rows with the cursors 1, 2, 3 and so on. -/
def Numbered (rows : List EventRow) : Prop :=
  ∀ i row, rows[i]? = some row → row.cursor = i + 1

section numbered

variable {rows : List EventRow}

theorem Numbered.cursor_le (h : Numbered rows) {k : Nat} {row : EventRow}
    (hrow : row ∈ rows.take k) : row.cursor ≤ k := by
  obtain ⟨i, hi⟩ := List.mem_iff_getElem?.mp hrow
  rw [List.getElem?_take] at hi
  split at hi
  · have hcursor := h i row hi
    omega
  · cases hi

theorem Numbered.lt_cursor (h : Numbered rows) {k : Nat} {row : EventRow}
    (hrow : row ∈ rows.drop k) : k < row.cursor := by
  obtain ⟨i, hi⟩ := List.mem_iff_getElem?.mp hrow
  rw [List.getElem?_drop] at hi
  have hcursor := h (k + i) row hi
  omega

theorem Numbered.cursors (h : Numbered rows) :
    rows.map EventRow.cursor = List.range' 1 rows.length := by
  apply List.ext_getElem?
  intro i
  cases hrow : rows[i]? with
  | none => simp [List.getElem?_eq_none_iff.mp hrow]
  | some row =>
    have hlt : i < rows.length := (List.getElem?_eq_some_iff.mp hrow).choose
    simp [hrow, h i row hrow, List.getElem?_range' hlt]
    omega

theorem Numbered.nodup (h : Numbered rows) : (rows.map EventRow.cursor).Nodup := by
  rw [h.cursors]
  exact List.nodup_range'

theorem Numbered.append (h : Numbered rows) {row : EventRow}
    (hrow : row.cursor = rows.length + 1) : Numbered (rows ++ [row]) := by
  intro i r hr
  rcases Nat.lt_or_ge i rows.length with hlt | hge
  · rw [List.getElem?_append_left hlt] at hr
    exact h i r hr
  · rw [List.getElem?_append_right hge, List.getElem?_singleton] at hr
    split at hr
    · cases hr
      omega
    · cases hr

/-- Of a suffix that reaches down to a cursor, the later events are all of them. -/
theorem Numbered.filter_drop (h : Numbered rows) {k after : Nat} (hk : k ≤ after) :
    (rows.drop k).filter (fun row => after < row.cursor) = rows.drop after := by
  have hold : ((rows.drop k).take (after - k)).filter (fun row => after < row.cursor) = [] := by
    rw [List.filter_eq_nil_iff]
    intro row hrow
    have hmem : row ∈ rows.take after := by
      rw [List.take_drop, Nat.add_sub_cancel' hk] at hrow
      exact List.mem_of_mem_drop hrow
    have hle := h.cursor_le hmem
    simp only [decide_eq_true_eq]
    omega
  have hnew : (rows.drop after).filter (fun row => after < row.cursor) = rows.drop after := by
    rw [List.filter_eq_self]
    intro row hrow
    exact decide_eq_true (h.lt_cursor hrow)
  rw [← List.take_append_drop (after - k) (rows.drop k), List.filter_append, hold,
    List.drop_drop, Nat.add_sub_cancel' hk, hnew, List.nil_append]

end numbered

/-- All that was ever stored. -/
def System.rows (s : System) : List EventRow := s.appended.map Prod.fst

/-- The log of a scope is a suffix of all that was stored, up to the newest event,
    and its snapshot is the state after that. -/
structure Scope (s : System) : Prop where
  sequence : s.storage.sequence = s.rows.length
  numbered : Numbered s.rows
  retained : ∃ k, s.storage.events = s.rows.drop k ∧ (k < s.rows.length ∨ k = 0)
  unset : s.storage.snapshot = none → s.first = none ∧ s.appended = []
  current : ∀ snapshot, s.storage.snapshot = some snapshot →
    snapshot.cursor = s.rows.length ∧ s.stateAt s.rows.length = some snapshot.state

/-- What is read after a cursor: every later event, or a resync with the state
    that holds now. -/
theorem Scope.readUpdates {s : System} (h : Scope s) {after : Nat} {u : Updates}
    (hu : s.storage.readUpdates after = some u) :
    u.snapshot.cursor = s.rows.length ∧
      s.stateAt s.rows.length = some u.snapshot.state ∧
      (u.resync = false → after ≤ s.rows.length ∧ u.events = s.rows.drop after) := by
  simp only [Storage.readUpdates, Option.map_eq_some_iff] at hu
  obtain ⟨snapshot, hsnapshot, rfl⟩ := hu
  obtain ⟨hcursor, hstate⟩ := h.current snapshot hsnapshot
  refine ⟨hcursor, hstate, ?_⟩
  intro hresync
  simp only [Bool.or_eq_false_iff, decide_eq_false_iff_not] at hresync
  obtain ⟨hnewest, holdest⟩ := hresync
  obtain ⟨k, hevents, hk⟩ := h.retained
  rw [hevents] at holdest
  have hreach : k ≤ after := by
    rcases hk with hk | rfl
    · have hold : (s.rows[k]).cursor = k + 1 := h.numbered k _ (List.getElem?_eq_getElem hk)
      simp [List.head?_drop, List.getElem?_eq_getElem hk, hold] at holdest
      omega
    · exact Nat.zero_le after
  refine ⟨by omega, ?_⟩
  simp only [hnewest, hevents, holdest, decide_false, Bool.or_false, Bool.false_eq_true, if_false]
  exact h.numbered.filter_drop hreach

/-- A reader is told to resync just where the log does not go on from its cursor. -/
theorem Scope.resync_iff {s : System} (h : Scope s) {after : Nat} {u : Updates}
    (hu : s.storage.readUpdates after = some u) :
    u.resync ↔ s.rows.length < after ∨ ∃ row ∈ s.rows.drop after, row ∉ s.storage.events := by
  simp only [Storage.readUpdates, Option.map_eq_some_iff] at hu
  obtain ⟨snapshot, hsnapshot, rfl⟩ := hu
  obtain ⟨hcursor, -⟩ := h.current snapshot hsnapshot
  obtain ⟨k, hevents, hk⟩ := h.retained
  simp only [hcursor, hevents, Bool.or_eq_true, decide_eq_true_eq]
  refine or_congr_right ?_
  constructor
  · intro holdest
    simp only [Option.any_eq_true, Option.map_eq_some_iff, decide_eq_true_eq] at holdest
    obtain ⟨_, ⟨oldest, hhead, rfl⟩, hlt⟩ := holdest
    rw [List.head?_drop] at hhead
    have hle : after < s.rows.length := by
      have hbound := (List.getElem?_eq_some_iff.mp hhead).choose
      have hcursor := h.numbered k oldest hhead
      omega
    refine ⟨s.rows[after], List.mem_drop_iff_getElem.mpr ⟨0, by omega, by simp⟩, ?_⟩
    intro hkept
    have hold := h.numbered.lt_cursor hkept
    have hfirst := h.numbered k oldest hhead
    have hrow := h.numbered after _ (List.getElem?_eq_getElem hle)
    omega
  · rintro ⟨row, hlater, hgone⟩
    have hlt : after < k := by
      by_contra hle
      have hsub := List.drop_subset_drop_left s.rows (Nat.le_of_not_lt hle)
      exact hgone (hsub hlater)
    have hk : k < s.rows.length := by omega
    have hcursor : (s.rows[k]).cursor = k + 1 := h.numbered k _ (List.getElem?_eq_getElem hk)
    simp only [List.head?_drop, List.getElem?_eq_getElem hk, Option.map_some, hcursor,
      Option.any_some, decide_eq_true_eq]
    omega

theorem publish_bytes {correlated : String → String → String} {state : String}
    {requestId : Option String} {event : Appended}
    (h : publish correlated state requestId = some event) :
    event.data.utf8ByteSize ≤ maxLogBytes := by
  simp only [publish, Option.ite_none_right_eq_some, Bool.and_eq_true, decide_eq_true_eq] at h
  obtain ⟨⟨-, hbytes⟩, heq⟩ := h
  cases heq
  exact hbytes

theorem broadcast_bytes {event data : String} {appended : Appended}
    (h : broadcast event data = some appended) :
    appended.data.utf8ByteSize ≤ maxLogBytes := by
  simp only [broadcast, Option.ite_none_right_eq_some, Bool.and_eq_true, decide_eq_true_eq] at h
  obtain ⟨⟨⟨-, hbytes⟩, -⟩, heq⟩ := h
  cases heq
  exact hbytes

@[simp] theorem System.append_rows (s : System) (event : Appended) :
    (s.append event).rows = s.rows ++ [s.storage.nextRow event.event event.data] := by
  simp [System.append, System.rows]

theorem System.append_stateAt (s : System) (event : Appended) :
    (s.append event).stateAt (s.rows.length + 1) =
      (s.append event).storage.snapshot.map Snapshot.state := by
  simp [System.stateAt, System.append, System.rows]

theorem Scope.append {s : System} (h : Scope s) (hset : s.storage.snapshot.isSome)
    {event : Appended} (hbytes : event.data.utf8ByteSize ≤ maxLogBytes) :
    Scope (s.append event) := by
  have hnumbered : Numbered (s.append event).rows := by
    rw [System.append_rows]
    exact h.numbered.append (congrArg (· + 1) h.sequence)
  constructor
  case sequence =>
    rw [System.append_rows, List.length_append, List.length_singleton]
    exact congrArg (· + 1) h.sequence
  case numbered => exact hnumbered
  case retained =>
    obtain ⟨k, hevents, hk⟩ := h.retained
    have hle : k ≤ s.rows.length := by omega
    have hlog : s.storage.events ++ [s.storage.nextRow event.event event.data] =
        (s.append event).rows.drop k := by
      rw [hevents, System.append_rows, List.drop_append_of_le_length hle]
    have hnodup : ((s.storage.events ++
        [s.storage.nextRow event.event event.data]).map EventRow.cursor).Nodup := by
      rw [hlog, List.map_drop]
      exact hnumbered.nodup.sublist (List.drop_sublist _ _)
    obtain ⟨j, hj, htrim⟩ := trim_append s.storage.events _ hbytes hnodup
    refine ⟨k + j, ?_, ?_⟩
    · rw [← List.drop_drop, ← hlog]
      exact htrim
    · -- the row that was just stored is in bounds, so at most the others are gone
      left
      rw [hevents, List.length_drop] at hj
      simp only [System.append_rows, List.length_append, List.length_singleton]
      omega
  case unset =>
    intro hnone
    obtain ⟨snapshot, hsnapshot⟩ := Option.isSome_iff_exists.mp hset
    simp [System.append, Storage.appendEvent, hsnapshot] at hnone
  case current =>
    intro snapshot hsnapshot
    have hstate := s.append_stateAt event
    rw [hsnapshot] at hstate
    simp only [System.append, Storage.appendEvent, Option.map_eq_some_iff] at hsnapshot
    obtain ⟨_, _, rfl⟩ := hsnapshot
    simp only [System.append_rows, List.length_append, List.length_singleton]
    exact ⟨congrArg (· + 1) h.sequence, hstate⟩

theorem Scope.initialized {s : System} (h : Scope s) (hunset : s.storage.snapshot = none)
    (state : String) :
    Scope { s with
      storage := { s.storage with snapshot := some ⟨state, 0⟩ }
      first := some state } := by
  obtain ⟨-, hempty⟩ := h.unset hunset
  constructor
  case sequence => exact h.sequence
  case numbered => exact h.numbered
  case retained => exact h.retained
  case unset => simp
  case current =>
    intro snapshot hsnapshot
    cases hsnapshot
    simp [System.rows, System.stateAt, hempty]

/-! ## Section 3: What was seen stays true -/

/-- The history of a scope only grows. -/
structure Extends (s t : System) : Prop where
  first : ∀ state, s.first = some state → t.first = some state
  appended : s.appended <+: t.appended

theorem Extends.refl (s : System) : Extends s s := ⟨fun _ h => h, List.prefix_refl _⟩

theorem Extends.getElem? {s t : System} (h : Extends s t) {i : Nat}
    {e : EventRow × Option String} (he : s.appended[i]? = some e) : t.appended[i]? = some e := by
  obtain ⟨rest, hrest⟩ := h.appended
  have hlt : i < s.appended.length := (List.getElem?_eq_some_iff.mp he).choose
  rw [← hrest, List.getElem?_append_left hlt, he]

theorem Extends.stateAt {s t : System} (h : Extends s t) {n : Nat} {state : String}
    (hstate : s.stateAt n = some state) : t.stateAt n = some state := by
  by_cases hn : n = 0
  · rw [System.stateAt, if_pos hn] at hstate ⊢
    exact h.first state hstate
  · rw [System.stateAt, if_neg hn] at hstate ⊢
    obtain ⟨e, he, hsnd⟩ := Option.bind_eq_some_iff.mp hstate
    exact Option.bind_eq_some_iff.mpr ⟨e, h.getElem? he, hsnd⟩

theorem Extends.see {s t : System} (h : Extends s t) {v w : View} {sight : Sight}
    (hsee : s.see v sight = some w) : t.see v sight = some w := by
  unfold System.see at hsee ⊢
  split at hsee
  · exact hsee
  · exact hsee
  · rename_i row position hposition
    split at hsee
    · rename_i hok
      obtain ⟨hresynced, hcursor, hrow⟩ := hok
      obtain ⟨e, he, hfst⟩ := Option.map_eq_some_iff.mp hrow
      rw [if_pos ⟨hresynced, hcursor, by rw [h.getElem? he]; exact congrArg some hfst⟩]
      exact hsee
    · cases hsee
  · exact hsee
  · split at hsee
    · rename_i hok
      rw [if_pos ⟨hok.1, h.stateAt hok.2⟩]
      exact hsee
    · cases hsee
  · exact hsee
  · exact hsee

theorem Extends.watch {s t : System} (h : Extends s t) {v w : View} {sights : List Sight}
    (hwatch : s.watch v sights = some w) : t.watch v sights = some w := by
  induction sights generalizing v with
  | nil => exact hwatch
  | cons sight rest ih =>
    obtain ⟨u, hsee, hrest⟩ := Option.bind_eq_some_iff.mp hwatch
    exact Option.bind_eq_some_iff.mpr ⟨u, h.see hsee, ih hrest⟩

theorem System.watch_append (s : System) (v : View) (xs ys : List Sight) :
    s.watch v (xs ++ ys) = (s.watch v xs).bind fun w => s.watch w ys := by
  induction xs generalizing v with
  | nil => rfl
  | cons sight rest ih =>
    simp only [List.cons_append, System.watch, ih, Option.bind_assoc]

/-! ## Section 4: Where frames lead -/

/-- Frames that bring a view to a position, past any resync. -/
def Leads (s : System) (view : View) (frames : List Frame) (position : Nat) : Prop :=
  ∃ last, s.watch view (frames.map .frame) = some ⟨last, some position, false⟩

theorem Leads.mono {s t : System} (hext : Extends s t) {view : View} {frames : List Frame}
    {position : Nat} (h : Leads s view frames position) : Leads t view frames position := by
  obtain ⟨last, hwatch⟩ := h
  exact ⟨last, hext.watch hwatch⟩

theorem Leads.append {s : System} {view : View} {xs ys : List Frame} {p q : Nat}
    (h : Leads s view xs p) (hrest : ∀ last, Leads s ⟨last, some p, false⟩ ys q) :
    Leads s view (xs ++ ys) q := by
  obtain ⟨last, hxs⟩ := h
  obtain ⟨last', hys⟩ := hrest last
  refine ⟨last', ?_⟩
  rw [List.map_append, System.watch_append, hxs]
  exact hys

/-- The first of the frames is seen, and moves the last id as the subscriber does. -/
theorem Leads.head {s : System} {view : View} {frame : Frame} {frames : List Frame}
    {position : Nat} (h : Leads s view (frame :: frames) position) :
    ∃ next, s.see view (.frame frame) = some next ∧ Leads s next frames position ∧
      next.last = frame.id.or view.last := by
  obtain ⟨last, hwatch⟩ := h
  obtain ⟨next, hsee, hrest⟩ := Option.bind_eq_some_iff.mp hwatch
  refine ⟨next, hsee, ⟨last, hrest⟩, ?_⟩
  unfold System.see at hsee
  cases frame with
  | event | snapshot | connected =>
    cases hposition : view.position <;> simp only [hposition] at hsee
    · cases hsee
    · split at hsee <;> cases hsee
      rfl
  | resync =>
    cases hposition : view.position <;> simp only [hposition] at hsee <;> cases hsee
    rfl

/-- Every event after a position, in order, leads to the newest one. -/
theorem Scope.leads_events {s : System} (h : Scope s) (last : Option Nat) {after : Nat}
    (hle : after ≤ s.rows.length) :
    Leads s ⟨last, some after, false⟩ ((s.rows.drop after).map .event) s.rows.length := by
  induction hn : s.rows.length - after generalizing last after with
  | zero =>
    have heq : after = s.rows.length := by omega
    subst heq
    exact ⟨last, by simp [System.watch]⟩
  | succ n ih =>
    have hlt : after < s.rows.length := by omega
    obtain ⟨last', hrest⟩ := ih (some (after + 1)) (Nat.succ_le_of_lt hlt) (by omega)
    have hrow : s.rows[after]? = some s.rows[after] := List.getElem?_eq_getElem hlt
    have hcursor : (s.rows[after]).cursor = after + 1 := h.numbered after _ hrow
    have hstored : s.appended[after]?.map Prod.fst = some s.rows[after] := by
      rw [← hrow, System.rows, List.getElem?_map]
    refine ⟨last', ?_⟩
    rw [List.drop_eq_getElem_cons hlt]
    simp only [List.map_cons, System.watch, System.see, hcursor, hstored, and_self, if_true,
      Option.bind_some]
    exact hrest

theorem leads_resync {s : System} (view : View) {position : Nat}
    (hposition : view.position = some position) {state : String}
    (hstate : s.stateAt s.rows.length = some state) :
    Leads s view [.resync s.rows.length, .snapshot state s.rows.length] s.rows.length :=
  ⟨some s.rows.length, by simp [System.watch, System.see, hposition, hstate]⟩

/-- A reply to a poll leads from the cursor that was asked for to the one that is
    asked for next, which is that of the newest event. -/
theorem Scope.leads_answer {s : System} (h : Scope s) {after : Nat} {u : Updates}
    (hu : s.storage.readUpdates after = some u) (last : Option Nat) :
    (u.answer after).1 = s.rows.length ∧
      Leads s ⟨last, some after, false⟩ (u.answer after).2 s.rows.length := by
  obtain ⟨hcursor, hstate, hevents⟩ := h.readUpdates hu
  unfold Updates.answer
  split
  · rw [hcursor]
    exact ⟨rfl, leads_resync _ rfl hstate⟩
  · rename_i hresync
    obtain ⟨hle, heq⟩ := hevents (by simpa using hresync)
    rw [heq]
    refine ⟨?_, h.leads_events last hle⟩
    rw [List.getLast?_drop]
    split
    · rename_i hge
      exact Nat.le_antisymm hle hge
    · rename_i hlt
      have hlast : s.rows.length - 1 < s.rows.length := by omega
      have hnewest := h.numbered _ _ (List.getElem?_eq_getElem hlast)
      rw [List.getLast?_eq_getElem?, List.getElem?_eq_getElem hlast]
      simp only [Option.map_some, Option.getD_some]
      omega

/-- What a connection begins with leads from its cursor to the newest event. -/
theorem Scope.leads_opening {s : System} (h : Scope s) {after : Nat} {u : Updates}
    (hu : s.storage.readUpdates after = some u) {view : View}
    (hposition : view.position = some after) (hresynced : view.resynced = false) :
    Leads s view u.opening s.rows.length := by
  obtain ⟨hcursor, hstate, hevents⟩ := h.readUpdates hu
  unfold Updates.opening
  rw [hcursor]
  split
  · exact ⟨some s.rows.length, by simp [System.watch, System.see, hposition, hstate]⟩
  · rename_i hresync
    obtain ⟨hle, heq⟩ := hevents (by simpa using hresync)
    have hview : view = ⟨view.last, some after, false⟩ := by
      rw [← hposition, ← hresynced]
    rw [heq, hview]
    refine (h.leads_events _ hle).append ?_
    intro last
    exact ⟨some s.rows.length, by simp [System.watch, System.see, hstate]⟩

/-! ## Section 5: Following the log -/

/-- What is on its way leads to the cursor the connection polls after, and a poll is
    held only where there is nothing newer. -/
def Follows (s : System) (view : View) : Connection → Prop
  | .closed => True
  | .opening after => view.position = some after ∧ view.resynced = false
  | .opened after pending wire wait =>
      Leads s view (wire ++ pending) after ∧ (wait ≠ .none → pending = []) ∧
        (wait = .held → after = s.rows.length)

/-- What a subscriber has seen is what it should, up to its last id. -/
structure Follower (s : System) : Prop where
  scope : Scope s
  live : s.connection = .closed ∨ s.storage.snapshot.isSome
  seen : ∃ view, s.watch ⟨s.query, none, false⟩ s.seen = some view ∧
    view.last = s.lastId.or s.query ∧ Follows s view s.connection

/-- An event is stored for a scope that has a snapshot. -/
def Initialized (s : System) : Event → Prop
  | .publish _ _ | .broadcast _ _ => s.storage.snapshot.isSome
  | _ => True

theorem Follows.extend {s t : System} {view : View} {connection : Connection}
    (h : Follows s view connection) (hext : Extends s t) (hrows : t.rows.length = s.rows.length) :
    Follows t view connection := by
  cases connection with
  | closed => trivial
  | opening after => exact h
  | opened after pending wire wait =>
    obtain ⟨hleads, hpending, hheld⟩ := h
    exact ⟨hleads.mono hext, hpending, fun hwait => (hheld hwait).trans hrows.symm⟩

/-- A poll that is woken may have something newer to read. -/
theorem Follows.wake {s t : System} {view : View} {connection : Connection}
    (h : Follows s view connection) (hext : Extends s t) : Follows t view connection.wake := by
  cases connection with
  | closed => trivial
  | opening after => exact h
  | opened after pending wire wait =>
    obtain ⟨hleads, hpending, -⟩ := h
    cases wait with
    | none => exact ⟨hleads.mono hext, hpending, fun h => nomatch h⟩
    | held | woken => exact ⟨hleads.mono hext, fun _ => hpending (nofun), fun h => nomatch h⟩

theorem follower_initial (query : Option Nat) : Follower (System.initial query) := by
  constructor
  case scope =>
    constructor
    case sequence => rfl
    case numbered => exact fun i row h => nomatch h
    case retained => exact ⟨0, rfl, .inr rfl⟩
    case unset => exact fun _ => ⟨rfl, rfl⟩
    case current => exact fun _ h => nomatch h
  case live => exact .inl rfl
  case seen => exact ⟨_, rfl, rfl, trivial⟩

theorem Follower.append {s : System} (h : Follower s) (hset : s.storage.snapshot.isSome)
    {event : Appended} (hbytes : event.data.utf8ByteSize ≤ maxLogBytes) :
    Follower (s.append event) := by
  have hext : Extends s (s.append event) := ⟨fun _ h => h, List.prefix_append _ _⟩
  obtain ⟨view, hwatch, hlast, hfollows⟩ := h.seen
  have hstored : (s.append event).storage.snapshot.isSome := by
    simpa [System.append, Storage.appendEvent] using hset
  exact ⟨h.scope.append hset hbytes, .inr hstored, view, hext.watch hwatch, hlast,
    hfollows.wake hext⟩

/-- A step of the subscriber that brings it some sights. -/
def System.follow (s : System) (connection : Connection) (sights : List Sight)
    (lastId : Option Nat) : System :=
  { s with connection := connection, seen := s.seen ++ sights, lastId := lastId }

theorem Follower.follow {s : System} (h : Follower s) {connection : Connection}
    {sights : List Sight} {lastId : Option Nat}
    (hlive : connection = .closed ∨ s.storage.snapshot.isSome)
    (hnext : ∀ view, view.last = s.lastId.or s.query → Follows s view s.connection →
      ∃ next, s.watch view sights = some next ∧ next.last = lastId.or s.query ∧
        Follows s next connection) :
    Follower (s.follow connection sights lastId) := by
  have hext : Extends s (s.follow connection sights lastId) :=
    ⟨fun _ h => h, List.prefix_refl _⟩
  constructor
  case scope =>
    exact ⟨h.scope.sequence, h.scope.numbered, h.scope.retained, h.scope.unset, h.scope.current⟩
  case live => exact hlive
  case seen =>
    obtain ⟨view, hwatch, hlast, hfollows⟩ := h.seen
    obtain ⟨next, hsights, hnextLast, hnextFollows⟩ := hnext view hlast hfollows
    refine ⟨next, hext.watch ?_, hnextLast, hnextFollows.extend hext rfl⟩
    have hall := s.watch_append ⟨s.query, none, false⟩ s.seen sights
    rw [hwatch] at hall
    exact hall.trans hsights

theorem Follower.isSome {s : System} (h : Follower s) {after : Nat} {pending wire : List Frame}
    {wait : Wait} (hconn : s.connection = .opened after pending wire wait) :
    s.storage.snapshot.isSome := by
  apply h.live.resolve_left
  rw [hconn]
  nofun

/-- A step of the connection that brings the subscriber nothing. -/
theorem Follower.reconnect {s : System} (h : Follower s) {connection : Connection}
    (hopen : s.connection ≠ .closed)
    (hnext : ∀ view, Follows s view s.connection → Follows s view connection) :
    Follower { s with connection := connection } := by
  have hfollow : Follower (s.follow connection [] s.lastId) := by
    apply h.follow (.inr (h.live.resolve_left hopen))
    intro view hlast hfollows
    exact ⟨view, rfl, hlast, hnext view hfollows⟩
  rwa [System.follow, List.append_nil] at hfollow

theorem Follower.initialized {s : System} (h : Follower s) (hunset : s.storage.snapshot = none)
    (state : String) :
    Follower { s with
      storage := { s.storage with snapshot := some ⟨state, 0⟩ }
      first := some state } := by
  obtain ⟨hfirst, -⟩ := h.scope.unset hunset
  have hext : Extends s { s with
      storage := { s.storage with snapshot := some ⟨state, 0⟩ }
      first := some state } :=
    ⟨fun _ hsome => (nomatch hfirst.symm.trans hsome), List.prefix_refl _⟩
  obtain ⟨view, hwatch, hlast, hfollows⟩ := h.seen
  exact ⟨h.scope.initialized hunset state, .inr rfl, view, hext.watch hwatch, hlast,
    hfollows.extend hext rfl⟩

/-- A reply to a poll at the cursor the connection has been led to. -/
theorem Follower.answered {s : System} (h : Follower s) {after : Nat} {wire : List Frame}
    {wait : Wait} {u : Updates} (hconn : s.connection = .opened after [] wire wait)
    (hu : s.storage.readUpdates after = some u) : Follower (s.answered u after wire) := by
  apply h.reconnect (by simp [hconn])
  intro view hfollows
  rw [hconn] at hfollows
  obtain ⟨hleads, -, -⟩ := hfollows
  rw [List.append_nil] at hleads
  have hcursor := (h.scope.leads_answer hu none).1
  rw [hcursor]
  refine ⟨hleads.append fun last => (h.scope.leads_answer hu last).2, ?_, nofun⟩
  exact fun hwait => absurd rfl hwait

theorem follower_step {correlated : String → String → String} {s t : System} {e : Event}
    (h : Follower s) (hinit : Initialized s e) (hstep : step correlated s e = some t) :
    Follower t := by
  cases e with
  | initialized state =>
    simp only [step] at hstep
    split at hstep
    · split at hstep
      · cases hstep
        exact h
      · rename_i hunset
        cases hstep
        exact h.initialized hunset state
    · cases hstep
  | publish state requestId =>
    obtain ⟨event, hevent, rfl⟩ := Option.map_eq_some_iff.mp hstep
    exact h.append hinit (publish_bytes hevent)
  | broadcast event data =>
    obtain ⟨appended, hevent, rfl⟩ := Option.map_eq_some_iff.mp hstep
    exact h.append hinit (broadcast_bytes hevent)
  | connect =>
    simp only [step] at hstep
    split at hstep
    · rename_i snapshot hconn hsnapshot
      cases hstep
      apply h.follow (.inr (Option.isSome_iff_exists.mpr ⟨snapshot, hsnapshot⟩))
      intro view hlast _
      refine ⟨⟨view.last, some _, false⟩, ?_, hlast, rfl, rfl⟩
      have hstart : view.last = none ∨
          view.last = some ((s.lastId.or s.query).getD snapshot.cursor) := by
        rw [hlast]
        cases s.lastId.or s.query <;> simp
      rw [System.watch, System.see, if_pos hstart]
      rfl
    · cases hstep
  | opened =>
    simp only [step] at hstep
    split at hstep
    · rename_i after hconn
      obtain ⟨u, hu, rfl⟩ := Option.map_eq_some_iff.mp hstep
      apply h.reconnect (by simp [hconn])
      intro view hfollows
      rw [hconn] at hfollows
      obtain ⟨hposition, hresynced⟩ := hfollows
      rw [(h.scope.readUpdates hu).1]
      exact ⟨h.scope.leads_opening hu hposition hresynced, fun hwait => absurd rfl hwait, nofun⟩
    · cases hstep
  | send =>
    simp only [step] at hstep
    split at hstep
    · rename_i after frame pending wire wait hconn
      cases hstep
      apply h.reconnect (by simp [hconn])
      intro view hfollows
      rw [hconn] at hfollows
      obtain ⟨hleads, hpending, hheld⟩ := hfollows
      refine ⟨?_, fun hwait => (nomatch hpending hwait), hheld⟩
      simpa using hleads
    · cases hstep
  | receive =>
    simp only [step] at hstep
    split at hstep
    · rename_i after pending frame wire wait hconn
      cases hstep
      apply h.follow (.inr (h.isSome hconn))
      intro view hlast hfollows
      rw [hconn] at hfollows
      obtain ⟨hleads, hpending, hheld⟩ := hfollows
      obtain ⟨next, hsee, hrest, hnext⟩ := hleads.head
      refine ⟨next, ?_, ?_, hrest, hpending, hheld⟩
      · simp [System.watch, hsee]
      · rw [hnext, hlast, Option.or_assoc]
    · cases hstep
  | poll mayWait =>
    simp only [step] at hstep
    split at hstep
    · rename_i after wire hconn
      obtain ⟨u, hu, rfl⟩ := Option.map_eq_some_iff.mp hstep
      split
      · exact h.answered hconn hu
      · rename_i hnothing
        split
        · -- nothing was newer than the cursor, which the subscriber is on its way to
          apply h.reconnect (by simp [hconn])
          intro view hfollows
          rw [hconn] at hfollows
          simp only [Bool.or_eq_true, Bool.not_eq_true', not_or, Bool.not_eq_true,
            Bool.not_eq_false, List.isEmpty_iff] at hnothing
          obtain ⟨hle, hevents⟩ := (h.scope.readUpdates hu).2.2 hnothing.1
          refine ⟨hfollows.1, fun _ => rfl, fun _ => ?_⟩
          have hge := List.drop_eq_nil_iff.mp (hevents.symm.trans hnothing.2)
          exact Nat.le_antisymm hle hge
        · exact h
    · cases hstep
  | wake =>
    simp only [step] at hstep
    split at hstep
    · rename_i hconn
      cases hstep
      exact h.reconnect (by simp [hconn]) fun view hfollows => hfollows.wake (.refl s)
    · cases hstep
  | resume =>
    simp only [step] at hstep
    split at hstep
    · rename_i after pending wire hconn
      obtain ⟨u, hu, rfl⟩ := Option.map_eq_some_iff.mp hstep
      obtain ⟨view, -, -, hfollows⟩ := h.seen
      rw [hconn] at hfollows
      have hpending := hfollows.2.1 nofun
      subst hpending
      exact h.answered hconn hu
    · cases hstep
  | disconnect =>
    simp only [step] at hstep
    split at hstep
    · cases hstep
    · cases hstep
      apply h.follow (.inl rfl)
      intro view hlast _
      exact ⟨⟨view.last, none, false⟩, rfl, hlast, trivial⟩

theorem step_query {correlated : String → String → String} {s t : System} {e : Event}
    (hstep : step correlated s e = some t) : t.query = s.query := by
  cases e with
  | publish | broadcast =>
    obtain ⟨event, -, rfl⟩ := Option.map_eq_some_iff.mp hstep
    rfl
  | initialized | connect | opened | send | receive | poll | wake | resume | disconnect =>
    simp only [step] at hstep
    grind [System.answered, Option.map_eq_some_iff]

theorem follower_run {correlated : String → String → String} {query : Option Nat} {s : System}
    (h : Run (step correlated) Initialized (System.initial query) s) : Follower s :=
  h.invariant (follower_initial query) fun _ _ _ hs hinit hstep => follower_step hs hinit hstep

theorem query_run {correlated : String → String → String} {query : Option Nat} {s : System}
    (h : Run (step correlated) Initialized (System.initial query) s) : s.query = query := by
  induction h with
  | refl => rfl
  | tail _ _ hstep ih => exact (step_query hstep).trans ih

/-! ## Section 6: Catching up -/

/-- The subscriber's own steps, without a loss of the connection. -/
def Event.ofSubscriber : Event → Bool
  | .send | .receive | .poll _ | .resume => true
  | _ => false

/-- The subscriber's own steps lead from one state to another. -/
def Reaches (correlated : String → String → String) (s t : System) : Prop :=
  ∃ events : List Event, (∀ e ∈ events, e.ofSubscriber) ∧
    exec (step correlated) s events = some t

section catching

variable {correlated : String → String → String}

theorem Reaches.refl (s : System) : Reaches correlated s s := ⟨[], by simp, rfl⟩

theorem Reaches.head {s t u : System} {e : Event} (he : e.ofSubscriber)
    (hstep : step correlated s e = some t) (h : Reaches correlated t u) :
    Reaches correlated s u := by
  obtain ⟨events, hevents, hexec⟩ := h
  refine ⟨e :: events, ?_, ?_⟩
  · intro e' he'
    rcases List.mem_cons.mp he' with rfl | hrest
    · exact he
    · exact hevents e' hrest
  · rw [exec, hstep]
    exact hexec

theorem Reaches.follower {s t : System} (h : Reaches correlated s t) (hs : Follower s) :
    Follower t := by
  obtain ⟨events, hevents, hexec⟩ := h
  induction events generalizing s with
  | nil =>
    cases hexec
    exact hs
  | cons e rest ih =>
    obtain ⟨u, hstep, hrest⟩ := Option.bind_eq_some_iff.mp hexec
    have hinit : Initialized s e := by
      have he := hevents e List.mem_cons_self
      cases e <;> trivial
    exact ih (follower_step hs hinit hstep) (fun e he => hevents e (List.mem_cons_of_mem _ he))
      hrest

/-- What is on its way arrives. -/
theorem reaches_drained (correlated : String → String → String) (s : System) {after : Nat}
    {pending wire : List Frame} {wait : Wait}
    (hconn : s.connection = .opened after pending wire wait) :
    ∃ t, Reaches correlated s t ∧ t.connection = .opened after [] [] wait ∧
      t.appended = s.appended := by
  -- first all that is on the wire is received, then each further frame is sent
  induction pending generalizing s wire with
  | nil =>
    induction wire generalizing s with
    | nil => exact ⟨s, .refl s, hconn, rfl⟩
    | cons frame wire ih =>
      obtain ⟨t, hreach, ht⟩ := ih { s with
        connection := .opened after [] wire wait
        lastId := frame.id.or s.lastId
        seen := s.seen ++ [.frame frame] } rfl
      exact ⟨t, hreach.head (e := .receive) rfl (by simp only [step, hconn]), ht⟩
  | cons frame pending ih =>
    obtain ⟨t, hreach, ht⟩ :=
      ih { s with connection := .opened after pending (wire ++ [frame]) wait } rfl
    exact ⟨t, hreach.head (e := .send) rfl (by simp only [step, hconn]), ht⟩

/-- A poll that is not held answers with the rest of the log. -/
theorem reaches_answered (correlated : String → String → String) {s : System} (h : Follower s)
    {after : Nat} {wait : Wait}
    (hconn : s.connection = .opened after [] [] wait) :
    ∃ t pending wait, Reaches correlated s t ∧ t.appended = s.appended ∧
      t.connection = .opened s.rows.length pending [] wait := by
  obtain ⟨u, hu⟩ : ∃ u, s.storage.readUpdates after = some u :=
    Option.isSome_iff_exists.mp (by simpa [Storage.readUpdates] using h.isSome hconn)
  have hcursor := (h.scope.leads_answer hu none).1
  have hanswer : (s.answered u after []).connection =
      .opened s.rows.length (u.answer after).2 [] .none := by
    rw [← hcursor]
    rfl
  cases wait with
  | held =>
    obtain ⟨view, -, -, hfollows⟩ := h.seen
    rw [hconn] at hfollows
    have hnewest := hfollows.2.2 rfl
    exact ⟨s, [], .held, .refl s, rfl, by rw [hconn, hnewest]⟩
  | woken =>
    have hstep : step correlated s .resume = some (s.answered u after []) := by
      simp only [step, hconn, hu, Option.map_some]
    exact ⟨_, _, _, (Reaches.refl _).head rfl hstep, rfl, hanswer⟩
  | none =>
    by_cases hnothing : (u.resync || !u.events.isEmpty) = true
    · have hstep : step correlated s (.poll false) = some (s.answered u after []) := by
        simp only [step, hconn, hu, Option.map_some, hnothing, if_true]
      exact ⟨_, _, _, (Reaches.refl _).head rfl hstep, rfl, hanswer⟩
    · simp only [Bool.or_eq_true, Bool.not_eq_true', not_or, Bool.not_eq_true,
        Bool.not_eq_false, List.isEmpty_iff] at hnothing
      have hnewest : (u.answer after).1 = after := by simp [Updates.answer, hnothing]
      exact ⟨s, [], .none, .refl s, rfl, by rw [hconn, ← hcursor, hnewest]⟩

theorem Reaches.trans {s t u : System} (h : Reaches correlated s t)
    (h' : Reaches correlated t u) : Reaches correlated s u := by
  obtain ⟨events, hevents, hexec⟩ := h
  induction events generalizing s with
  | nil =>
    cases hexec
    exact h'
  | cons e rest ih =>
    obtain ⟨r, hstep, hrest⟩ := Option.bind_eq_some_iff.mp hexec
    exact (ih (fun e he => hevents e (List.mem_cons_of_mem _ he)) hrest).head
      (hevents e List.mem_cons_self) hstep

/-- With what is on its way and one more reply, an open connection is where the log
    ends, and so is the subscriber. -/
theorem reaches_newest (correlated : String → String → String) {s : System} (h : Follower s)
    {after : Nat} {pending wire : List Frame} {wait : Wait}
    (hconn : s.connection = .opened after pending wire wait) :
    ∃ t, Reaches correlated s t ∧ t.appended = s.appended ∧
      ∃ view, t.watch ⟨t.query, none, false⟩ t.seen = some view ∧
        view.position = some s.rows.length := by
  obtain ⟨t, hdrained, htconn, htappended⟩ :=
    reaches_drained correlated s hconn
  have ht := hdrained.follower h
  obtain ⟨u, frames, wait', hanswered, huappended, huconn⟩ := reaches_answered correlated ht htconn
  have hu := hanswered.follower ht
  obtain ⟨r, hreach, hrconn, hrappended⟩ :=
    reaches_drained correlated u huconn
  obtain ⟨view, hwatch, -, hfollows⟩ := (hreach.follower hu).seen
  rw [hrconn] at hfollows
  obtain ⟨last, hview⟩ := hfollows.1
  refine ⟨r, (hdrained.trans hanswered).trans hreach,
    hrappended.trans (huappended.trans htappended), view, hwatch, ?_⟩
  cases hview
  simp only [System.rows, htappended]

theorem Reaches.query {s t : System} (h : Reaches correlated s t) : t.query = s.query := by
  obtain ⟨events, -, hexec⟩ := h
  induction events generalizing s with
  | nil =>
    cases hexec
    rfl
  | cons e rest ih =>
    obtain ⟨u, hstep, hrest⟩ := Option.bind_eq_some_iff.mp hexec
    exact (ih hrest).trans (step_query hstep)

end catching

/-! ## Section 7: Delivery -/

/-- What holds of a scope and its subscriber.  `numbered` and `retained`: the log is
    the last part of all that was stored, with the newest event.  `seen`: nothing
    was skipped or came twice, but for a resync.  `resync`: a resync is told just
    where an event after the cursor is gone, or the cursor is none of the scope's.
    `idle`: a poll is held only where nothing is newer.  `arrives`: the subscriber's
    own steps bring it to the newest event. -/
structure Delivers (correlated : String → String → String) (query : Option Nat) (s : System) :
    Prop where
  numbered : s.rows.map EventRow.cursor = List.range' 1 s.rows.length
  retained : ∃ k, s.storage.events = s.rows.drop k ∧ (k < s.rows.length ∨ k = 0)
  seen : ∃ view, s.watch ⟨query, none, false⟩ s.seen = some view
  resync : ∀ after u, s.storage.readUpdates after = some u →
    (u.resync ↔ s.rows.length < after ∨ ∃ row ∈ s.rows.drop after, row ∉ s.storage.events)
  idle : ∀ after pending wire, s.connection = .opened after pending wire .held →
    pending = [] ∧ after = s.rows.length
  arrives : ∀ after pending wire wait, s.connection = .opened after pending wire wait →
    ∃ t, Reaches correlated s t ∧ t.appended = s.appended ∧
      ∃ view, t.watch ⟨query, none, false⟩ t.seen = some view ∧
        view.position = some s.rows.length

/-- Where every event is stored for a scope that has a snapshot, the subscriber sees
    every event after its cursor once and in order, or a resync with the state of
    the cursor it goes on from. -/
theorem subscriber_delivered {correlated : String → String → String} {query : Option Nat}
    {s : System} (h : Run (step correlated) Initialized (System.initial query) s) :
    Delivers correlated query s := by
  have hs := follower_run h
  have hquery := query_run h
  obtain ⟨view, hwatch, -, hfollows⟩ := hs.seen
  rw [hquery] at hwatch
  constructor
  case numbered => exact hs.scope.numbered.cursors
  case retained => exact hs.scope.retained
  case seen => exact ⟨view, hwatch⟩
  case resync => exact fun after u hu => hs.scope.resync_iff hu
  case idle =>
    intro after pending wire hconn
    rw [hconn] at hfollows
    exact ⟨hfollows.2.1 nofun, hfollows.2.2 rfl⟩
  case arrives =>
    intro after pending wire wait hconn
    obtain ⟨t, hreach, happended, view, hview, hposition⟩ :=
      reaches_newest correlated hs hconn
    rw [hreach.query, hquery] at hview
    exact ⟨t, hreach, happended, view, hview, hposition⟩

/-- The event is received, and so are the state and the note that follow it. -/
def receivedAll : List Event :=
  [.initialized "\x7b\x7d", .connect, .broadcast "event" "\x7b\x7d", .opened, .send, .receive, .send,
    .receive, .send, .receive]

theorem subscriber_delivered_event :
    ∃ s, exec (step fun state _ => state) (System.initial none) receivedAll = some s ∧
      s.seen = [.start 0, .frame (.event ⟨1, "event", "\x7b\x7d", 2⟩),
        .frame (.snapshot "\x7b\x7d" 1), .frame (.connected 1)] ∧
      Delivers (fun state _ => state) none s := by
  have hseen : (exec (step fun state _ => state) (System.initial none) receivedAll).map
      System.seen = some [.start 0, .frame (.event ⟨1, "event", "\x7b\x7d", 2⟩),
        .frame (.snapshot "\x7b\x7d" 1), .frame (.connected 1)] := by decide
  obtain ⟨s, hexec, hs⟩ := Option.map_eq_some_iff.mp hseen
  refine ⟨s, hexec, hs, subscriber_delivered (run_of_exec hexec ?_)⟩
  have hfirst : step (fun state _ => state) (System.initial none) (.initialized "\x7b\x7d") =
      some { System.initial none with
        storage := ⟨some ⟨"\x7b\x7d", 0⟩, [], 0⟩
        first := some "\x7b\x7d" } := by decide
  refine ⟨trivial, fun s₁ h₁ => ⟨trivial, fun s₂ h₂ => ⟨?_, fun _ _ => ?_⟩⟩⟩
  · -- the event is stored for the scope that the first step initialized
    rw [hfirst] at h₁
    cases h₁
    cases h₂
    rfl
  · simp [Admits, Initialized]

/-- An event is stored before the scope has a snapshot, the call fails, and then the
    scope is initialized. -/
def storedTooEarly : List Event :=
  [.broadcast "event" "\x7b\x7d", .initialized "\x7b\x7d", .connect, .opened, .send, .receive, .send,
    .receive, .send, .receive, .poll false, .send, .receive]

/-- The state that follows the event has the cursor before it, so the event comes a
    second time. -/
theorem early_event_repeated :
    ∃ s, Run (step fun state _ => state) Free (System.initial none) s ∧
      s.seen = [.start 0, .frame (.event ⟨1, "event", "\x7b\x7d", 2⟩),
        .frame (.snapshot "\x7b\x7d" 0), .frame (.connected 0),
        .frame (.event ⟨1, "event", "\x7b\x7d", 2⟩)] ∧
      ¬ ∃ view, s.watch ⟨none, none, false⟩ s.seen = some view := by
  have hseen : (exec (step fun state _ => state) (System.initial none) storedTooEarly).map
      (fun s => (s.seen, s.watch ⟨none, none, false⟩ s.seen)) =
        some ([.start 0, .frame (.event ⟨1, "event", "\x7b\x7d", 2⟩),
          .frame (.snapshot "\x7b\x7d" 0), .frame (.connected 0),
          .frame (.event ⟨1, "event", "\x7b\x7d", 2⟩)], none) := by decide
  obtain ⟨s, hexec, hs⟩ := Option.map_eq_some_iff.mp hseen
  obtain ⟨hsights, hwatch⟩ := Prod.mk.inj hs
  refine ⟨s, run_of_exec hexec (admits_free _ _), hsights, ?_⟩
  rintro ⟨view, hview⟩
  rw [hwatch] at hview
  cases hview

end Cossack.Framework.SseLog
