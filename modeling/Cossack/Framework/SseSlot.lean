import Cossack.Framework.SseActions
import Cossack.Lib.Runs

/-! # The slot of a Durable Object's actions

    Every accepted call is in one of seven stages.  One of them should not be: a
    call that is cancelled after it got the slot and before it resumed returns
    and keeps the slot. -/

namespace Cossack.Framework.Sse

open Runs

/-! ## Section 1: What is to be shown -/

/-- The action was invoked, and neither it nor its stream has ended. -/
def Phase.invoked : Phase → Bool
  | .running | .answered _ | .streaming .. => true
  | _ => false

/-- What holds of the slot and the order of the actions in any run. -/
structure SlotKept (s : State) : Prop where
  exclusive : ∀ i j, (s.phase i).invoked = true → (s.phase j).invoked = true → i = j
  ordered : ∀ later earlier i, s.log = later ++ .invoked i :: earlier →
    ∀ j, .invoked j ∈ earlier → j < i
  uninvoked : ∀ later earlier i, s.log = later ++ .invoked i :: earlier → .cancelled i ∉ earlier

/-- Every call returned, and every stream that was returned ended. -/
def Quiet (s : State) : Prop := ∀ i, s.phase i = .ended

/-- The slot is free, and the next call starts. -/
def Released (s : State) : Prop :=
  s.active = none ∧ s.queue = [] ∧ ∀ operationId, validOperationId operationId = true →
    (s.execute operationId).active = some s.calls ∧
      (s.execute operationId).phase s.calls = .ready true

/-- The entry was cancelled after it was activated and before it resumed. -/
def Stranded (i : Nat) : List Action → Prop
  | [] => False
  | action :: earlier =>
      (action = .cancelled i ∧ .activated i ∈ earlier ∧ .resumed i ∉ earlier) ∨ Stranded i earlier

/-! ## Section 2: Stages -/

def Action.entry : Action → Nat
  | .activated i | .resumed i | .invoked i | .cancelled i => i

def Unlogged (log : List Action) (i : Nat) : Prop := ∀ action ∈ log, action.entry ≠ i

theorem Unlogged.not_stranded {log : List Action} {i : Nat} (h : Unlogged log i) :
    ¬ Stranded i log := by
  induction log with
  | nil => exact id
  | cons action earlier ih =>
    rintro (⟨rfl, -, -⟩ | hearlier)
    · exact h _ (List.mem_cons_self ..) rfl
    · exact ih (fun a ha => h a (List.mem_cons_of_mem _ ha)) hearlier

inductive Stage (s : State) (i : Nat) : Prop
  | absent (calls : s.calls ≤ i) (phase : s.phase i = .ended) (closed : (s.entries i).closed = true)
      (queue : i ∉ s.queue) (active : s.active ≠ some i) (log : Unlogged s.log i)
  | queued (calls : i < s.calls) (phase : s.phase i = .ready false)
      (closed : (s.entries i).closed = false) (cancelled : (s.entries i).cancelled = false)
      (queue : i ∈ s.queue) (active : s.active ≠ some i) (log : Unlogged s.log i)
  | entered (calls : i < s.calls) (phase : s.phase i = .ready true)
      (closed : (s.entries i).closed = false) (cancelled : (s.entries i).cancelled = false)
      (queue : i ∉ s.queue) (active : s.active = some i) (activated : .activated i ∈ s.log)
      (log : ∀ action ∈ s.log, action.entry = i → action = .activated i)
  | running (calls : i < s.calls) (phase : (s.phase i).invoked = true)
      (closed : (s.entries i).closed = false) (queue : i ∉ s.queue) (active : s.active = some i)
      (resumed : .resumed i ∈ s.log) (log : ¬ Stranded i s.log)
  | stranded (calls : i < s.calls)
      (phase : s.phase i = .ready true ∧ .resumed i ∉ s.log ∨ s.phase i = .ended)
      (closed : (s.entries i).closed = false) (cancelled : (s.entries i).cancelled = true)
      (queue : i ∉ s.queue) (active : s.active = some i) (uninvoked : .invoked i ∉ s.log)
      (log : Stranded i s.log)
  | dropped (calls : i < s.calls) (phase : s.phase i = .ready true)
      (closed : (s.entries i).closed = true) (cancelled : (s.entries i).cancelled = true)
      (queue : i ∉ s.queue) (active : s.active ≠ some i)
      (log : ∀ action ∈ s.log, action.entry = i → action = .cancelled i)
      (unstranded : ¬ Stranded i s.log)
  | settled (calls : i < s.calls) (phase : s.phase i = .ended) (closed : (s.entries i).closed = true)
      (queue : i ∉ s.queue) (active : s.active ≠ some i) (log : ¬ Stranded i s.log)

/-- What a step leaves to an entry that it does not touch. -/
structure Same (s s' : State) (i : Nat) : Prop where
  calls : i < s'.calls ↔ i < s.calls
  entry : s'.entries i = s.entries i
  queue : i ∈ s'.queue ↔ i ∈ s.queue
  active : s'.active = some i ↔ s.active = some i
  log : ∃ extra, s'.log = extra ++ s.log ∧ ∀ action ∈ extra, action.entry ≠ i

theorem stranded_append {extra log : List Action} {i : Nat}
    (h : ∀ action ∈ extra, action.entry ≠ i) : Stranded i (extra ++ log) ↔ Stranded i log := by
  induction extra with
  | nil => exact Iff.rfl
  | cons action rest ih =>
    have hrest := ih fun a ha => h a (List.mem_cons_of_mem _ ha)
    refine ⟨?_, fun hlog => .inr (hrest.mpr hlog)⟩
    rintro (⟨rfl, -, -⟩ | hlog)
    · exact absurd rfl (h _ (List.mem_cons_self ..))
    · exact hrest.mp hlog

theorem mem_of_stranded {log : List Action} {i : Nat} (h : Stranded i log) : .cancelled i ∈ log := by
  induction log with
  | nil => exact h.elim
  | cons action earlier ih =>
    rcases h with ⟨rfl, -⟩ | hearlier
    · exact List.mem_cons_self ..
    · exact List.mem_cons_of_mem _ (ih hearlier)

theorem stranded_uncancelled (extra : List Action) {log : List Action} {i : Nat}
    (h : ∀ j, .cancelled j ∉ extra) : Stranded i (extra ++ log) ↔ Stranded i log := by
  induction extra with
  | nil => exact Iff.rfl
  | cons action rest ih =>
    have hrest := ih fun j hj => h j (List.mem_cons_of_mem _ hj)
    refine ⟨?_, fun hlog => .inr (hrest.mpr hlog)⟩
    rintro (⟨rfl, -, -⟩ | hlog)
    · exact absurd (List.mem_cons_self ..) (h i)
    · exact hrest.mp hlog

section same

variable {s s' : State} {i : Nat}

theorem Same.mem (h : Same s s' i) (action : Action) (hentry : action.entry = i) :
    action ∈ s'.log ↔ action ∈ s.log := by
  obtain ⟨extra, hlog, hextra⟩ := h.log
  rw [hlog, List.mem_append]
  exact or_iff_right fun hmem => hextra action hmem hentry

theorem Same.stranded (h : Same s s' i) : Stranded i s'.log ↔ Stranded i s.log := by
  obtain ⟨extra, hlog, hextra⟩ := h.log
  rw [hlog]
  exact stranded_append hextra

theorem Same.phase (h : Same s s' i) : s'.phase i = s.phase i := congrArg PendingAction.phase h.entry

theorem Stage.keep (h : Stage s i) (hs : Same s s' i) : Stage s' i := by
  have hclosed : (s'.entries i).closed = (s.entries i).closed := by rw [hs.entry]
  have hcancelled : (s'.entries i).cancelled = (s.entries i).cancelled := by rw [hs.entry]
  have hunlogged : Unlogged s.log i → Unlogged s'.log i := fun hlog action hmem hentry =>
    hlog action ((hs.mem action hentry).mp hmem) hentry
  have hactive : s.active ≠ some i → s'.active ≠ some i := fun hne hsome => hne (hs.active.mp hsome)
  have hqueue : i ∉ s.queue → i ∉ s'.queue := fun hnot hmem => hnot (hs.queue.mp hmem)
  cases h with
  | absent calls phase closed queue active log =>
    exact .absent (Nat.not_lt.mp fun hlt => Nat.not_lt.mpr calls (hs.calls.mp hlt))
      (hs.phase.trans phase) (hclosed.trans closed) (hqueue queue) (hactive active) (hunlogged log)
  | queued calls phase closed cancelled queue active log =>
    exact .queued (hs.calls.mpr calls) (hs.phase.trans phase) (hclosed.trans closed)
      (hcancelled.trans cancelled) (hs.queue.mpr queue) (hactive active) (hunlogged log)
  | entered calls phase closed cancelled queue active activated log =>
    exact .entered (hs.calls.mpr calls) (hs.phase.trans phase) (hclosed.trans closed)
      (hcancelled.trans cancelled) (hqueue queue) (hs.active.mpr active)
      ((hs.mem _ rfl).mpr activated)
      fun action hmem hentry => log action ((hs.mem action hentry).mp hmem) hentry
  | running calls phase closed queue active resumed log =>
    exact .running (hs.calls.mpr calls) (hs.phase ▸ phase) (hclosed.trans closed) (hqueue queue)
      (hs.active.mpr active) ((hs.mem _ rfl).mpr resumed) fun hlog => log (hs.stranded.mp hlog)
  | stranded calls phase closed cancelled queue active uninvoked log =>
    refine .stranded (hs.calls.mpr calls) ?_ (hclosed.trans closed) (hcancelled.trans cancelled)
      (hqueue queue) (hs.active.mpr active) (fun hmem => uninvoked ((hs.mem _ rfl).mp hmem))
      (hs.stranded.mpr log)
    rcases phase with ⟨hready, hresumed⟩ | hended
    · exact .inl ⟨hs.phase.trans hready, fun hmem => hresumed ((hs.mem _ rfl).mp hmem)⟩
    · exact .inr (hs.phase.trans hended)
  | dropped calls phase closed cancelled queue active log unstranded =>
    exact .dropped (hs.calls.mpr calls) (hs.phase.trans phase) (hclosed.trans closed)
      (hcancelled.trans cancelled) (hqueue queue) (hactive active)
      (fun action hmem hentry => log action ((hs.mem action hentry).mp hmem) hentry)
      fun hlog => unstranded (hs.stranded.mp hlog)
  | settled calls phase closed queue active log =>
    exact .settled (hs.calls.mpr calls) (hs.phase.trans phase) (hclosed.trans closed) (hqueue queue)
      (hactive active) fun hlog => log (hs.stranded.mp hlog)

end same

/-! ## Section 3: The invariant -/

def Logged : List Action → Prop
  | [] => True
  | .invoked i :: earlier =>
      .cancelled i ∉ earlier ∧ (∀ j, .invoked j ∈ earlier → j < i) ∧ Logged earlier
  | _ :: earlier => Logged earlier

structure Inv (s : State) : Prop where
  stage : ∀ i, Stage s i
  sorted : s.queue.Pairwise (· < ·)
  idle : s.active = none → s.queue = []
  ahead : ∀ i, s.active = some i → ∀ j ∈ s.queue, i < j
  order : ∀ i, .invoked i ∈ s.log → (∀ j ∈ s.queue, i < j) ∧ ∀ j, s.active = some j → i ≤ j
  logged : Logged s.log
  keys : (s.actions.map Prod.fst).Nodup
  actions : ∀ id i, (id, i) ∈ s.actions ↔
    i < s.calls ∧ (s.entries i).closed = false ∧ (s.entries i).id = id

theorem Inv.initial : Inv .initial := by
  refine ⟨fun i => ?_, List.Pairwise.nil, fun _ => rfl, nofun, nofun, trivial, List.nodup_nil,
    fun id i => ⟨nofun, fun h => absurd h.1 (Nat.not_lt_zero i)⟩⟩
  exact .absent (Nat.zero_le i) rfl rfl List.not_mem_nil nofun nofun

section stages

variable {s : State} {i : Nat}

theorem Stage.active_of_invoked (h : Stage s i) (hphase : (s.phase i).invoked = true) :
    s.active = some i ∧ (s.entries i).closed = false ∧ i ∉ s.queue ∧ i < s.calls ∧
      .resumed i ∈ s.log ∧ ¬ Stranded i s.log := by
  cases h with
  | running calls phase closed queue active resumed log =>
    exact ⟨active, closed, queue, calls, resumed, log⟩
  | absent calls phase => rw [phase] at hphase; cases hphase
  | queued calls phase => rw [phase] at hphase; cases hphase
  | entered calls phase => rw [phase] at hphase; cases hphase
  | stranded calls phase =>
    rcases phase with ⟨phase, -⟩ | phase <;> rw [phase] at hphase <;> cases hphase
  | dropped calls phase => rw [phase] at hphase; cases hphase
  | settled calls phase => rw [phase] at hphase; cases hphase

theorem Stage.not_logged (h : Stage s i) (hcalls : s.calls ≤ i) :
    i ∉ s.queue ∧ s.active ≠ some i ∧ Unlogged s.log i := by
  cases h with
  | absent calls phase closed queue active log => exact ⟨queue, active, log⟩
  | queued calls | entered calls | running calls | stranded calls | dropped calls | settled calls =>
    omega

theorem Stage.of_queue (h : Stage s i) (hqueue : i ∈ s.queue) :
    i < s.calls ∧ s.phase i = .ready false ∧ (s.entries i).closed = false ∧
      (s.entries i).cancelled = false ∧ s.active ≠ some i ∧ Unlogged s.log i := by
  cases h with
  | queued calls phase closed cancelled queue active log =>
    exact ⟨calls, phase, closed, cancelled, active, log⟩
  | absent calls phase closed queue => exact absurd hqueue queue
  | entered calls phase closed cancelled queue => exact absurd hqueue queue
  | running calls phase closed queue => exact absurd hqueue queue
  | stranded calls phase closed cancelled queue => exact absurd hqueue queue
  | dropped calls phase closed cancelled queue => exact absurd hqueue queue
  | settled calls phase closed queue => exact absurd hqueue queue

end stages

/-! ## Section 4: Releasing the slot -/

theorem entries_goto_self (s : State) (i : Nat) (phase : Phase) :
    (s.goto i phase).entries i = { s.entries i with phase := phase } :=
  Function.update_self ..

theorem entries_goto_ne (s : State) {i j : Nat} (h : j ≠ i) (phase : Phase) :
    (s.goto i phase).entries j = s.entries j :=
  Function.update_of_ne h ..

/-- The last action releases the slot. -/
theorem release_nil {s : State} {i : Nat} (hclosed : (s.entries i).closed = false)
    (hactive : s.active = some i) (hqueue : s.queue = []) :
    s.release i = { s with
      entries := Function.update s.entries i { s.entries i with closed := true, phase := .ended }
      actions := Entries.erase s.actions (s.entries i).id
      queue := []
      active := none } := by
  unfold State.release State.finish
  rw [if_neg (by rw [hclosed]; exact nofun)]
  simp only [State.close, State.goto, hactive, hqueue, if_true, Function.update_self,
    Function.update_idem]

/-- The slot goes to the first of the queue. -/
theorem release_cons {s : State} {i next : Nat} {rest : List Nat}
    (hclosed : (s.entries i).closed = false) (hactive : s.active = some i)
    (hqueue : s.queue = next :: rest) (hne : next ≠ i) (hnext : s.phase next = .ready false) :
    s.release i = { s with
      entries := Function.update
        (Function.update s.entries next { s.entries next with phase := .ready true }) i
        { s.entries i with closed := true, phase := .ended }
      actions := Entries.erase s.actions (s.entries i).id
      queue := rest
      active := some next
      log := .activated next :: s.log } := by
  have hphase : (s.entries next).phase = .ready false := hnext
  unfold State.release State.finish
  rw [if_neg (by rw [hclosed]; exact nofun)]
  simp only [State.close, State.goto, State.activate, State.enter, State.phase, hactive, hqueue,
    if_true, Function.update_of_ne hne, hphase, Function.update_of_ne hne.symm, Function.update_self]
  congr 1
  rw [Function.update_comm hne.symm, Function.update_idem]

section steps

variable {s : State} {i : Nat}

/-- An action goes on without leaving its slot. -/
theorem Inv.advance (h : Inv s) (hphase : (s.phase i).invoked = true) {phase : Phase}
    (hnext : phase.invoked = true) : Inv (s.goto i phase) := by
  obtain ⟨hactive, hclosed, hqueue, hcalls, hresumed, hlog⟩ := (h.stage i).active_of_invoked hphase
  refine ⟨fun j => ?_, h.sorted, h.idle, h.ahead, h.order, h.logged, h.keys, fun id j => ?_⟩
  · by_cases hj : j = i
    · subst hj
      have hphase' : (s.goto j phase).phase j = phase :=
        congrArg PendingAction.phase (entries_goto_self s j phase)
      refine .running hcalls (by rw [hphase']; exact hnext) ?_ hqueue hactive hresumed hlog
      rw [entries_goto_self]
      exact hclosed
    · exact (h.stage j).keep ⟨Iff.rfl, entries_goto_ne s hj phase, Iff.rfl, Iff.rfl, [], rfl, nofun⟩
  · by_cases hj : j = i
    · subst hj
      rw [entries_goto_self]
      exact h.actions id j
    · rw [entries_goto_ne s hj]
      exact h.actions id j

theorem Stage.of_active (h : Stage s i) (hactive : s.active = some i) :
    i < s.calls ∧ (s.entries i).closed = false ∧ i ∉ s.queue := by
  cases h with
  | entered calls phase closed cancelled queue => exact ⟨calls, closed, queue⟩
  | running calls phase closed queue => exact ⟨calls, closed, queue⟩
  | stranded calls phase closed cancelled queue => exact ⟨calls, closed, queue⟩
  | absent calls phase closed queue active => exact absurd hactive active
  | queued calls phase closed cancelled queue active => exact absurd hactive active
  | dropped calls phase closed cancelled queue active => exact absurd hactive active
  | settled calls phase closed queue active => exact absurd hactive active

theorem logged_append {extra log : List Action} (h : ∀ j, .invoked j ∉ extra) (hlog : Logged log) :
    Logged (extra ++ log) := by
  induction extra with
  | nil => exact hlog
  | cons action rest ih =>
    have hrest := ih fun j hj => h j (List.mem_cons_of_mem _ hj)
    cases action with
    | invoked j => exact absurd (List.mem_cons_self ..) (h j)
    | activated | resumed | cancelled => exact hrest

/-- The map forgets an entry that is closed, and no other. -/
theorem Inv.actions_close (h : Inv s) (hcalls : i < s.calls) (hopen : (s.entries i).closed = false)
    {entries : Nat → PendingAction} (hid : ∀ j, (entries j).id = (s.entries j).id)
    (hclosed : ∀ j, (entries j).closed = false ↔ j ≠ i ∧ (s.entries j).closed = false)
    (id : String) (j : Nat) :
    (id, j) ∈ Entries.erase s.actions (s.entries i).id ↔
      j < s.calls ∧ (entries j).closed = false ∧ (entries j).id = id := by
  have hmem : (id, j) ∈ Entries.erase s.actions (s.entries i).id ↔
      (id, j) ∈ s.actions ∧ id ≠ (s.entries i).id := by
    unfold Entries.erase
    rw [List.mem_filter]
    exact and_congr_right fun _ => bne_iff_ne
  rw [hmem, h.actions, hclosed, hid]
  constructor
  · rintro ⟨⟨hj, hjopen, rfl⟩, hne⟩
    exact ⟨hj, ⟨fun hji => hne (by rw [hji]), hjopen⟩, rfl⟩
  · rintro ⟨hj, ⟨hji, hjopen⟩, rfl⟩
    refine ⟨⟨hj, hjopen, rfl⟩, fun hsame => hji ?_⟩
    have hi : ((s.entries i).id, i) ∈ s.actions := (h.actions _ i).mpr ⟨hcalls, hopen, rfl⟩
    have hj' : ((s.entries i).id, j) ∈ s.actions := (h.actions _ j).mpr ⟨hj, hjopen, hsame⟩
    have hget := (Entries.get_eq_some h.keys).mpr hi
    rw [(Entries.get_eq_some h.keys).mpr hj'] at hget
    exact Option.some.inj hget

/-- The call that has the slot gives it up; the log may have grown by its
    resumption. -/
theorem Inv.release (h : Inv s) (hactive : s.active = some i) (hnot : ¬ Stranded i s.log)
    (extra : List Action) (hextra : ∀ action ∈ extra, action = .resumed i) :
    Inv (({ s with log := extra ++ s.log } : State).release i) := by
  obtain ⟨hcalls, hopen, hqueue⟩ := (h.stage i).of_active hactive
  have huncancelled : ∀ j, .cancelled j ∉ extra := fun j hmem => by cases hextra _ hmem
  have huninvoked : ∀ j, .invoked j ∉ extra := fun j hmem => by cases hextra _ hmem
  have hforeign : ∀ j, j ≠ i → ∀ action ∈ extra, action.entry ≠ j := by
    intro j hj action hmem
    rw [hextra action hmem]
    exact fun hij => hj hij.symm
  have hstranded : ¬ Stranded i (extra ++ s.log) := fun hlog =>
    hnot ((stranded_uncancelled extra huncancelled).mp hlog)
  have hinvoked : ∀ j, .invoked j ∈ extra ++ s.log → .invoked j ∈ s.log := fun j hmem =>
    (List.mem_append.mp hmem).resolve_left (huninvoked j)
  have hcases : s.queue = [] ∨ ∃ next rest, s.queue = next :: rest := by
    cases s.queue with
    | nil => exact .inl rfl
    | cons next rest => exact .inr ⟨next, rest, rfl⟩
  rcases hcases with hrest | ⟨next, rest, hrest⟩
  · -- nobody waits
    rw [release_nil (s := { s with log := extra ++ s.log }) hopen hactive hrest]
    have hself : Function.update s.entries i { s.entries i with closed := true, phase := .ended } i =
        { s.entries i with closed := true, phase := .ended } := Function.update_self ..
    have hentry : ∀ j, j ≠ i → Function.update s.entries i
        { s.entries i with closed := true, phase := .ended } j = s.entries j :=
      fun j hj => Function.update_of_ne hj ..
    refine ⟨fun j => ?_, List.Pairwise.nil, fun _ => rfl, nofun, fun j hmem => ⟨nofun, nofun⟩,
      logged_append huninvoked h.logged, Entries.nodup_erase h.keys _,
      h.actions_close hcalls hopen (fun j => ?_) fun j => ?_⟩
    · by_cases hj : j = i
      · subst hj
        exact .settled hcalls (congrArg PendingAction.phase hself)
          (congrArg PendingAction.closed hself) List.not_mem_nil nofun hstranded
      · refine (h.stage j).keep ⟨Iff.rfl, hentry j hj, by rw [hrest], ?_, extra, rfl, hforeign j hj⟩
        exact ⟨nofun, fun hsome => absurd (Option.some.inj (hsome.symm.trans hactive)) hj⟩
    · by_cases hj : j = i
      · subst hj
        exact (congrArg PendingAction.id hself).trans rfl
      · exact congrArg PendingAction.id (hentry j hj)
    · by_cases hj : j = i
      · subst hj
        have hshut := congrArg PendingAction.closed hself
        exact ⟨fun hfalse => absurd (hshut.symm.trans hfalse) nofun, fun hboth => absurd rfl hboth.1⟩
      · have hsame := congrArg PendingAction.closed (hentry j hj)
        exact ⟨fun hfalse => ⟨hj, hsame.symm.trans hfalse⟩, fun hboth => hsame.trans hboth.2⟩
  · -- the first of the queue gets the slot
    have hnextmem : next ∈ s.queue := by
      rw [hrest]
      exact List.mem_cons_self ..
    obtain ⟨hnextcalls, hnextphase, hnextopen, hnextcancelled, hnextactive, hnextlog⟩ :=
      (h.stage next).of_queue hnextmem
    have hne : next ≠ i := fun hsame => hnextactive (hsame ▸ hactive)
    have hsorted := h.sorted
    rw [hrest] at hsorted
    obtain ⟨hahead, hsorted⟩ := List.pairwise_cons.mp hsorted
    rw [release_cons (s := { s with log := extra ++ s.log }) hopen hactive hrest hne hnextphase]
    have hself : Function.update (Function.update s.entries next
        { s.entries next with phase := .ready true }) i
        { s.entries i with closed := true, phase := .ended } i =
          { s.entries i with closed := true, phase := .ended } := Function.update_self ..
    have hfirst : Function.update (Function.update s.entries next
        { s.entries next with phase := .ready true }) i
        { s.entries i with closed := true, phase := .ended } next =
          { s.entries next with phase := .ready true } := by
      rw [Function.update_of_ne hne, Function.update_self]
    have hentry : ∀ j, j ≠ i → j ≠ next → Function.update (Function.update s.entries next
        { s.entries next with phase := .ready true }) i
        { s.entries i with closed := true, phase := .ended } j = s.entries j := by
      intro j hj hjn
      rw [Function.update_of_ne hj, Function.update_of_ne hjn]
    refine ⟨fun j => ?_, hsorted, nofun, fun j hj k hk => ?_, fun j hmem => ?_,
      logged_append huninvoked h.logged, Entries.nodup_erase h.keys _,
      h.actions_close hcalls hopen (fun j => ?_) fun j => ?_⟩
    · by_cases hj : j = i
      · subst hj
        refine .settled hcalls (congrArg PendingAction.phase hself)
          (congrArg PendingAction.closed hself) ?_ ?_ ?_
        · exact fun hmem => hqueue (hrest ▸ List.mem_cons_of_mem _ hmem)
        · exact fun hsome => hne (Option.some.inj hsome)
        · exact fun hlog => hstranded ((stranded_uncancelled [.activated next]
            (fun k hk => by cases List.mem_singleton.mp hk)).mp hlog)
      · by_cases hjn : j = next
        · subst hjn
          refine .entered hnextcalls (congrArg PendingAction.phase hfirst)
            ((congrArg PendingAction.closed hfirst).trans hnextopen)
            ((congrArg PendingAction.cancelled hfirst).trans hnextcancelled)
            (fun hmem => Nat.lt_irrefl _ (hahead j hmem)) rfl (List.mem_cons_self ..) ?_
          intro action hmem hentry'
          rcases List.mem_cons.mp hmem with heq | hmem
          · exact heq
          · rcases List.mem_append.mp hmem with hmem | hmem
            · exact absurd hentry' (hforeign j hj action hmem)
            · exact absurd hentry' (hnextlog action hmem)
        · refine (h.stage j).keep ⟨Iff.rfl, hentry j hj hjn, ?_, ?_,
            .activated next :: extra, rfl, fun action hmem => ?_⟩
          · rw [hrest]
            exact ⟨List.mem_cons_of_mem _, fun hmem => (List.mem_cons.mp hmem).resolve_left hjn⟩
          · exact ⟨fun hsome => absurd (Option.some.inj hsome).symm hjn,
              fun hsome => absurd (Option.some.inj (hsome.symm.trans hactive)) hj⟩
          · rcases List.mem_cons.mp hmem with rfl | hmem
            · exact fun hsame => hjn hsame.symm
            · exact hforeign j hj action hmem
    · obtain rfl := Option.some.inj hj
      exact hahead k hk
    · have hlt := (h.order j (hinvoked j ((List.mem_cons.mp hmem).resolve_left nofun))).1
      rw [hrest] at hlt
      refine ⟨fun k hk => hlt k (List.mem_cons_of_mem _ hk), fun k hk => ?_⟩
      obtain rfl := Option.some.inj hk
      exact Nat.le_of_lt (hlt next (List.mem_cons_self ..))
    · by_cases hj : j = i
      · subst hj
        exact (congrArg PendingAction.id hself).trans rfl
      · by_cases hjn : j = next
        · subst hjn
          exact (congrArg PendingAction.id hfirst).trans rfl
        · exact congrArg PendingAction.id (hentry j hj hjn)
    · by_cases hj : j = i
      · subst hj
        have hshut := congrArg PendingAction.closed hself
        exact ⟨fun hfalse => absurd (hshut.symm.trans hfalse) nofun, fun hboth => absurd rfl hboth.1⟩
      · by_cases hjn : j = next
        · subst hjn
          have hsame := congrArg PendingAction.closed hfirst
          exact ⟨fun hfalse => ⟨hj, hsame.symm.trans hfalse⟩, fun hboth => hsame.trans hboth.2⟩
        · have hsame := congrArg PendingAction.closed (hentry j hj hjn)
          exact ⟨fun hfalse => ⟨hj, hsame.symm.trans hfalse⟩, fun hboth => hsame.trans hboth.2⟩

theorem Inv.releaseInvoked (h : Inv s) (hphase : (s.phase i).invoked = true) :
    Inv (s.release i) := by
  obtain ⟨hactive, -, -, -, -, hlog⟩ := (h.stage i).active_of_invoked hphase
  exact h.release hactive hlog [] nofun

theorem closeStream_cases (s : State) (i : Nat) :
    s.closeStream i = s ∨ (s.phase i).invoked = true ∧ s.closeStream i = s.release i := by
  unfold State.closeStream
  cases hphase : s.phase i with
  | streaming kind pull => exact .inr ⟨rfl, rfl⟩
  | ready | running | answered | ended => exact .inl rfl

theorem Inv.closeStream (h : Inv s) : Inv (s.closeStream i) := by
  rcases closeStream_cases s i with heq | ⟨hphase, heq⟩
  · rw [heq]
    exact h
  · rw [heq]
    exact h.releaseInvoked hphase

theorem Inv.respond (h : Inv s) {answer : Answer} (hphase : s.phase i = .answered answer) :
    Inv (s.respond i answer) := by
  have hinvoked : (s.phase i).invoked = true := by rw [hphase]; rfl
  cases answer with
  | threw | plain | unreadable => exact h.releaseInvoked hinvoked
  | native | rpc =>
    unfold State.respond
    simp only
    split
    · exact h.releaseInvoked hinvoked
    · exact h.advance hinvoked rfl

theorem Inv.deliver (h : Inv s) {kind : StreamKind} {result : Read}
    (hphase : s.phase i = .streaming kind (.read result)) : Inv (s.deliver i kind result) := by
  have hinvoked : (s.phase i).invoked = true := by rw [hphase]; rfl
  cases result with
  | chunk | last => exact h.advance hinvoked rfl
  | done | failed => exact h.releaseInvoked hinvoked

/-- A call resumes: it invokes its action, or returns without. Only one that was
    stranded keeps the slot then. -/
theorem Inv.start (h : Inv s) (hphase : s.phase i = .ready true) : Inv (s.start i) := by
  have hresumed : ∀ j, .cancelled j ∉ [Action.resumed i] := fun j hmem => by
    cases List.mem_singleton.mp hmem
  have hforeign : ∀ j, j ≠ i → ∀ action ∈ [Action.resumed i], action.entry ≠ j := by
    intro j hj action hmem
    rw [List.mem_singleton.mp hmem]
    exact fun hij => hj hij.symm
  -- a call that was cancelled returns, whoever has the slot
  have hreturn : (s.entries i).cancelled = true → Stage (({ s with
      log := .resumed i :: s.log } : State).goto i .ended) i →
      Inv (({ s with log := .resumed i :: s.log } : State).goto i .ended) := by
    intro hcancelled hstage
    refine ⟨fun j => ?_, h.sorted, h.idle, h.ahead, fun j hmem => ?_, h.logged, h.keys,
      fun id j => ?_⟩
    · by_cases hj : j = i
      · exact hj ▸ hstage
      · exact (h.stage j).keep ⟨Iff.rfl, entries_goto_ne _ hj _, Iff.rfl, Iff.rfl, [.resumed i], rfl,
          hforeign j hj⟩
    · exact h.order j ((List.mem_cons.mp hmem).resolve_left nofun)
    · by_cases hj : j = i
      · subst hj
        rw [entries_goto_self]
        exact h.actions id j
      · rw [entries_goto_ne _ hj]
        exact h.actions id j
  have hended : (({ s with log := .resumed i :: s.log } : State).goto i .ended).phase i = .ended :=
    congrArg PendingAction.phase (entries_goto_self ..)
  have hclosed : ((({ s with log := .resumed i :: s.log } : State).goto i .ended).entries i).closed =
      (s.entries i).closed := by rw [entries_goto_self]
  have hmark : ((({ s with log := .resumed i :: s.log } : State).goto i .ended).entries i).cancelled =
      (s.entries i).cancelled := by rw [entries_goto_self]
  unfold State.start
  simp only
  cases h.stage i with
  | absent calls phase => rw [phase] at hphase; cases hphase
  | queued calls phase => rw [phase] at hphase; cases hphase
  | running calls phase => rw [hphase] at phase; cases phase
  | settled calls phase => rw [phase] at hphase; cases hphase
  | stranded calls phase closed cancelled queue active uninvoked log =>
    rw [if_pos cancelled]
    refine hreturn cancelled (.stranded calls (.inr hended) (hclosed.trans closed)
      (hmark.trans cancelled) queue active ?_ ((stranded_uncancelled [.resumed i] hresumed).mpr log))
    exact fun hmem => uninvoked ((List.mem_cons.mp hmem).resolve_left nofun)
  | dropped calls phase closed cancelled queue active log unstranded =>
    rw [if_pos cancelled]
    exact hreturn cancelled (.settled calls hended (hclosed.trans closed) queue active
      fun hlog => unstranded ((stranded_uncancelled [.resumed i] hresumed).mp hlog))
  | entered calls phase closed cancelled queue active activated log =>
    have hnot : ¬ Stranded i s.log := by
      intro hlog
      have hmem := mem_of_stranded hlog
      cases log _ hmem rfl
    rw [if_neg (show ¬ (s.entries i).cancelled = true by rw [cancelled]; exact nofun)]
    split
    · have huninvoked : .invoked i ∉ s.log := fun hmem => by cases log _ hmem rfl
      have huncancelled : .cancelled i ∉ s.log := fun hmem => by cases log _ hmem rfl
      refine ⟨fun j => ?_, h.sorted, h.idle, h.ahead, fun j hmem => ?_, ⟨?_, fun j hmem => ?_, h.logged⟩,
        h.keys, fun id j => ?_⟩
      · by_cases hj : j = i
        · subst hj
          refine .running calls ?_ ?_ queue active
            (List.mem_cons_of_mem _ (List.mem_cons_self ..)) fun hlog => hnot ?_
          · show ((State.goto _ j .running).entries j).phase.invoked = true
            rw [entries_goto_self]
            rfl
          · show ((State.goto _ j .running).entries j).closed = false
            rw [entries_goto_self]
            exact closed
          · refine (stranded_uncancelled [.invoked j, .resumed j] fun k hk => ?_).mp hlog
            rcases List.mem_pair.mp hk with hk | hk <;> cases hk
        · refine (h.stage j).keep ⟨Iff.rfl, entries_goto_ne _ hj _, Iff.rfl, Iff.rfl,
            [.invoked i, .resumed i], rfl, fun action hmem => ?_⟩
          rcases List.mem_pair.mp hmem with rfl | rfl
          · exact fun hij => hj hij.symm
          · exact fun hij => hj hij.symm
      · rcases List.mem_cons.mp hmem with heq | hmem
        · cases heq
          exact ⟨h.ahead i active, fun k hk => Nat.le_of_eq (Option.some.inj (active.symm.trans hk))⟩
        · exact h.order j ((List.mem_cons.mp hmem).resolve_left nofun)
      · exact fun hmem => huncancelled ((List.mem_cons.mp hmem).resolve_left nofun)
      · have hold := (List.mem_cons.mp hmem).resolve_left nofun
        have hle := (h.order j hold).2 i active
        have hne : j ≠ i := fun hji => huninvoked (hji ▸ hold)
        omega
      · show (id, j) ∈ s.actions ↔ j < s.calls ∧ ((State.goto _ i .running).entries j).closed = false ∧
          ((State.goto _ i .running).entries j).id = id
        by_cases hj : j = i
        · subst hj
          rw [entries_goto_self]
          exact h.actions id j
        · rw [entries_goto_ne _ hj]
          exact h.actions id j
    · exact h.release active hnot [.resumed i] fun action hmem => List.mem_singleton.mp hmem

/-! ## Section 5: Calls -/

/-- The entry of an accepted call. -/
def State.accept (s : State) (operationId : String) : State :=
  { s with
    calls := s.calls + 1
    entries := Function.update s.entries s.calls ⟨operationId, false, false, .ready false⟩
    actions := Entries.set s.actions operationId s.calls }

theorem execute_cases (s : State) (operationId : String) : s.execute operationId = s ∨
    Entries.get s.actions operationId = none ∧
      ((s.active.isSome = true ∧ s.execute operationId =
          { s.accept operationId with queue := s.queue ++ [s.calls] }) ∨
        (s.active = none ∧ s.execute operationId = (s.accept operationId).activate s.calls)) := by
  unfold State.execute
  split
  · exact .inl rfl
  · split
    · exact .inl rfl
    · next hget =>
      split
      · exact .inl rfl
      · refine .inr ⟨Option.not_isSome_iff_eq_none.mp hget, ?_⟩
        simp only
        split
        · next hactive => exact .inl ⟨hactive, rfl⟩
        · next hactive => exact .inr ⟨Option.not_isSome_iff_eq_none.mp hactive, rfl⟩

theorem accept_activate (s : State) (operationId : String) :
    (s.accept operationId).activate s.calls = { s with
      calls := s.calls + 1
      entries := Function.update s.entries s.calls ⟨operationId, false, false, .ready true⟩
      actions := Entries.set s.actions operationId s.calls
      active := some s.calls
      log := .activated s.calls :: s.log } := by
  simp only [State.activate, State.enter, State.accept, State.phase, State.goto, Function.update_self,
    Function.update_idem]

theorem Inv.unlogged (h : Inv s) {action : Action} (hmem : action ∈ s.log) :
    action.entry < s.calls := by
  by_contra hle
  exact ((h.stage action.entry).not_logged (Nat.not_lt.mp hle)).2.2 action hmem rfl

theorem Inv.actions_accept (h : Inv s) {operationId : String}
    (hget : Entries.get s.actions operationId = none) {phase : Phase} (id : String) (j : Nat) :
    (id, j) ∈ Entries.set s.actions operationId s.calls ↔ j < s.calls + 1 ∧
      (Function.update s.entries s.calls ⟨operationId, false, false, phase⟩ j).closed = false ∧
      (Function.update s.entries s.calls ⟨operationId, false, false, phase⟩ j).id = id := by
  rw [Entries.set_of_get_none hget, List.mem_append, List.mem_singleton, h.actions]
  by_cases hj : j = s.calls
  · subst hj
    rw [Function.update_self]
    constructor
    · rintro (⟨hlt, -⟩ | heq)
      · omega
      · exact ⟨Nat.lt_succ_self _, rfl, (congrArg Prod.fst heq).symm⟩
    · rintro ⟨-, -, rfl⟩
      exact .inr rfl
  · rw [Function.update_of_ne hj]
    constructor
    · rintro (⟨hlt, hrest⟩ | heq)
      · exact ⟨by omega, hrest⟩
      · exact absurd (congrArg Prod.snd heq) hj
    · rintro ⟨hlt, hrest⟩
      exact .inl ⟨by omega, hrest⟩

theorem Inv.execute (h : Inv s) (operationId : String) : Inv (s.execute operationId) := by
  obtain ⟨hqueue, hactive, hlog⟩ := (h.stage s.calls).not_logged (Nat.le_refl _)
  rcases execute_cases s operationId with heq | ⟨hget, ⟨hbusy, heq⟩ | ⟨hfree, heq⟩⟩
  · rw [heq]
    exact h
  · -- the call waits at the end of the queue
    rw [heq]
    have hself : (Function.update s.entries s.calls
        ⟨operationId, false, false, .ready false⟩ s.calls) = ⟨operationId, false, false, .ready false⟩ :=
      Function.update_self ..
    refine ⟨fun j => ?_, ?_, fun hnone => ?_, fun i hi j hj => ?_, fun i hmem => ?_, h.logged,
      Entries.nodup_set h.keys _ _, h.actions_accept hget⟩
    · by_cases hj : j = s.calls
      · subst hj
        exact .queued (Nat.lt_succ_self _) (congrArg PendingAction.phase hself)
          (congrArg PendingAction.closed hself) (congrArg PendingAction.cancelled hself)
          (List.mem_append_right _ (List.mem_singleton.mpr rfl)) hactive hlog
      · refine (h.stage j).keep ⟨?_, Function.update_of_ne hj .., ?_, Iff.rfl, [], rfl, nofun⟩
        · show j < s.calls + 1 ↔ j < s.calls
          omega
        · show j ∈ s.queue ++ [s.calls] ↔ j ∈ s.queue
          rw [List.mem_append, List.mem_singleton]
          exact or_iff_left hj
    · refine List.pairwise_append.mpr ⟨h.sorted, List.pairwise_singleton .., fun j hj k hk => ?_⟩
      rw [List.mem_singleton.mp hk]
      exact ((h.stage j).of_queue hj).1
    · have hnone' : s.active = none := hnone
      rw [hnone'] at hbusy
      cases hbusy
    · rcases List.mem_append.mp hj with hj | hj
      · exact h.ahead i hi j hj
      · rw [List.mem_singleton.mp hj]
        exact ((h.stage i).of_active hi).1
    · obtain ⟨hlt, hle⟩ := h.order i hmem
      refine ⟨fun j hj => ?_, hle⟩
      rcases List.mem_append.mp hj with hj | hj
      · exact hlt j hj
      · rw [List.mem_singleton.mp hj]
        exact h.unlogged hmem
  · -- the slot is free
    rw [heq, accept_activate]
    have hempty := h.idle hfree
    have hself : (Function.update s.entries s.calls
        ⟨operationId, false, false, .ready true⟩ s.calls) = ⟨operationId, false, false, .ready true⟩ :=
      Function.update_self ..
    refine ⟨fun j => ?_, h.sorted, nofun, fun i hi j hj => ?_, fun i hmem => ?_, h.logged,
      Entries.nodup_set h.keys _ _, h.actions_accept hget⟩
    · by_cases hj : j = s.calls
      · subst hj
        refine .entered (Nat.lt_succ_self _) (congrArg PendingAction.phase hself)
          (congrArg PendingAction.closed hself) (congrArg PendingAction.cancelled hself)
          hqueue rfl (List.mem_cons_self ..) fun action hmem hentry => ?_
        rcases List.mem_cons.mp hmem with heq' | hold
        · exact heq'
        · exact absurd hentry (hlog action hold)
      · refine (h.stage j).keep ⟨?_, Function.update_of_ne hj .., Iff.rfl, ?_, [.activated s.calls],
          rfl, fun action hmem => ?_⟩
        · show j < s.calls + 1 ↔ j < s.calls
          omega
        · refine ⟨fun hsome => absurd (Option.some.inj hsome).symm hj, fun hsome => ?_⟩
          rw [hfree] at hsome
          cases hsome
        · rw [List.mem_singleton.mp hmem]
          exact fun hsame => hj hsame.symm
    · have hj' : j ∈ s.queue := hj
      rw [hempty] at hj'
      cases hj'
    · have hlt := h.unlogged ((List.mem_cons.mp hmem).resolve_left nofun)
      refine ⟨fun j hj => ?_, fun j hj => ?_⟩
      · have hj' : j ∈ s.queue := hj
        rw [hempty] at hj'
        cases hj'
      · obtain rfl := Option.some.inj hj
        exact Nat.le_of_lt hlt

/-! ## Section 6: Cancellation -/

theorem Stage.queued_of_open (h : Stage s i) (hopen : (s.entries i).closed = false)
    (hactive : s.active ≠ some i) : i ∈ s.queue := by
  cases h with
  | queued calls phase closed cancelled queue => exact queue
  | absent calls phase closed => rw [closed] at hopen; cases hopen
  | entered calls phase closed cancelled queue active => exact absurd active hactive
  | running calls phase closed queue active => exact absurd active hactive
  | stranded calls phase closed cancelled queue active => exact absurd active hactive
  | dropped calls phase closed => rw [closed] at hopen; cases hopen
  | settled calls phase closed => rw [closed] at hopen; cases hopen

/-- A call that waits leaves the queue, and returns at its next turn. -/
theorem finish_waiting (hopen : (s.entries i).closed = false) (hactive : s.active ≠ some i)
    (hphase : s.phase i = .ready false) :
    ((s.markCancelled i).finish i).enter i = { s with
      entries := Function.update s.entries i
        { s.entries i with cancelled := true, closed := true, phase := .ready true }
      actions := Entries.erase s.actions (s.entries i).id
      queue := s.queue.erase i
      log := .cancelled i :: s.log } := by
  have hphase' : (s.entries i).phase = .ready false := hphase
  have hopen' : ¬ ((s.markCancelled i).entries i).closed = true := by
    show ¬ (Function.update s.entries i { s.entries i with cancelled := true } i).closed = true
    rw [Function.update_self]
    show ¬ (s.entries i).closed = true
    rw [hopen]
    exact nofun
  unfold State.finish
  rw [if_neg hopen']
  simp only [State.markCancelled, State.close, State.enter, State.goto, State.phase, hactive,
    if_false, Function.update_self, Function.update_idem, hphase']

theorem Inv.cancelWaiting (h : Inv s) (hopen : (s.entries i).closed = false)
    (hactive : s.active ≠ some i) : Inv (((s.markCancelled i).finish i).enter i) := by
  have hmem := (h.stage i).queued_of_open hopen hactive
  obtain ⟨hcalls, hphase, -, -, -, hlog⟩ := (h.stage i).of_queue hmem
  rw [finish_waiting hopen hactive hphase]
  have hself : Function.update s.entries i
      { s.entries i with cancelled := true, closed := true, phase := .ready true } i =
        { s.entries i with cancelled := true, closed := true, phase := .ready true } :=
    Function.update_self ..
  have hentry : ∀ j, j ≠ i → Function.update s.entries i
      { s.entries i with cancelled := true, closed := true, phase := .ready true } j = s.entries j :=
    fun j hj => Function.update_of_ne hj ..
  have hnodup : s.queue.Nodup := h.sorted.imp fun hlt => Nat.ne_of_lt hlt
  have hsub : ∀ j, j ∈ s.queue.erase i → j ∈ s.queue := fun j hj => List.mem_of_mem_erase hj
  refine ⟨fun j => ?_, h.sorted.sublist List.erase_sublist, fun hnone => ?_,
    fun k hk j hj => h.ahead k hk j (hsub j hj), fun j hj => ?_, h.logged,
    Entries.nodup_erase h.keys _, h.actions_close hcalls hopen (fun j => ?_) fun j => ?_⟩
  · by_cases hj : j = i
    · subst hj
      refine .dropped hcalls (congrArg PendingAction.phase hself) (congrArg PendingAction.closed hself)
        (congrArg PendingAction.cancelled hself) (fun hq => ?_) hactive (fun action ha hentry' => ?_) ?_
      · exact (hnodup.mem_erase_iff.mp hq).1 rfl
      · rcases List.mem_cons.mp ha with heq | hold
        · exact heq
        · exact absurd hentry' (hlog action hold)
      · rintro (⟨-, hactivated, -⟩ | hstranded)
        · exact hlog _ hactivated rfl
        · exact hlog.not_stranded hstranded
    · refine (h.stage j).keep ⟨Iff.rfl, hentry j hj, ?_, Iff.rfl, [.cancelled i], rfl,
        fun action ha => ?_⟩
      · exact ⟨hsub j, fun hq => hnodup.mem_erase_iff.mpr ⟨hj, hq⟩⟩
      · rw [List.mem_singleton.mp ha]
        exact fun hij => hj hij.symm
  · show s.queue.erase i = []
    rw [h.idle hnone]
    rfl
  · obtain ⟨hlt, hle⟩ := h.order j ((List.mem_cons.mp hj).resolve_left nofun)
    exact ⟨fun k hk => hlt k (hsub k hk), hle⟩
  · by_cases hj : j = i
    · subst hj
      exact (congrArg PendingAction.id hself).trans rfl
    · exact congrArg PendingAction.id (hentry j hj)
  · by_cases hj : j = i
    · subst hj
      have hshut := congrArg PendingAction.closed hself
      exact ⟨fun hfalse => absurd (hshut.symm.trans hfalse) nofun, fun hboth => absurd rfl hboth.1⟩
    · have hsame := congrArg PendingAction.closed (hentry j hj)
      exact ⟨fun hfalse => ⟨hj, hsame.symm.trans hfalse⟩, fun hboth => hsame.trans hboth.2⟩

/-- The call that has the slot is marked. Before it resumed, this strands it. -/
theorem Inv.mark (h : Inv s) (hactive : s.active = some i)
    (huncancelled : (s.entries i).cancelled = false) : Inv (s.markCancelled i) := by
  have hself : (s.markCancelled i).entries i = { s.entries i with cancelled := true } :=
    Function.update_self ..
  have hentry : ∀ j, j ≠ i → (s.markCancelled i).entries j = s.entries j :=
    fun j hj => Function.update_of_ne hj ..
  have hphase : (s.markCancelled i).phase i = s.phase i :=
    (congrArg PendingAction.phase hself).trans rfl
  have hclosed : ((s.markCancelled i).entries i).closed = (s.entries i).closed :=
    (congrArg PendingAction.closed hself).trans rfl
  refine ⟨fun j => ?_, h.sorted, h.idle, h.ahead, fun j hmem => ?_, h.logged, h.keys, fun id j => ?_⟩
  · by_cases hj : j = i
    · subst hj
      cases h.stage j with
      | entered calls phase closed cancelled queue active activated log =>
        have hresumed : .resumed j ∉ s.log := fun hmem => by cases log _ hmem rfl
        refine .stranded calls (.inl ⟨hphase.trans phase, fun hmem => ?_⟩) (hclosed.trans closed)
          (congrArg PendingAction.cancelled hself) queue active (fun hmem => ?_)
          (.inl ⟨rfl, activated, hresumed⟩)
        · exact hresumed ((List.mem_cons.mp hmem).resolve_left nofun)
        · cases log _ ((List.mem_cons.mp hmem).resolve_left nofun) rfl
      | running calls phase closed queue active resumed log =>
        refine .running calls (hphase ▸ phase) (hclosed.trans closed) queue active
          (List.mem_cons_of_mem _ resumed) ?_
        rintro (⟨-, -, hresumed⟩ | hlog)
        · exact hresumed resumed
        · exact log hlog
      | stranded calls phase closed cancelled =>
        rw [huncancelled] at cancelled
        cases cancelled
      | absent calls phase closed queue active => exact absurd hactive active
      | queued calls phase closed cancelled queue active => exact absurd hactive active
      | dropped calls phase closed cancelled queue active => exact absurd hactive active
      | settled calls phase closed queue active => exact absurd hactive active
    · refine (h.stage j).keep ⟨Iff.rfl, hentry j hj, Iff.rfl, Iff.rfl, [.cancelled i], rfl,
        fun action ha => ?_⟩
      rw [List.mem_singleton.mp ha]
      exact fun hij => hj hij.symm
  · exact h.order j ((List.mem_cons.mp hmem).resolve_left nofun)
  · by_cases hj : j = i
    · subst hj
      rw [hself]
      exact h.actions id j
    · rw [hentry j hj]
      exact h.actions id j

theorem Inv.cancel (h : Inv s) (operationId : String) : Inv (s.cancel operationId) := by
  unfold State.cancel
  split
  · exact h
  · next i hget =>
    split
    · exact h
    · next hopen =>
      rw [not_or, Bool.not_eq_true, Bool.not_eq_true] at hopen
      simp only
      split
      · next hactive => exact h.cancelWaiting hopen.1 hactive
      · next hactive => exact (h.mark (not_not.mp hactive) hopen.2).closeStream

theorem Inv.step {s' : State} (h : Inv s) {event : Event} (hs' : step s event = some s') : Inv s' := by
  unfold Sse.step at hs'
  cases event with
  | initializeScope =>
    cases hs'
    refine ⟨fun i => ?_, h.sorted, h.idle, h.ahead, h.order, h.logged, h.keys, h.actions⟩
    exact (h.stage i).keep ⟨Iff.rfl, rfl, Iff.rfl, Iff.rfl, [], rfl, nofun⟩
  | execute operationId =>
    cases hs'
    exact h.execute operationId
  | cancel operationId =>
    cases hs'
    exact h.cancel operationId
  | resume i =>
    simp only at hs'
    split at hs'
    · next hphase => cases hs'; exact h.start hphase
    · next answer hphase => cases hs'; exact h.respond hphase
    · next kind result hphase => cases hs'; exact h.deliver hphase
    · next kind hphase => cases hs'; exact h.releaseInvoked (by rw [hphase]; rfl)
    · cases hs'
  | answer i answer =>
    simp only at hs'
    split at hs'
    · next hphase => cases hs'; exact h.advance (by rw [hphase]; rfl) rfl
    · cases hs'
  | pull i =>
    simp only at hs'
    split at hs'
    · next kind hphase => cases hs'; exact h.advance (by rw [hphase]; rfl) rfl
    · cases hs'
  | read i result =>
    simp only at hs'
    split at hs'
    · next kind hphase =>
      split at hs'
      · cases hs'
      · cases hs'
        exact h.advance (by rw [hphase]; rfl) rfl
    · cases hs'
  | cancelStream i =>
    simp only at hs'
    split at hs'
    · cases hs'
      exact h.closeStream
    · cases hs'

theorem Stage.active_of_stranded (h : Stage s i) (hlog : Stranded i s.log) : s.active = some i := by
  cases h with
  | stranded calls phase closed cancelled queue active => exact active
  | absent calls phase closed queue active log => exact absurd hlog log.not_stranded
  | queued calls phase closed cancelled queue active log => exact absurd hlog log.not_stranded
  | entered calls phase closed cancelled queue active activated log =>
    cases log _ (mem_of_stranded hlog) rfl
  | running calls phase closed queue active resumed log => exact absurd hlog log
  | dropped calls phase closed cancelled queue active log unstranded => exact absurd hlog unstranded
  | settled calls phase closed queue active log => exact absurd hlog log

end steps

/-! ## Section 7: Runs -/

theorem Logged.ordered {later earlier : List Action} {i : Nat}
    (h : Logged (later ++ .invoked i :: earlier)) :
    .cancelled i ∉ earlier ∧ ∀ j, .invoked j ∈ earlier → j < i := by
  induction later with
  | nil => exact ⟨h.1, h.2.1⟩
  | cons action rest ih =>
    cases action with
    | invoked j => exact ih h.2.2
    | activated | resumed | cancelled => exact ih h

theorem Inv.slotKept {s : State} (h : Inv s) : SlotKept s where
  exclusive i j hi hj := by
    have hactive := ((h.stage i).active_of_invoked hi).1
    have hactive' := ((h.stage j).active_of_invoked hj).1
    exact Option.some.inj (hactive.symm.trans hactive')
  ordered later earlier i hlog := by
    have hlogged := h.logged
    rw [hlog] at hlogged
    exact hlogged.ordered.2
  uninvoked later earlier i hlog := by
    have hlogged := h.logged
    rw [hlog] at hlogged
    exact hlogged.ordered.1

/-- With all calls returned and all streams ended, only a stranded call keeps the
    slot. -/
theorem Inv.released_iff {s : State} (h : Inv s) (hquiet : Quiet s) :
    Released s ↔ ∀ i, ¬ Stranded i s.log := by
  constructor
  · rintro ⟨hnone, -⟩ i hlog
    have hactive := (h.stage i).active_of_stranded hlog
    rw [hnone] at hactive
    cases hactive
  · intro hnot
    have hnone : s.active = none := by
      cases hactive : s.active with
      | none => rfl
      | some i =>
        exfalso
        have hended := hquiet i
        cases h.stage i with
        | stranded calls phase closed cancelled queue active uninvoked log => exact hnot i log
        | entered calls phase => rw [phase] at hended; cases hended
        | running calls phase => rw [hended] at phase; cases phase
        | absent calls phase closed queue active => exact active hactive
        | queued calls phase closed cancelled queue active => exact active hactive
        | dropped calls phase closed cancelled queue active => exact active hactive
        | settled calls phase closed queue active => exact active hactive
    have hactions : s.actions = [] := by
      by_contra hne
      obtain ⟨⟨id, i⟩, hmem⟩ := List.exists_mem_of_ne_nil _ hne
      have hopen := ((h.actions id i).mp hmem).2.1
      have hqueue := (h.stage i).queued_of_open hopen (by rw [hnone]; exact nofun)
      rw [h.idle hnone] at hqueue
      cases hqueue
    refine ⟨hnone, h.idle hnone, fun operationId hvalid => ?_⟩
    have hexecute : s.execute operationId = (s.accept operationId).activate s.calls := by
      unfold State.execute
      rw [if_neg (by rw [hvalid]; exact nofun), if_neg (by rw [hactions]; exact nofun),
        if_neg (by rw [hactions]; exact nofun)]
      simp only
      rw [if_neg (by rw [hnone]; exact nofun)]
      rfl
    have hself : Function.update s.entries s.calls
        ⟨operationId, false, false, .ready true⟩ s.calls =
          ⟨operationId, false, false, .ready true⟩ := Function.update_self ..
    rw [hexecute, accept_activate]
    exact ⟨rfl, (congrArg PendingAction.phase hself).trans rfl⟩

/-- In every run at most one action has the slot, actions start in the order of
    their calls and never after their cancellation, and the slot is released
    exactly if no call was cancelled between its activation and its resumption. -/
theorem slot_released_iff (s : State) (hrun : Run step Free .initial s) :
    SlotKept s ∧ (Quiet s → (Released s ↔ ∀ i, ¬ Stranded i s.log)) := by
  have h : Inv s := hrun.invariant Inv.initial fun _ _ _ h _ hs' => h.step hs'
  exact ⟨h.slotKept, h.released_iff⟩

/-- One call streams its response while another is cancelled in the queue. -/
def streamedAndCancelled : List Event :=
  [.initializeScope, .execute "a", .execute "b", .resume 0, .cancel "b", .answer 0 .rpc, .resume 0,
    .resume 1, .pull 0, .read 0 .last, .resume 0, .resume 0]

theorem slot_released_after_stream :
    ∃ s, exec step .initial streamedAndCancelled = some s ∧ SlotKept s ∧
      (Released s ↔ ∀ i, ¬ Stranded i s.log) := by
  have hexec : ∃ s, exec step .initial streamedAndCancelled = some s ∧ Quiet s := by
    refine ⟨_, rfl, fun i => ?_⟩
    match i with
    | 0 => rfl
    | 1 => rfl
    | i + 2 => rfl
  obtain ⟨s, hs, hquiet⟩ := hexec
  have hkept := slot_released_iff s (run_of_exec hs (admits_free _ _))
  exact ⟨s, hs, hkept.1, hkept.2 hquiet⟩

/-- A call is cancelled before it resumes: it returns, and the slot is never free
    again. -/
theorem slot_not_released :
    ∃ s, exec step .initial [.execute "a", .cancel "a", .resume 0] = some s ∧ Quiet s ∧
      s.active = some 0 ∧ ¬ Released s := by
  refine ⟨_, rfl, fun i => ?_, rfl, fun h => ?_⟩
  · match i with
    | 0 => rfl
    | i + 1 => rfl
  · cases h.1

end Cossack.Framework.Sse
