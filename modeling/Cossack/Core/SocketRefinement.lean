import Cossack.Core.SocketDelivery

/-! # Delivery to a socket, compared with unmerged delivery

    A client that reads the frames that were written sees, at each frame that is
    no update of the state, what it would have seen had every frame been written. -/

namespace Cossack.Core.SocketDelivery

open Coalescing Runs

variable {V J : Type} (json : V → Option J) (maxPending : Nat)

/-! ## Section 1: What a client makes of a frame -/

/-- The public state of a client, by key. -/
abbrev ClientState (J : Type) := String → Option J

/-- A state update writes the keys it has. -/
def update (frame : SocketFrame J) : Option (ClientState J → ClientState J) :=
  if frameKind frame = .state then
    (stateRecord frame).map fun state s key => (state.get key).or (s key)
  else none

@[simp] theorem typeOf_encode (message : SocketFrame V) :
    typeOf (encode json message) = typeOf message := by
  cases message with
  | encoded text => rfl
  | message fields =>
    simp only [encode, typeOf, Record.get_mapSome]
    rcases fields.get "type" with _ | (type | r | v)
    · rfl
    · rfl
    · rfl
    · cases hv : json v <;> simp [Field.encode, hv]

@[simp] theorem stateRecord_encode (message : SocketFrame V) :
    stateRecord (encode json message) = (stateRecord message).map (Record.mapSome json) := by
  cases message with
  | encoded text => rfl
  | message fields =>
    simp only [encode, stateRecord, Record.get_mapSome]
    rcases fields.get "state" with _ | (type | r | v)
    · rfl
    · rfl
    · rfl
    · cases hv : json v <;> simp [Field.encode, hv]

@[simp] theorem frameKind_encode (message : SocketFrame V) :
    frameKind (encode json message) = frameKind message := by
  simp [frameKind]

theorem frameKind_state {message : SocketFrame V} (h : frameKind message = .state) :
    ∃ fields state, message = .message fields ∧ fields.get "type" = some (.text "state-update") ∧
      fields.get "state" = some (.record state) := by
  unfold frameKind at h
  split at h
  · cases h
  · split at h
    · rename_i hupdate
      cases message with
      | encoded text => cases hupdate.1
      | message fields =>
        simp only [typeOf, stateRecord] at hupdate
        obtain ⟨htype, hstate⟩ := hupdate
        rcases ht : fields.get "type" with _ | (type | r | v)
        all_goals rw [ht] at htype
        · cases htype
        · rcases hs : fields.get "state" with _ | (type' | r | v)
          all_goals rw [hs] at hstate
          · cases hstate
          · cases hstate
          · have heq : type = "state-update" := by simpa using htype
            exact ⟨fields, r, rfl, heq ▸ ht, hs⟩
          · cases hstate
        · cases htype
        · cases htype
    · cases h

/-- An update that is merged into another gives no value that has no text to a
    key for which the other has a value with one. -/
def Keeps (previous next : Record V) : Prop :=
  ∀ key v w, previous.get key = some v → next.get key = some w →
    (json v).isSome = true → (json w).isSome = true

theorem frameKind_of {fields : Record (Field V)} {state : Record V}
    (htype : fields.get "type" = some (.text "state-update"))
    (hstate : fields.get "state" = some (.record state)) :
    frameKind (.message fields) = .state := by
  simp [frameKind, typeOf, stateRecord, htype, hstate]

theorem mergeFields_type (previous next : Record (Field V)) (ps ns : Record V)
    (h : next.get "type" = some (.text "state-update")) :
    (mergeFields previous next ps ns).get "type" = some (.text "state-update") := by
  rw [mergeFields, Record.get_set_of_ne _ _ (by decide), Record.get_spread, h]
  rfl

theorem mergeFields_state (previous next : Record (Field V)) (ps ns : Record V) :
    (mergeFields previous next ps ns).get "state" = some (.record (ps.spread ns)) :=
  Record.get_set_self _ _ _

theorem update_encode {fields : Record (Field V)} {state : Record V}
    (htype : fields.get "type" = some (.text "state-update"))
    (hstate : fields.get "state" = some (.record state)) :
    update (encode json (.message fields)) =
      some fun s key => ((state.get key).bind json).or (s key) := by
  have hkind := frameKind_of htype hstate
  have hrecord : stateRecord (.message fields) = some state := by simp [stateRecord, hstate]
  simp [update, hkind, hrecord]

theorem alike_merge {last message : SocketFrame V} (hlast : frameKind last = .state)
    (hmessage : frameKind message = .state)
    (hkeeps : ∀ ps ns, stateRecord last = some ps → stateRecord message = some ns →
      Keeps json ps ns) :
    Alike update [encode json last, encode json message] [encode json (merge last message)] := by
  obtain ⟨previous, ps, rfl, hptype, hpstate⟩ := frameKind_state hlast
  obtain ⟨next, ns, rfl, hntype, hnstate⟩ := frameKind_state hmessage
  have hprecord : stateRecord (.message previous) = some ps := by simp [stateRecord, hpstate]
  have hnrecord : stateRecord (.message next) = some ns := by simp [stateRecord, hnstate]
  have hk := hkeeps ps ns hprecord hnrecord
  simp only [merge, hprecord, hnrecord, Option.getD_some]
  refine Coalescing.alike_merge (update_encode json hptype hpstate)
    (update_encode json hntype hnstate)
    (update_encode json (mergeFields_type previous next ps ns hntype)
      (mergeFields_state previous next ps ns)) ?_
  intro s
  funext key
  rw [Record.get_spread]
  rcases hn : ns.get key with _ | w
  · simp
  · rcases hp : ps.get key with _ | v
    · cases hw : json w <;> simp [hp, hw]
    · -- a value without a text would take the other's place and then be left out
      rcases hv : json v with _ | j
      · cases hw : json w <;> simp [hp, hv, hw]
      · have hw := hk key v w hp hn (by simp [hv])
        obtain ⟨j', hj'⟩ := Option.isSome_iff_exists.mp hw
        simp [hj']

/-! ## Section 2: What a step keeps -/

namespace Drain

/-- The frames that have left the queue and were not written yet. -/
def inHand : Drain V → List (SocketFrame V)
  | .authorizing batch => batch
  | .writing rest => rest
  | _ => []

/-- Those of them whose batch is authorized. -/
def cleared : Drain V → List (SocketFrame V)
  | .writing rest => rest
  | _ => []

end Drain

/-- The steps after which the socket has what it should have: frames are sent
    with an authorizer, a merge leaves no value out, and a failure that loses
    frames is dealt with. -/
def Faithful (p : Peer V J) : Event V → Prop
  | .send message authorize =>
      authorize = true ∧ ∀ last ps ns, Peer.pendingUpdate p.frames message = some last →
        stateRecord last = some ps → stateRecord message = some ns → Keeps json ps ns
  | .fail handled => handled = true ∨ p.drain.inHand = []
  | _ => True

structure Inv (p : Peer V J) : Prop where
  bound : p.frames.length ≤ maxPending
  authorized : p.written <+: p.authorized.flatten.map (encode json)
  cleared : p.live = true →
    p.written ++ p.drain.cleared.map (encode json) = p.authorized.flatten.map (encode json)
  alike : p.live = true → Alike update (p.sent.map (encode json))
    (p.written ++ (p.drain.inHand ++ p.frames).map (encode json))

/-- Two peers between whose sockets no frame was written. -/
structure Unwritten (p q : Peer V J) : Prop where
  written : q.written = p.written
  authorized : p.authorized <+: q.authorized

variable {json maxPending} {p q : Peer V J}

theorem Inv.of_dead (h : Inv json maxPending p) (hq : Unwritten p q) (hdead : q.live = false)
    (hbound : q.frames.length ≤ maxPending) : Inv json maxPending q := by
  refine ⟨hbound, ?_, ?_, ?_⟩
  · rw [hq.written]
    obtain ⟨more, hmore⟩ := hq.authorized
    refine h.authorized.trans ?_
    rw [← hmore, List.flatten_append, List.map_append]
    exact List.prefix_append _ _
  · intro hlive
    rw [hdead] at hlive
    cases hlive
  · intro hlive
    rw [hdead] at hlive
    cases hlive

theorem inv_initial : Inv json maxPending (Peer.initial : Peer V J) :=
  ⟨Nat.zero_le _, List.nil_prefix, fun _ => rfl, fun _ => Alike.refl _⟩

namespace Peer

theorem retire_written (p : Peer V J) (code : Nat) (reason : String) (changed : Bool) :
    (p.retire code reason changed).written = p.written := by
  unfold Peer.retire
  split
  · rfl
  · cases changed <;> cases hopen : p.isOpen <;> simp [written]

theorem retire_retired (p : Peer V J) (code : Nat) (reason : String) (changed : Bool) :
    (p.retire code reason changed).retired = true := by
  unfold Peer.retire
  split
  · assumption
  · rfl

theorem retire_length (p : Peer V J) (code : Nat) (reason : String) (changed : Bool) :
    (p.retire code reason changed).frames.length ≤ p.frames.length := by
  unfold Peer.retire
  split
  · exact Nat.le_refl _
  · exact Nat.zero_le _

theorem retire_authorized (p : Peer V J) (code : Nat) (reason : String) (changed : Bool) :
    (p.retire code reason changed).authorized = p.authorized := by
  unfold Peer.retire
  split <;> rfl

theorem dead_of_retired (h : p.retired = true) : p.live = false := by simp [live, h]

theorem finish_length (p : Peer V J) : p.finish.frames.length ≤ p.frames.length := by
  simp only [finish]
  split
  · exact Nat.zero_le _
  · exact Nat.le_refl _

theorem wake_drain (p : Peer V J) :
    p.wake.drain.inHand = p.drain.inHand ∧ p.wake.drain.cleared = p.drain.cleared := by
  unfold wake
  cases hdrain : p.drain <;> simp [Drain.inHand, Drain.cleared, hdrain]

@[simp] theorem wake_rest (p : Peer V J) :
    p.wake.frames = p.frames ∧ p.wake.live = p.live ∧ p.wake.written = p.written ∧
      p.wake.authorized = p.authorized ∧ p.wake.sent = p.sent := by
  unfold wake
  cases p.drain <;> exact ⟨rfl, rfl, rfl, rfl, rfl⟩

end Peer

theorem Inv.retire (h : Inv json maxPending p) (code : Nat) (reason : String) (changed : Bool) :
    Inv json maxPending (p.retire code reason changed) := by
  refine h.of_dead ⟨p.retire_written .., ?_⟩ (Peer.dead_of_retired (p.retire_retired ..)) ?_
  · have hauthorized := p.retire_authorized code reason changed
    exact hauthorized.symm ▸ List.prefix_refl _
  · exact Nat.le_trans (p.retire_length ..) h.bound

/-- The loop ends with nothing in hand, or on a peer that gets nothing any more. -/
theorem Inv.finish (h : Inv json maxPending p) (hhand : p.live = true → p.drain.inHand = []) :
    Inv json maxPending p.finish := by
  have hbound := Nat.le_trans p.finish_length h.bound
  cases hlive : p.live with
  | false => exact h.of_dead ⟨rfl, List.prefix_refl _⟩ hlive hbound
  | true =>
    have hnil := hhand hlive
    have hcleared : p.drain.cleared = [] := by
      cases hd : p.drain <;> simp_all [Drain.cleared, Drain.inHand]
    have hretired : p.retired = false := by simpa [Peer.live] using (Bool.and_eq_true_iff.mp hlive).1
    refine ⟨hbound, h.authorized, ?_, ?_⟩
    · intro _
      have hbefore := h.cleared hlive
      rw [hcleared] at hbefore
      exact hbefore
    · intro _
      have hbefore := h.alike hlive
      rw [hnil] at hbefore
      show Alike update _ (p.written ++ ([] ++ if p.retired then [] else p.frames).map (encode json))
      rwa [hretired]

/-- A frame that is queued, by itself or within another. -/
theorem Inv.queued (h : Inv json maxPending p) (frames : List (SocketFrame V))
    {message : SocketFrame V} (hbound : frames.length ≤ maxPending)
    (halike : Alike update ((p.frames ++ [message]).map (encode json)) (frames.map (encode json))) :
    Inv json maxPending ({ p with sent := p.sent ++ [message], frames := frames } : Peer V J).wake := by
  obtain ⟨hframes, hlive, hwritten, hauthorized, hsent⟩ :=
    ({ p with sent := p.sent ++ [message], frames := frames } : Peer V J).wake_rest
  obtain ⟨hhand, hcleared⟩ :=
    ({ p with sent := p.sent ++ [message], frames := frames } : Peer V J).wake_drain
  refine ⟨?_, ?_, ?_, ?_⟩
  · rw [hframes]
    exact hbound
  · rw [hwritten, hauthorized]
    exact h.authorized
  · rw [hlive, hwritten, hauthorized, hcleared]
    exact h.cleared
  · rw [hlive, hwritten, hsent, hframes, hhand]
    intro hl
    have hbefore := (h.alike hl).append (Alike.refl [encode json message])
    have hafter := (Alike.refl (p.written ++ p.drain.inHand.map (encode json))).append halike
    have heq : p.written ++ (p.drain.inHand ++ p.frames).map (encode json) ++ [encode json message] =
        p.written ++ p.drain.inHand.map (encode json) ++ (p.frames ++ [message]).map (encode json) := by
      simp
    rw [heq] at hbefore
    have hboth := hbefore.trans hafter
    show Alike update ((p.sent ++ [message]).map (encode json))
      (p.written ++ (p.drain.inHand ++ frames).map (encode json))
    simpa using hboth

theorem Inv.enqueue (h : Inv json maxPending p) (hretired : p.retired = false)
    {message : SocketFrame V}
    (hkeeps : ∀ last ps ns, Peer.pendingUpdate p.frames message = some last →
      stateRecord last = some ps → stateRecord message = some ns → Keeps json ps ns) :
    Inv json maxPending
      (({ p with sent := p.sent ++ [message] } : Peer V J).enqueue maxPending message) := by
  have hsent : Inv json maxPending p → (q : Peer V J) → q.live = false → Unwritten p q →
      q.frames.length ≤ p.frames.length → Inv json maxPending q :=
    fun h q hdead hq hlength => h.of_dead hq hdead (Nat.le_trans hlength h.bound)
  unfold Peer.enqueue
  simp only
  split
  · rename_i last hpending
    have hlast := hkeeps last
    unfold Peer.pendingUpdate at hpending
    split at hpending
    · rename_i hkind
      obtain ⟨hget, hlastKind⟩ := Option.filter_eq_some_iff.mp hpending
      obtain ⟨front, hfront⟩ := List.getLast?_eq_some_iff.mp hget
      have hbound := h.bound
      rw [hfront] at hbound
      refine h.queued (p.frames.dropLast ++ [merge last message]) ?_ ?_
      · rw [hfront]
        simpa using hbound
      · have hmerge := alike_merge json (by simpa using hlastKind) hkind fun ps ns =>
          hlast ps ns (by simp [Peer.pendingUpdate, hkind, hget, hlastKind])
        have happend := (Alike.refl (front.map (encode json))).append hmerge
        rw [hfront]
        simpa using happend
    · cases hpending
  · split
    · refine hsent h _ (Peer.dead_of_retired (Peer.retire_retired ..)) ?_ (Peer.retire_length ..)
      refine ⟨Peer.retire_written .., ?_⟩
      have hauthorized := Peer.retire_authorized { p with sent := p.sent ++ [message] }
        1013 "Realtime delivery queue is full" false
      exact hauthorized.symm ▸ List.prefix_refl _
    · refine h.queued _ ?_ (Alike.refl _)
      simp only [List.length_append, List.length_singleton]
      omega

/-- The loop takes a batch, or ends. -/
theorem Inv.next (h : Inv json maxPending p) (hdrain : p.drain = .looping) :
    Inv json maxPending p.next := by
  unfold Peer.next
  split
  · refine h.finish ?_
    intro _
    simp [hdrain, Drain.inHand]
  · have hlength : (p.frames.drop (Peer.batchSize p.frames)).length ≤ maxPending := by
      have hbound := h.bound
      rw [List.length_drop]
      omega
    simp only
    split
    · refine ⟨hlength, h.authorized, ?_, ?_⟩
      · intro hlive
        have hbefore := h.cleared hlive
        rw [hdrain] at hbefore
        exact hbefore
      · intro hlive
        have hbefore := h.alike hlive
        rw [hdrain] at hbefore
        show Alike update _ (p.written ++
          (p.frames.take (Peer.batchSize p.frames) ++ p.frames.drop (Peer.batchSize p.frames)).map
            (encode json))
        rwa [List.take_append_drop]
    · rename_i hopen
      refine h.of_dead ⟨rfl, List.prefix_refl _⟩ ?_ hlength
      simp [Peer.live, hopen]

/-- A frame of an authorized batch is written. -/
theorem Inv.write (h : Inv json maxPending p) {frame : SocketFrame V} {rest : List (SocketFrame V)}
    (hdrain : p.drain = .writing (frame :: rest)) (hlive : p.live = true) :
    Inv json maxPending
      { p with drain := .writing rest, output := p.output ++ [.frame (encode json frame)] } := by
  have hwritten : Peer.written { p with output := p.output ++ [.frame (encode json frame)] } =
      p.written ++ [encode json frame] := by
    simp [Peer.written]
  have hcleared := h.cleared hlive
  have halike := h.alike hlive
  rw [hdrain] at hcleared halike
  refine ⟨h.bound, ?_, ?_, ?_⟩
  · refine ⟨rest.map (encode json), ?_⟩
    show Peer.written { p with output := p.output ++ [.frame (encode json frame)] } ++ _ = _
    rw [hwritten]
    simpa [Drain.cleared] using hcleared
  · intro _
    show Peer.written { p with output := p.output ++ [.frame (encode json frame)] } ++ _ = _
    rw [hwritten]
    simpa [Drain.cleared] using hcleared
  · intro _
    show Alike update _ (Peer.written { p with output := p.output ++ [.frame (encode json frame)] } ++ _)
    rw [hwritten]
    simpa [Drain.inHand] using halike

theorem Inv.step (h : Inv json maxPending p) {e : Event V} (he : Faithful json p e)
    (hstep : step json maxPending p e = some q) : Inv json maxPending q := by
  cases e with
  | send message authorize =>
    obtain ⟨rfl, hkeeps⟩ := he
    simp only [SocketDelivery.step] at hstep
    split at hstep
    · cases hstep
    · cases hstep
      split
      · rename_i hretired
        exact h.of_dead ⟨rfl, List.prefix_refl _⟩ (Peer.dead_of_retired hretired) h.bound
      · rename_i hretired
        exact h.enqueue (by simpa using hretired) hkeeps
  | drain =>
    simp only [SocketDelivery.step] at hstep
    split at hstep
    · cases hstep
    · cases hstep
    · rename_i hdrain
      cases hstep
      exact h.next hdrain
    · rename_i hdrain
      cases hstep
      obtain ⟨hbound, hauthorized, hcleared, halike⟩ := h
      rw [hdrain] at hcleared halike
      exact ⟨hbound, hauthorized, hcleared, halike⟩
    · rename_i frame rest hdrain
      split at hstep
      · rename_i hdead
        cases hstep
        refine h.of_dead ⟨rfl, List.prefix_refl _⟩ ?_ h.bound
        revert hdead
        simp only [Peer.live]
        cases p.retired <;> cases p.isOpen <;> simp
      · rename_i hlive
        cases hstep
        refine h.write hdrain ?_
        revert hlive
        simp only [Peer.live]
        cases p.retired <;> cases p.isOpen <;> simp
  | settled allowed operationRan =>
    simp only [SocketDelivery.step] at hstep
    split at hstep
    · rename_i batch hdrain
      split at hstep
      · cases hstep
        refine ⟨h.bound, ?_, ?_, ?_⟩
        · refine h.authorized.trans ?_
          rw [List.flatten_append, List.map_append]
          exact List.prefix_append _ _
        · intro hlive
          have hcleared := h.cleared hlive
          rw [hdrain] at hcleared
          show p.written ++ batch.map (encode json) = _
          rw [List.flatten_append, List.map_append, ← hcleared]
          simp [Drain.cleared]
        · intro hlive
          have halike := h.alike hlive
          rw [hdrain] at halike
          exact halike
      · cases hstep
        refine (h.retire 1008 _ true).finish ?_
        intro hlive
        rw [Peer.dead_of_retired (p.retire_retired ..)] at hlive
        cases hlive
    · cases hstep
  | fail handled =>
    simp only [SocketDelivery.step] at hstep
    split at hstep
    · cases hstep
    · cases hstep
      cases handled with
      | true =>
        refine (h.retire 1011 _ false).finish ?_
        intro hlive
        rw [Peer.dead_of_retired (p.retire_retired ..)] at hlive
        cases hlive
      | false =>
        refine h.finish ?_
        intro _
        rcases he with hhandled | hhand
        · cases hhandled
        · exact hhand
  | retire code reason changed =>
    cases hstep
    exact h.retire code reason changed
  | remove =>
    cases hstep
    exact h.of_dead ⟨rfl, List.prefix_refl _⟩ rfl (Nat.zero_le _)
  | closed =>
    cases hstep
    refine h.of_dead ⟨rfl, List.prefix_refl _⟩ ?_ h.bound
    simp [Peer.live]

/-! ## Section 3: Runs -/

theorem Inv.run (h : Run (SocketDelivery.step json maxPending) (Faithful json) p q) (hp : Inv json maxPending p) :
    Inv json maxPending q :=
  h.invariant hp fun _ _ _ hinv he hstep => hinv.step he hstep

/-- A step on a retired peer does nothing to its socket. -/
theorem step_retired (hp : p.retired = true) {e : Event V} (he : Faithful json p e)
    (hstep : step json maxPending p e = some q) : q.retired = true ∧ q.output = p.output := by
  have hretire : ∀ code reason changed, p.retire code reason changed = p := by
    intro code reason changed
    simp [Peer.retire, hp]
  cases e with
  | send message authorize =>
    obtain ⟨rfl, -⟩ := he
    simp only [step, hp, if_true] at hstep
    split at hstep
    · cases hstep
    · cases hstep
      exact ⟨rfl, rfl⟩
  | drain =>
    simp only [step, hp, Bool.true_or, if_true] at hstep
    split at hstep
    · cases hstep
    · cases hstep
    · cases hstep
      simp [Peer.next, hp, Peer.finish]
    · cases hstep
      exact ⟨rfl, rfl⟩
    · cases hstep
      exact ⟨rfl, rfl⟩
  | settled allowed operationRan =>
    simp only [step, hretire] at hstep
    split at hstep
    · split at hstep
      · cases hstep
        exact ⟨hp, rfl⟩
      · cases hstep
        exact ⟨hp, rfl⟩
    · cases hstep
  | fail handled =>
    simp only [step, hretire] at hstep
    split at hstep
    · cases hstep
    · cases hstep
      cases handled <;> exact ⟨hp, rfl⟩
  | retire code reason changed =>
    simp only [step, hretire] at hstep
    cases hstep
    exact ⟨hp, rfl⟩
  | remove =>
    cases hstep
    exact ⟨rfl, rfl⟩
  | closed =>
    cases hstep
    exact ⟨hp, rfl⟩

theorem output_retired (h : Run (step json maxPending) (Faithful json) p q)
    (hp : p.retired = true) : q.output = p.output := by
  have hboth : q.retired = true ∧ q.output = p.output := by
    apply h.invariant (And.intro hp rfl : p.retired = true ∧ p.output = p.output)
    intro s t e hs he hstep
    obtain ⟨hretired, houtput⟩ := step_retired hs.1 he hstep
    exact ⟨hretired, houtput.trans hs.2⟩
  exact hboth.2

/-- An update of one key.  `none` is `undefined`, which has no text. -/
def updateOf (v : Option Nat) : SocketFrame (Option Nat) :=
  .message ⟨[("type", .text "state-update"), ("state", .record ⟨[("count", v)], by simp⟩)], by simp⟩

/-- Two updates that become one, its batch, and the end of the loop. -/
def twoUpdates (first second : Option Nat) : List (Event (Option Nat)) :=
  [.send (updateOf first) true, .send (updateOf second) true, .drain, .settled true true,
    .drain, .drain, .drain]

theorem faithful_updateOf (n : Nat) (p : Peer (Option Nat) Nat) :
    Faithful id p (.send (updateOf (some n)) true) := by
  refine ⟨rfl, ?_⟩
  intro last ps ns _ _ hns key v w _ hw _
  cases hns
  change Entries.get [("count", some n)] key = some w at hw
  rw [Entries.get_cons] at hw
  split at hw
  · cases hw
    rfl
  · cases hw

end Cossack.Core.SocketDelivery
