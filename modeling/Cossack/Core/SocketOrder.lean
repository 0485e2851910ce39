import Cossack.Core.SocketCalls
import Mathlib

/-! # What the consumer of a socket call receives

    In every run a call's consumer receives a prefix of the valid yield frames
    that arrived for it, in their order, and after them at most one frame that
    ends the call. -/

namespace Cossack.Core.SocketCalls

open Cossack.Core.RpcStream (RpcStreamFrame validateRpcFrame)
open JsonText

/-! ## Section 1: Ordered deliveries -/

/-- Some first ones of the arrived yields, then at most one terminal frame. -/
def Ordered (arrived : List RpcStreamFrame) (frames : List Frame) : Prop :=
  ∃ yields tail, frames = yields.map Frame.received ++ tail ∧ yields <+: arrived ∧
    (∀ y ∈ yields, y.type = .yield) ∧ (tail = [] ∨ ∃ last : Frame, last.isYield = false ∧ tail = [last])

theorem ordered_nil (arrived : List RpcStreamFrame) : Ordered arrived [] :=
  ⟨[], [], rfl, List.nil_prefix, by simp, .inl rfl⟩

theorem Ordered.mono {arrived more : List RpcStreamFrame} {frames : List Frame}
    (h : Ordered arrived frames) : Ordered (arrived ++ more) frames := by
  obtain ⟨yields, tail, hframes, hyields, hall, htail⟩ := h
  exact ⟨yields, tail, hframes, hyields.trans (List.prefix_append _ _), hall, htail⟩

/-- What was delivered first is ordered as well. -/
theorem Ordered.left {arrived : List RpcStreamFrame} {a b : List Frame}
    (h : Ordered arrived (a ++ b)) : Ordered arrived a := by
  obtain ⟨yields, tail, hframes, hyields, hall, htail⟩ := h
  rcases List.append_eq_append_iff.mp hframes with ⟨m, hm, -⟩ | ⟨m, rfl, hm⟩
  · -- the cut lies among the yields
    obtain ⟨first, second, rfl, rfl, -⟩ := List.map_eq_append_iff.mp hm
    refine ⟨first, [], (List.append_nil _).symm, (List.prefix_append _ _).trans hyields, ?_, .inl rfl⟩
    intro y hy
    exact hall y (List.mem_append_left _ hy)
  · refine ⟨yields, m, rfl, hyields, hall, ?_⟩
    rcases htail with rfl | ⟨last, hlast, rfl⟩
    · exact .inl (List.append_eq_nil_iff.mp hm.symm).1
    · rcases List.append_eq_singleton_iff.mp hm.symm with ⟨rfl, -⟩ | ⟨rfl, -⟩
      · exact .inl rfl
      · exact .inr ⟨last, hlast, rfl⟩

/-- Without a terminal frame in it, a terminal frame may follow. -/
theorem Ordered.snoc {arrived : List RpcStreamFrame} {frames : List Frame} {last : Frame}
    (h : Ordered arrived frames) (hopen : ∀ f ∈ frames, f.isYield = true)
    (hlast : last.isYield = false) : Ordered arrived (frames ++ [last]) := by
  obtain ⟨yields, tail, rfl, hyields, hall, htail⟩ := h
  rcases htail with rfl | ⟨t, ht, rfl⟩
  · exact ⟨yields, [last], by rw [List.append_nil], hyields, hall, .inr ⟨last, hlast, rfl⟩⟩
  · have : t.isYield = true := hopen t (by simp)
    rw [ht] at this
    cases this

theorem ordered_map {arrived : List RpcStreamFrame} (h : ∀ y ∈ arrived, y.type = .yield) :
    Ordered arrived (arrived.map Frame.received) :=
  ⟨arrived, [], (List.append_nil _).symm, List.prefix_rfl, h, .inl rfl⟩

/-! ## Section 2: The invariant of a call -/

/-- The consumer received a frame that ends the call, or has ended itself. -/
def Call.Over (c : Call) : Prop :=
  c.generator = .finished ∨ ∃ frame, c.generator = .received frame ∧ frame.isYield = false

/-- Everything the consumer received or may still receive. -/
def Call.stream (c : Call) : List Frame := c.delivered ++ c.queue.frames.map Prod.fst

structure SocketFrameQueue.Bounded (q : SocketFrameQueue) : Prop where
  counter : q.bytes = ((q.frames.map Prod.snd).sum : Nat)
  count : q.frames.length ≤ maxFrames
  size : q.bytes ≤ maxBytes

structure Call.Good (c : Call) (routed : Prop) : Prop where
  bounded : c.queue.Bounded
  waiting : c.generator = .waiting → c.queue.resolvers = 1 ∧ c.queue.frames = [] ∧ c.queue.failed = false
  busy : c.generator ≠ .waiting → c.queue.resolvers = 0
  yields : ∀ y ∈ c.arrived, y.type = .yield
  ordered : Ordered c.arrived c.delivered
  /-- While the call goes on, only yields were delivered. -/
  opened : ¬ c.Over → ∀ f ∈ c.delivered, f.isYield = true
  coming : ¬ c.Over → Ordered c.arrived c.stream
  /-- A failure waits in the queue until it is received. -/
  held : c.queue.failed = true → ¬ c.Over →
    ∃ last : Frame, last.isYield = false ∧ c.queue.frames = [(last, 0)]
  /-- Nothing that arrived is lost before the queue fails. -/
  complete : routed → c.queue.failed = false → ¬ c.Over → c.stream = c.arrived.map Frame.received

theorem good_new : Call.new.Good True where
  bounded := ⟨rfl, by decide, by decide⟩
  waiting := nofun
  busy _ := rfl
  yields := nofun
  ordered := ordered_nil _
  opened _ := nofun
  coming _ := ordered_nil _
  held := nofun
  complete _ _ _ := rfl

theorem Call.Good.unrouted {c : Call} {routed : Prop} (h : c.Good routed) : c.Good False :=
  { h with complete := nofun }

/-- The consumer has stopped: only the bounds of the queue matter. -/
theorem Call.Good.finish {c : Call} {routed : Prop} (h : c.Good routed)
    (hidle : c.generator ≠ .waiting) : Call.Good { c with generator := .finished } routed where
  bounded := h.bounded
  waiting := nofun
  busy _ := h.busy hidle
  yields := h.yields
  ordered := h.ordered
  opened hover := absurd (.inl rfl) hover
  coming hover := absurd (.inl rfl) hover
  held _ hover := absurd (.inl rfl) hover
  complete _ _ hover := absurd (.inl rfl) hover

/-! ## Section 3: A local failure -/

theorem bounded_failed (frame : Frame) : SocketFrameQueue.Bounded ⟨[(frame, 0)], 0, true, 0⟩ :=
  ⟨rfl, by simp [maxFrames], by show (0 : Int) ≤ maxBytes; decide⟩

/-- A queue fails once: it then holds the failure alone, and a pull that waited
    has it. -/
theorem Call.Good.fail_cases {c : Call} {routed : Prop} (h : c.Good routed) (frame : Frame) :
    (c.queue.failed = true ∧ c.fail frame = c) ∨
    (c.queue.failed = false ∧ c.generator = .waiting ∧
      c.fail frame = { c with queue := ⟨[(frame, 0)], 0, true, 0⟩, generator := .received frame,
                              delivered := c.delivered ++ [frame] }) ∨
    (c.queue.failed = false ∧ c.generator ≠ .waiting ∧
      c.fail frame = { c with queue := ⟨[(frame, 0)], 0, true, 0⟩ }) := by
  cases hfailed : c.queue.failed with
  | true => exact .inl ⟨rfl, by simp [Call.fail, SocketFrameQueue.fail, Call.settle, hfailed]⟩
  | false =>
    by_cases hwait : c.generator = .waiting
    · refine .inr (.inl ⟨rfl, hwait, ?_⟩)
      simp [Call.fail, SocketFrameQueue.fail, Call.settle, Call.answer, hfailed, hwait, (h.waiting hwait).1]
    · refine .inr (.inr ⟨rfl, hwait, ?_⟩)
      simp [Call.fail, SocketFrameQueue.fail, Call.settle, hfailed, h.busy hwait]

theorem Call.Good.fail {c : Call} {routed : Prop} (h : c.Good routed) {frame : Frame}
    (hframe : frame.isYield = false) : (c.fail frame).Good routed := by
  obtain ⟨-, heq⟩ | ⟨-, hwait, heq⟩ | ⟨-, hbusy, heq⟩ := h.fail_cases frame
  · rw [heq]
    exact h
  · have hlive : ¬ c.Over := by simp [Call.Over, hwait]
    rw [heq]
    exact {
      bounded := bounded_failed frame
      waiting := nofun
      busy := fun _ => rfl
      yields := h.yields
      ordered := h.ordered.snoc (h.opened hlive) hframe
      opened := fun hover => absurd (.inr ⟨frame, rfl, hframe⟩) hover
      coming := fun hover => absurd (.inr ⟨frame, rfl, hframe⟩) hover
      held := fun _ hover => absurd (.inr ⟨frame, rfl, hframe⟩) hover
      complete := nofun }
  · rw [heq]
    exact {
      bounded := bounded_failed frame
      waiting := fun hwait => absurd hwait hbusy
      busy := fun _ => rfl
      yields := h.yields
      ordered := h.ordered
      opened := h.opened
      coming := fun hover => h.ordered.snoc (h.opened hover) hframe
      held := fun _ _ => ⟨frame, hframe, rfl⟩
      complete := nofun }

/-! ## Section 4: A frame from the wire -/

/-- A frame is ignored, answers the waiting pull, overflows the queue or joins it. -/
theorem Call.Good.push_cases {c : Call} {routed : Prop} (h : c.Good routed) (frame : RpcStreamFrame)
    (bytes : Nat) :
    (c.queue.failed = true ∧ c.push frame bytes = c) ∨
    (c.generator = .waiting ∧
      c.push frame bytes = { c with queue := { c.queue with resolvers := 0 },
                                    generator := .received (.received frame),
                                    delivered := c.delivered ++ [.received frame] }) ∨
    (c.queue.failed = false ∧ c.generator ≠ .waiting ∧
      c.push frame bytes = c.fail (bufferExceeded frame.requestId)) ∨
    (c.queue.failed = false ∧ c.generator ≠ .waiting ∧ c.queue.frames.length < maxFrames ∧
      c.queue.bytes + bytes ≤ maxBytes ∧
      c.push frame bytes = { c with queue := { c.queue with
        frames := c.queue.frames ++ [(.received frame, bytes)], bytes := c.queue.bytes + bytes } }) := by
  cases hfailed : c.queue.failed with
  | true => exact .inl ⟨rfl, by simp [Call.push, SocketFrameQueue.push, Call.settle, hfailed]⟩
  | false =>
    by_cases hwait : c.generator = .waiting
    · refine .inr (.inl ⟨hwait, ?_⟩)
      simp [Call.push, SocketFrameQueue.push, Call.settle, Call.answer, hfailed, hwait, (h.waiting hwait).1]
    · by_cases hfull : maxFrames ≤ c.queue.frames.length ∨ maxBytes < c.queue.bytes + bytes
      · refine .inr (.inr (.inl ⟨rfl, hwait, ?_⟩))
        simp only [Call.push, SocketFrameQueue.push, Call.fail, hfailed, h.busy hwait, if_pos hfull]
        rfl
      · refine .inr (.inr (.inr ⟨rfl, hwait, by omega, by omega, ?_⟩))
        simp only [Call.push, SocketFrameQueue.push, hfailed, h.busy hwait, if_neg hfull]
        rfl

theorem SocketFrameQueue.Bounded.push {q : SocketFrameQueue} (h : q.Bounded) {frame : Frame} {bytes : Nat}
    (hroom : q.frames.length < maxFrames) (hsize : q.bytes + bytes ≤ maxBytes) :
    SocketFrameQueue.Bounded { q with frames := q.frames ++ [(frame, bytes)], bytes := q.bytes + bytes } where
  counter := by
    have := h.counter
    simp only [List.map_append, List.sum_append, List.map_cons, List.map_nil, List.sum_cons, List.sum_nil]
    omega
  count := by
    rw [List.length_append]
    exact hroom
  size := hsize

/-- The frame may come next in a call that goes on and has not failed. -/
def Call.Admits (c : Call) (frame : RpcStreamFrame) : Prop :=
  c.queue.failed = false → ¬ c.Over → Ordered c.arrived (c.stream ++ [.received frame])

theorem Call.Good.push {c : Call} (h : c.Good False) {frame : RpcStreamFrame} (bytes : Nat)
    (hnext : c.Admits frame) : (c.push frame bytes).Good False := by
  obtain ⟨-, heq⟩ | ⟨hwait, heq⟩ | ⟨-, -, heq⟩ | ⟨hfailed, hbusy, hroom, hsize, heq⟩ := h.push_cases frame bytes
  · rw [heq]
    exact h
  · have hlive : ¬ c.Over := by simp [Call.Over, hwait]
    obtain ⟨-, hempty, hfailed⟩ := h.waiting hwait
    have hordered : Ordered c.arrived (c.delivered ++ [.received frame]) := by
      have := hnext hfailed hlive
      rwa [Call.stream, hempty, List.map_nil, List.append_nil] at this
    rw [heq]
    refine {
      bounded := ⟨h.bounded.counter, h.bounded.count, h.bounded.size⟩
      waiting := nofun
      busy := fun _ => rfl
      yields := h.yields
      ordered := hordered
      opened := ?_
      coming := ?_
      held := fun hq => absurd (hq.symm.trans hfailed) nofun
      complete := nofun }
    · intro hover f hf
      rcases List.mem_append.mp hf with hf | hf
      · exact h.opened hlive f hf
      · -- a terminal frame would have ended the call
        cases hyield : f.isYield with
        | true => rfl
        | false => exact absurd (.inr ⟨f, by rw [List.mem_singleton.mp hf], hyield⟩) hover
    · intro _
      show Ordered c.arrived (c.delivered ++ [.received frame] ++ c.queue.frames.map Prod.fst)
      rw [hempty, List.map_nil, List.append_nil]
      exact hordered
  · rw [heq]
    exact h.fail rfl
  · rw [heq]
    exact {
      bounded := h.bounded.push hroom hsize
      waiting := fun hwait => absurd hwait hbusy
      busy := h.busy
      yields := h.yields
      ordered := h.ordered
      opened := h.opened
      coming := fun hover => by
        have := hnext hfailed hover
        rwa [Call.stream, List.append_assoc, ← List.map_singleton (f := Prod.fst) (a := (Frame.received frame, bytes)), ← List.map_append] at this
      held := fun hq => absurd (hq.symm.trans hfailed) nofun
      complete := nofun }

/-- A call that goes on and has not failed after the frame holds it at the end. -/
theorem Call.Good.push_stream {c : Call} {routed : Prop} (h : c.Good routed) {frame : RpcStreamFrame}
    {bytes : Nat} (hfailed : (c.push frame bytes).queue.failed = false)
    (hlive : ¬ (c.push frame bytes).Over) :
    c.queue.failed = false ∧ ¬ c.Over ∧ (c.push frame bytes).stream = c.stream ++ [.received frame] := by
  obtain ⟨hq, heq⟩ | ⟨hwait, heq⟩ | ⟨hq, hbusy, heq⟩ | ⟨hq, -, -, -, heq⟩ := h.push_cases frame bytes
  · rw [heq, hq] at hfailed
    cases hfailed
  · obtain ⟨-, hempty, hq⟩ := h.waiting hwait
    refine ⟨hq, by simp [Call.Over, hwait], ?_⟩
    simp [heq, Call.stream, hempty]
  · -- an overflow fails the queue
    rw [heq] at hfailed
    obtain ⟨hf, -⟩ | ⟨-, -, hf⟩ | ⟨-, -, hf⟩ := h.fail_cases (bufferExceeded frame.requestId)
    · rw [hq] at hf
      cases hf
    · rw [hf] at hfailed
      cases hfailed
    · rw [hf] at hfailed
      cases hfailed
  · refine ⟨hq, ?_, ?_⟩
    · rw [heq] at hlive
      exact hlive
    · simp [heq, Call.stream]

theorem Call.Good.note {c : Call} {routed : Prop} (h : c.Good routed) {frame : RpcStreamFrame}
    (hframe : frame.type = .yield) : (c.note frame).Good False where
  bounded := h.bounded
  waiting := h.waiting
  busy := h.busy
  yields y hy := by
    rcases List.mem_append.mp hy with hy | hy
    · exact h.yields y hy
    · rwa [List.mem_singleton.mp hy]
  ordered := h.ordered.mono
  opened := h.opened
  coming hover := (h.coming hover).mono
  held := h.held
  complete := nofun

theorem Call.note_stream (c : Call) (frame : RpcStreamFrame) : (c.note frame).stream = c.stream := rfl

@[simp] theorem Call.answer_arrived (c : Call) (frame : Frame) : (c.answer frame).arrived = c.arrived := by
  unfold Call.answer
  split <;> rfl

theorem Call.settle_arrived (c : Call) (result : SocketFrameQueue × List Frame) :
    (c.settle result).arrived = c.arrived := by
  obtain ⟨queue, frames⟩ := result
  have hfold (c : Call) : (frames.foldl Call.answer c).arrived = c.arrived := by
    induction frames generalizing c with
    | nil => rfl
    | cons frame rest ih => rw [List.foldl_cons, ih, Call.answer_arrived]
  exact hfold _

@[simp] theorem Call.push_arrived (c : Call) (frame : RpcStreamFrame) (bytes : Nat) :
    (c.push frame bytes).arrived = c.arrived :=
  c.settle_arrived _

/-- A yield that arrives for a pending call. -/
theorem Call.Good.push_yield {c : Call} (h : c.Good True) {frame : RpcStreamFrame}
    (hframe : frame.type = .yield) (bytes : Nat) : ((c.note frame).push frame bytes).Good True := by
  have hstream (hfailed : c.queue.failed = false) (hover : ¬ c.Over) :
      (c.note frame).stream ++ [.received frame] = (c.note frame).arrived.map Frame.received := by
    rw [Call.note_stream, h.complete trivial hfailed hover, Call.note, List.map_append, List.map_singleton]
  have hgood := h.note hframe
  have hnext : (c.note frame).Admits frame := by
    intro hfailed hover
    rw [hstream hfailed hover]
    exact ordered_map hgood.yields
  refine { hgood.push bytes hnext with complete := ?_ }
  intro _ hfailed hover
  obtain ⟨hq, hlive, heq⟩ := hgood.push_stream hfailed hover
  rw [heq, hstream hq hlive, Call.push_arrived]

/-- A `done` or an `error` that arrives for a pending call. -/
theorem Call.Good.push_last {c : Call} (h : c.Good True) {frame : RpcStreamFrame}
    (hframe : frame.type ≠ .yield) (bytes : Nat) : (c.push frame bytes).Good False := by
  refine h.unrouted.push bytes ?_
  intro hfailed hover
  have hstream := h.complete trivial hfailed hover
  refine (h.coming hover).snoc ?_ ?_
  · intro f hf
    rw [hstream] at hf
    obtain ⟨y, hy, rfl⟩ := List.mem_map.mp hf
    simp [Frame.isYield, h.yields y hy]
  · simpa [Frame.isYield] using hframe

/-! ## Section 5: The consumer -/

theorem SocketFrameQueue.Bounded.pop {q : SocketFrameQueue} (h : q.Bounded) {queued : Frame × Nat}
    {rest : List (Frame × Nat)} (hframes : q.frames = queued :: rest) :
    SocketFrameQueue.Bounded { q with frames := rest, bytes := q.bytes - queued.2 } := by
  obtain ⟨hcounter, hcount, hsize⟩ := h
  rw [hframes] at hcounter hcount
  simp only [List.map_cons, List.sum_cons, List.length_cons] at hcounter hcount
  refine ⟨?_, ?_, ?_⟩ <;> dsimp only <;> omega

/-- The generator asks for the next frame only where it is not waiting for one. -/
theorem Call.Good.pull {c : Call} {routed : Prop} (h : c.Good routed)
    (hstart : c.generator = .created ∨ c.generator = .suspended) : c.pull.Good routed := by
  have hlive : ¬ c.Over := by rcases hstart with h | h <;> simp [Call.Over, h]
  have hidle : c.generator ≠ .waiting := by rcases hstart with h | h <;> simp [h]
  cases hframes : c.queue.frames with
  | nil =>
    have heq : c.pull = { c with queue := { c.queue with resolvers := c.queue.resolvers + 1 },
                                 generator := .waiting } := by
      simp [Call.pull, SocketFrameQueue.next, hframes]
    have hfailed : c.queue.failed = false := by
      cases hq : c.queue.failed with
      | false => rfl
      | true =>
        obtain ⟨last, -, hlast⟩ := h.held hq hlive
        rw [hframes] at hlast
        cases hlast
    rw [heq]
    exact {
      bounded := ⟨h.bounded.counter, h.bounded.count, h.bounded.size⟩
      waiting := fun _ => ⟨by simp only [h.busy hidle], hframes, hfailed⟩
      busy := fun hwait => absurd rfl hwait
      yields := h.yields
      ordered := h.ordered
      opened := fun _ => h.opened hlive
      coming := fun _ => h.coming hlive
      held := fun hq => absurd (hq.symm.trans hfailed) nofun
      complete := fun hrouted hq _ => h.complete hrouted hq hlive }
  | cons queued rest =>
    have heq : c.pull = { c with
        queue := { c.queue with frames := rest, bytes := c.queue.bytes - queued.2 },
        generator := .received queued.1, delivered := c.delivered ++ [queued.1] } := by
      simp [Call.pull, SocketFrameQueue.next, hframes]
    have hstream : c.stream = c.delivered ++ [queued.1] ++ rest.map Prod.fst := by
      rw [Call.stream, hframes, List.map_cons, List.append_assoc, List.singleton_append]
    have hcoming := h.coming hlive
    rw [hstream] at hcoming
    rw [heq]
    refine {
      bounded := h.bounded.pop hframes
      waiting := nofun
      busy := fun _ => h.busy hidle
      yields := h.yields
      ordered := hcoming.left
      opened := ?_
      coming := fun _ => hcoming
      held := ?_
      complete := fun hrouted hq _ => hstream.symm.trans (h.complete hrouted hq hlive) }
    · intro hover f hf
      rcases List.mem_append.mp hf with hf | hf
      · exact h.opened hlive f hf
      · cases hyield : f.isYield with
        | true => rfl
        | false => exact absurd (.inr ⟨f, by rw [List.mem_singleton.mp hf], hyield⟩) hover
    · -- the failure was all the queue held
      intro hq hover
      obtain ⟨last, hlast, heq⟩ := h.held hq hlive
      rw [hframes] at heq
      obtain ⟨rfl, -⟩ := List.cons.inj heq
      exact absurd (.inr ⟨last, rfl, hlast⟩) hover

theorem Call.Good.suspend {c : Call} {routed : Prop} (h : c.Good routed) {frame : Frame}
    (hreceived : c.generator = .received frame) (hframe : frame.isYield = true) :
    Call.Good { c with generator := .suspended } routed := by
  have hlive : ¬ c.Over := by simp [Call.Over, hreceived, hframe]
  exact {
    bounded := h.bounded
    waiting := nofun
    busy := fun _ => h.busy (by simp [hreceived])
    yields := h.yields
    ordered := h.ordered
    opened := fun _ => h.opened hlive
    coming := fun _ => h.coming hlive
    held := fun hq _ => h.held hq hlive
    complete := fun hrouted hq _ => h.complete hrouted hq hlive }

/-! ## Section 6: All the calls of a socket -/

def Socket.Good (s : Socket) : Prop :=
  ∀ requestId c, s.calls requestId = some c → c.Good (requestId ∈ s.pending)

/-- Nothing a call received is taken back. -/
def Socket.Extends (s t : Socket) : Prop :=
  ∀ requestId c, s.calls requestId = some c →
    ∃ c', t.calls requestId = some c' ∧ c.delivered <+: c'.delivered

theorem Socket.Extends.refl (s : Socket) : s.Extends s :=
  fun _ c hc => ⟨c, hc, List.prefix_rfl⟩

theorem Socket.Extends.trans {s t u : Socket} (h : s.Extends t) (h' : t.Extends u) : s.Extends u := by
  intro requestId c hc
  obtain ⟨c', hc', hprefix⟩ := h requestId c hc
  obtain ⟨c'', hc'', hprefix'⟩ := h' requestId c' hc'
  exact ⟨c'', hc'', hprefix.trans hprefix'⟩

/-- One call changes, and with it at most its own place among the pending ones. -/
theorem Socket.Good.change {s t : Socket} (h : s.Good) {requestId : RequestId} {f : Call → Call}
    (hcalls : t.calls = Function.update s.calls requestId ((s.calls requestId).map f))
    (hothers : ∀ other, other ≠ requestId → (other ∈ t.pending ↔ other ∈ s.pending))
    (hf : ∀ c, s.calls requestId = some c → c.Good (requestId ∈ s.pending) →
      (f c).Good (requestId ∈ t.pending)) : t.Good := by
  intro other c hc
  rw [hcalls] at hc
  by_cases heq : other = requestId
  · subst heq
    rw [Function.update_self] at hc
    obtain ⟨c', hc', rfl⟩ := Option.map_eq_some_iff.mp hc
    exact hf c' hc' (h _ _ hc')
  · rw [Function.update_of_ne heq] at hc
    rw [hothers other heq]
    exact h _ _ hc

theorem Socket.extends_modify (s : Socket) (requestId : RequestId) {f : Call → Call}
    (hf : ∀ c, c.delivered <+: (f c).delivered) : s.Extends (s.modify requestId f) := by
  intro other c hc
  by_cases heq : other = requestId
  · subst heq
    exact ⟨f c, by simp [Socket.modify, hc], hf c⟩
  · exact ⟨c, by simp [Socket.modify, heq, hc], List.prefix_rfl⟩

theorem Socket.Good.modify {s : Socket} (h : s.Good) {requestId : RequestId} {f : Call → Call}
    (hf : ∀ c, s.calls requestId = some c → c.Good (requestId ∈ s.pending) →
      (f c).Good (requestId ∈ s.pending)) : (s.modify requestId f).Good :=
  h.change rfl (fun _ _ => Iff.rfl) hf

theorem Socket.Good.modify_delete {s : Socket} (h : s.Good) {requestId : RequestId} {f : Call → Call}
    (hf : ∀ c, s.calls requestId = some c → c.Good (requestId ∈ s.pending) → (f c).Good False) :
    ((s.modify requestId f).delete requestId).Good := by
  refine h.change rfl ?_ ?_
  · intro other hother
    simp [Socket.delete, Socket.modify, hother]
  · intro c hc hgood
    have hgone : (requestId ∈ ((s.modify requestId f).delete requestId).pending) = False := by
      simp [Socket.delete]
    rw [hgone]
    exact hf c hc hgood

theorem Socket.modify_modify (s : Socket) (requestId : RequestId) (f g : Call → Call) :
    (s.modify requestId f).modify requestId g = s.modify requestId (g ∘ f) := by
  simp [Socket.modify, Option.map_map]

/-! ## Section 7: What was delivered stays delivered -/

theorem Call.answer_delivered (c : Call) (frame : Frame) :
    c.delivered <+: (c.answer frame).delivered := by
  unfold Call.answer
  split
  · exact List.prefix_append _ _
  · exact List.prefix_rfl

theorem Call.settle_delivered (c : Call) (result : SocketFrameQueue × List Frame) :
    c.delivered <+: (c.settle result).delivered := by
  obtain ⟨queue, frames⟩ := result
  have hfold (c : Call) : c.delivered <+: (frames.foldl Call.answer c).delivered := by
    induction frames generalizing c with
    | nil => exact List.prefix_rfl
    | cons frame rest ih => exact (c.answer_delivered frame).trans (ih _)
  exact hfold { c with queue := queue }

theorem Call.pull_delivered (c : Call) : c.delivered <+: c.pull.delivered := by
  unfold Call.pull
  split
  · exact List.prefix_append _ _
  · exact List.prefix_rfl

/-! ## Section 8: Steps -/

theorem requestIdOf_checkFrame {data : JsonText.Json} {raw : Option (List Char)} {frame : RpcStreamFrame}
    (h : checkFrame data raw = .ok frame) : requestIdOf data = some frame.requestId := by
  cases hvalid : validateRpcFrame data with
  | error error => simp [checkFrame, hvalid, bind, Except.bind] at h
  | ok valid =>
    have : valid = frame := by
      simp only [checkFrame, hvalid, bind, Except.bind] at h
      split at h
      · cases h
      · exact Except.ok.inj h
    subst this
    unfold validateRpcFrame at hvalid
    split at hvalid
    · split at hvalid
      · rename_i fields v requestId type hv hid htype
        split at hvalid
        · obtain rfl := Except.ok.inj hvalid
          simp only [requestIdOf, hid]
        · cases hvalid
      · cases hvalid
    · cases hvalid

theorem Socket.Good.route {s : Socket} (h : s.Good) (data : JsonText.Json) (raw : Option (List Char)) :
    (routeSocketFrame (s.note data raw) data raw).Good := by
  cases hcheck : checkFrame data raw with
  | error error =>
    have hnote : s.note data raw = s := by simp only [Socket.note, validYield, hcheck]
    rw [hnote, routeSocketFrame]
    cases requestIdOf data with
    | none => exact h
    | some requestId =>
      simp only [hcheck]
      split
      · exact h.modify_delete fun c _ hgood => (hgood.fail rfl).unrouted
      · exact h
  | ok frame =>
    simp only [routeSocketFrame, requestIdOf_checkFrame hcheck, hcheck]
    by_cases hyield : frame.type = .yield
    · have hnote : s.note data raw = s.modify frame.requestId (Call.note · frame) := by
        simp only [Socket.note, validYield, hcheck, if_pos hyield]
      rw [hnote, if_pos hyield, Socket.modify_modify]
      split
      · rename_i hpending
        have hpending : (frame.requestId ∈ s.pending) = True := eq_true hpending
        refine h.modify ?_
        intro c _ hgood
        rw [hpending] at hgood ⊢
        exact hgood.push_yield hyield _
      · rename_i hpending
        have hpending : (frame.requestId ∈ s.pending) = False := eq_false hpending
        refine h.modify ?_
        intro c _ hgood
        rw [hpending]
        exact hgood.note hyield
    · have hnote : s.note data raw = s := by
        simp only [Socket.note, validYield, hcheck, if_neg hyield]
      rw [hnote, if_neg hyield]
      split
      · rename_i hpending
        have hpending : (frame.requestId ∈ s.pending) = True := eq_true hpending
        refine h.modify_delete ?_
        intro c _ hgood
        rw [hpending] at hgood
        exact hgood.push_last hyield _
      · exact h

/-- Closing fails the pending calls one after another. -/
theorem Socket.Good.failPending {s : Socket} (h : s.Good) : (failPendingSocketCalls s).Good := by
  have hfold (ids : List RequestId) (s : Socket) (h : s.Good) :
      (ids.foldl (fun s requestId => s.modify requestId (Call.fail · (transportClosed requestId))) s).Good := by
    induction ids generalizing s with
    | nil => exact h
    | cons requestId rest ih => exact ih _ (h.modify fun c _ hgood => hgood.fail rfl)
  intro requestId c hc
  have hgone : (requestId ∈ (failPendingSocketCalls s).pending) = False := by
    simp [failPendingSocketCalls]
  rw [hgone]
  exact (hfold s.pending s h requestId c hc).unrouted

theorem Socket.Good.step {s t : Socket} {e : Event} (h : s.Good) (hstep : s.step e = some t) : t.Good := by
  cases e with
  | dispatch requestId sent =>
    simp only [Socket.step] at hstep
    split at hstep
    · cases hstep
    · split at hstep
      · obtain rfl := Option.some.inj hstep
        intro other c hc
        by_cases heq : other = requestId
        · subst heq
          obtain rfl : Call.new = c := by simpa using hc
          have : (other ∈ s.pending ++ [other]) = True := by simp
          dsimp only
          rw [this]
          exact good_new
        · have hother : (other ∈ s.pending ++ [requestId]) = (other ∈ s.pending) := by simp [heq]
          dsimp only
          rw [hother]
          exact h _ _ (by simpa [heq] using hc)
      · obtain rfl := Option.some.inj hstep
        exact h
  | message data raw =>
    obtain rfl := Option.some.inj hstep
    exact h.route data raw
  | close =>
    obtain rfl := Option.some.inj hstep
    exact h.failPending
  | pull requestId =>
    simp only [Socket.step] at hstep
    split at hstep
    · rename_i hgenerator
      obtain rfl := Option.some.inj hstep
      exact h.modify fun c hc hgood => hgood.pull (.inl (by simpa [hc] using hgenerator))
    · rename_i hgenerator
      obtain rfl := Option.some.inj hstep
      exact h.modify fun c hc hgood => hgood.pull (.inr (by simpa [hc] using hgenerator))
    · cases hstep
  | resume requestId applied =>
    simp only [Socket.step] at hstep
    split at hstep
    · rename_i frame hgenerator
      have hreceived {c : Call} (hc : s.calls requestId = some c) : c.generator = .received frame := by
        simpa [hc] using hgenerator
      split at hstep
      · rename_i happlied
        obtain rfl := Option.some.inj hstep
        refine h.modify ?_
        intro c hc hgood
        exact hgood.suspend (hreceived hc) (Bool.and_eq_true_iff.mp happlied).2
      · obtain rfl := Option.some.inj hstep
        refine h.modify_delete ?_
        intro c hc hgood
        exact (hgood.finish (by simp [hreceived hc])).unrouted
    · cases hstep
  | finish requestId =>
    simp only [Socket.step] at hstep
    split at hstep
    · rename_i hgenerator
      obtain rfl := Option.some.inj hstep
      refine h.modify ?_
      intro c hc hgood
      have hcreated : c.generator = .created := by simpa [hc] using hgenerator
      exact hgood.finish (by simp [hcreated])
    · rename_i hgenerator
      obtain rfl := Option.some.inj hstep
      refine h.modify_delete ?_
      intro c hc hgood
      have hsuspended : c.generator = .suspended := by simpa [hc] using hgenerator
      exact (hgood.finish (by simp [hsuspended])).unrouted
    · cases hstep
  | cancel requestId code message =>
    obtain rfl := Option.some.inj hstep
    exact h.modify_delete fun c _ hgood => (hgood.fail rfl).unrouted

theorem Socket.extends_route (s : Socket) (data : JsonText.Json) (raw : Option (List Char)) :
    s.Extends (routeSocketFrame (s.note data raw) data raw) := by
  have hnote : s.Extends (s.note data raw) := by
    unfold Socket.note
    split
    · exact s.extends_modify _ fun c => List.prefix_rfl
    · exact .refl s
  refine hnote.trans ?_
  generalize s.note data raw = s
  unfold routeSocketFrame
  split
  · exact .refl s
  · rename_i requestId _
    split
    · split
      · dsimp only
        split
        · exact s.extends_modify requestId fun c => c.settle_delivered _
        · exact s.extends_modify requestId fun c => c.settle_delivered _
      · exact s.extends_modify requestId fun c => c.settle_delivered _
    · exact .refl s

theorem Socket.extends_failPending (s : Socket) : s.Extends (failPendingSocketCalls s) := by
  have hfold (ids : List RequestId) (s : Socket) : s.Extends
      (ids.foldl (fun s requestId => s.modify requestId (Call.fail · (transportClosed requestId))) s) := by
    induction ids generalizing s with
    | nil => exact .refl s
    | cons requestId rest ih =>
      exact (s.extends_modify requestId fun c => c.settle_delivered _).trans (ih _)
  exact hfold s.pending s

theorem Socket.extends_step {s t : Socket} {e : Event} (hstep : s.step e = some t) : s.Extends t := by
  cases e with
  | dispatch requestId sent =>
    simp only [Socket.step] at hstep
    split at hstep
    · cases hstep
    · rename_i hnone
      split at hstep
      · obtain rfl := Option.some.inj hstep
        intro other c hc
        have hother : other ≠ requestId := by
          rintro rfl
          rw [hnone] at hc
          cases hc
        exact ⟨c, by simpa [hother] using hc, List.prefix_rfl⟩
      · obtain rfl := Option.some.inj hstep
        exact .refl s
  | message data raw =>
    obtain rfl := Option.some.inj hstep
    exact s.extends_route data raw
  | close =>
    obtain rfl := Option.some.inj hstep
    exact s.extends_failPending
  | pull requestId =>
    simp only [Socket.step] at hstep
    split at hstep
    · obtain rfl := Option.some.inj hstep
      exact s.extends_modify requestId Call.pull_delivered
    · obtain rfl := Option.some.inj hstep
      exact s.extends_modify requestId Call.pull_delivered
    · cases hstep
  | resume requestId applied =>
    simp only [Socket.step] at hstep
    split at hstep
    · split at hstep
      · obtain rfl := Option.some.inj hstep
        exact s.extends_modify requestId fun c => List.prefix_rfl
      · obtain rfl := Option.some.inj hstep
        exact s.extends_modify requestId fun c => List.prefix_rfl
    · cases hstep
  | finish requestId =>
    simp only [Socket.step] at hstep
    split at hstep
    · obtain rfl := Option.some.inj hstep
      exact s.extends_modify requestId fun c => List.prefix_rfl
    · obtain rfl := Option.some.inj hstep
      exact s.extends_modify requestId fun c => List.prefix_rfl
    · cases hstep
  | cancel requestId code message =>
    obtain rfl := Option.some.inj hstep
    exact s.extends_modify requestId fun c => c.settle_delivered _

/-! ## Section 9: Runs -/

theorem Reachable.good {s : Socket} (h : Reachable s) : s.Good := by
  refine Runs.Run.invariant h ?_ ?_
  · intro requestId c hc
    cases hc
  · intro s t e hgood _ hstep
    exact hgood.step hstep

theorem extends_run {s t : Socket} (h : Runs.Run Socket.step Runs.Free s t) : s.Extends t := by
  induction h with
  | refl => exact .refl s
  | tail _ _ hnext ih => exact ih.trans (Socket.extends_step hnext)

theorem Reachable.run {s t : Socket} (h : Reachable s) (hrun : Runs.Run Socket.step Runs.Free s t) :
    Reachable t := by
  induction hrun with
  | refl => exact h
  | tail _ _ hnext ih => exact ih.tail trivial hnext

/-- Nothing comes after a frame that ends the call. -/
theorem Ordered.closed {arrived : List RpcStreamFrame} {a b : List Frame} {last : Frame}
    (h : Ordered arrived (a ++ b)) (hmem : last ∈ a) (hlast : last.isYield = false) : b = [] := by
  obtain ⟨yields, tail, hframes, -, hall, htail⟩ := h
  obtain ⟨first, second, rfl⟩ := List.append_of_mem hmem
  rcases htail with rfl | ⟨t, ht, rfl⟩
  · have : last ∈ yields.map Frame.received := by
      rw [List.append_nil] at hframes
      simp [← hframes]
    obtain ⟨y, hy, rfl⟩ := List.mem_map.mp this
    simp [Frame.isYield, hall y hy] at hlast
  · rcases List.eq_nil_or_concat b with rfl | ⟨front, back, rfl⟩
    · rfl
    · -- the last delivered frame is another one, so this one is a yield
      have hfront : first ++ last :: second ++ front = yields.map Frame.received := by
        rw [List.concat_eq_append, ← List.append_assoc] at hframes
        exact (List.append_inj' hframes rfl).1
      have : last ∈ yields.map Frame.received := by simp [← hfront]
      obtain ⟨y, hy, rfl⟩ := List.mem_map.mp this
      simp [Frame.isYield, hall y hy] at hlast

/-- In every run, each call's consumer receives some first ones of the valid
    yields that arrived for it, in order, then at most one frame that ends the
    call; after that frame nothing more in any continuation.  The queue stays
    within its bounds and counts its bytes. -/
theorem calls_receive_in_order {s : Socket} (h : Reachable s) {requestId : RequestId} {c : Call}
    (hcall : s.calls requestId = some c) :
    (∃ yields tail, c.delivered = yields.map Frame.received ++ tail ∧ yields <+: c.arrived ∧
      (tail = [] ∨ ∃ last : Frame, last.isYield = false ∧ tail = [last])) ∧
    (∀ t, Runs.Run Socket.step Runs.Free s t → ∃ c', t.calls requestId = some c' ∧
      c.delivered <+: c'.delivered ∧
      ((∃ last ∈ c.delivered, last.isYield = false) → c'.delivered = c.delivered)) ∧
    c.queue.frames.length ≤ 256 ∧ (c.queue.frames.map Prod.snd).sum ≤ 4 * 1024 * 1024 ∧
    c.queue.bytes = ((c.queue.frames.map Prod.snd).sum : Nat) := by
  have hgood := h.good requestId c hcall
  obtain ⟨yields, tail, hdelivered, hyields, -, htail⟩ := hgood.ordered
  refine ⟨⟨yields, tail, hdelivered, hyields, htail⟩, ?_, hgood.bounded.count, ?_, hgood.bounded.counter⟩
  · intro t hrun
    obtain ⟨c', hc', more, hmore⟩ := extends_run hrun requestId c hcall
    refine ⟨c', hc', ⟨more, hmore⟩, ?_⟩
    rintro ⟨last, hmem, hlast⟩
    have hordered := ((h.run hrun).good requestId c' hc').ordered
    rw [← hmore] at hordered ⊢
    rw [hordered.closed hmem hlast, List.append_nil]
  · have hcounter := hgood.bounded.counter
    have hsize : c.queue.bytes ≤ 4 * 1024 * 1024 := hgood.bounded.size
    omega

/-- Two yields and the closing of the socket; the second pull comes last. -/
def closedRun : List Event :=
  let frame : JsonText.Json := .obj [
    (JsString.utf16 "v", .num ⟨false, 1, 0⟩), (JsString.utf16 "type", .str (JsString.utf16 "yield")),
    (JsString.utf16 "requestId", .str [49]), (JsString.utf16 "state", .obj [])]
  [.dispatch [49] true, .message frame (some ['1']), .pull [49], .resume [49] true,
    .message frame (some ['2']), .close, .pull [49]]

theorem calls_receive_in_order_closed : ∃ s c,
    Runs.exec Socket.step Socket.new closedRun = some s ∧ s.calls [49] = some c ∧
    c.arrived.length = 2 ∧ c.delivered.length = 2 ∧
    ∃ yields tail, c.delivered = yields.map Frame.received ++ tail ∧ yields <+: c.arrived ∧
      (tail = [] ∨ ∃ last : Frame, last.isYield = false ∧ tail = [last]) := by
  have hordered (s : Socket) (c : Call) (hrun : Runs.exec Socket.step Socket.new closedRun = some s)
      (hcall : s.calls [49] = some c) :=
    (calls_receive_in_order (Runs.run_of_exec hrun (Runs.admits_free _ _)) hcall).1
  exact ⟨_, _, rfl, rfl, rfl, rfl, hordered _ _ rfl rfl⟩

end Cossack.Core.SocketCalls
