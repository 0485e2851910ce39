import Cossack.Core.DurableObject
import Mathlib

/-! # One component, its setup and its sockets

    Whatever the order of joins, state requests, messages and closes, and
    wherever a setup fails: the object has one component that is not disposed, a
    failed component serves nobody, and a peer is accepted exactly when its
    upgrade is answered with 101.

    The initialization is a lock (`Turns`): while an operation is under way no
    `join` goes on after its own.  So what an operation found when it ended still
    holds when its `join` returns. -/

namespace Cossack.Core.DurableObject

open Turns

variable {Path : Type}

/-! ## Section 1: The life of a component -/

/-- The component of a setup under way. -/
def Body.component : Body Path → Option (Component Path)
  | .bootstrapping c => some c
  | .initializing c => some c
  | .storing c => some c
  | _ => none

/-- An operation that has replaced, or is about to replace, the component. -/
def Body.Working : Body Path → Prop
  | .idle => False
  | .ended _ => False
  | _ => True

def Hosting.Holds (h : Hosting Path) (c : Component Path) : Prop :=
  h.componentInstance = some c ∨ h.body.component = some c

/-- The component was published, and what it did then. -/
def Hosting.Shown (h : Hosting Path) (c : Component Path) : Prop :=
  h.componentInstance = some c ∨ (∃ socket, (socket, some c) ∈ h.acceptances) ∨
    ∃ socket, (socket, c) ∈ h.served

/-- Constructed, and not disposed. -/
def Hosting.Undisposed (h : Hosting Path) (i : Nat) : Prop := i < h.components ∧ i ∉ h.disposals

structure Lifecycle (h : Hosting Path) : Prop where
  alone : h.body.Working → h.componentInstance = none
  live : ∀ i, h.Undisposed i → ∃ c, h.Holds c ∧ c.id = i
  held : ∀ c, h.Holds c → h.Undisposed c.id
  once : h.disposals.Nodup
  disposed : ∀ i ∈ h.disposals, i < h.components
  failed : ∀ i ∈ h.failures, i ∈ h.disposals
  shown : ∀ c, h.Shown c → c.id < h.components ∧ c.id ∉ h.failures ∧
    ∀ d, h.body.component = some d → d.id ≠ c.id

namespace Lifecycle

variable {h : Hosting Path} {c : Component Path}

theorem none_of_component (hl : Lifecycle h) (hc : h.body.component = some c) :
    h.componentInstance = none := by
  apply hl.alone
  cases hbody : h.body <;> simp [hbody, Body.component, Body.Working] at hc ⊢

/-- A component that is set up is the only one. -/
theorem unique (hl : Lifecycle h) {d : Component Path} (hc : h.Holds c) (hd : h.Holds d) : c = d := by
  rcases hc with hc | hc <;> rcases hd with hd | hd
  · exact Option.some.inj (hc.symm.trans hd)
  · cases (hl.none_of_component hd).symm.trans hc
  · cases (hl.none_of_component hc).symm.trans hd
  · exact Option.some.inj (hc.symm.trans hd)

/-- A step that leaves the component of the setup where it is. -/
theorem goOn (b : Body Path) (hl : Lifecycle h) (hb : b.component = h.body.component)
    (hworking : b.Working → h.componentInstance = none) : Lifecycle (h.next b) where
  alone := hworking
  live i hi := by simpa [Hosting.Holds, Hosting.next, hb] using hl.live i hi
  held c hc := hl.held c (by simpa [Hosting.Holds, Hosting.next, hb] using hc)
  once := hl.once
  disposed := hl.disposed
  failed := hl.failed
  shown c hc := by simpa [Hosting.next, hb] using hl.shown c hc

theorem construct (hl : Lifecycle h) (hnone : h.componentInstance = none)
    (hb : h.body.component = none) (path : Path) (stateful : Bool) :
    Lifecycle { h with
      components := h.components + 1
      body := .bootstrapping ⟨h.components, path, stateful⟩ } where
  alone _ := hnone
  live i hi := by
    obtain ⟨hlt, hnot⟩ := hi
    rcases Nat.lt_succ_iff_lt_or_eq.mp hlt with hlt | rfl
    · obtain ⟨c, hc, -⟩ := hl.live i ⟨hlt, hnot⟩
      simp [Hosting.Holds, hnone, hb] at hc
    · exact ⟨_, .inr rfl, rfl⟩
  held c hc := by
    rcases hc with hc | hc
    · simp [hnone] at hc
    · cases hc
      exact ⟨Nat.lt_succ_self _, fun hmem => Nat.lt_irrefl _ (hl.disposed _ hmem)⟩
  once := hl.once
  disposed i hi := Nat.lt_succ_of_lt (hl.disposed i hi)
  failed := hl.failed
  shown c hc := by
    obtain ⟨hlt, hfailed, -⟩ := hl.shown c hc
    refine ⟨Nat.lt_succ_of_lt hlt, hfailed, ?_⟩
    intro d hd
    cases hd
    exact (Nat.ne_of_lt hlt).symm

theorem publish (hl : Lifecycle h) (hc : h.body.component = some c) :
    Lifecycle (h.publishComponent c) where
  alone hworking := False.elim hworking
  live i hi := by
    obtain ⟨d, hd, rfl⟩ := hl.live i hi
    rcases hd with hd | hd
    · simp [hl.none_of_component hc] at hd
    · exact ⟨d, .inl (hc.symm.trans hd), rfl⟩
  held d hd := by
    rcases hd with hd | hd
    · cases hd
      exact hl.held c (.inr hc)
    · cases hd
  once := hl.once
  disposed := hl.disposed
  failed := hl.failed
  shown d hd := by
    have hown : c.id < h.components ∧ c.id ∉ h.failures :=
      ⟨(hl.held c (.inr hc)).1, fun hmem => (hl.held c (.inr hc)).2 (hl.failed _ hmem)⟩
    rcases hd with hd | hd
    · cases hd
      exact ⟨hown.1, hown.2, by simp [Hosting.publishComponent, Body.component]⟩
    · obtain ⟨hlt, hfailed, -⟩ := hl.shown d (.inr hd)
      exact ⟨hlt, hfailed, by simp [Hosting.publishComponent, Body.component]⟩

/-- The failed component is the only one that the object held. -/
theorem fail (hl : Lifecycle h) (hc : h.body.component = some c) : Lifecycle (h.fail c) where
  alone _ := hl.none_of_component hc
  live i hi := by
    have ⟨hne, hmem⟩ : i ≠ c.id ∧ i ∉ h.disposals := by simpa [Hosting.fail] using hi.2
    obtain ⟨d, hd, rfl⟩ := hl.live i ⟨hi.1, hmem⟩
    rcases hd with hd | hd
    · simp [hl.none_of_component hc] at hd
    · cases hc.symm.trans hd
      exact absurd rfl hne
  held d hd := by
    rcases hd with hd | hd
    · simp [Hosting.fail, hl.none_of_component hc] at hd
    · cases hd
  once := List.nodup_cons.mpr ⟨(hl.held c (.inr hc)).2, hl.once⟩
  disposed i hi := by
    rcases List.mem_cons.mp hi with rfl | hi
    · exact (hl.held c (.inr hc)).1
    · exact hl.disposed i hi
  failed i hi := by
    rcases List.mem_cons.mp hi with rfl | hi
    · exact List.mem_cons_self
    · exact List.mem_cons_of_mem _ (hl.failed i hi)
  shown d hd := by
    obtain ⟨hlt, hfailed, hne⟩ := hl.shown d hd
    refine ⟨hlt, ?_, by simp [Hosting.fail, Body.component]⟩
    simp [Hosting.fail, hfailed, (hne c hc).symm]

theorem discard (hl : Lifecycle h) (hc : h.componentInstance = some c)
    (hb : h.body.component = none) (path : Path) : Lifecycle (h.discard c path) where
  alone _ := rfl
  live i hi := by
    have ⟨hne, hmem⟩ : i ≠ c.id ∧ i ∉ h.disposals := by simpa [Hosting.discard] using hi.2
    obtain ⟨d, hd, rfl⟩ := hl.live i ⟨hi.1, hmem⟩
    rcases hd with hd | hd
    · cases hc.symm.trans hd
      exact absurd rfl hne
    · simp [hb] at hd
  held d hd := by rcases hd with hd | hd <;> cases hd
  once := List.nodup_cons.mpr ⟨(hl.held c (.inl hc)).2, hl.once⟩
  disposed i hi := by
    rcases List.mem_cons.mp hi with rfl | hi
    · exact (hl.held c (.inl hc)).1
    · exact hl.disposed i hi
  failed i hi := List.mem_cons_of_mem _ (hl.failed i hi)
  shown d hd := by
    have hshown : h.Shown d := by
      rcases hd with hd | hd
      · cases hd
      · exact .inr hd
    obtain ⟨hlt, hfailed, -⟩ := hl.shown d hshown
    exact ⟨hlt, hfailed, by simp [Hosting.discard, Body.component]⟩

/-- Sockets and the storage do not matter to the components. -/
theorem connect (hl : Lifecycle h) (sockets : List Nat) (stored : Stored Path) :
    Lifecycle { h with sockets, stored } :=
  ⟨hl.alone, hl.live, hl.held, hl.once, hl.disposed, hl.failed, hl.shown⟩

theorem acceptPeer (hl : Lifecycle h) (socket : Nat) : Lifecycle (h.acceptPeer socket) where
  alone := hl.alone
  live := hl.live
  held := hl.held
  once := hl.once
  disposed := hl.disposed
  failed := hl.failed
  shown c hc := by
    apply hl.shown c
    rcases hc with hc | ⟨s, hs⟩ | hc
    · exact .inl hc
    · rcases List.mem_cons.mp hs with hs | hs
      · exact .inl (Prod.mk.inj hs).2.symm
      · exact .inr (.inl ⟨s, hs⟩)
    · exact .inr (.inr hc)

theorem serve (hl : Lifecycle h) (hc : h.componentInstance = some c) (socket : Nat) :
    Lifecycle (h.serve socket c) where
  alone := hl.alone
  live := hl.live
  held := hl.held
  once := hl.once
  disposed := hl.disposed
  failed := hl.failed
  shown d hd := by
    apply hl.shown d
    rcases hd with hd | hd | ⟨s, hs⟩
    · exact .inl hd
    · exact .inr (.inl hd)
    · rcases List.mem_cons.mp hs with hs | hs
      · cases hs
        exact .inl hc
      · exact .inr (.inr ⟨s, hs⟩)

theorem start [DecidableEq Path] (hl : Lifecycle h) (hidle : h.body = .idle) (op : Operation Path) :
    Lifecycle (h.start op) := by
  have hb : h.body.component = none := by rw [hidle]; rfl
  cases op with
  | restore =>
    cases hc : h.componentInstance with
    | none =>
      simp only [Hosting.start, hc]
      exact hl.goOn .reading hb.symm fun _ => hc
    | some c =>
      simp only [Hosting.start, hc]
      exact hl.goOn (.ended true) hb.symm fun hworking => False.elim hworking
  | join socket path url =>
    cases hc : h.componentInstance with
    | none =>
      simp only [Hosting.start, hc]
      exact hl.goOn (.looking path) hb.symm fun _ => hc
    | some c =>
      simp only [Hosting.start, hc]
      split
      · exact hl.goOn (.ended true) hb.symm fun hworking => False.elim hworking
      · split
        · exact hl.discard hc hb path
        · exact (hl.acceptPeer socket).goOn (.ended true) hb.symm fun hworking => False.elim hworking

theorem ready (hl : Lifecycle h) (hc : h.body.component = some c) (op : Operation Path) :
    Lifecycle (h.ready c op) := by
  cases op with
  | restore => exact hl.publish hc
  | join socket path url => exact (hl.publish hc).acceptPeer socket

theorem store (hl : Lifecycle h) (op : Operation Path) : Lifecycle (h.store op) := by
  cases op with
  | restore => exact hl
  | join socket path url => exact hl.connect h.sockets _

/-- What an operation under way does between two awaits. -/
theorem resume {h' : Hosting Path} {op : Operation Path} {completion : Completion}
    (hl : Lifecycle h) (hnext : h.resume op completion = some h') : Lifecycle h' := by
  cases hbody : h.body with
  | reading =>
    have hnone : h.componentInstance = none := hl.alone (by rw [hbody]; trivial)
    have hb : h.body.component = none := by rw [hbody]; rfl
    cases completion <;> simp [Hosting.resume, hbody] at hnext <;> subst hnext
    · cases hrestored : h.stored.restored with
      | none => exact hl.goOn (.ended true) hb.symm fun hworking => False.elim hworking
      | some path => exact hl.goOn (.looking path) hb.symm fun _ => hnone
    · exact hl.goOn (.ended false) hb.symm fun hworking => False.elim hworking
  | looking path =>
    have hnone : h.componentInstance = none := hl.alone (by rw [hbody]; trivial)
    have hb : h.body.component = none := by rw [hbody]; rfl
    cases completion <;> simp [Hosting.resume, hbody] at hnext <;> subst hnext
    · exact hl.goOn (.ended false) hb.symm fun hworking => False.elim hworking
    · exact hl.construct hnone hb path _
    · exact hl.goOn (.ended true) hb.symm fun hworking => False.elim hworking
  | bootstrapping c =>
    have hc : h.body.component = some c := by rw [hbody]; rfl
    cases completion <;> simp [Hosting.resume, hbody] at hnext
    · cases op with
      | restore =>
        cases hnext
        exact hl.ready hc .restore
      | join socket path url =>
        cases hnext
        exact hl.goOn (.initializing c) hc.symm fun _ => hl.none_of_component hc
    · subst hnext
      exact hl.fail hc
  | initializing c =>
    have hc : h.body.component = some c := by rw [hbody]; rfl
    cases completion <;> simp [Hosting.resume, hbody] at hnext
    · split at hnext <;> cases hnext
      · exact hl.goOn (.storing c) hc.symm fun _ => hl.none_of_component hc
      · exact hl.ready hc op
    · subst hnext
      exact hl.fail hc
  | storing c =>
    have hc : h.body.component = some c := by rw [hbody]; rfl
    have hstored : (h.store op).body.component = some c := by cases op <;> exact hc
    cases completion <;> simp [Hosting.resume, hbody] at hnext <;> subst hnext
    · exact (hl.store op).ready hstored op
    · exact hl.fail hc
  | failing =>
    have hb : h.body.component = none := by rw [hbody]; rfl
    cases completion <;> simp [Hosting.resume, hbody] at hnext
    subst hnext
    exact hl.goOn (.ended false) hb.symm fun hworking => False.elim hworking
  | discarding path =>
    have hnone : h.componentInstance = none := hl.alone (by rw [hbody]; trivial)
    have hb : h.body.component = none := by rw [hbody]; rfl
    cases completion <;> simp [Hosting.resume, hbody] at hnext
    subst hnext
    exact hl.goOn (.looking path) hb.symm fun _ => hnone
  | idle => simp [Hosting.resume, hbody] at hnext
  | ended fulfilled => simp [Hosting.resume, hbody] at hnext

end Lifecycle

/-! ## Section 2: What an operation does to the sockets -/

def Hosting.Hosts (h : Hosting Path) (path : Path) : Prop :=
  ∃ c, h.componentInstance = some c ∧ c.rpcOwner = path

def Body.path : Body Path → Option Path
  | .looking path => some path
  | .discarding path => some path
  | b => b.component.map Component.rpcOwner

/-- A join sets up the component of its own path. -/
def Fits (b : Body Path) : Operation Path → Prop
  | .restore => True
  | .join _ path _ => b ≠ .reading ∧ ∀ p, b.path = some p → p = path

/-- A step of an operation, as the sockets see it.  A join that ends without
    accepting its peer does not host the peer's path. -/
inductive Moved (op : Operation Path) (h h' : Hosting Path) : Prop
  | quiet (hinstance : h'.componentInstance = h.componentInstance)
      (hpeers : h'.acceptances = h.acceptances) (hsockets : h'.sockets = h.sockets)
      (hmissed : ∀ socket path url, op = .join socket path url → h'.body = .ended true →
        ¬ h'.Hosts path)
  | discarded (hempty : h.sockets = []) (hpeers : h'.acceptances = h.acceptances)
      (hsockets : h'.sockets = h.sockets) (hbody : h'.body ≠ .ended true)
  | published (hop : op = .restore) (hnone : h.componentInstance = none)
      (hpeers : h'.acceptances = h.acceptances) (hsockets : h'.sockets = h.sockets)
  | accepted (socket : Nat) (path : Path) (url : String) (c : Component Path)
      (hop : op = .join socket path url)
      (hfrom : h.componentInstance = none ∨ h.componentInstance = some c)
      (hinstance : h'.componentInstance = some c) (howner : c.rpcOwner = path)
      (hpeers : h'.acceptances = (socket, some c) :: h.acceptances)
      (hsockets : h'.sockets = h.sockets ++ [socket]) (hbody : h'.body = .ended true)

variable {h h' : Hosting Path} {op : Operation Path}

theorem moved_next (b : Body Path)
    (hmissed : ∀ socket path url, op = .join socket path url → b = .ended true →
      ¬ h.Hosts path) : Moved op h (h.next b) :=
  .quiet rfl rfl rfl hmissed

theorem moved_ready {c : Component Path} (stored : Stored Path) (hnone : h.componentInstance = none)
    (hpath : ∀ socket path url, op = .join socket path url → c.rpcOwner = path) :
    Moved op h (Hosting.ready { h with stored } c op) := by
  cases op with
  | restore => exact .published rfl hnone rfl rfl
  | join socket path url =>
    exact .accepted socket path url c rfl (.inl hnone) rfl (hpath socket path url rfl) rfl rfl rfl

theorem moved_start [DecidableEq Path] : Moved op h (h.start op) := by
  cases op with
  | restore =>
    cases hc : h.componentInstance <;> simp only [Hosting.start, hc] <;>
      exact moved_next _ (fun _ _ _ hop => nomatch hop)
  | join socket path url =>
    cases hc : h.componentInstance with
    | none =>
      simp only [Hosting.start, hc]
      exact moved_next _ fun _ _ _ _ hbody => nomatch hbody
    | some c =>
      simp only [Hosting.start, hc]
      split
      · rename_i hne
        refine moved_next _ ?_
        rintro _ _ _ ⟨⟩ - ⟨d, hd, rfl⟩
        cases hc.symm.trans hd
        exact hne rfl
      · rename_i howner
        split
        · rename_i hidle
          have hempty : h.sockets = [] := by simpa using (Bool.and_eq_true_iff.mp hidle).2
          exact .discarded hempty rfl rfl nofun
        · refine .accepted socket path url c rfl (.inr hc) hc (not_not.mp howner) ?_ rfl rfl
          simp [Hosting.next, Hosting.acceptPeer, hc]

theorem fits_start [DecidableEq Path] : Fits (h.start op).body op := by
  cases op with
  | restore => trivial
  | join socket path url =>
    cases hc : h.componentInstance with
    | none => simp [Hosting.start, hc, Hosting.next, Fits, Body.path]
    | some c =>
      simp only [Hosting.start, hc]
      split
      · simp [Hosting.next, Fits, Body.path, Body.component]
      · split <;> simp [Hosting.next, Hosting.discard, Fits, Body.path, Body.component]

theorem body_start [DecidableEq Path] : (h.start op).body ≠ .idle := by
  cases op with
  | restore => cases hc : h.componentInstance <;> simp [Hosting.start, hc, Hosting.next]
  | join socket path url =>
    cases hc : h.componentInstance with
    | none => simp [Hosting.start, hc, Hosting.next]
    | some c =>
      simp only [Hosting.start, hc]
      split
      · exact nofun
      · split <;> exact nofun

theorem body_resume {completion : Completion} (hnext : h.resume op completion = some h') :
    h'.body ≠ .idle := by
  have hready (k : Hosting Path) (c : Component Path) : (k.ready c op).body ≠ .idle := by
    cases op <;> exact nofun
  unfold Hosting.resume at hnext
  split at hnext
  case h_1 =>
    cases hnext
    cases hrestored : h.stored.restored <;> simp [Hosting.next]
  case h_7 =>
    cases op <;> cases hnext
    · exact hready h _
    · exact nofun
  case h_8 =>
    split at hnext <;> cases hnext
    · exact nofun
    · exact hready h _
  case h_9 =>
    cases hnext
    exact hready (h.store op) _
  all_goals first
    | (cases hnext; done)
    | (cases hnext; exact nofun)

theorem fits_ended (f : Bool) : Fits (.ended f) op := by
  cases op <;> simp [Fits, Body.path, Body.component]

theorem Fits.owner {c : Component Path} (hfits : Fits h.body op) (hc : h.body.component = some c)
    (socket : Nat) (path : Path) (url : String) (hop : op = .join socket path url) :
    c.rpcOwner = path := by
  subst hop
  apply hfits.2
  cases hbody : h.body <;> simp [hbody, Body.component, Body.path] at hc ⊢ <;> rw [hc]

/-- What an operation under way does between two awaits. -/
theorem moved_resume {completion : Completion} (hl : Lifecycle h) (hfits : Fits h.body op)
    (hnext : h.resume op completion = some h') : Moved op h h' ∧ Fits h'.body op := by
  have hmissed (hbody : h.body.Working) (path : Path) : ¬ h.Hosts path := by
    rintro ⟨c, hc, -⟩
    rw [hl.alone hbody] at hc
    cases hc
  have hend (f : Bool) (hbody : h.body.Working) :
      Moved op h (h.next (.ended f)) ∧ Fits (h.next (.ended f)).body op :=
    ⟨moved_next _ fun _ path _ _ _ => hmissed hbody path, fits_ended f⟩
  have hgo (b : Body Path) (hb : ∀ f, b ≠ .ended f) (hfit : Fits b op) :
      Moved op h (h.next b) ∧ Fits (h.next b).body op :=
    ⟨moved_next _ fun _ _ _ _ hended => absurd hended (hb true), hfit⟩
  have hready {c : Component Path} (stored : Stored Path) (hc : h.body.component = some c) :
      Moved op h (Hosting.ready { h with stored } c op) ∧
        Fits (Hosting.ready { h with stored } c op).body op := by
    refine ⟨moved_ready stored (hl.none_of_component hc) (hfits.owner hc), ?_⟩
    cases op <;> exact fits_ended true
  have hfail {c : Component Path} : Moved op h (h.fail c) ∧ Fits (h.fail c).body op := by
    refine ⟨.quiet rfl rfl rfl (fun _ _ _ _ hended => by cases hended), ?_⟩
    cases op <;> simp [Hosting.fail, Fits, Body.path, Body.component]
  cases hbody : h.body with
  | reading =>
    have hworking : h.body.Working := by rw [hbody]; trivial
    -- only a restoration reads the storage first
    have hop : op = .restore := by
      cases op with
      | restore => rfl
      | join => exact absurd hbody hfits.1
    subst hop
    cases completion <;> simp [Hosting.resume, hbody] at hnext <;> subst hnext
    · cases h.stored.restored with
      | none => exact hend true hworking
      | some path => exact hgo (.looking path) (by rintro _ ⟨⟩) trivial
    · exact hend false hworking
  | looking path =>
    have hworking : h.body.Working := by rw [hbody]; trivial
    cases completion <;> simp [Hosting.resume, hbody] at hnext <;> subst hnext
    · exact hend false hworking
    · refine ⟨.quiet rfl rfl rfl (fun _ _ _ _ hended => by cases hended), ?_⟩
      cases op with
      | restore => trivial
      | join => simpa [Fits, hbody, Body.path, Body.component] using hfits
    · exact hend true hworking
  | bootstrapping c =>
    have hc : h.body.component = some c := by rw [hbody]; rfl
    cases completion <;> simp [Hosting.resume, hbody] at hnext
    · cases op with
      | restore =>
        cases hnext
        exact hready h.stored hc
      | join socket path url =>
        cases hnext
        exact hgo (.initializing c) (by rintro _ ⟨⟩)
          (by simpa [Fits, hbody, Body.path, Body.component] using hfits)
    · subst hnext
      exact hfail
  | initializing c =>
    have hc : h.body.component = some c := by rw [hbody]; rfl
    cases completion <;> simp [Hosting.resume, hbody] at hnext
    · split at hnext <;> cases hnext
      · refine hgo (.storing c) (by rintro _ ⟨⟩) ?_
        cases op with
        | restore => trivial
        | join => simpa [Fits, hbody, Body.path, Body.component] using hfits
      · exact hready h.stored hc
    · subst hnext
      exact hfail
  | storing c =>
    have hc : h.body.component = some c := by rw [hbody]; rfl
    cases completion <;> simp [Hosting.resume, hbody] at hnext <;> subst hnext
    · cases op with
      | restore => exact hready h.stored hc
      | join socket path url => exact hready ⟨true, some path, some url⟩ hc
    · exact hfail
  | failing =>
    have hworking : h.body.Working := by rw [hbody]; trivial
    cases completion <;> simp [Hosting.resume, hbody] at hnext
    subst hnext
    exact hend false hworking
  | discarding path =>
    cases completion <;> simp [Hosting.resume, hbody] at hnext
    subst hnext
    refine hgo (.looking path) (by rintro _ ⟨⟩) ?_
    cases op with
    | restore => trivial
    | join => simpa [Fits, hbody, Body.path] using hfits
  | idle => simp [Hosting.resume, hbody] at hnext
  | ended fulfilled => simp [Hosting.resume, hbody] at hnext

/-! ## Section 3: The peers that were accepted -/

theorem accepted_iff (socket : Nat) :
    h.accepted socket = true ↔ ∃ c, (socket, c) ∈ h.acceptances := by
  simp [Hosting.accepted, Prod.exists]

/-- An operation accepts nobody but its own peer. -/
theorem Moved.accepted_other (hmoved : Moved op h h') {socket : Nat}
    (hop : ∀ path url, op ≠ .join socket path url) : h'.accepted socket = h.accepted socket := by
  cases hmoved with
  | quiet _ hpeers => simp only [Hosting.accepted, hpeers]
  | discarded _ hpeers => simp only [Hosting.accepted, hpeers]
  | published _ _ hpeers => simp only [Hosting.accepted, hpeers]
  | accepted socket' path url c heq _ _ _ hpeers =>
    have hne : socket' ≠ socket := by
      rintro rfl
      exact hop path url heq
    simp [Hosting.accepted, hpeers, hne]

/-- A join that is over has accepted its peer exactly when it hosts its path. -/
theorem Moved.accepted_own {socket : Nat} {path : Path} {url : String}
    (hmoved : Moved (.join socket path url) h h') (hnot : h.accepted socket = false) :
    h'.accepted socket = true ↔ h'.body = .ended true ∧ h'.Hosts path := by
  have hsame (hpeers : h'.acceptances = h.acceptances) : h'.accepted socket ≠ true := by
    have heq : h'.accepted socket = h.accepted socket := by simp only [Hosting.accepted, hpeers]
    rw [heq, hnot]
    exact Bool.false_ne_true
  cases hmoved with
  | quiet _ hpeers _ hmissed =>
    exact iff_of_false (hsame hpeers) fun hend => hmissed socket path url rfl hend.1 hend.2
  | discarded _ hpeers _ hbody => exact iff_of_false (hsame hpeers) fun hend => hbody hend.1
  | published hop => cases hop
  | accepted socket' path' url' c heq _ hinstance howner hpeers _ hbody =>
    cases heq
    exact iff_of_true (by simp [Hosting.accepted, hpeers]) ⟨hbody, c, hinstance, howner⟩

/-- A peer was accepted for the component of its own path, which stays while the
    peer's socket is open. -/
structure Peers (requests : Nat → Option (Request Path)) (h : Hosting Path) : Prop where
  own : ∀ a ∈ h.acceptances, ∃ path url shared c, requests a.1 = some (.join path url shared) ∧
    a.2 = some c ∧ c.rpcOwner = path
  attached : ∀ a ∈ h.acceptances, a.1 ∈ h.sockets → h.componentInstance = a.2

namespace Peers

variable {requests : Nat → Option (Request Path)}

theorem moved (hp : Peers requests h) (hmoved : Moved op h h')
    (hop : ∀ socket path url, op = .join socket path url → h.accepted socket = false ∧
      ∃ shared, requests socket = some (.join path url shared)) : Peers requests h' := by
  cases hmoved with
  | quiet hinstance hpeers hsockets =>
    exact ⟨hpeers ▸ hp.own, by rw [hpeers, hsockets, hinstance]; exact hp.attached⟩
  | discarded hempty hpeers hsockets =>
    refine ⟨hpeers ▸ hp.own, ?_⟩
    intro a _ hopen
    rw [hsockets, hempty] at hopen
    cases hopen
  | published _ hnone hpeers hsockets =>
    refine ⟨hpeers ▸ hp.own, ?_⟩
    intro a ha hopen
    rw [hpeers] at ha
    rw [hsockets] at hopen
    obtain ⟨-, -, -, c, -, hc, -⟩ := hp.own a ha
    have hhosted := hp.attached a ha hopen
    rw [hnone, hc] at hhosted
    cases hhosted
  | accepted socket path url c heq hfrom hinstance howner hpeers hsockets =>
    obtain ⟨hnot, shared, hrequest⟩ := hop socket path url heq
    constructor
    · intro a ha
      rw [hpeers] at ha
      rcases List.mem_cons.mp ha with rfl | ha
      · exact ⟨path, url, shared, c, hrequest, rfl, howner⟩
      · exact hp.own a ha
    · intro a ha hopen
      rw [hpeers] at ha
      rcases List.mem_cons.mp ha with rfl | ha
      · exact hinstance
      · have hopen' : a.1 ∈ h.sockets := by
          rw [hsockets] at hopen
          rcases List.mem_append.mp hopen with hopen | hopen
          · exact hopen
          · rw [List.mem_singleton] at hopen
            have hthere : h.accepted a.1 = true := (accepted_iff a.1).mpr ⟨a.2, ha⟩
            rw [hopen, hnot] at hthere
            cases hthere
        have hhosted := hp.attached a ha hopen'
        obtain ⟨-, -, -, d, -, hd, -⟩ := hp.own a ha
        rcases hfrom with hnone | hsome
        · rw [hnone, hd] at hhosted
          cases hhosted
        · rw [hinstance, ← hsome, hhosted]

/-- Sockets of others come, and any socket goes. -/
theorem connect (hp : Peers requests h) {sockets : List Nat}
    (hsockets : ∀ socket ∈ sockets, socket ∈ h.sockets ∨ h.accepted socket = false) :
    Peers requests { h with sockets } := by
  refine ⟨hp.own, ?_⟩
  intro a ha hopen
  rcases hsockets a.1 hopen with hopen | hnot
  · exact hp.attached a ha hopen
  · have hthere : h.accepted a.1 = true := (accepted_iff a.1).mpr ⟨a.2, ha⟩
    rw [hnot] at hthere
    cases hthere

end Peers

/-! ## Section 4: The invariant of the object -/

/-- The operation of `id` has ended, and `join` has not gone on since. -/
def Host.Over (s : Host Path) (id : Nat) : Prop :=
  Returning s.turn id true ∨ Running s.turn id ∧ s.hosting.body = .ended true

/-- Whether a request has an accepted socket, by its progress: for a `join` after
    its operation, by what the object hosts. -/
def Host.Took (s : Host Path) (unsent : Nat → Prop) (id : Nat) : Progress → Prop
  | .joining => s.Over id ∧ ∃ path url shared, s.requests id = some (.join path url shared) ∧
      s.hosting.Hosts path
  | .sending => True
  | .joined status => status = 101
  | .answered status => status = 101
  | .rejected => s.hosting.accepted id = true ∧ unsent id
  | .denied => s.hosting.accepted id = true
  | _ => False

/-- `unsent`: the peers whose first state frame may get lost. -/
structure Sound (unsent : Nat → Prop) (s : Host Path) : Prop where
  orderly : Orderly s.turn
  nodup : (callers s.turn).Nodup
  waiting : ∀ id ∈ callers s.turn, ∃ op, s.operation id = some op
  idle : (∀ id, ¬ Running s.turn id) → s.hosting.body = .idle
  busy : ∀ id, Running s.turn id → s.hosting.body ≠ .idle ∧
    ∀ op, s.operation id = some op → Fits s.hosting.body op
  lifecycle : Lifecycle s.hosting
  peers : Peers s.requests s.hosting
  verdict : ∀ id, s.hosting.accepted id = true ↔ s.Took unsent id (s.progress id)

variable {s t : Host Path} {unsent : Nat → Prop} {id : Nat}

theorem operation_none (hrestoring : s.progress id ≠ .restoring)
    (hjoining : s.progress id ≠ .joining) : s.operation id = none := by
  unfold Host.operation
  split
  · exact absurd ‹_› hrestoring
  · exact absurd ‹_› hjoining
  · rfl

/-- The requests of operations, by their progress. -/
theorem operation_cases {op : Operation Path} (h : s.operation id = some op) :
    s.progress id = .restoring ∧ op = .restore ∨
      ∃ path url shared, s.progress id = .joining ∧
        s.requests id = some (.join path url shared) ∧ op = .join id path url := by
  unfold Host.operation at h
  split at h
  · exact .inl ⟨‹_›, (Option.some.inj h).symm⟩
  · rename_i path url shared hprogress hrequest
    exact .inr ⟨path, url, shared, hprogress, hrequest, (Option.some.inj h).symm⟩
  · cases h

@[simp] theorem Host.set_progress_self (p : Progress) : (s.set id p).progress id = p := by
  simp [Host.set]

theorem Host.set_progress_of_ne {p : Progress} {c : Nat} (hne : c ≠ id) :
    (s.set id p).progress c = s.progress c :=
  Function.update_of_ne hne _ _

theorem took_set {p q : Progress} {c : Nat} :
    (s.set id p).Took unsent c q ↔ s.Took unsent c q := by
  cases q <;> exact Iff.rfl

theorem Host.operation_set {p : Progress} {c : Nat} (hne : c ≠ id) :
    (s.set id p).operation c = s.operation c := by
  rw [Host.operation, Host.operation, Host.set_progress_of_ne hne]
  rfl

theorem running_owner (h : s.owner = some id) : Running s.turn id := by
  obtain ⟨p, hslot, hp⟩ := Option.bind_eq_some_iff.mp h
  obtain ⟨hstage, hcaller⟩ : p.stage = .running ∧ p.caller = id := by simpa using hp
  exact ⟨p, hslot, hcaller, hstage⟩

/-- Only what a joining request finds over depends on the jobs and the operation. -/
theorem took_congr {p : Progress} (haccepted : t.hosting.accepted id = s.hosting.accepted id)
    (hjoining : p = .joining → (t.Took unsent id .joining ↔ s.Took unsent id .joining)) :
    t.Took unsent id p ↔ s.Took unsent id p := by
  cases p with
  | joining => exact hjoining rfl
  | rejected => simp only [Host.Took, haccepted]
  | denied => simp only [Host.Took, haccepted]
  | _ => exact Iff.rfl

/-- `join` after its own operation: nothing has happened in between. -/
theorem sound_completeJoin [DecidableEq Path] {turn : Turn} {path : Path} {shared : Bool}
    (hleave : ∀ p, (s.hosting.accepted id = true ↔ Host.Took { s with turn } unsent id p) →
      Sound unsent (Host.set { s with turn } id p))
    (hthere : s.hosting.accepted id = true ↔ s.hosting.Hosts path) :
    Sound unsent (Host.completeJoin { s with turn } id path shared) := by
  unfold Host.completeJoin
  cases hc : s.hosting.componentInstance with
  | none =>
    refine hleave (.joined 500) (iff_of_false ?_ (by simp [Host.Took]))
    intro htrue
    obtain ⟨c, hhosted, -⟩ := hthere.mp htrue
    rw [hc] at hhosted
    cases hhosted
  | some c =>
    dsimp only
    split
    · rename_i hne
      refine hleave (.joined 403) (iff_of_false ?_ (by simp [Host.Took]))
      intro htrue
      obtain ⟨d, hhosted, howner⟩ := hthere.mp htrue
      rw [hc] at hhosted
      cases hhosted
      exact hne howner
    · rename_i howner
      have htrue := hthere.mpr ⟨c, hc, not_not.mp howner⟩
      rw [if_pos htrue]
      split
      · exact hleave .sending (iff_of_true htrue trivial)
      · exact hleave (.joined 101) (iff_of_true htrue rfl)

namespace Sound

theorem not_caller (hs : Sound unsent s) (hrestoring : s.progress id ≠ .restoring)
    (hjoining : s.progress id ≠ .joining) : id ∉ callers s.turn := by
  intro hmem
  obtain ⟨op, hop⟩ := hs.waiting id hmem
  rw [operation_none hrestoring hjoining] at hop
  cases hop

/-- A request goes on outside of the initialization. -/
theorem set (hs : Sound unsent s) {p : Progress} (hid : id ∉ callers s.turn)
    (hp : s.hosting.accepted id = true ↔ s.Took unsent id p) : Sound unsent (s.set id p) where
  orderly := hs.orderly
  nodup := hs.nodup
  waiting c hc := by
    have hne : c ≠ id := fun heq => hid (heq ▸ hc)
    rw [Host.operation_set hne]
    exact hs.waiting c hc
  idle := hs.idle
  busy c hc := by
    have hne : c ≠ id := fun heq => hid (heq ▸ hc.mem)
    rw [Host.operation_set hne]
    exact hs.busy c hc
  lifecycle := hs.lifecycle
  peers := hs.peers
  verdict c := by
    by_cases hne : c = id
    · subst hne
      rw [Host.set_progress_self]
      exact hp.trans took_set.symm
    · rw [Host.set_progress_of_ne hne]
      exact (hs.verdict c).trans took_set.symm

/-- A request awaits the initialization. -/
theorem enter (hs : Sound unsent s) {p : Progress} (hid : id ∉ callers s.turn)
    (hop : ∃ op, (s.set id p).operation id = some op) (hnot : s.hosting.accepted id = false) :
    Sound unsent (s.initializeComponent id p) where
  orderly := hs.orderly.enter id
  nodup := (callers_enter.nodup_iff).mpr (List.nodup_cons.mpr ⟨hid, hs.nodup⟩)
  waiting c hc := by
    rcases List.mem_cons.mp (callers_enter.mem_iff.mp hc) with rfl | hc
    · exact hop
    · have hne : c ≠ id := fun heq => hid (heq ▸ hc)
      obtain ⟨op, hop⟩ := hs.waiting c hc
      exact ⟨op, (Host.operation_set hne).trans hop⟩
  idle hnone := hs.idle fun c hc => hnone c ((running_enter c).mpr hc)
  busy c hc := by
    have hc := (running_enter c).mp hc
    have hne : c ≠ id := fun heq => hid (heq ▸ hc.mem)
    refine ⟨(hs.busy c hc).1, ?_⟩
    intro op hop
    exact (hs.busy c hc).2 op ((Host.operation_set hne).symm.trans hop)
  lifecycle := hs.lifecycle
  peers := hs.peers
  verdict c := by
    have hover (c : Nat) : (s.initializeComponent id p).Over c ↔ s.Over c :=
      or_congr (returning_enter c true) (and_congr_left' (running_enter c))
    have htook (q : Progress) :
        (s.initializeComponent id p).Took unsent c q ↔ s.Took unsent c q :=
      took_congr rfl fun _ => and_congr_left' (hover c)
    by_cases hne : c = id
    · subst hne
      have hprogress : (s.initializeComponent c p).progress c = p := Host.set_progress_self p
      rw [hprogress, htook]
      have hnone : ¬ s.Took unsent c p := by
        obtain ⟨op, hop⟩ := hop
        rcases operation_cases hop with ⟨hp, -⟩ | ⟨-, -, -, hp, -, -⟩ <;>
          rw [Host.set_progress_self] at hp <;> subst hp
        · exact id
        · rintro ⟨hover | hover, -⟩
          · exact hid hover.mem
          · exact hid hover.1.mem
      exact iff_of_false (Bool.eq_false_iff.mp hnot) hnone
    · have hprogress : (s.initializeComponent id p).progress c = s.progress c :=
        Host.set_progress_of_ne hne
      rw [hprogress, htook]
      exact hs.verdict c

/-- Sockets come and go, and messages are served. -/
theorem host (hs : Sound unsent s) {hosting : Hosting Path} (hl : Lifecycle hosting)
    (hp : Peers s.requests hosting) (hbody : hosting.body = s.hosting.body)
    (hinstance : hosting.componentInstance = s.hosting.componentInstance)
    (hpeers : hosting.acceptances = s.hosting.acceptances) : Sound unsent (s.host hosting) where
  orderly := hs.orderly
  nodup := hs.nodup
  waiting := hs.waiting
  idle hnone := hbody.trans (hs.idle hnone)
  busy c hc := by
    have hfits := hs.busy c hc
    rw [← hbody] at hfits
    exact hfits
  lifecycle := hl
  peers := hp
  verdict c := by
    have haccepted : hosting.accepted c = s.hosting.accepted c := by
      simp only [Hosting.accepted, hpeers]
    have hhosts (path : Path) : hosting.Hosts path ↔ s.hosting.Hosts path := by
      simp only [Hosting.Hosts, hinstance]
    have htook : (s.host hosting).Took unsent c (s.progress c) ↔ s.Took unsent c (s.progress c) := by
      refine took_congr haccepted fun _ => ?_
      simp only [Host.Took, Host.Over, Host.host, hbody, hhosts]
    exact (haccepted ▸ hs.verdict c).trans htook.symm

/-- Nobody is accepted before its operation is over. -/
theorem not_accepted (hs : Sound unsent s) {op : Operation Path} (hover : ¬ s.Over id)
    (hop : s.operation id = some op) : s.hosting.accepted id = false := by
  rw [Bool.eq_false_iff]
  intro hthere
  have htook := (hs.verdict id).mp hthere
  rcases operation_cases hop with ⟨hp, -⟩ | ⟨-, -, -, hp, -, -⟩ <;> rw [hp] at htook
  · exact htook
  · exact hover htook.1

/-- The operation of `id` takes a step.  Nobody goes on after its own meanwhile. -/
theorem move (hs : Sound unsent s) {turn : Turn} {hosting : Hosting Path} {op : Operation Path}
    (hturn : Orderly turn) (hcallers : callers turn = callers s.turn)
    (hrun : ∀ c, Running turn c ↔ c = id) (hreturning : ∀ c f, ¬ Returning turn c f)
    (hover : ∀ c, ¬ s.Over c) (hop : s.operation id = some op)
    (hmoved : Moved op s.hosting hosting) (hl : Lifecycle hosting) (hfits : Fits hosting.body op)
    (hbody : hosting.body ≠ .idle) : Sound unsent { s with turn, hosting } where
  orderly := hturn
  nodup := by
    rw [hcallers]
    exact hs.nodup
  waiting c hc := hs.waiting c (by rwa [hcallers] at hc)
  idle hnone := absurd ((hrun id).mpr rfl) (hnone id)
  busy c hc := by
    obtain rfl := (hrun c).mp hc
    refine ⟨hbody, ?_⟩
    intro op' hop'
    cases hop.symm.trans hop'
    exact hfits
  lifecycle := hl
  peers := by
    refine hs.peers.moved hmoved ?_
    rintro socket path url rfl
    rcases operation_cases hop with ⟨-, heq⟩ | ⟨path', url', shared, -, hrequest, heq⟩ <;> cases heq
    exact ⟨hs.not_accepted (hover id) hop, shared, hrequest⟩
  verdict c := by
    have hnot := hs.not_accepted (hover id) hop
    by_cases hne : c = id
    · subst hne
      rcases operation_cases hop with ⟨hp, rfl⟩ | ⟨path, url, shared, hp, hrequest, rfl⟩
      · have hsame : hosting.accepted c = false := (hmoved.accepted_other nofun).trans hnot
        simp only [hp]
        exact iff_of_false (Bool.eq_false_iff.mp hsame) fun h => h
      · simp only [hp]
        refine (hmoved.accepted_own hnot).trans ?_
        constructor
        · rintro ⟨hend, hhosts⟩
          exact ⟨.inr ⟨(hrun c).mpr rfl, hend⟩, path, url, shared, hrequest, hhosts⟩
        · rintro ⟨hend | hend, path', url', shared', hrequest', hhosts⟩
          · exact absurd hend (hreturning c true)
          · cases hrequest.symm.trans hrequest'
            exact ⟨hend.2, hhosts⟩
    · have haccepted : hosting.accepted c = s.hosting.accepted c := by
        apply hmoved.accepted_other
        rintro path url rfl
        rcases operation_cases hop with ⟨-, heq⟩ | ⟨path', url', shared, -, -, heq⟩ <;> cases heq
        exact hne rfl
      have htook : Host.Took { s with turn, hosting } unsent c (s.progress c) ↔
          s.Took unsent c (s.progress c) := by
        refine took_congr haccepted fun _ => iff_of_false ?_ fun h => hover c h.1
        rintro ⟨hend | hend, -⟩
        · exact hreturning c true hend
        · exact hne ((hrun c).mp hend.1)
      exact (haccepted ▸ hs.verdict c).trans htook.symm

/-! ## Section 5: The steps of the object -/

theorem settle (hs : Sound unsent s) {f : Bool} (hbody : s.hosting.body = .ended f) :
    Sound unsent { s.host (s.hosting.next .idle) with turn := Turns.settle s.turn f } := by
  obtain ⟨owner, hrun⟩ : ∃ c, Running s.turn c := by
    by_contra hnone
    have hidle := hs.idle fun c hc => hnone ⟨c, hc⟩
    rw [hbody] at hidle
    cases hidle
  exact {
    orderly := hs.orderly.settle hrun f
    nodup := (callers_settle hrun).nodup_iff.mpr hs.nodup
    waiting := fun c hc => hs.waiting c ((callers_settle hrun).mem_iff.mp hc)
    idle := fun _ => rfl
    busy := fun c hc => absurd hc (not_running_settle c)
    lifecycle := hs.lifecycle.goOn .idle (by rw [hbody]; rfl) fun h => False.elim h
    peers := ⟨hs.peers.own, hs.peers.attached⟩
    verdict := by
      intro c
      have hbefore : s.Over c ↔ Running s.turn c ∧ f = true := by
        constructor
        · rintro (hreturning | ⟨hc, hended⟩)
          · exact absurd hreturning (hs.orderly.not_returning hrun c true)
          · rw [hbody] at hended
            exact ⟨hc, Body.ended.inj hended⟩
        · rintro ⟨hc, rfl⟩
          exact .inr ⟨hc, hbody⟩
      have hafter : Host.Over { s.host (s.hosting.next .idle) with turn := Turns.settle s.turn f } c ↔
          c = owner ∧ true = f :=
        (or_iff_left fun h => not_running_settle c h.1).trans
          (returning_settle hs.orderly hrun c true)
      have hover : Host.Over { s.host (s.hosting.next .idle) with turn := Turns.settle s.turn f } c ↔
          s.Over c := by
        rw [hafter, hbefore, hrun.iff_eq]
        exact and_congr_right' eq_comm
      have htook : Host.Took { s.host (s.hosting.next .idle) with turn := Turns.settle s.turn f }
          unsent c (s.progress c) ↔ s.Took unsent c (s.progress c) :=
        took_congr rfl fun _ => and_congr_left' hover
      exact (hs.verdict c).trans htook.symm }

/-- A job that concerns nobody. -/
theorem quiet (hs : Sound unsent s) {turn : Turn} (hturn : Orderly turn)
    (hrun : ∀ c, Running turn c ↔ Running s.turn c)
    (hreturning : ∀ c f, Returning turn c f ↔ Returning s.turn c f)
    (hnodup : (callers turn).Nodup) (hsub : ∀ c ∈ callers turn, c ∈ callers s.turn) :
    Sound unsent { s with turn } where
  orderly := hturn
  nodup := hnodup
  waiting c hc := hs.waiting c (hsub c hc)
  idle hnone := hs.idle fun c hc => hnone c ((hrun c).mpr hc)
  busy c hc := hs.busy c ((hrun c).mp hc)
  lifecycle := hs.lifecycle
  peers := hs.peers
  verdict c := by
    have hover : Host.Over { s with turn } c ↔ s.Over c :=
      or_congr (hreturning c true) (and_congr_left' (hrun c))
    have htook : Host.Took { s with turn } unsent c (s.progress c) ↔
        s.Took unsent c (s.progress c) := took_congr rfl fun _ => and_congr_left' hover
    exact (hs.verdict c).trans htook.symm

/-- A caller goes on after the initialization. -/
theorem leave (hs : Sound unsent s) {turn : Turn} {p : Progress} (hturn : Orderly turn)
    (hrun : ∀ c, Running turn c ↔ Running s.turn c)
    (hreturning : ∀ c, c ≠ id → ∀ f, Returning turn c f ↔ Returning s.turn c f)
    (hcallers : (callers s.turn).Perm (id :: callers turn))
    (hp : s.hosting.accepted id = true ↔ Host.Took { s with turn } unsent id p) :
    Sound unsent (Host.set { s with turn } id p) := by
  obtain ⟨hout, hnodup⟩ := List.nodup_cons.mp (hcallers.nodup_iff.mp hs.nodup)
  have hsub : ∀ c ∈ callers turn, c ∈ callers s.turn := fun c hc =>
    hcallers.mem_iff.mpr (List.mem_cons_of_mem _ hc)
  have hother : ∀ c ∈ callers turn, c ≠ id := fun c hc heq => hout (heq ▸ hc)
  exact {
    orderly := hturn
    nodup := hnodup
    waiting := by
      intro c hc
      rw [Host.operation_set (hother c hc)]
      exact hs.waiting c (hsub c hc)
    idle := fun hnone => hs.idle fun c hc => hnone c ((hrun c).mpr hc)
    busy := by
      intro c hc
      rw [Host.operation_set (hother c hc.mem)]
      exact hs.busy c ((hrun c).mp hc)
    lifecycle := hs.lifecycle
    peers := hs.peers
    verdict := by
      intro c
      by_cases hne : c = id
      · subst hne
        rw [Host.set_progress_self]
        exact hp.trans took_set.symm
      · rw [Host.set_progress_of_ne hne]
        have hover : Host.Over { s with turn } c ↔ s.Over c :=
          or_congr (hreturning c hne true) (and_congr_left' (hrun c))
        have htook : Host.Took { s with turn } unsent c (s.progress c) ↔
            s.Took unsent c (s.progress c) := took_congr rfl fun _ => and_congr_left' hover
        exact (hs.verdict c).trans (htook.symm.trans took_set.symm) }

theorem returned [DecidableEq Path] (hs : Sound unsent s) {turn : Turn} {f : Bool}
    (hturn : Orderly turn) (hafter : ∀ c, ¬ Running turn c) (hbefore : ∀ c, ¬ Running s.turn c)
    (hreturning : ∀ c g, Returning s.turn c g ↔ c = id ∧ g = f)
    (hgone : ∀ c g, ¬ Returning turn c g) (hcallers : (callers s.turn).Perm (id :: callers turn)) :
    Sound unsent (Host.returned { s with turn } id f) := by
  have hleave (p : Progress)
      (hp : s.hosting.accepted id = true ↔ Host.Took { s with turn } unsent id p) :
      Sound unsent (Host.set { s with turn } id p) := by
    refine hs.leave hturn (fun c => iff_of_false (hafter c) (hbefore c)) ?_ hcallers hp
    intro c hne g
    exact iff_of_false (hgone c g) fun h => hne ((hreturning c g).mp h).1
  have hover : s.Over id ↔ f = true := by
    refine (or_iff_left fun h => hbefore id h.1).trans ((hreturning id true).trans ?_)
    simp [eq_comm]
  obtain ⟨op, hop⟩ := hs.waiting id (hcallers.mem_iff.mpr List.mem_cons_self)
  cases f with
  | false =>
    have hnot := hs.not_accepted (fun h => Bool.false_ne_true (hover.mp h)) hop
    refine hleave .rejected (iff_of_false (Bool.eq_false_iff.mp hnot) ?_)
    exact fun h => Bool.eq_false_iff.mp hnot h.1
  | true =>
    rcases operation_cases hop with ⟨hp, -⟩ | ⟨path, url, shared, hp, hrequest, -⟩
    · have hnot : s.hosting.accepted id ≠ true := fun h => by
        have htook := (hs.verdict id).mp h
        rwa [hp] at htook
      have heq : Host.returned { s with turn } id true = Host.set { s with turn } id .ensured := by
        simp [Host.returned, hp]
      rw [heq]
      exact hleave .ensured (iff_of_false hnot fun h => h)
    · have heq : Host.returned { s with turn } id true =
          Host.completeJoin { s with turn } id path shared := by
        simp [Host.returned, hp, hrequest]
      rw [heq]
      refine sound_completeJoin hleave ?_
      rw [hs.verdict id, hp]
      constructor
      · rintro ⟨-, path', url', shared', hrequest', hhosts⟩
        cases hrequest.symm.trans hrequest'
        exact hhosts
      · exact fun hhosts => ⟨hover.mpr rfl, path, url, shared, hrequest, hhosts⟩

/-- The job at the head of the queue. -/
theorem job [DecidableEq Path] (hs : Sound unsent s) {turn : Turn} {e : Turns.Effect}
    (hrun : run s.turn = some (turn, e)) : Sound unsent (Host.runJob { s with turn } e) := by
  obtain ⟨hturn, hfollows⟩ := run_spec hs.orderly hrun
  cases e with
  | quiet =>
    obtain ⟨hrunning, hreturning, hcallers⟩ := hfollows
    exact hs.quiet hturn hrunning hreturning (hcallers.nodup_iff.mpr hs.nodup)
      fun c hc => hcallers.mem_iff.mp hc
  | started id =>
    obtain ⟨hrunning, hbefore, hnot, hreturning, hmem, hcallers⟩ := hfollows
    obtain ⟨op, hop⟩ := hs.waiting id hmem
    have hidle := hs.idle hbefore
    have heq : Host.runJob { s with turn } (.started id) =
        { s with turn, hosting := s.hosting.start op } := by
      have hop' : Host.operation { s with turn } id = some op := hop
      simp [Host.runJob, hop', Host.host]
    have hover (c : Nat) : ¬ s.Over c := by
      rintro (h | h)
      · exact hnot c true h
      · exact hbefore c h.1
    rw [heq]
    exact hs.move hturn hcallers hrunning hreturning hover hop moved_start
      (hs.lifecycle.start hidle op) fits_start body_start
  | rejected id =>
    obtain ⟨hrunning, hreturning, hcallers⟩ := hfollows
    have hout : id ∉ callers turn := (List.nodup_cons.mp (hcallers.nodup_iff.mp hs.nodup)).1
    obtain ⟨op, hop⟩ := hs.waiting id (hcallers.mem_iff.mpr List.mem_cons_self)
    have hnot : s.hosting.accepted id ≠ true := by
      refine Bool.eq_false_iff.mp (hs.not_accepted ?_ hop)
      rintro (h | h)
      · exact hout ((hreturning id true).mpr h).mem
      · exact hout ((hrunning id).mpr h.1).mem
    exact hs.leave hturn hrunning (fun c _ => hreturning c) hcallers
      (iff_of_false hnot fun h => hnot h.1)
  | returned id f =>
    obtain ⟨hafter, hbefore, hreturning, hgone, hcallers⟩ := hfollows
    exact hs.returned hturn hafter hbefore hreturning hgone hcallers

theorem ensure (hs : Sound unsent s) (hid : id ∉ callers s.turn)
    (hnot : s.hosting.accepted id = false) : Sound unsent (s.ensureComponentInstance id) := by
  unfold Host.ensureComponentInstance
  split
  · exact hs.set hid (iff_of_false (Bool.eq_false_iff.mp hnot) fun h => h)
  · exact hs.enter hid ⟨.restore, by simp [Host.operation]⟩ hnot

/-- A request of which nothing is known yet. -/
theorem request (hs : Sound unsent s) (hnone : s.requests id = none) (habsent : s.progress id = .absent)
    (request : Request Path) :
    Sound unsent { s with requests := Function.update s.requests id (some request) } := by
  have hother (c : Nat) (hne : c ≠ id) :
      Function.update s.requests id (some request) c = s.requests c := Function.update_of_ne hne _ _
  have hout : id ∉ callers s.turn := hs.not_caller (by simp [habsent]) (by simp [habsent])
  have hoperation (c : Nat) (hc : c ∈ callers s.turn) :
      Host.operation { s with requests := Function.update s.requests id (some request) } c =
        s.operation c := by
    simp only [Host.operation, hother c fun heq => hout (heq ▸ hc)]
  exact {
    orderly := hs.orderly
    nodup := hs.nodup
    waiting := fun c hc => (hoperation c hc).symm ▸ hs.waiting c hc
    idle := hs.idle
    busy := fun c hc => (hoperation c hc.mem).symm ▸ hs.busy c hc
    lifecycle := hs.lifecycle
    peers := by
      refine ⟨?_, hs.peers.attached⟩
      intro a ha
      obtain ⟨path, url, shared, c, hrequest, hc⟩ := hs.peers.own a ha
      have hne : a.1 ≠ id := by
        rintro heq
        rw [heq, hnone] at hrequest
        cases hrequest
      exact ⟨path, url, shared, c, (hother a.1 hne).trans hrequest, hc⟩
    verdict := by
      intro c
      have htook : Host.Took { s with requests := Function.update s.requests id (some request) }
          unsent c (s.progress c) ↔ s.Took unsent c (s.progress c) := by
        refine took_congr rfl fun hp => ?_
        have hne : c ≠ id := by
          rintro rfl
          rw [habsent] at hp
          cases hp
        simp only [Host.Took, Host.Over, hother c hne]
      exact (hs.verdict c).trans htook.symm }

/-- A peer that is turned away: its socket is accepted to be closed. -/
theorem deny (hs : Sound unsent s) (hout : id ∉ callers s.turn) :
    Sound unsent ((s.host (if s.hosting.accepted id then s.hosting
      else s.hosting.acceptWebSocket id)).set id .denied) := by
  split
  · exact hs.set hout Iff.rfl
  · rename_i hnot
    have hpeers : Peers s.requests (s.hosting.acceptWebSocket id) := by
      apply hs.peers.connect
      intro socket hsocket
      rcases List.mem_append.mp hsocket with hsocket | hsocket
      · exact .inl hsocket
      · rw [List.mem_singleton] at hsocket
        exact .inr (hsocket ▸ Bool.eq_false_iff.mpr hnot)
    have hhost : Sound unsent (s.host (s.hosting.acceptWebSocket id)) :=
      hs.host (hs.lifecycle.connect _ _) hpeers rfl rfl rfl
    exact hhost.set hout Iff.rfl

theorem resume (hs : Sound unsent s) {completion : Completion} {hosting : Hosting Path}
    {op : Operation Path} (hop : s.owner.bind s.operation = some op)
    (hnext : s.hosting.resume op completion = some hosting) : Sound unsent (s.host hosting) := by
  obtain ⟨id, howner, hop⟩ := Option.bind_eq_some_iff.mp hop
  have hrun := running_owner howner
  have hover (c : Nat) : ¬ s.Over c := by
    rintro (h | ⟨-, hended⟩)
    · exact hs.orderly.not_returning hrun c true h
    · simp [Hosting.resume, hended] at hnext
  obtain ⟨hmoved, hfits⟩ := moved_resume hs.lifecycle ((hs.busy id hrun).2 op hop) hnext
  exact hs.move hs.orderly rfl (fun c => hrun.iff_eq) (hs.orderly.not_returning hrun) hover hop hmoved
    (hs.lifecycle.resume hnext) hfits (body_resume hnext)

variable [DecidableEq Path]

theorem proceed (hs : Sound unsent s) (hp : s.progress id = .ensured) {request : Request Path}
    (hrequest : s.requests id = some request) : Sound unsent (s.proceed id request) := by
  have hout : id ∉ callers s.turn := hs.not_caller (by simp [hp]) (by simp [hp])
  have hnot : s.hosting.accepted id ≠ true := fun h => by
    have htook := (hs.verdict id).mp h
    rwa [hp] at htook
  have hset {p : Progress} (htook : ¬ s.Took unsent id p) : Sound unsent (s.set id p) :=
    hs.set hout (iff_of_false hnot htook)
  cases request with
  | join path url shared =>
    have henter : Sound unsent (s.initializeComponent id .joining) := by
      refine hs.enter hout ⟨.join id path url, ?_⟩ (Bool.eq_false_iff.mpr hnot)
      have hrequest' : (s.set id .joining).requests id = some (.join path url shared) := hrequest
      simp only [Host.operation, Host.set_progress_self, hrequest']
    cases hc : s.hosting.componentInstance with
    | none => simpa only [Host.proceed, hc] using henter
    | some c =>
      simp only [Host.proceed, hc]
      split
      · exact hset (by simp [Host.Took])
      · exact henter
  | state =>
    refine hset ?_
    split <;> simp [Host.Took]
  | message socket =>
    cases hc : s.hosting.componentInstance with
    | none =>
      simp only [Host.proceed, hc]
      exact hset fun h => h
    | some c =>
      simp only [Host.proceed, hc]
      have hserved : Sound unsent (s.host (s.hosting.serve socket c)) :=
        hs.host (hs.lifecycle.serve hc socket) ⟨hs.peers.own, hs.peers.attached⟩ rfl rfl rfl
      exact hserved.set (p := .dispatched) hout (iff_of_false hnot fun h => h)

theorem step (hs : Sound unsent s) {e : Event Path} (hallowed : ∀ id, e = .sent id false → unsent id)
    (hnext : s.step e = some t) : Sound unsent t := by
  have hnot {id : Nat} (h : ¬ s.Took unsent id (s.progress id)) : s.hosting.accepted id = false :=
    Bool.eq_false_iff.mpr fun hthere => h ((hs.verdict id).mp hthere)
  cases e with
  | arrive id request =>
    simp only [Host.step, Option.ite_none_right_eq_some, Option.some.injEq] at hnext
    obtain ⟨⟨hnone, habsent, -⟩, rfl⟩ := hnext
    have hout : id ∉ callers s.turn := hs.not_caller (by simp [habsent]) (by simp [habsent])
    have hfresh : s.hosting.accepted id = false := hnot (by simp [habsent, Host.Took])
    have hrequest := hs.request hnone habsent request
    cases request with
    | join path url shared =>
      exact hrequest.set hout (iff_of_false (Bool.eq_false_iff.mp hfresh) fun h => h)
    | state => exact hrequest.set hout (iff_of_false (Bool.eq_false_iff.mp hfresh) fun h => h)
    | message socket => exact hrequest.ensure hout hfresh
  | authorize id =>
    simp only [Host.step, Option.ite_none_right_eq_some, Option.some.injEq] at hnext
    obtain ⟨hp, rfl⟩ := hnext
    exact hs.ensure (hs.not_caller (by simp [hp]) (by simp [hp])) (hnot (by simp [hp, Host.Took]))
  | refuse id =>
    simp only [Host.step, Option.ite_none_right_eq_some, Option.some.injEq] at hnext
    obtain ⟨hp, rfl⟩ := hnext
    have hfresh : s.hosting.accepted id = false := hnot (by simp [hp, Host.Took])
    have hout : id ∉ callers s.turn := hs.not_caller (by simp [hp]) (by simp [hp])
    have hdenied := hs.deny hout
    simpa only [hfresh, Bool.false_eq_true, if_false] using hdenied
  | read id fulfilled =>
    simp only [Host.step, Option.ite_none_right_eq_some, Option.some.injEq] at hnext
    obtain ⟨hp, rfl⟩ := hnext
    have hfresh : s.hosting.accepted id = false := hnot (by simp [hp, Host.Took])
    have hout : id ∉ callers s.turn := hs.not_caller (by simp [hp]) (by simp [hp])
    unfold Host.read
    split
    · exact hs.set hout (iff_of_false (Bool.eq_false_iff.mp hfresh)
        fun h => Bool.eq_false_iff.mp hfresh h.1)
    · split
      · exact hs.ensure hout hfresh
      · exact hs.set hout (iff_of_false (Bool.eq_false_iff.mp hfresh) (by simp [Host.Took]))
  | proceed id =>
    simp only [Host.step, Option.ite_none_right_eq_some, Option.map_eq_some_iff] at hnext
    obtain ⟨hp, request, hrequest, rfl⟩ := hnext
    exact hs.proceed hp hrequest
  | job =>
    simp only [Host.step, Option.map_eq_some_iff] at hnext
    obtain ⟨⟨turn, e⟩, hrun, rfl⟩ := hnext
    exact hs.job hrun
  | resume completion =>
    simp only [Host.step] at hnext
    cases hop : s.owner.bind s.operation with
    | none => simp [hop] at hnext
    | some op =>
      simp only [hop, Option.map_eq_some_iff] at hnext
      obtain ⟨hosting, hnext, rfl⟩ := hnext
      exact hs.resume hop hnext
  | settle =>
    simp only [Host.step] at hnext
    cases hbody : s.hosting.body <;> simp [hbody] at hnext
    subst hnext
    exact hs.settle hbody
  | sent id fulfilled =>
    simp only [Host.step, Option.ite_none_right_eq_some, Option.some.injEq] at hnext
    obtain ⟨hp, rfl⟩ := hnext
    have hthere : s.hosting.accepted id = true := (hs.verdict id).mpr (by simp [hp, Host.Took])
    have hout : id ∉ callers s.turn := hs.not_caller (by simp [hp]) (by simp [hp])
    cases fulfilled with
    | true => exact hs.set hout (iff_of_true hthere rfl)
    | false => exact hs.set hout (iff_of_true hthere ⟨hthere, hallowed id rfl⟩)
  | conclude id authorized =>
    simp only [Host.step] at hnext
    cases hp : s.progress id <;> simp [hp] at hnext
    rename_i status
    subst hnext
    have hout : id ∉ callers s.turn := hs.not_caller (by simp [hp]) (by simp [hp])
    cases authorized with
    | true =>
      refine hs.set hout ((hs.verdict id).trans ?_)
      rw [hp]
      exact Iff.rfl
    | false => exact hs.deny hout
  | close socket =>
    simp only [Host.step, Option.some.injEq] at hnext
    subst hnext
    refine hs.host (hs.lifecycle.connect _ _) (hs.peers.connect ?_) rfl rfl rfl
    intro other hother
    exact .inl (List.mem_of_mem_filter hother)

end Sound

/-- Only the operations change what the object hosts. -/
theorem hosting_step [DecidableEq Path] (hs : Sound unsent s) {e : Event Path}
    (hnext : s.step e = some t) :
    t.hosting.componentInstance = s.hosting.componentInstance ∨
      ∃ op, Moved op s.hosting t.hosting := by
  have hensure (s : Host Path) (id : Nat) : (s.ensureComponentInstance id).hosting = s.hosting := by
    unfold Host.ensureComponentInstance
    split <;> rfl
  cases e with
  | arrive id request =>
    simp only [Host.step, Option.ite_none_right_eq_some, Option.some.injEq] at hnext
    obtain ⟨-, rfl⟩ := hnext
    cases request with
    | message socket => exact .inl (by simp only [Host.arrive, hensure])
    | _ => exact .inl rfl
  | authorize id =>
    simp only [Host.step, Option.ite_none_right_eq_some, Option.some.injEq] at hnext
    obtain ⟨-, rfl⟩ := hnext
    exact .inl (by rw [hensure])
  | refuse id =>
    simp only [Host.step, Option.ite_none_right_eq_some, Option.some.injEq] at hnext
    obtain ⟨-, rfl⟩ := hnext
    exact .inl rfl
  | read id fulfilled =>
    simp only [Host.step, Option.ite_none_right_eq_some, Option.some.injEq] at hnext
    obtain ⟨-, rfl⟩ := hnext
    unfold Host.read
    split
    · exact .inl rfl
    · split
      · exact .inl (by rw [hensure])
      · exact .inl rfl
  | proceed id =>
    simp only [Host.step, Option.ite_none_right_eq_some, Option.map_eq_some_iff] at hnext
    obtain ⟨-, request, -, rfl⟩ := hnext
    left
    cases request with
    | join path url shared =>
      simp only [Host.proceed]
      split
      · split <;> rfl
      · rfl
    | state => rfl
    | message socket =>
      simp only [Host.proceed]
      split <;> rfl
  | job =>
    simp only [Host.step, Option.map_eq_some_iff] at hnext
    obtain ⟨⟨turn, e⟩, -, rfl⟩ := hnext
    cases e with
    | quiet => exact .inl rfl
    | started id =>
      cases hop : Host.operation { s with turn } id with
      | none => exact .inl (by simp [Host.runJob, hop])
      | some op =>
        refine .inr ⟨op, ?_⟩
        simp only [Host.runJob, hop, Option.map_some, Option.getD_some]
        exact moved_start
    | rejected id => exact .inl rfl
    | returned id f =>
      left
      simp only [Host.runJob, Host.returned]
      split
      · rfl
      · split
        · rfl
        · unfold Host.completeJoin
          split
          · rfl
          · split
            · rfl
            · dsimp only
              split <;> split <;> rfl
        · rfl
  | resume completion =>
    simp only [Host.step] at hnext
    cases hop : s.owner.bind s.operation with
    | none => simp [hop] at hnext
    | some op =>
      simp only [hop, Option.map_eq_some_iff] at hnext
      obtain ⟨hosting, hnext, rfl⟩ := hnext
      obtain ⟨id, howner, hop⟩ := Option.bind_eq_some_iff.mp hop
      have hfits := (hs.busy id (running_owner howner)).2 op hop
      exact .inr ⟨op, (moved_resume hs.lifecycle hfits hnext).1⟩
  | settle =>
    simp only [Host.step] at hnext
    cases hbody : s.hosting.body <;> simp [hbody] at hnext
    subst hnext
    exact .inl rfl
  | sent id fulfilled =>
    simp only [Host.step, Option.ite_none_right_eq_some, Option.some.injEq] at hnext
    obtain ⟨-, rfl⟩ := hnext
    exact .inl rfl
  | conclude id authorized =>
    simp only [Host.step] at hnext
    cases hp : s.progress id <;> simp [hp] at hnext
    subst hnext
    unfold Host.conclude
    split
    · exact .inl rfl
    · dsimp only
      split <;> exact .inl rfl
  | close socket =>
    simp only [Host.step, Option.some.injEq] at hnext
    subst hnext
    exact .inl rfl

theorem sound_opened (stored : Stored Path) (sockets : List Nat) :
    Sound unsent (Host.opened stored sockets) where
  orderly := orderly_free
  nodup := List.nodup_nil
  waiting _ hc := nomatch hc
  idle _ := rfl
  busy c hc := nomatch hc.mem
  lifecycle :=
    { alone := fun _ => rfl
      live := fun i hi => absurd hi.1 (Nat.not_lt_zero i)
      held := fun c hc => by rcases hc with hc | hc <;> cases hc
      once := List.nodup_nil
      disposed := fun _ hi => nomatch hi
      failed := fun _ hi => nomatch hi
      shown := fun c hc => by rcases hc with hc | ⟨_, hc⟩ | ⟨_, hc⟩ <;> cases hc }
  peers := ⟨fun _ ha => (nomatch ha), fun _ ha => (nomatch ha)⟩
  verdict _ := iff_of_false nofun fun h => h

/-! ## Section 6: Every run -/

/-- A join that the authorizer let through has come to its end. -/
def Host.Settled (s : Host Path) (id : Nat) : Prop :=
  (∃ status, s.progress id = .answered status) ∨ s.progress id = .rejected

variable [DecidableEq Path]

theorem sound_exec {stored : Stored Path} {sockets : List Nat} {events : List (Event Path)}
    (h : Runs.exec Host.step (Host.opened stored sockets) events = some s) :
    Sound (fun id => .sent id false ∈ events) s := by
  have hrun : Runs.Run Host.step (fun _ e => e ∈ events) (Host.opened stored sockets) s :=
    Runs.run_of_exec h (Runs.admits_of_forall (fun e he _ => he) _)
  refine hrun.invariant (sound_opened stored sockets) ?_
  intro u v e hu he hnext
  exact hu.step (fun id heq => heq ▸ he) hnext

/-- Whatever happens to an object: it has one component that is not disposed; a
    component whose setup failed is disposed once, accepts no peer and serves no
    message; a join is accepted exactly when it is answered with 101, by the
    component of its own path, which stays as long as the socket is open; and the
    hosted component only goes while no socket is open.  A peer whose first state
    frame cannot be sent gets no answer. -/
theorem hosted_component {stored : Stored Path} {sockets : List Nat} {events : List (Event Path)}
    (h : Runs.exec Host.step (Host.opened stored sockets) events = some s) :
    (∀ i j, s.hosting.Undisposed i → s.hosting.Undisposed j → i = j) ∧
    (∀ i ∈ s.hosting.failures, s.hosting.disposals.count i = 1 ∧
      (∀ a ∈ s.hosting.acceptances, ∀ c, a.2 = some c → c.id ≠ i) ∧
      ∀ m ∈ s.hosting.served, m.2.id ≠ i) ∧
    (∀ id, .sent id false ∉ events → s.Settled id →
      (s.hosting.accepted id = true ↔ s.progress id = .answered 101)) ∧
    (∀ a ∈ s.hosting.acceptances, ∃ path url shared c,
      s.requests a.1 = some (.join path url shared) ∧ a.2 = some c ∧ c.rpcOwner = path ∧
      (a.1 ∈ s.hosting.sockets →
        s.hosting.componentInstance = some c ∧ s.hosting.Undisposed c.id)) ∧
    ∀ e t, s.step e = some t → s.hosting.sockets ≠ [] → s.hosting.componentInstance.isSome →
      t.hosting.componentInstance = s.hosting.componentInstance := by
  have hs := sound_exec h
  have hl := hs.lifecycle
  refine ⟨?_, ?_, ?_, ?_, ?_⟩
  · intro i j hi hj
    obtain ⟨c, hc, rfl⟩ := hl.live i hi
    obtain ⟨d, hd, rfl⟩ := hl.live j hj
    exact congrArg Component.id (hl.unique hc hd)
  · intro i hi
    have hfailed (c : Component Path) (hc : s.hosting.Shown c) : c.id ≠ i := by
      rintro rfl
      exact (hl.shown c hc).2.1 hi
    refine ⟨List.count_eq_one_of_mem hl.once (hl.failed i hi), ?_, ?_⟩
    · intro a ha c hc
      exact hfailed c (.inr (.inl ⟨a.1, hc ▸ ha⟩))
    · intro m hm
      exact hfailed m.2 (.inr (.inr ⟨m.1, hm⟩))
  · intro id hsent hsettled
    rw [hs.verdict id]
    rcases hsettled with ⟨status, hp⟩ | hp
    · simp [hp, Host.Took]
    · simp [hp, Host.Took, hsent]
  · intro a ha
    obtain ⟨path, url, shared, c, hrequest, hc, howner⟩ := hs.peers.own a ha
    refine ⟨path, url, shared, c, hrequest, hc, howner, ?_⟩
    intro hopen
    have hhosted := (hs.peers.attached a ha hopen).trans hc
    exact ⟨hhosted, hl.held c (.inl hhosted)⟩
  · intro e t hnext hopen hsome
    rcases hosting_step hs hnext with hsame | ⟨op, hmoved⟩
    · exact hsame
    · cases hmoved with
      | quiet hinstance => exact hinstance
      | discarded hempty => exact absurd hempty hopen
      | published _ hnone => simp [hnone] at hsome
      | accepted socket path url c _ hfrom hinstance =>
        rcases hfrom with hnone | hsame
        · simp [hnone] at hsome
        · exact hinstance.trans hsame.symm

/-- A stateful component restored from nothing: its first peer joins. -/
def firstJoin : List (Event Nat) :=
  [.arrive 0 (.join 7 "/live" false), .authorize 0, .job, .resume .fulfilled, .settle, .job, .job,
    .proceed 0, .job, .resume (.found true), .resume .fulfilled, .resume .fulfilled,
    .resume .fulfilled, .settle, .job, .job, .sent 0 true, .conclude 0 true]

theorem hosted_component_first : ∃ s : Host Nat,
    Runs.exec Host.step (Host.opened ⟨false, none, none⟩ []) firstJoin = some s ∧
      s.progress 0 = .answered 101 ∧ s.hosting.accepted 0 = true := by
  have hanswer : (Runs.exec Host.step (Host.opened ⟨false, none, none⟩ []) firstJoin).map
      (Host.progress · 0) = some (.answered 101) := rfl
  obtain ⟨s, hs, hp⟩ := Option.map_eq_some_iff.mp hanswer
  have hjoined := (hosted_component hs).2.2.1 0 (by decide) (.inl ⟨101, hp⟩)
  exact ⟨s, hs, hp, hjoined.mpr hp⟩

end Cossack.Core.DurableObject
