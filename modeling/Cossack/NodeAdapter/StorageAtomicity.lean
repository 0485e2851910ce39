import Cossack.NodeAdapter.StoragePutSteps
import Mathlib

/-! # Storage operations are atomic

    The manifest of a key is what the calls on it have made of it, one after the other
    in the order in which they were called.  Whatever fails and whenever a call is
    aborted, what a call has not done by its rename or its unlink it has not done. -/

namespace Cossack.NodeAdapter.LocalStorage

open PromiseChains (Chains Chained view)
open Runs

/-! ## Section 1: The calls in their order -/

/-- What the calls have made of the manifest of a key, in the order of the calls. -/
def after (p : Platform) (keyPrefix : Text) (m : Option Manifest) (calls : List Call) : Option Manifest :=
  calls.foldl (fun m call => if p.keyPrefix call.key = keyPrefix then call.phase.effect.getD m else m) m

/-- The call has had its turn. -/
def Phase.begun : Phase → Bool
  | .waiting | .settled (.rejected _) => false
  | _ => true

section calls

variable {p : Platform} {keyPrefix : Text} {m : Option Manifest} {calls : List Call} {i : Nat}
  {call call' : Call}

theorem after_append (a b : List Call) :
    after p keyPrefix m (a ++ b) = after p keyPrefix (after p keyPrefix m a) b := List.foldl_append ..

theorem after_idle (h : ∀ c ∈ calls, p.keyPrefix c.key = keyPrefix → c.phase.effect = none) :
    after p keyPrefix m calls = m := by
  induction calls generalizing m with
  | nil => rfl
  | cons c calls ih =>
    show after p keyPrefix (if _ then _ else _) calls = m
    rw [ih fun d hd => h d (List.mem_cons_of_mem _ hd)]
    split
    · rw [h c List.mem_cons_self ‹_›]
      rfl
    · rfl

theorem split_call (hcall : calls[i]? = some call) :
    calls = calls.take i ++ call :: calls.drop (i + 1) := by
  obtain ⟨hlt, rfl⟩ := List.getElem?_eq_some_iff.mp hcall
  rw [List.cons_getElem_drop_succ, List.take_append_drop]

theorem split_set (hcall : calls[i]? = some call) (call' : Call) :
    calls.set i call' = calls.take i ++ call' :: calls.drop (i + 1) := by
  obtain ⟨hlt, -⟩ := List.getElem?_eq_some_iff.mp hcall
  rw [List.set_eq_take_append_cons_drop, if_pos hlt]

/-- A call that does to the key what it did before. -/
theorem after_set (hcall : calls[i]? = some call) (hkey : call'.key = call.key)
    (heffect : p.keyPrefix call.key = keyPrefix → call'.phase.effect = call.phase.effect) :
    after p keyPrefix m (calls.set i call') = after p keyPrefix m calls := by
  rw [split_set hcall, after_append]
  nth_rewrite 3 [split_call hcall]
  rw [after_append]
  show after p keyPrefix (if _ then _ else _) _ = after p keyPrefix (if _ then _ else _) _
  rw [hkey]
  by_cases h : p.keyPrefix call.key = keyPrefix
  · rw [if_pos h, if_pos h, heffect h]
  · rw [if_neg h, if_neg h]

/-- What the key is when the calls after this one have not had their turn. -/
theorem after_last (hcall : calls[i]? = some call) (hkey : p.keyPrefix call.key = keyPrefix)
    (hlater : ∀ j c, i < j → calls[j]? = some c → p.keyPrefix c.key = keyPrefix → c.phase.effect = none) :
    after p keyPrefix m calls = call.phase.effect.getD (after p keyPrefix m (calls.take i)) := by
  nth_rewrite 1 [split_call hcall]
  rw [after_append]
  show after p keyPrefix (if _ then _ else _) _ = _
  rw [if_pos hkey]
  refine after_idle fun c hc hsame => ?_
  obtain ⟨n, hn⟩ := List.mem_iff_getElem?.mp hc
  rw [List.getElem?_drop] at hn
  exact hlater (i + 1 + n) c (by omega) hn hsame

/-- A manifest was there before, or a call has stored it. -/
theorem after_source {m' : Manifest} (h : after p keyPrefix m calls = some m') :
    m = some m' ∨ ∃ (j : Nat) (c : Call), calls[j]? = some c ∧ p.keyPrefix c.key = keyPrefix ∧
      c.phase.effect = some (some m') := by
  induction calls generalizing m with
  | nil => exact .inl h
  | cons c calls ih =>
    rcases ih h with hfirst | ⟨j, d, hd, hkey, heffect⟩
    · dsimp only at hfirst
      split at hfirst
      · rename_i hkey
        cases heffect : c.phase.effect with
        | none =>
          rw [heffect] at hfirst
          exact .inl hfirst
        | some effect =>
          rw [heffect] at hfirst
          obtain rfl : effect = some m' := hfirst
          exact .inr ⟨0, c, rfl, hkey, heffect⟩
      · exact .inl hfirst
    · exact .inr ⟨j + 1, d, hd, hkey, heffect⟩

theorem begun_of_effect {phase : Phase} {effect : Option Manifest} (h : phase.effect = some effect) :
    phase.begun = true := by
  cases phase with
  | waiting => cases h
  | settled result =>
    cases result with
    | rejected aborted => cases h
    | _ => rfl
  | _ => rfl

theorem begun_of_answers {phase : Phase} {m : Option Manifest} (h : phase.answers m) :
    phase.begun = true ∧ phase.isSettled = true := by
  rcases h with rfl | rfl | ⟨-, rfl⟩ <;> exact ⟨rfl, rfl⟩

end calls

/-! ## Section 2: What other calls leave alone -/

section frame

variable {p : Platform} {i : Nat} {files files' : Files} {call call' : Call}

theorem stored_of_effect {m : Manifest} (h : Fits p i files call)
    (heffect : call.phase.effect = some (some m)) : Stored p i files call m := by
  cases hphase : call.phase with
  | unlinkingPrevious w previous m' =>
    rw [hphase] at heffect
    obtain rfl : m' = m := Option.some.inj (Option.some.inj heffect)
    simp only [Fits, hphase] at h
    exact h.1.1
  | clearing w published =>
    cases published with
    | error e =>
      rw [hphase] at heffect
      cases heffect
    | ok m' =>
      rw [hphase] at heffect
      obtain rfl : m' = m := Option.some.inj (Option.some.inj heffect)
      simp only [Fits, hphase] at h
      exact h.1
  | settled result =>
    cases result with
    | stored m' =>
      rw [hphase] at heffect
      obtain rfl : m' = m := Option.some.inj (Option.some.inj heffect)
      simpa only [Fits, hphase] using h
    | removed m' =>
      rw [hphase] at heffect
      cases m' <;> cases heffect
    | _ =>
      rw [hphase] at heffect
      cases heffect
  | _ =>
    rw [hphase] at heffect
    cases heffect

theorem Stored.uuid {m : Manifest} (h : Stored p i files call m) :
    m.file.keyPrefix = p.keyPrefix call.key ∧ ∃ again, m.file.uuid = .drawn i again := by
  obtain ⟨metadata, given, now, again, -, -, hm, -, -⟩ := h
  have hfile := congrArg Manifest.file hm
  exact ⟨congrArg Name.keyPrefix hfile, again, congrArg Name.uuid hfile⟩

/-- The files of the UUIDs that a call draws. -/
def SameOwn (i : Nat) (files files' : Files) : Prop :=
  ∀ name : Name, (∃ again, name.uuid = .drawn i again) →
    files'.contents name = files.contents name ∧ files'.temporaries name = files.temporaries name

/-- The manifest and the blobs of a key. -/
def SameKey (keyPrefix : Text) (files files' : Files) : Prop :=
  files'.manifests keyPrefix = files.manifests keyPrefix ∧
    ∀ name : Name, name.keyPrefix = keyPrefix → files'.blobs name = files.blobs name

theorem Stored.frame {m : Manifest} (h : Stored p i files call m) (hown : SameOwn i files files')
    (hkey : call'.key = call.key) (hwork : call'.work = call.work) : Stored p i files' call' m := by
  have hcontents := (hown m.file h.uuid.2).1
  unfold Stored
  rwa [hcontents, hkey, hwork]

/-- What holds of a call holds after a step of another one. -/
theorem Fits.frame (h : Fits p i files call) (hown : SameOwn i files files')
    (hsame : call.phase.begun = true → call.phase.isSettled = false →
      SameKey (p.keyPrefix call.key) files files')
    (aborted : Bool) : Fits p i files' { call with aborted } := by
  have hfresh {w : Writing} (hw : Fresh p i call w) {phase : Phase} :
      Fresh p i { call with aborted, phase } w := ⟨hw.name, hw.previous⟩
  have hfiles {w : Writing} (hw : Fresh p i call w) :
      files'.contents w.name = files.contents w.name ∧
        files'.temporaries w.name = files.temporaries w.name :=
    hown w.name ⟨call.again, by rw [hw.name]; rfl⟩
  have hstem {w : Writing} (hw : Fresh p i call w) : w.name.keyPrefix = p.keyPrefix call.key := by
    rw [hw.name]
    rfl
  have hcomplete {metadata : ObjectOptions} {given : Body} {w : Writing}
      (hw : Complete p i files call metadata given w) (hblobs : SameKey (p.keyPrefix call.key) files files')
      {phase : Phase} : Complete p i files' { call with aborted, phase } metadata given w :=
    ⟨hw.work, hfresh hw.fresh, (hblobs.2 _ (hstem hw.fresh)).trans hw.blob,
      (hfiles hw.fresh).1.trans hw.contents, hw.whole, hw.length⟩
  have hlooks {m : Option Manifest} (hblobs : SameKey (p.keyPrefix call.key) files files')
      (hm : files.manifests (p.keyPrefix call.key) = m) : files'.manifests (p.keyPrefix call.key) = m :=
    hblobs.1.trans hm
  cases hphase : call.phase with
  | waiting | preparing | inspecting | dropping =>
    simp only [Fits, hphase] at h ⊢
    exact h
  | opening m | sizing m | unlinking m =>
    simp only [Fits, hphase] at h ⊢
    exact ⟨hlooks (hsame (by rw [hphase]; rfl) (by rw [hphase]; rfl)) h.1, h.2⟩
  | unlinkingBlob m =>
    simp only [Fits, hphase] at h ⊢
    exact ⟨hlooks (hsame (by rw [hphase]; rfl) (by rw [hphase]; rfl)) h.1, h.2⟩
  | creating w =>
    simp only [Fits, hphase] at h ⊢
    exact ⟨hfresh h.1, h.2⟩
  | reading w =>
    simp only [Fits, hphase] at h ⊢
    obtain ⟨metadata, given, hwork, hw, hblob, hcontents, hgives⟩ := h
    have hblobs := hsame (by rw [hphase]; rfl) (by rw [hphase]; rfl)
    exact ⟨metadata, given, hwork, hfresh hw, (hblobs.2 _ (hstem hw)).trans hblob,
      (hfiles hw).1.trans hcontents, hgives⟩
  | writing w chunk rest =>
    simp only [Fits, hphase] at h ⊢
    obtain ⟨metadata, given, hwork, hw, hblob, hcontents, hgives⟩ := h
    have hblobs := hsame (by rw [hphase]; rfl) (by rw [hphase]; rfl)
    exact ⟨metadata, given, hwork, hfresh hw, (hblobs.2 _ (hstem hw)).trans hblob,
      by rw [(hfiles hw).1, hcontents], hgives⟩
  | syncing w | closing w =>
    simp only [Fits, hphase] at h ⊢
    obtain ⟨metadata, given, hw⟩ := h
    exact ⟨metadata, given, hcomplete hw (hsame (by rw [hphase]; rfl) (by rw [hphase]; rfl))⟩
  | creatingInfo w m | writingInfo w m =>
    simp only [Fits, hphase] at h ⊢
    obtain ⟨metadata, given, hw, hdescribes⟩ := h
    exact ⟨metadata, given, hcomplete hw (hsame (by rw [hphase]; rfl) (by rw [hphase]; rfl)), hdescribes⟩
  | syncingInfo w m | closingInfo w m | publishing w m =>
    simp only [Fits, hphase] at h ⊢
    obtain ⟨⟨metadata, given, hw, hdescribes⟩, htemporary⟩ := h
    exact ⟨⟨metadata, given, hcomplete hw (hsame (by rw [hphase]; rfl) (by rw [hphase]; rfl)), hdescribes⟩,
      (hfiles hw.fresh).2.trans htemporary⟩
  | unlinkingPrevious w previous m =>
    simp only [Fits, hphase] at h ⊢
    obtain ⟨⟨hstored, hmanifest, hname⟩, hprevious⟩ := h
    exact ⟨⟨hstored.frame hown rfl rfl,
      hlooks (hsame (by rw [hphase]; rfl) (by rw [hphase]; rfl)) hmanifest, hname⟩, hprevious⟩
  | clearing w published =>
    cases published with
    | error e =>
      simp only [Fits, hphase] at h ⊢
      exact ⟨hfresh h.1, h.2⟩
    | ok m =>
      simp only [Fits, hphase] at h ⊢
      obtain ⟨hstored, hmanifest, hname⟩ := h
      exact ⟨hstored.frame hown rfl rfl,
        hlooks (hsame (by rw [hphase]; rfl) (by rw [hphase]; rfl)) hmanifest, hname⟩
  | abandoning w e | discarding w e =>
    simp only [Fits, hphase] at h ⊢
    exact ⟨hfresh h.1, h.2⟩
  | settled result =>
    cases result with
    | stored m =>
      simp only [Fits, hphase] at h ⊢
      exact h.frame hown rfl rfl
    | _ => simp only [Fits]

end frame

/-! ## Section 3: The invariant -/

/-- The objects of a root can be read, and their files were not made by this process. -/
def Intact (p : Platform) (root : Files) : Prop :=
  ∀ keyPrefix m, root.manifests keyPrefix = some m →
    Readable p root m ∧ m.file.keyPrefix = keyPrefix ∧ ∃ n, m.file.uuid = .earlier n

def Provider.start (root : Files) : Provider := ⟨root, Chains.start, []⟩

/-- What the calls before number `i` have made of the manifest of a key. -/
def Provider.before (p : Platform) (root : Files) (s : Provider) (i : Nat) (keyPrefix : Text) : Option Manifest :=
  after p keyPrefix (root.manifests keyPrefix) (s.calls.take i)

/-- A file that is there is not reported missing. -/
def Truthful (p : Platform) (s : Provider) : Event → Prop
  | .answer i (.failed .missing _) => ∀ c, s.calls[i]? = some c → c.phase = .inspecting →
      s.files.manifests (p.keyPrefix c.key) = none
  | _ => True

/-- What holds in every run, and what holds besides when what is said to be missing is
    missing. -/
structure Invariant (p : Platform) (root : Files) (truthful : Prop) (s : Provider) : Prop where
  chained : Chained s.locks
  locks : ∀ j : Nat, view s.locks j = s.calls[j]?.map fun c => (p.keyPrefix c.key, c.phase.isSettled)
  admitted : ∀ (j : Nat) c, s.calls[j]? = some c → Admitted c
  fits : ∀ (j : Nat) c, s.calls[j]? = some c → Fits p j s.files c
  /-- A call has its turn when those on the key before it have settled. -/
  order : ∀ (j k : Nat) (c d : Call), j < k → s.calls[j]? = some c → s.calls[k]? = some d →
    p.keyPrefix c.key = p.keyPrefix d.key → d.phase.begun = true → c.phase.isSettled = true
  disk : ∀ keyPrefix, s.files.manifests keyPrefix =
    after p keyPrefix (root.manifests keyPrefix) s.calls
  present : ∀ keyPrefix m, s.files.manifests keyPrefix = some m →
    Readable p s.files m ∧ m.file.keyPrefix = keyPrefix
  kept : ∀ name n, name.uuid = .earlier n → s.files.contents name = root.contents name
  answered : ∀ (j : Nat) (c : Call) m, s.calls[j]? = some c → c.phase.answers m → (m = none → truthful) →
    s.before p root j (p.keyPrefix c.key) = m ∧ ∀ m', m = some m' → m'.key = c.key

section invariant

variable {p : Platform} {root : Files} {truthful : Prop} {s : Provider} {i : Nat} {a : Answer} {files' : Files}
  {call call' : Call}

theorem invariant_start (hroot : Intact p root) : Invariant p root truthful (.start root) := by
  have hnone {P : Prop} (j : Nat) (c : Call) (hc : (Provider.start root).calls[j]? = some c) : P := by
    simp [Provider.start] at hc
  exact
    { chained := PromiseChains.chained_start
      locks := fun _ => rfl
      admitted := fun j c hc => hnone j c hc
      fits := fun j c hc => hnone j c hc
      order := fun j _ c _ _ hc _ _ _ => hnone j c hc
      disk := fun _ => rfl
      present := fun keyPrefix m hm => ⟨(hroot keyPrefix m hm).1, (hroot keyPrefix m hm).2.1⟩
      kept := fun _ _ _ => rfl
      answered := fun j c _ hc _ _ => hnone j c hc }

/-- The calls after one that is not over have no effect yet. -/
theorem Invariant.later (h : Invariant p root truthful s) (hcall : s.calls[i]? = some call)
    (hopen : call.phase.isSettled = false) (j : Nat) (c : Call) (hlt : i < j) (hc : s.calls[j]? = some c)
    (hkey : p.keyPrefix c.key = p.keyPrefix call.key) : c.phase.effect = none := by
  cases heffect : c.phase.effect with
  | none => rfl
  | some effect =>
    have := h.order i j call c hlt hcall hc hkey.symm (begun_of_effect heffect)
    rw [hopen] at this
    cases this

theorem Invariant.steady (h : Invariant p root truthful s) (hroot : Intact p root) (hcall : s.calls[i]? = some call) :
    Steady p i s.files call where
  fits := h.fits i call hcall
  admitted := h.admitted i call hcall
  present := h.present _
  own := by
    intro heffect m hm again huuid
    rw [h.disk] at hm
    rcases after_source hm with hinit | ⟨j, c, hc, -, hstored⟩
    · obtain ⟨-, -, n, hn⟩ := hroot _ m hinit
      rw [huuid] at hn
      cases hn
    · obtain ⟨-, again', hdrawn⟩ := (stored_of_effect (h.fits j c hc) hstored).uuid
      rw [huuid] at hdrawn
      obtain ⟨rfl, -⟩ := Uuid.drawn.inj hdrawn
      obtain rfl := Option.some.inj (hcall.symm.trans hc)
      rw [heffect] at hstored
      cases hstored

theorem begun_of_open {phase : Phase} (hopen : phase.isSettled = false) (hwaiting : phase ≠ .waiting) :
    phase.begun = true := by
  cases phase with
  | waiting => exact absurd rfl hwaiting
  | settled result => cases hopen
  | _ => rfl

/-- One call goes on. -/
theorem Invariant.setCall (h : Invariant p root truthful s) (hcall : s.calls[i]? = some call)
    (hopen : call.phase.isSettled = false) (hresumed : Resumed p i a s.files call files' call')
    (hwaiting : call.phase = .waiting → files' = s.files ∧ (call'.phase.begun = true →
      ∀ (j : Nat) (c : Call), j < i → s.calls[j]? = some c → p.keyPrefix c.key = p.keyPrefix call.key →
        c.phase.isSettled = true))
    (htruthful : truthful → call'.phase.answers none →
      s.files.manifests (p.keyPrefix call.key) = none) :
    Invariant p root truthful ({ s with files := files' }.setCall i call') := by
  have hstem : p.keyPrefix call'.key = p.keyPrefix call.key := by rw [hresumed.key]
  have hlt : i < s.calls.length := (List.getElem?_eq_some_iff.mp hcall).1
  have hget : ∀ (j : Nat) (c : Call), (s.calls.set i call')[j]? = some c →
      (j = i ∧ c = call') ∨ (j ≠ i ∧ s.calls[j]? = some c) := by
    intro j c hc
    rw [List.getElem?_set] at hc
    by_cases hij : i = j
    · subst hij
      rw [if_pos rfl, if_pos hlt] at hc
      exact .inl ⟨rfl, (Option.some.inj hc).symm⟩
    · rw [if_neg hij] at hc
      exact .inr ⟨Ne.symm hij, hc⟩
  have hearlier (hbegun : call'.phase.begun = true) (j : Nat) (c : Call) (hji : j < i)
      (hc : s.calls[j]? = some c) (hkey : p.keyPrefix c.key = p.keyPrefix call.key) :
      c.phase.isSettled = true := by
    by_cases hwait : call.phase = .waiting
    · exact (hwaiting hwait).2 hbegun j c hji hc hkey
    · exact h.order j i c call hji hc hcall hkey (begun_of_open hopen hwait)
  -- Another call on the key that is under way leaves no step to this one.
  have hexclusive (j : Nat) (c : Call) (hji : j ≠ i) (hc : s.calls[j]? = some c)
      (hkey : p.keyPrefix c.key = p.keyPrefix call.key) (hbegun : c.phase.begun = true)
      (hlive : c.phase.isSettled = false) : files' = s.files := by
    rcases Nat.lt_or_gt_of_ne hji with hless | hmore
    · by_cases hwait : call.phase = .waiting
      · exact (hwaiting hwait).1
      · have := h.order j i c call hless hc hcall hkey (begun_of_open hopen hwait)
        rw [hlive] at this
        cases this
    · have := h.order i j call c hmore hcall hc hkey.symm hbegun
      rw [hopen] at this
      cases this
  have hothers (j : Nat) (c : Call) (hji : j ≠ i) (hc : s.calls[j]? = some c) : Fits p j files' c := by
    refine (h.fits j c hc).frame (fun name hname => ?_) (fun hbegun hlive => ?_) c.aborted
    · obtain ⟨again, hdrawn⟩ := hname
      have hne : name ≠ call.ownName p i := by
        rintro rfl
        exact hji (Uuid.drawn.inj hdrawn).1.symm
      exact ⟨hresumed.touches.contents name hne, hresumed.touches.temporaries name hne⟩
    · by_cases hkey : p.keyPrefix c.key = p.keyPrefix call.key
      · rw [hexclusive j c hji hc hkey hbegun hlive]
        exact ⟨rfl, fun _ _ => rfl⟩
      · exact ⟨hresumed.touches.manifests _ hkey, fun name hname =>
          hresumed.touches.blobs name (by rwa [hname])⟩
  have hset : (s.calls.set i call')[i]? = some call' := by rw [List.getElem?_set_self hlt]
  -- The calls after this one have no effect yet.
  have hlater (j : Nat) (c : Call) (hij : i < j) (hc : (s.calls.set i call')[j]? = some c)
      (hkey : p.keyPrefix c.key = p.keyPrefix call.key) : c.phase.effect = none := by
    rcases hget j c hc with ⟨rfl, -⟩ | ⟨-, hc⟩
    · omega
    · exact h.later hcall hopen j c hij hc hkey
  have hnow : s.files.manifests (p.keyPrefix call.key) =
      call.phase.effect.getD (s.before p root i (p.keyPrefix call.key)) := by
    rw [h.disk]
    exact after_last hcall rfl (h.later hcall hopen)
  refine ⟨?_, ?_, ?_, ?_, ?_, ?_, ?_, ?_, ?_⟩
  · show Chained (if call'.phase.isSettled then s.locks.release i else s.locks)
    split
    · exact h.chained.release i
    · exact h.chained
  · intro j
    show view (if call'.phase.isSettled then s.locks.release i else s.locks) j = (s.calls.set i call')[j]?.map _
    have hi := h.locks i
    rw [hcall, Option.map_some, hopen] at hi
    rw [List.getElem?_set]
    by_cases hij : i = j
    · subst hij
      rw [if_pos rfl, if_pos hlt, Option.map_some, hstem]
      cases hover : call'.phase.isSettled with
      | true => rw [if_pos rfl, PromiseChains.view_release, if_pos rfl, hi, Option.map_some]
      | false => rw [if_neg Bool.false_ne_true, hi]
    · rw [if_neg hij, ← h.locks j]
      split
      · rw [PromiseChains.view_release, if_neg (Ne.symm hij)]
      · rfl
  · intro j c hc
    rcases hget j c hc with ⟨rfl, rfl⟩ | ⟨-, hc⟩
    · have hold := h.admitted j call hcall
      exact ⟨by rw [hresumed.key]; exact hold.key, by rw [hresumed.work]; exact hold.options⟩
    · exact h.admitted j c hc
  · intro j c hc
    rcases hget j c hc with ⟨rfl, rfl⟩ | ⟨hji, hc⟩
    · exact hresumed.fits
    · exact hothers j c hji hc
  · intro j k c d hjk hc hd hkey hbegun
    rcases hget j c hc with ⟨rfl, rfl⟩ | ⟨-, hc'⟩
    · rcases hget k d hd with ⟨rfl, -⟩ | ⟨-, hd'⟩
      · omega
      · have := h.order j k call d hjk hcall hd' (by rw [← hkey, hresumed.key]) hbegun
        rw [hopen] at this
        cases this
    · rcases hget k d hd with ⟨rfl, rfl⟩ | ⟨-, hd'⟩
      · exact hearlier hbegun j c hjk hc' (by rw [hkey, hresumed.key])
      · exact h.order j k c d hjk hc' hd' hkey hbegun
  · intro keyPrefix
    show files'.manifests keyPrefix = after p keyPrefix (root.manifests keyPrefix) (s.calls.set i call')
    by_cases hkey : p.keyPrefix call.key = keyPrefix
    · subst hkey
      rcases hresumed.effect with ⟨hsame, hmanifest⟩ | ⟨-, heffect⟩
      · rw [hmanifest, h.disk, after_set hcall hresumed.key fun _ => hsame]
      · rw [after_last hset hstem hlater, heffect]
        rfl
    · rw [hresumed.touches.manifests keyPrefix (Ne.symm hkey), h.disk,
        after_set hcall hresumed.key fun heq => absurd heq hkey]
  · intro keyPrefix m hm
    by_cases hkey : p.keyPrefix call.key = keyPrefix
    · subst hkey
      exact hresumed.present m hm
    · have hm' : s.files.manifests keyPrefix = some m := by
        rw [← hresumed.touches.manifests keyPrefix (Ne.symm hkey)]
        exact hm
      obtain ⟨hreadable, hstem'⟩ := h.present keyPrefix m hm'
      have hne : m.file ≠ call.ownName p i := ne_own (by rw [hstem']; exact Ne.symm hkey)
      refine ⟨⟨hreadable.readable, ?_, ?_⟩, hstem'⟩
      · rw [← hreadable.blob]
        exact hresumed.touches.blobs _ (by rw [hstem']; exact Ne.symm hkey)
      · rw [← hreadable.length]
        exact congrArg List.length (hresumed.touches.contents _ hne)
  · intro name n hname
    rw [← h.kept name n hname]
    refine hresumed.touches.contents name ?_
    rintro rfl
    cases hname
  · intro j c m hc hanswers hm
    show after p (p.keyPrefix c.key) (root.manifests (p.keyPrefix c.key)) ((s.calls.set i call').take j) =
      m ∧ ∀ m', m = some m' → m'.key = c.key
    rcases hget j c hc with ⟨rfl, rfl⟩ | ⟨hji, hc'⟩
    · have hmanifest : s.files.manifests (p.keyPrefix call.key) = m ∧ ∀ m', m = some m' → m'.key = call.key := by
        cases m with
        | none => exact ⟨htruthful (hm rfl) hanswers, nofun⟩
        | some m =>
          obtain ⟨hmanifest, hkey⟩ := hresumed.found m hanswers
          exact ⟨hmanifest, fun m' heq => by rw [← Option.some.inj heq, hkey]⟩
      have hnone : call.phase.effect = none := by
        have hquiet : c.phase.effect = none := by
          rcases hanswers with heq | heq | ⟨rfl, heq⟩ <;> rw [heq] <;> rfl
        rcases hresumed.effect with ⟨hsame, -⟩ | ⟨hnone, -⟩
        · rw [← hsame, hquiet]
        · exact hnone
      rw [hmanifest.1, hnone] at hnow
      rw [List.take_set_of_le (Nat.le_refl j), hstem, hresumed.key]
      exact ⟨hnow.symm, hmanifest.2⟩
    · obtain ⟨hbefore, hkey⟩ := h.answered j c m hc' hanswers hm
      refine ⟨?_, hkey⟩
      rw [List.take_set]
      rcases Nat.lt_or_gt_of_ne hji with hless | hmore
      · rw [List.set_eq_of_length_le (by simp; omega)]
        exact hbefore
      · have hcall' : (s.calls.take j)[i]? = some call := by rwa [List.getElem?_take_of_lt hmore]
        refine (after_set hcall' hresumed.key fun heq => ?_).trans hbefore
        have := h.order i j call c hmore hcall hc' heq (begun_of_answers hanswers).1
        rw [hopen] at this
        cases this

/-! ## Section 4: Every step -/

theorem resume_open {files : Files} {next : Files × Call} (h : resume p i files call a = some next) :
    call.phase.isSettled = false ∧ call.phase ≠ .waiting := by
  unfold resume at h
  cases hphase : call.phase with
  | settled result =>
    rw [hphase] at h
    cases hwork : call.work with
    | put metadata given =>
      rw [hwork] at h
      cases h
    | _ =>
      rw [hwork] at h
      cases h
  | waiting =>
    rw [hphase] at h
    cases hwork : call.work with
    | put metadata given =>
      rw [hwork] at h
      cases h
    | _ =>
      rw [hwork] at h
      cases h
  | _ => exact ⟨rfl, nofun⟩

/-- A step that has not failed finds nothing only where nothing is. -/
theorem Resumed.answered_ok {files files' : Files} {now : Nat}
    (h : Resumed p i (.ok now) files call files' call') (hnone : call'.phase.answers none) :
    files.manifests (p.keyPrefix call.key) = none := by
  rcases h.nothing hnone with hmanifest | ⟨-, took, heq⟩
  · exact hmanifest
  · cases heq

theorem Invariant.answer (h : Invariant p root truthful s) (hroot : Intact p root) {s' : Provider}
    (htruthful : truthful → Truthful p s (.answer i a)) (hstep : step p s (.answer i a) = some s') :
    Invariant p root truthful s' := by
  simp only [step] at hstep
  cases hcall : s.calls[i]? with
  | none =>
    rw [hcall] at hstep
    cases hstep
  | some call =>
    rw [hcall] at hstep
    obtain ⟨next, hnext, rfl⟩ := Option.map_eq_some_iff.mp hstep
    obtain ⟨hopen, hwaiting⟩ := resume_open hnext
    have hresumed := resume_resumed (h.steady hroot hcall) hnext
    refine h.setCall hcall hopen hresumed (fun heq => absurd heq hwaiting) fun hexact hnone => ?_
    rcases hresumed.nothing hnone with hmanifest | ⟨hphase, took, rfl⟩
    · exact hmanifest
    · exact htruthful hexact call hcall hphase

theorem Invariant.interrupt (h : Invariant p root truthful s) (hroot : Intact p root) {s' : Provider}
    (hstep : step p s (.interrupt i) = some s') : Invariant p root truthful s' := by
  simp only [step] at hstep
  obtain ⟨call', hcall', rfl⟩ := Option.map_eq_some_iff.mp hstep
  obtain ⟨call, hcall, hnext⟩ := Option.bind_eq_some_iff.mp hcall'
  have hsteady := h.steady hroot hcall
  simp only [LocalStorage.interrupt, Option.ite_none_right_eq_some] at hnext
  obtain ⟨-, hnext⟩ := hnext
  cases hphase : call.phase with
  | waiting =>
    rw [hphase] at hnext
    obtain rfl := Option.some.inj hnext
    have hresumed : Resumed p i (.ok 0) s.files call s.files (call.settle (.rejected true)) :=
      hsteady.calm (by rw [hphase]; rfl) .refl (calm_settle_rejected call true) trivial
    exact h.setCall hcall (by rw [hphase]; rfl) hresumed (fun _ => ⟨rfl, (by rintro ⟨⟩)⟩)
      fun _ => hresumed.answered_ok
  | reading w =>
    rw [hphase] at hnext
    obtain rfl := Option.some.inj hnext
    obtain ⟨-, -, -, hfresh, -⟩ : ∃ metadata given, call.work = .put metadata given ∧ Fresh p i call w ∧
        s.files.blobs w.name = true ∧ s.files.contents w.name = w.bytes ∧
        Gives given metadata.size call.body w.bytes := by
      simpa only [Fits, hphase] using hsteady.fits
    have hresumed : Resumed p i (.ok 0) s.files call s.files (call.abandon w true true .abort) :=
      hsteady.calm (by rw [hphase]; rfl) .refl (calm_abandon call w true true .abort)
        (fits_abandon_other hfresh (by rintro ⟨⟩))
    refine h.setCall hcall (by rw [hphase]; rfl) hresumed (fun heq => ?_) fun _ => hresumed.answered_ok
    rw [hphase] at heq
    cases heq
  | _ =>
    rw [hphase] at hnext
    cases hnext

theorem Invariant.turn (h : Invariant p root truthful s) (hroot : Intact p root) {s' : Provider}
    (hstep : step p s (.turn i) = some s') : Invariant p root truthful s' := by
  simp only [step] at hstep
  cases hcall : s.calls[i]? with
  | none =>
    rw [hcall] at hstep
    cases hstep
  | some call =>
    rw [hcall] at hstep
    cases hphase : call.phase with
    | waiting =>
      simp only [hphase, Option.ite_none_right_eq_some] at hstep
      obtain ⟨hfree, hstep⟩ := hstep
      obtain rfl := Option.some.inj hstep
      have hsteady := h.steady hroot hcall
      have hreplay : Replayable call := by simpa only [Fits, hphase] using hsteady.fits
      have heffect : call.phase.effect = none := by rw [hphase]; rfl
      have hearlier (j : Nat) (c : Call) (hji : j < i) (hc : s.calls[j]? = some c)
          (hkey : p.keyPrefix c.key = p.keyPrefix call.key) : c.phase.isSettled = true := by
        have hi := h.locks i
        have hj := h.locks j
        rw [hcall, Option.map_some] at hi
        rw [hc, Option.map_some, hkey] at hj
        exact h.chained.turn hfree hi hji hj
      have hresumed : Resumed p i (.ok 0) s.files call s.files
          (if call.aborted then call.settle (.rejected true) else { call with phase := .preparing }) := by
        split
        · exact hsteady.calm heffect .refl (calm_settle_rejected call true) trivial
        · exact hsteady.calm heffect .refl (calm_phase rfl (by rintro ⟨⟩) (by simp [Phase.answers])) hreplay
      exact h.setCall hcall (by rw [hphase]; rfl) hresumed (fun _ => ⟨rfl, fun _ => hearlier⟩)
        fun _ => hresumed.answered_ok
    | _ =>
      simp only [hphase] at hstep
      cases hstep

theorem Invariant.abort (h : Invariant p root truthful s) (i : Nat) :
    Invariant p root truthful { s with calls := s.calls.modify i fun call => { call with aborted := true } } := by
  have hget : ∀ (j : Nat) (c : Call),
      (s.calls.modify i fun call => { call with aborted := true })[j]? = some c →
      ∃ old, s.calls[j]? = some old ∧ ∃ aborted, c = { old with aborted } := by
    intro j c hc
    rw [List.getElem?_modify] at hc
    obtain ⟨old, hold, rfl⟩ := Option.map_eq_some_iff.mp hc
    refine ⟨old, hold, ?_⟩
    split
    · exact ⟨true, rfl⟩
    · exact ⟨old.aborted, rfl⟩
  have hafter (keyPrefix : Text) (m : Option Manifest) (calls : List Call) :
      after p keyPrefix m (calls.modify i fun call => { call with aborted := true }) =
        after p keyPrefix m calls := by
    cases hcall : calls[i]? with
    | none => rw [List.modify_eq_set_getElem?, hcall]; rfl
    | some call =>
      rw [List.modify_eq_set_getElem?, hcall]
      exact after_set hcall rfl fun _ => rfl
  refine ⟨h.chained, fun j => ?_, fun j c hc => ?_, fun j c hc => ?_, fun j k c d hjk hc hd hkey hbegun => ?_,
    fun keyPrefix => ?_, h.present, h.kept, fun j c m hc hanswers hm => ?_⟩
  · rw [h.locks j, List.getElem?_modify]
    cases s.calls[j]? with
    | none => rfl
    | some c => by_cases hij : i = j <;> simp [hij]
  · obtain ⟨old, hold, aborted, rfl⟩ := hget j c hc
    have hadmitted := h.admitted j old hold
    exact ⟨hadmitted.key, hadmitted.options⟩
  · obtain ⟨old, hold, aborted, rfl⟩ := hget j c hc
    exact (h.fits j old hold).frame (fun _ _ => ⟨rfl, rfl⟩) (fun _ _ => ⟨rfl, fun _ _ => rfl⟩) aborted
  · obtain ⟨old, hold, aborted, rfl⟩ := hget j c hc
    obtain ⟨old', hold', aborted', rfl⟩ := hget k d hd
    exact h.order j k old old' hjk hold hold' hkey hbegun
  · rw [hafter]
    exact h.disk keyPrefix
  · obtain ⟨old, hold, aborted, rfl⟩ := hget j c hc
    obtain ⟨hbefore, hkey⟩ := h.answered j old m hold hanswers hm
    refine ⟨?_, hkey⟩
    show after p _ _ ((s.calls.modify i _).take j) = m
    rw [List.take_modify, hafter]
    exact hbefore

/-- A call that has been checked takes its place behind the others. -/
theorem Invariant.own (h : Invariant p root truthful s) {operation : Operation} {work : Work}
    (hchecked : operation.checked = some work) (key : Text) (aborted : Bool) :
    Invariant p root truthful (s.own p work key aborted) := by
  unfold Provider.own
  split
  · rename_i hvalid
    have hkey : validKey key = true := by simpa using (Bool.and_eq_true _ _ ▸ hvalid).1
    have hlength : s.calls.length = s.locks.tickets.length := by
      by_contra hne
      rcases Nat.lt_or_gt_of_ne hne with hless | hmore
      · have := h.locks s.calls.length
        rw [List.getElem?_eq_none (Nat.le_refl _)] at this
        simp [view, List.getElem?_eq_getElem hless] at this
      · have := h.locks s.locks.tickets.length
        rw [List.getElem?_eq_getElem hmore] at this
        simp [view] at this
    let call : Call := ⟨key, work, false, false, work.body, .waiting⟩
    have hget : ∀ (j : Nat) (c : Call), (s.calls ++ [call])[j]? = some c →
        (j < s.calls.length ∧ s.calls[j]? = some c) ∨ (j = s.calls.length ∧ c = call) := by
      intro j c hc
      rcases Nat.lt_trichotomy j s.calls.length with hlt | rfl | hgt
      · exact .inl ⟨hlt, by rwa [List.getElem?_append_left hlt] at hc⟩
      · exact .inr ⟨rfl, by simpa using hc.symm⟩
      · rw [List.getElem?_eq_none (by simp; omega)] at hc
        cases hc
    refine ⟨h.chained.take _, fun j => ?_, fun j c hc => ?_, fun j c hc => ?_,
      fun j k c d hjk hc hd hsame hbegun => ?_, fun keyPrefix => ?_, h.present, h.kept,
      fun j c m hc hanswers hm => ?_⟩
    · rw [PromiseChains.view_take, ← hlength, h.locks j]
      rcases Nat.lt_trichotomy j s.calls.length with hlt | rfl | hgt
      · rw [if_neg (by omega), List.getElem?_append_left hlt]
      · simp [Phase.isSettled]
      · rw [if_neg (by omega), List.getElem?_eq_none (by omega), List.getElem?_eq_none (by simp; omega)]
    · rcases hget j c hc with ⟨-, hc⟩ | ⟨-, rfl⟩
      · exact h.admitted j c hc
      · refine ⟨hkey, fun metadata given hwork => ?_⟩
        obtain rfl : work = .put metadata given := hwork
        cases operation with
        | put options body =>
          obtain ⟨metadata', hoptions, heq⟩ := Option.map_eq_some_iff.mp hchecked
          obtain ⟨rfl, -⟩ := Work.put.inj heq
          exact ⟨options, hoptions⟩
        | _ => cases hchecked
    · rcases hget j c hc with ⟨-, hc⟩ | ⟨-, rfl⟩
      · exact h.fits j c hc
      · intro metadata given hwork
        obtain rfl : work = .put metadata given := hwork
        exact gives_start given metadata.size
    · rcases hget k d hd with ⟨-, hd'⟩ | ⟨-, rfl⟩
      · rcases hget j c hc with ⟨-, hc'⟩ | ⟨rfl, -⟩
        · exact h.order j k c d hjk hc' hd' hsame hbegun
        · have := (List.getElem?_eq_some_iff.mp hd').1
          omega
      · cases hbegun
    · show s.files.manifests keyPrefix = after p keyPrefix (root.manifests keyPrefix) (s.calls ++ [call])
      rw [after_append, ← h.disk keyPrefix]
      exact (after_idle fun c hc _ => by rw [List.mem_singleton.mp hc]; rfl).symm
    · rcases hget j c hc with ⟨hlt, hc'⟩ | ⟨-, rfl⟩
      · obtain ⟨hbefore, hsame⟩ := h.answered j c m hc' hanswers hm
        refine ⟨?_, hsame⟩
        show after p _ _ ((s.calls ++ [call]).take j) = m
        rw [List.take_append_of_le_length (Nat.le_of_lt hlt)]
        exact hbefore
      · cases (begun_of_answers hanswers).1
  · exact h

/-- What the promises of the lock do by themselves. -/
theorem Invariant.jobs (h : Invariant p root truthful s) {locks : Chains Text} (hchained : Chained locks)
    (hview : ∀ j, view locks j = view s.locks j) : Invariant p root truthful { s with locks } :=
  ⟨hchained, fun j => by rw [hview]; exact h.locks j, h.admitted, h.fits, h.order, h.disk, h.present,
    h.kept, h.answered⟩

theorem invariant_step (hroot : Intact p root) (h : Invariant p root truthful s) {event : Event}
    {s' : Provider} (htruthful : truthful → Truthful p s event) (hstep : step p s event = some s') :
    Invariant p root truthful s' := by
  cases event with
  | call operation key aborted =>
    cases hchecked : operation.checked with
    | none =>
      simp only [step, hchecked] at hstep
      obtain rfl := Option.some.inj hstep
      exact h
    | some work =>
      simp only [step, hchecked] at hstep
      obtain rfl := Option.some.inj hstep
      exact h.own hchecked key aborted
  | abort i =>
    obtain rfl := Option.some.inj hstep
    exact h.abort i
  | turn i => exact h.turn hroot hstep
  | interrupt i => exact h.interrupt hroot hstep
  | answer i a => exact h.answer hroot htruthful hstep
  | settleTail i =>
    obtain ⟨locks, hlocks, rfl⟩ := Option.map_eq_some_iff.mp hstep
    exact h.jobs (h.chained.settle hlocks) (PromiseChains.view_settle hlocks)
  | sweepTail i =>
    obtain ⟨locks, hlocks, rfl⟩ := Option.map_eq_some_iff.mp hstep
    exact h.jobs (h.chained.sweep hlocks) (PromiseChains.view_sweep hlocks)

theorem invariant_run (hroot : Intact p root) {allowed : Provider → Event → Prop}
    (htruthful : truthful → ∀ s e, allowed s e → Truthful p s e)
    (h : Run (step p) allowed (.start root) s) : Invariant p root truthful s :=
  h.invariant (invariant_start hroot) fun s _ e hinv hallowed hstep =>
    invariant_step hroot hinv (fun hexact => htruthful hexact s e hallowed) hstep

end invariant

/-! ## Section 5: Atomicity -/

/-- A manifest was there from the start with its bytes, or it is that of a `put` which has
    put its whole body into the blob. -/
def Whole (p : Platform) (root : Files) (s : Provider) (i : Nat) (keyPrefix : Text) (m : Manifest) : Prop :=
  (root.manifests keyPrefix = some m ∧ s.files.contents m.file = root.contents m.file) ∨
    ∃ j c, j < i ∧ s.calls[j]? = some c ∧ p.keyPrefix c.key = keyPrefix ∧ Stored p j s.files c m ∧
      (c.phase.isSettled = true → c.phase = .settled (.stored m))

structure Atomic (p : Platform) (root : Files) (s : Provider) : Prop where
  /-- The calls on a key take their turns in the order in which they were called. -/
  order : ∀ (j k : Nat) (c d : Call), j < k → s.calls[j]? = some c → s.calls[k]? = some d →
    p.keyPrefix c.key = p.keyPrefix d.key → d.phase.begun = true → c.phase.isSettled = true
  /-- The file system has what the calls have made of it in this order, and it can be read. -/
  disk : ∀ keyPrefix, s.files.manifests keyPrefix = s.before p root s.calls.length keyPrefix
  readable : ∀ keyPrefix m, s.files.manifests keyPrefix = some m → Readable p s.files m
  whole : ∀ i keyPrefix m, s.before p root i keyPrefix = some m → Whole p root s i keyPrefix m
  /-- What a `get` or a `head` resolves with is the object that the calls before it have
      left, and that of a `put` that has resolved. -/
  found : ∀ (j : Nat) (c : Call) m, s.calls[j]? = some c → c.phase.answers (some m) →
    s.before p root j (p.keyPrefix c.key) = some m ∧ m.key = c.key ∧
      ((root.manifests (p.keyPrefix c.key) = some m ∧ s.files.contents m.file = root.contents m.file) ∨
        ∃ k d, k < j ∧ s.calls[k]? = some d ∧ d.phase = .settled (.stored m) ∧ Stored p k s.files d m)
  /-- A rejected call leaves the key as it was, and no manifest names its files. -/
  rejected : ∀ (j : Nat) (c : Call) aborted, s.calls[j]? = some c → c.phase = .settled (.rejected aborted) →
    (∀ keyPrefix, s.before p root (j + 1) keyPrefix = s.before p root j keyPrefix) ∧
      ∀ keyPrefix m again, s.files.manifests keyPrefix = some m → m.file.uuid ≠ .drawn j again
  /-- When every call has settled and nothing is left to run, no lock is left. -/
  unlocked : (∀ (j : Nat) (c : Call), s.calls[j]? = some c → c.phase.isSettled = true) →
    (∀ i, step p s (.settleTail i) = none) → (∀ i, step p s (.sweepTail i) = none) →
    ∀ keyPrefix, s.locks.slots keyPrefix = none

section atomicity

variable {p : Platform} {root : Files} {truthful : Prop} {s : Provider}

theorem Invariant.whole (h : Invariant p root truthful s) (hroot : Intact p root) {i : Nat} {keyPrefix : Text}
    {m : Manifest} (hm : s.before p root i keyPrefix = some m) : Whole p root s i keyPrefix m := by
  rcases after_source hm with hinit | ⟨j, c, hc, hkey, heffect⟩
  · obtain ⟨-, -, n, hn⟩ := hroot keyPrefix m hinit
    exact .inl ⟨hinit, h.kept m.file n hn⟩
  · rw [List.getElem?_take] at hc
    split at hc
    · refine .inr ⟨j, c, ‹_›, hc, hkey, stored_of_effect (h.fits j c hc) heffect, fun hsettled => ?_⟩
      cases hphase : c.phase with
      | settled result =>
        rw [hphase] at heffect
        cases result with
        | stored m' =>
          obtain rfl : m' = m := Option.some.inj (Option.some.inj heffect)
          rfl
        | removed m' => cases m' <;> cases heffect
        | _ => cases heffect
      | _ =>
        rw [hphase] at hsettled
        cases hsettled
    · cases hc

theorem Invariant.rejected (h : Invariant p root truthful s) (hroot : Intact p root) {j : Nat} {c : Call}
    {aborted : Bool} (hc : s.calls[j]? = some c) (hphase : c.phase = .settled (.rejected aborted)) :
    (∀ keyPrefix, s.before p root (j + 1) keyPrefix = s.before p root j keyPrefix) ∧
      ∀ keyPrefix m again, s.files.manifests keyPrefix = some m → m.file.uuid ≠ .drawn j again := by
  have hnone : c.phase.effect = none := by rw [hphase]; rfl
  constructor
  · intro keyPrefix
    unfold Provider.before
    rw [List.take_add_one, hc, after_append]
    exact after_idle fun d hd _ => by
      obtain rfl : d = c := by simpa using hd
      exact hnone
  · intro keyPrefix m again hm huuid
    rw [h.disk] at hm
    rcases after_source hm with hinit | ⟨k, d, hd, -, heffect⟩
    · obtain ⟨-, -, n, hn⟩ := hroot keyPrefix m hinit
      rw [huuid] at hn
      cases hn
    · obtain ⟨-, again', hdrawn⟩ := (stored_of_effect (h.fits k d hd) heffect).uuid
      rw [huuid] at hdrawn
      obtain ⟨rfl, -⟩ := Uuid.drawn.inj hdrawn
      obtain rfl := Option.some.inj (hc.symm.trans hd)
      rw [hnone] at heffect
      cases heffect

theorem Invariant.atomic (h : Invariant p root truthful s) (hroot : Intact p root) : Atomic p root s where
  order := h.order
  disk := fun keyPrefix => by
    unfold Provider.before
    rw [List.take_length]
    exact h.disk keyPrefix
  readable := fun keyPrefix m hm => (h.present keyPrefix m hm).1
  whole := fun _ _ _ hm => h.whole hroot hm
  found := by
    intro j c m hc hanswers
    obtain ⟨hbefore, hkey⟩ := h.answered j c (some m) hc hanswers nofun
    refine ⟨hbefore, hkey m rfl, ?_⟩
    rcases h.whole hroot hbefore with hinit | ⟨k, d, hkj, hd, hsame, hstored, hsettled⟩
    · exact .inl hinit
    · have hover := h.order k j d c hkj hd hc hsame (begun_of_answers hanswers).1
      exact .inr ⟨k, d, hkj, hd, hsettled hover, hstored⟩
  rejected := fun _ _ _ hc hphase => h.rejected hroot hc hphase
  unlocked := by
    intro hsettled hsettle hsweep keyPrefix
    refine h.chained.idle (fun i key ended hview => ?_) (fun i => ?_) (fun i => ?_) keyPrefix
    · rw [h.locks i] at hview
      obtain ⟨c, hc, heq⟩ := Option.map_eq_some_iff.mp hview
      rw [← (Prod.mk.inj heq).2]
      exact hsettled i c hc
    · exact Option.map_eq_none_iff.mp (hsettle i)
    · exact Option.map_eq_none_iff.mp (hsweep i)

end atomicity

/-- Storage operations are atomic for each key in every run: of calls on any keys, with
    aborts at any time, bodies of any kind and file system steps that fail.  Where the
    file system tells the truth about what is missing, an operation that finds no object
    is one before which there was none. -/
theorem storage_atomic {p : Platform} {root : Files} (hroot : Intact p root) {s : Provider}
    (h : Run (step p) Free (.start root) s) :
    Atomic p root s ∧
      (Run (step p) (Truthful p) (.start root) s →
        ∀ (j : Nat) (c : Call), s.calls[j]? = some c → c.phase.answers none →
          s.before p root j (p.keyPrefix c.key) = none) := by
  have hinvariant : Invariant p root False s := invariant_run hroot nofun h
  refine ⟨hinvariant.atomic hroot, fun htruthful j c hc hanswers => ?_⟩
  have hexact : Invariant p root True s := invariant_run hroot (fun _ _ _ hallowed => hallowed) htruthful
  exact (hexact.answered j c none hc hanswers fun _ => trivial).1

/-! ## Section 6: An object is stored and read -/

/-- The hashes of the key `a` and of the body `hi`. -/
def sampleHash (bytes : Bytes) : Text :=
  if bytes = [0x61] then
    "ca978112ca1bbdcafac231b39a23dc4da786eff8147c4e72b9807785afee48bb".toList.map Char.toNat
  else if bytes = [0x68, 0x69] then
    "8f434346648f6b96df89dda901c5176b10a6d83961dd3c1ac88b59b2dc327aa4".toList.map Char.toNat
  else List.replicate 64 0x30

def samplePlatform : Platform where
  sha256 := sampleHash
  uuid := fun _ => "36b8f84d-df4e-4d49-b662-bcde71a8764f".toList.map Char.toNat
  sha256_hex := by
    intro bytes
    unfold sampleHash
    split
    · decide
    · split
      · decide
      · decide
  uuid_text := fun _ => by decide

def emptyRoot : Files := ⟨fun _ => none, fun _ => none, fun _ => false, fun _ => []⟩

/-- A `put` whose first attempt finds the root gone, and a `get` behind it. -/
def sampleEvents : List Event :=
  [.call (.put ⟨some 2, none, none⟩ (.readable [.bytes [0x68, 0x69]] none)) [0x61] false,
   .call .get [0x61] false, .turn 0, .answer 0 (.ok 0), .answer 0 (.ok 0),
   .answer 0 (.failed .missing false), .answer 0 (.ok 0), .answer 0 (.ok 0), .answer 0 (.ok 0),
   .answer 0 (.ok 0), .answer 0 (.ok 0), .answer 0 (.ok 0), .answer 0 (.wrote 2),
   .answer 0 (.ok 0), .answer 0 (.ok 0), .answer 0 (.ok 1700000000000), .answer 0 (.ok 0),
   .answer 0 (.ok 0), .answer 0 (.ok 0), .answer 0 (.ok 0), .answer 0 (.ok 0), .answer 0 (.ok 0),
   .settleTail 0, .sweepTail 0, .turn 1, .answer 1 (.ok 0), .answer 1 (.ok 0), .answer 1 (.ok 0),
   .answer 1 (.ok 0)]

set_option maxRecDepth 8000 in
/-- The `get` resolves with the object of the `put` before it. -/
theorem storage_atomic_sample :
    ∃ (s : Provider) (m : Manifest), exec (step samplePlatform) (.start emptyRoot) sampleEvents = some s ∧
      s.calls.map (·.phase) = [.settled (.stored m), .settled (.found (some m))] ∧
      s.files.contents m.file = [0x68, 0x69] ∧ Atomic samplePlatform emptyRoot s :=
  ⟨_, _, rfl, rfl, rfl,
    (storage_atomic (by rintro _ _ ⟨⟩) (run_of_exec rfl (admits_free _ sampleEvents))).1⟩

end Cossack.NodeAdapter.LocalStorage
