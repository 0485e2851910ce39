import Cossack.NodeAdapter.LocalStorage

/-! # What a step of a storage call does

    Between the lock and the manifest a `put` works on files that have its own UUID.
    A step of a call leaves the manifest of its key as it was, or is the one step by
    which the call takes effect. -/

namespace Cossack.NodeAdapter.LocalStorage

/-! ## Section 1: Bodies -/

/-- What has been read and what is still to come make up the body, if the size is that
    of the object. -/
def Gives (given : Body) (size : Nat) (body : Body) (read : Bytes) : Prop :=
  ∀ bytes, body.whole = some bytes → (read ++ bytes).length = size → given.whole = some (read ++ bytes)

section bodies

variable {given body : Body} {size : Nat} {read : Bytes}

theorem gives_start (given : Body) (size : Nat) : Gives given size given [] := fun _ h _ => h

/-- A body that has failed gives nothing any more. -/
theorem gives_of_whole_none (h : body.whole = none) (read : Bytes) : Gives given size body read := by
  intro bytes hbytes
  rw [h] at hbytes
  cases hbytes

theorem Gives.chunk (h : Gives given size body read) {bytes : Bytes}
    (hread : body.read.1 = .chunk (.bytes bytes)) : Gives given size body.read.2 (read ++ bytes) := by
  intro rest hrest hlength
  rw [List.append_assoc] at hlength ⊢
  refine h (bytes ++ rest) ?_ hlength
  match body, hread with
  | .readable (.bytes b :: chunks) failure, hread =>
    obtain rfl : b = bytes := Chunk.bytes.inj (Read.chunk.inj hread)
    cases failure with
    | none =>
      show (Body.bytesOf chunks).map (b ++ ·) = some (b ++ rest)
      have : Body.bytesOf chunks = some rest := hrest
      rw [this]
      rfl
    | some e => cases hrest
  | .readable [] (some _), hread => cases hread

theorem Gives.done (h : Gives given size body read) (hread : body.read.1 = .done)
    (hlength : read.length = size) : given.whole = some read := by
  have hwhole : body.whole = some [] := by
    match body, hread with
    | .readable [] none, _ => rfl
    | .closed, _ => rfl
  have := h [] hwhole
  rw [List.append_nil] at this
  exact this hlength

theorem whole_cancel (body : Body) : body.cancel.whole = some [] ∨ body.cancel.whole = none := by
  cases body with
  | locked => exact .inr rfl
  | readable chunks failure => exact .inl rfl
  | closed => exact .inl rfl
  | errored e => exact .inr rfl

/-- A body that has been read to its end is no other one when it is read again. -/
theorem gives_cancel (hwhole : given.whole = some read) (hlength : read.length = size) (body : Body) :
    Gives given size body.cancel [] := by
  intro bytes hbytes hsize
  rcases whole_cancel body with hclosed | hnone
  · obtain rfl : [] = bytes := Option.some.inj (hclosed.symm.trans hbytes)
    obtain rfl : read = [] := by
      rw [← hlength] at hsize
      exact List.eq_nil_of_length_eq_zero (by simpa using hsize.symm)
    exact hwhole
  · rw [hnone] at hbytes
    cases hbytes

theorem gives_cancel_failed {e : Thrown} (hread : body.read.1 = .failed e) :
    Gives given size body.read.2.cancel [] := by
  match body, hread with
  | .locked, _ => exact gives_of_whole_none rfl []
  | .readable [] (some _), _ => exact gives_of_whole_none rfl []
  | .errored _, _ => exact gives_of_whole_none rfl []

end bodies

/-! ## Section 2: What a call knows of the files -/

/-- What the manifest of a key becomes by a call. -/
def Phase.effect : Phase → Option (Option Manifest)
  | .unlinkingBlob _ => some none
  | .unlinkingPrevious _ _ m => some (some m)
  | .clearing _ (.ok m) => some (some m)
  | .settled (.stored m) => some (some m)
  | .settled (.removed (some _)) => some none
  | _ => none

def Call.ownName (p : Platform) (i : Nat) (call : Call) : Name :=
  ⟨p.keyPrefix call.key, .drawn i call.again⟩

/-- The files of a `put` are its own, and those of the object before are others. -/
structure Fresh (p : Platform) (i : Nat) (call : Call) (w : Writing) : Prop where
  name : w.name = call.ownName p i
  previous : ∀ previous, w.previous = some previous →
    previous.file.keyPrefix = p.keyPrefix call.key ∧ previous.file ≠ w.name

/-- The work can run again with the body as it is. -/
def Replayable (call : Call) : Prop :=
  ∀ metadata given, call.work = .put metadata given → Gives given metadata.size call.body []

/-- The manifest is that of the `put`, and its blob has the whole body. -/
def Stored (p : Platform) (i : Nat) (files : Files) (call : Call) (m : Manifest) : Prop :=
  ∃ metadata given now again, call.work = .put metadata given ∧ now ≤ maxSafe ∧
    m = writtenManifest p call.key metadata (files.contents m.file) now (.drawn i again) ∧
    given.whole = some (files.contents m.file) ∧ (files.contents m.file).length = metadata.size

/-- The blob is there and has the whole body. -/
structure Complete (p : Platform) (i : Nat) (files : Files) (call : Call) (metadata : ObjectOptions)
    (given : Body) (w : Writing) : Prop where
  work : call.work = .put metadata given
  fresh : Fresh p i call w
  blob : files.blobs w.name = true
  contents : files.contents w.name = w.bytes
  whole : given.whole = some w.bytes
  length : w.bytes.length = metadata.size

/-- The manifest of the put. -/
def Describes (p : Platform) (call : Call) (metadata : ObjectOptions) (w : Writing) (m : Manifest) : Prop :=
  ∃ now, now ≤ maxSafe ∧ m = writtenManifest p call.key metadata w.bytes now w.name.uuid

/-- What holds of a call where it is. -/
def Fits (p : Platform) (i : Nat) (files : Files) (call : Call) : Prop :=
  match call.phase with
  | .waiting | .preparing | .inspecting | .dropping _ => Replayable call
  | .opening m | .sizing m | .unlinking m =>
      files.manifests (p.keyPrefix call.key) = some m ∧ m.key = call.key ∧ Replayable call
  | .unlinkingBlob m =>
      files.manifests (p.keyPrefix call.key) = none ∧ m.file.keyPrefix = p.keyPrefix call.key
  | .creating w => Fresh p i call w ∧ w.bytes = [] ∧ Replayable call
  | .reading w =>
      ∃ metadata given, call.work = .put metadata given ∧ Fresh p i call w ∧
        files.blobs w.name = true ∧ files.contents w.name = w.bytes ∧
        Gives given metadata.size call.body w.bytes
  | .writing w chunk rest =>
      ∃ metadata given, call.work = .put metadata given ∧ Fresh p i call w ∧
        files.blobs w.name = true ∧ files.contents w.name ++ rest = w.bytes ++ chunk ∧
        Gives given metadata.size call.body (w.bytes ++ chunk)
  | .syncing w | .closing w => ∃ metadata given, Complete p i files call metadata given w
  | .creatingInfo w m | .writingInfo w m =>
      ∃ metadata given, Complete p i files call metadata given w ∧ Describes p call metadata w m
  | .syncingInfo w m | .closingInfo w m | .publishing w m =>
      (∃ metadata given, Complete p i files call metadata given w ∧ Describes p call metadata w m) ∧
        files.temporaries w.name = some (some m)
  | .unlinkingPrevious w previous m =>
      (Stored p i files call m ∧ files.manifests (p.keyPrefix call.key) = some m ∧
        w.name = call.ownName p i) ∧
        previous.file.keyPrefix = p.keyPrefix call.key ∧ previous.file ≠ m.file
  | .clearing w (.ok m) =>
      Stored p i files call m ∧ files.manifests (p.keyPrefix call.key) = some m ∧
        w.name = call.ownName p i
  | .abandoning w e | .clearing w (.error e) | .discarding w e =>
      Fresh p i call w ∧ (e = .fault .missing → Replayable call)
  | .settled (.stored m) => Stored p i files call m
  | .settled _ => True

/-- The object of a manifest can be read. -/
structure Readable (p : Platform) (files : Files) (m : Manifest) : Prop where
  readable : readable p m.key m = true
  blob : files.blobs m.file = true
  length : (files.contents m.file).length = m.size

/-- What is checked before a call waits. -/
structure Admitted (call : Call) : Prop where
  key : validKey call.key = true
  options : ∀ metadata given, call.work = .put metadata given →
    ∃ options, metadataOptions options = some metadata

/-- What holds before a step of a call. -/
structure Steady (p : Platform) (i : Nat) (files : Files) (call : Call) : Prop where
  fits : Fits p i files call
  admitted : Admitted call
  present : ∀ m, files.manifests (p.keyPrefix call.key) = some m →
    Readable p files m ∧ m.file.keyPrefix = p.keyPrefix call.key
  own : call.phase.effect = none → ∀ m, files.manifests (p.keyPrefix call.key) = some m →
    ∀ again, m.file.uuid ≠ .drawn i again

/-- A call changes files of its key only, and no contents but those of its own. -/
structure Touches (p : Platform) (i : Nat) (call : Call) (files files' : Files) : Prop where
  manifests : ∀ other, other ≠ p.keyPrefix call.key → files'.manifests other = files.manifests other
  blobs : ∀ name : Name, name.keyPrefix ≠ p.keyPrefix call.key → files'.blobs name = files.blobs name
  contents : ∀ name, name ≠ call.ownName p i → files'.contents name = files.contents name
  temporaries : ∀ name, name ≠ call.ownName p i → files'.temporaries name = files.temporaries name

/-- A call that has come to an answer about the manifest. -/
def Phase.answers (m : Option Manifest) (phase : Phase) : Prop :=
  phase = .settled (.found m) ∨ phase = .settled (.described m) ∨ m = none ∧ phase = .settled (.removed m)

/-- What a step of a call does. -/
structure Resumed (p : Platform) (i : Nat) (a : Answer) (files : Files) (call : Call) (files' : Files)
    (call' : Call) : Prop where
  fits : Fits p i files' call'
  key : call'.key = call.key
  work : call'.work = call.work
  active : call'.phase ≠ .waiting
  touches : Touches p i call files files'
  effect : (call'.phase.effect = call.phase.effect ∧
      files'.manifests (p.keyPrefix call.key) = files.manifests (p.keyPrefix call.key)) ∨
    (call.phase.effect = none ∧
      call'.phase.effect = some (files'.manifests (p.keyPrefix call.key)))
  present : ∀ m, files'.manifests (p.keyPrefix call.key) = some m →
    Readable p files' m ∧ m.file.keyPrefix = p.keyPrefix call.key
  found : ∀ m, call'.phase.answers (some m) →
    files.manifests (p.keyPrefix call.key) = some m ∧ m.key = call.key
  /-- Nothing is found where nothing is, or where the file is said to be missing. -/
  nothing : call'.phase.answers none → files.manifests (p.keyPrefix call.key) = none ∨
    call.phase = .inspecting ∧ ∃ took, a = .failed .missing took

/-! ## Section 3: Steps without effect -/

/-- The call goes on, or ends without an effect and without an answer. -/
structure Calm (call call' : Call) : Prop where
  key : call'.key = call.key
  work : call'.work = call.work
  effect : call'.phase.effect = none
  active : call'.phase ≠ .waiting
  silent : ∀ m, ¬ call'.phase.answers m

/-- Only files with the name of the call differ. -/
structure Private (p : Platform) (i : Nat) (call : Call) (files files' : Files) : Prop where
  manifests : files'.manifests = files.manifests
  blobs : ∀ name, name ≠ call.ownName p i → files'.blobs name = files.blobs name
  contents : ∀ name, name ≠ call.ownName p i → files'.contents name = files.contents name
  temporaries : ∀ name, name ≠ call.ownName p i → files'.temporaries name = files.temporaries name

section calm

variable {p : Platform} {i : Nat} {a : Answer} {files files' : Files} {call call' : Call} {w : Writing}

theorem Private.refl : Private p i call files files :=
  ⟨rfl, fun _ _ => rfl, fun _ _ => rfl, fun _ _ => rfl⟩

theorem ne_own {name : Name} (h : name.keyPrefix ≠ p.keyPrefix call.key) : name ≠ call.ownName p i := by
  rintro rfl
  exact h rfl

theorem Private.touches (h : Private p i call files files') : Touches p i call files files' :=
  ⟨fun other _ => congrFun h.manifests other, fun name hname => h.blobs name (ne_own hname), h.contents,
    h.temporaries⟩

theorem Steady.readable_private (h : Steady p i files call) (heffect : call.phase.effect = none)
    (hprivate : Private p i call files files') {m : Manifest}
    (hm : files'.manifests (p.keyPrefix call.key) = some m) :
    Readable p files' m ∧ m.file.keyPrefix = p.keyPrefix call.key := by
  rw [hprivate.manifests] at hm
  obtain ⟨hreadable, hstem⟩ := h.present m hm
  have hother : m.file ≠ call.ownName p i := by
    intro heq
    exact h.own heffect m hm call.again (by rw [heq]; rfl)
  refine ⟨⟨hreadable.readable, ?_, ?_⟩, hstem⟩
  · rw [hprivate.blobs _ hother]
    exact hreadable.blob
  · rw [hprivate.contents _ hother]
    exact hreadable.length

theorem Steady.calm (h : Steady p i files call) (heffect : call.phase.effect = none)
    (hprivate : Private p i call files files') (hcalm : Calm call call') (hfits : Fits p i files' call') :
    Resumed p i a files call files' call' where
  fits := hfits
  key := hcalm.key
  work := hcalm.work
  active := hcalm.active
  touches := hprivate.touches
  effect := .inl ⟨by rw [hcalm.effect, heffect], by rw [hprivate.manifests]⟩
  present := fun _ hm => h.readable_private heffect hprivate hm
  found := fun m hm => absurd hm (hcalm.silent (some m))
  nothing := fun hm => absurd hm (hcalm.silent none)

theorem calm_settle_rejected (call : Call) (aborted : Bool) :
    Calm call (call.settle (.rejected aborted)) :=
  ⟨rfl, rfl, rfl, by simp [Call.settle], by simp [Call.settle, Phase.answers]⟩

theorem calm_raise (call : Call) (e : Thrown) : Calm call (call.raise e) := by
  unfold Call.raise
  split
  · exact calm_settle_rejected call true
  · exact calm_settle_rejected call false
  · split
    · exact calm_settle_rejected call false
    · split
      · exact calm_settle_rejected call true
      · exact ⟨rfl, rfl, rfl, by simp, by simp [Phase.answers]⟩

theorem fits_raise {e : Thrown} (hreplay : e = .fault .missing → Replayable call) :
    Fits p i files (call.raise e) := by
  unfold Call.raise
  split
  · trivial
  · trivial
  · split
    · trivial
    · split
      · trivial
      · exact hreplay rfl

theorem calm_abandon (call : Call) (w : Writing) (reader opened : Bool) (e : Thrown) :
    Calm call (call.abandon w reader opened e) := by
  cases opened with
  | true => exact ⟨rfl, rfl, rfl, by simp [Call.abandon], by simp [Call.abandon, Phase.answers]⟩
  | false => exact ⟨rfl, rfl, rfl, by simp [Call.abandon], by simp [Call.abandon, Phase.answers]⟩

theorem fits_abandon (hfresh : Fresh p i call w) {reader opened : Bool} {e : Thrown}
    (hreplay : e = .fault .missing → Replayable (call.abandon w reader opened e)) :
    Fits p i files (call.abandon w reader opened e) := by
  cases opened with
  | true => exact ⟨⟨hfresh.name, hfresh.previous⟩, hreplay⟩
  | false => exact ⟨⟨hfresh.name, hfresh.previous⟩, hreplay⟩

/-- Any other error does not run the work again. -/
theorem fits_abandon_other (hfresh : Fresh p i call w) {reader opened : Bool} {e : Thrown}
    (he : e ≠ .fault .missing) : Fits p i files (call.abandon w reader opened e) :=
  fits_abandon hfresh fun heq => absurd heq he

theorem calm_phase {phase : Phase} (heffect : phase.effect = none) (hactive : phase ≠ .waiting)
    (hsilent : ∀ m, ¬ phase.answers m) : Calm call { call with phase } :=
  ⟨rfl, rfl, heffect, hactive, hsilent⟩

theorem calm_orAbort {phase : Phase} (hcalm : Calm call { call with phase }) (w : Writing) (opened : Bool) :
    Calm call (call.orAbort w opened phase) := by
  unfold Call.orAbort
  split
  · exact calm_abandon call w true opened .abort
  · exact hcalm

theorem fits_orAbort {phase : Phase} (hfresh : Fresh p i call w) {opened : Bool}
    (hfits : Fits p i files { call with phase }) : Fits p i files (call.orAbort w opened phase) := by
  unfold Call.orAbort
  split
  · exact fits_abandon_other hfresh nofun
  · exact hfits

end calm

/-! ## Section 4: Steps that read -/

section steps

variable {p : Platform} {i : Nat} {a : Answer} {files : Files} {call : Call} {w : Writing} {m : Manifest}
  {next : Files × Call}

/-- The call settles without having changed anything. -/
theorem Steady.answered (h : Steady p i files call) (heffect : call.phase.effect = none) {result : Result}
    (hresult : (Phase.settled result).effect = none)
    (hfound : ∀ m, (Phase.settled result).answers (some m) →
      files.manifests (p.keyPrefix call.key) = some m ∧ m.key = call.key)
    (hnothing : (Phase.settled result).answers none → files.manifests (p.keyPrefix call.key) = none ∨
      call.phase = .inspecting ∧ ∃ took, a = .failed .missing took) :
    Resumed p i a files call files (call.settle result) where
  fits := by
    cases result with
    | stored m => cases hresult
    | _ => trivial
  key := rfl
  work := rfl
  active := by simp [Call.settle]
  touches := Private.refl.touches
  effect := .inl ⟨by rw [heffect]; exact hresult, rfl⟩
  present := h.present
  found := hfound
  nothing := hnothing

theorem prepare_resumed (h : Steady p i files call) (hphase : call.phase = .preparing)
    (hnext : prepare files call a = some next) : Resumed p i a files call next.1 next.2 := by
  have heffect : call.phase.effect = none := by rw [hphase]; rfl
  have hreplay : Replayable call := by simpa only [Fits, hphase] using h.fits
  cases a with
  | ok now =>
    obtain rfl := Option.some.inj hnext
    exact h.calm heffect .refl (calm_phase rfl nofun (by simp [Phase.answers])) hreplay
  | wrote count => cases hnext
  | failed fault took =>
    obtain rfl := Option.some.inj hnext
    exact h.calm heffect .refl (calm_settle_rejected call false) trivial

theorem inspected_resumed (h : Steady p i files call) (hphase : call.phase = .inspecting)
    {m : Option Manifest}
    (hfound : ∀ m', m = some m' → files.manifests (p.keyPrefix call.key) = some m' ∧ m'.key = call.key)
    (hnone : m = none → files.manifests (p.keyPrefix call.key) = none ∨
      call.phase = .inspecting ∧ ∃ took, a = .failed .missing took) :
    Resumed p i a files call files (call.inspected p i m) := by
  have heffect : call.phase.effect = none := by rw [hphase]; rfl
  have hreplay : Replayable call := by simpa only [Fits, hphase] using h.fits
  have hraise : Resumed p i a files call files (call.raise .abort) :=
    h.calm heffect .refl (calm_raise call .abort) (fits_raise nofun)
  unfold Call.inspected
  split
  · split
    · exact hraise
    · refine h.answered heffect rfl (fun m' hm => hfound m' ?_) (fun hm => hnone ?_)
      · simpa [Phase.answers, eq_comm] using hm
      · simpa [Phase.answers, eq_comm] using hm
  · cases m with
    | none =>
      exact h.answered heffect rfl (fun m' hm => by simp [Phase.answers] at hm) (fun _ => hnone rfl)
    | some m =>
      obtain ⟨hmanifest, hkey⟩ := hfound m rfl
      exact h.calm heffect .refl (calm_phase rfl nofun (by simp [Phase.answers])) ⟨hmanifest, hkey, hreplay⟩
  · split
    · exact hraise
    · cases m with
      | none =>
        exact h.answered heffect rfl (fun m' hm => by simp [Phase.answers] at hm) (fun _ => hnone rfl)
      | some m =>
        obtain ⟨hmanifest, hkey⟩ := hfound m rfl
        exact h.calm heffect .refl (calm_phase rfl nofun (by simp [Phase.answers]))
          ⟨hmanifest, hkey, hreplay⟩
  · refine h.calm heffect .refl (calm_phase rfl nofun (by simp [Phase.answers])) ⟨⟨rfl, ?_⟩, rfl, hreplay⟩
    intro previous hprevious
    obtain ⟨hmanifest, -⟩ := hfound previous hprevious
    refine ⟨(h.present previous hmanifest).2, fun heq => ?_⟩
    have huuid : previous.file.uuid = .drawn i call.again := by rw [heq]
    exact h.own heffect previous hmanifest call.again huuid

theorem inspect_resumed (h : Steady p i files call) (hphase : call.phase = .inspecting)
    (hnext : inspect p i files call a = some next) : Resumed p i a files call next.1 next.2 := by
  have heffect : call.phase.effect = none := by rw [hphase]; rfl
  have hraise : Resumed p i a files call files (call.raise (.fault .other)) :=
    h.calm heffect .refl (calm_raise call _) (fits_raise nofun)
  cases a with
  | ok now =>
    unfold inspect at hnext
    cases hmanifest : files.manifests (p.keyPrefix call.key) with
    | none =>
      simp only [hmanifest] at hnext
      obtain rfl := Option.some.inj hnext
      exact inspected_resumed h hphase nofun fun _ => .inl hmanifest
    | some m =>
      simp only [hmanifest] at hnext
      split at hnext
      · rename_i hreadable
        obtain rfl := Option.some.inj hnext
        refine inspected_resumed h hphase (fun m' heq => ?_) nofun
        obtain rfl := Option.some.inj heq
        refine ⟨hmanifest, ?_⟩
        simp only [readable, Bool.and_eq_true, beq_iff_eq] at hreadable
        exact hreadable.1.1.1.1.2
      · obtain rfl := Option.some.inj hnext
        exact hraise
  | wrote count => cases hnext
  | failed fault took =>
    cases fault with
    | missing =>
      obtain rfl := Option.some.inj hnext
      exact inspected_resumed h hphase nofun fun _ => .inr ⟨hphase, took, rfl⟩
    | other =>
      obtain rfl := Option.some.inj hnext
      exact hraise

theorem openBlob_resumed (h : Steady p i files call) (hphase : call.phase = .opening m)
    (hnext : openBlob files call m a = some next) : Resumed p i a files call next.1 next.2 := by
  have heffect : call.phase.effect = none := by rw [hphase]; rfl
  obtain ⟨hmanifest, hkey, hreplay⟩ : files.manifests (p.keyPrefix call.key) = some m ∧
      m.key = call.key ∧ Replayable call := by simpa only [Fits, hphase] using h.fits
  have hraise (e : Thrown) : Resumed p i a files call files (call.raise e) :=
    h.calm heffect .refl (calm_raise call e) (fits_raise fun _ => hreplay)
  cases a with
  | ok now =>
    simp only [openBlob] at hnext
    split at hnext
    · obtain rfl := Option.some.inj hnext
      exact h.calm heffect .refl (calm_phase rfl nofun (by simp [Phase.answers])) ⟨hmanifest, hkey, hreplay⟩
    · obtain rfl := Option.some.inj hnext
      exact hraise (.fault .missing)
  | wrote count => cases hnext
  | failed fault took =>
    obtain rfl := Option.some.inj hnext
    exact hraise (.fault fault)

theorem sizeBlob_resumed (h : Steady p i files call) (hphase : call.phase = .sizing m)
    (hnext : sizeBlob files call m a = some next) : Resumed p i a files call next.1 next.2 := by
  have heffect : call.phase.effect = none := by rw [hphase]; rfl
  obtain ⟨hmanifest, hkey, hreplay⟩ : files.manifests (p.keyPrefix call.key) = some m ∧
      m.key = call.key ∧ Replayable call := by simpa only [Fits, hphase] using h.fits
  have hdrop : Resumed p i a files call files { call with phase := .dropping (.fault .other) } :=
    h.calm heffect .refl (calm_phase rfl nofun (by simp [Phase.answers])) hreplay
  cases a with
  | ok now =>
    simp only [sizeBlob] at hnext
    split at hnext
    · obtain rfl := Option.some.inj hnext
      refine h.answered heffect rfl (fun m' hm => ?_) (fun hm => ?_)
      · obtain rfl : m = m' := by simpa [Phase.answers] using hm
        exact ⟨hmanifest, hkey⟩
      · simp [Phase.answers] at hm
    · obtain rfl := Option.some.inj hnext
      exact hdrop
  | wrote count => cases hnext
  | failed fault took =>
    obtain rfl := Option.some.inj hnext
    exact hdrop

theorem dropBlob_resumed (h : Steady p i files call) {e : Thrown} (hphase : call.phase = .dropping e)
    (hnext : dropBlob files call e a = some next) : Resumed p i a files call next.1 next.2 := by
  have heffect : call.phase.effect = none := by rw [hphase]; rfl
  have hreplay : Replayable call := by simpa only [Fits, hphase] using h.fits
  have hraise (e : Thrown) : Resumed p i a files call files (call.raise e) :=
    h.calm heffect .refl (calm_raise call e) (fits_raise fun _ => hreplay)
  cases a with
  | ok now =>
    obtain rfl := Option.some.inj hnext
    exact hraise e
  | wrote count => cases hnext
  | failed fault took =>
    obtain rfl := Option.some.inj hnext
    exact hraise (.fault .other)

/-! ## Section 5: Steps of `delete` -/

theorem unlinkManifest_resumed (h : Steady p i files call) (hphase : call.phase = .unlinking m)
    (hnext : unlinkManifest p files call m a = some next) : Resumed p i a files call next.1 next.2 := by
  have heffect : call.phase.effect = none := by rw [hphase]; rfl
  obtain ⟨hmanifest, hkey, hreplay⟩ : files.manifests (p.keyPrefix call.key) = some m ∧
      m.key = call.key ∧ Replayable call := by simpa only [Fits, hphase] using h.fits
  have hgone : (files.unlinkManifest (p.keyPrefix call.key)).manifests (p.keyPrefix call.key) = none :=
    Function.update_self ..
  cases a with
  | ok now =>
    obtain rfl := Option.some.inj hnext
    exact
      { fits := ⟨hgone, (h.present m hmanifest).2⟩
        key := rfl
        work := rfl
        active := nofun
        touches := ⟨fun other hother => Function.update_of_ne hother _ _, fun _ _ => rfl,
          fun _ _ => rfl, fun _ _ => rfl⟩
        effect := .inr ⟨heffect, by rw [hgone]; rfl⟩
        present := fun m' hm => by
          rw [hgone] at hm
          cases hm
        found := fun m' hm => by simp [Phase.answers] at hm
        nothing := fun hm => by simp [Phase.answers] at hm }
  | wrote count => cases hnext
  | failed fault took =>
    obtain rfl := Option.some.inj hnext
    exact h.calm heffect .refl (calm_raise call _) (fits_raise fun _ => hreplay)

theorem unlinkBlob_resumed (h : Steady p i files call) (hphase : call.phase = .unlinkingBlob m)
    (hnext : unlinkBlob files call m a = some next) : Resumed p i a files call next.1 next.2 := by
  obtain ⟨hgone, hstem⟩ : files.manifests (p.keyPrefix call.key) = none ∧
      m.file.keyPrefix = p.keyPrefix call.key := by simpa only [Fits, hphase] using h.fits
  have hresumed (files' : Files) (hmanifests : files'.manifests = files.manifests)
      (htouches : Touches p i call files files') :
      Resumed p i a files call files' (call.settle (.removed (some m))) :=
    { fits := trivial
      key := rfl
      work := rfl
      active := nofun
      touches := htouches
      effect := .inl ⟨by rw [hphase]; rfl, by rw [hmanifests]⟩
      present := fun m' hm => by
        rw [hmanifests, hgone] at hm
        cases hm
      found := fun m' hm => by simp [Phase.answers, Call.settle] at hm
      nothing := fun hm => by simp [Phase.answers, Call.settle] at hm }
  cases a with
  | ok now =>
    obtain rfl := Option.some.inj hnext
    refine hresumed _ rfl ⟨fun _ _ => rfl, fun name hname => ?_, fun _ _ => rfl, fun _ _ => rfl⟩
    exact Function.update_of_ne (fun heq => hname (by rw [heq, hstem])) _ _
  | wrote count => cases hnext
  | failed fault took =>
    obtain rfl := Option.some.inj hnext
    exact hresumed _ rfl Private.refl.touches

end steps

end Cossack.NodeAdapter.LocalStorage
