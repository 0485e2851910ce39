import Cossack.NodeAdapter.StorageSteps
import Mathlib

/-! # The steps of a put

    Until the rename a `put` changes files with its own UUID only, and the bytes in its
    blob are those that it has read.  The rename publishes a whole object. -/

namespace Cossack.NodeAdapter.LocalStorage

/-! ## Section 1: Files with the name of the call -/

section private_files

variable {p : Platform} {i : Nat} {files : Files} {call : Call} {w : Writing}

theorem private_create (h : w.name = call.ownName p i) :
    Private p i call files (files.create w.name) := by
  refine ⟨rfl, fun name hname => ?_, fun name hname => ?_, fun _ _ => rfl⟩
  · exact Function.update_of_ne (by rwa [h]) _ _
  · exact Function.update_of_ne (by rwa [h]) _ _

theorem private_append (h : w.name = call.ownName p i) (bytes : Bytes) :
    Private p i call files (files.append w.name bytes) :=
  ⟨rfl, fun _ _ => rfl, fun _ hname => Function.update_of_ne (by rwa [h]) _ _, fun _ _ => rfl⟩

theorem private_unlink (h : w.name = call.ownName p i) :
    Private p i call files (files.unlink w.name) :=
  ⟨rfl, fun _ hname => Function.update_of_ne (by rwa [h]) _ _, fun _ _ => rfl, fun _ _ => rfl⟩

theorem private_write (h : w.name = call.ownName p i) (content : Option Manifest) :
    Private p i call files (files.write w.name content) :=
  ⟨rfl, fun _ _ => rfl, fun _ _ => rfl, fun _ hname => Function.update_of_ne (by rwa [h]) _ _⟩

theorem private_unlinkTemporary (h : w.name = call.ownName p i) :
    Private p i call files (files.unlinkTemporary w.name) :=
  ⟨rfl, fun _ _ => rfl, fun _ _ => rfl, fun _ hname => Function.update_of_ne (by rwa [h]) _ _⟩

end private_files

/-! ## Section 2: Writing the blob -/

section steps

variable {p : Platform} {i : Nat} {a : Answer} {files : Files} {call : Call} {w : Writing} {m : Manifest}
  {metadata : ObjectOptions} {given : Body} {next : Files × Call}

theorem fresh_bytes (h : Fresh p i call w) (bytes : Bytes) : Fresh p i call { w with bytes } :=
  ⟨h.name, h.previous⟩

theorem calm_reading (call : Call) (w : Writing) : Calm call { call with phase := .reading w } :=
  calm_phase rfl nofun (by simp [Phase.answers])

theorem createBlob_resumed (h : Steady p i files call) (hphase : call.phase = .creating w)
    (hwork : call.work = .put metadata given) (hnext : createBlob files call w a = some next) :
    Resumed p i a files call next.1 next.2 := by
  have heffect : call.phase.effect = none := by rw [hphase]; rfl
  obtain ⟨hfresh, hbytes, hreplay⟩ : Fresh p i call w ∧ w.bytes = [] ∧ Replayable call := by
    simpa only [Fits, hphase] using h.fits
  have hcreate : Private p i call files (files.create w.name) := private_create hfresh.name
  cases a with
  | ok now =>
    simp only [createBlob] at hnext
    split at hnext
    · obtain rfl := Option.some.inj hnext
      exact h.calm heffect hcreate (calm_abandon call w false true _) (fits_abandon_other hfresh (by rintro ⟨⟩))
    · obtain rfl := Option.some.inj hnext
      refine h.calm heffect hcreate (calm_orAbort (calm_reading call w) w true) (fits_orAbort hfresh ?_)
      refine ⟨metadata, given, hwork, ⟨hfresh.name, hfresh.previous⟩, Function.update_self .., ?_, ?_⟩
      · rw [hbytes]
        exact Function.update_self ..
      · rw [hbytes]
        exact hreplay metadata given hwork
  | wrote count => cases hnext
  | failed fault took =>
    obtain rfl := Option.some.inj hnext
    have hfits (files' : Files) : Fits p i files' (call.abandon w false false (.fault fault)) :=
      fits_abandon hfresh fun _ => hreplay
    cases took with
    | true => exact h.calm heffect hcreate (calm_abandon call w false false _) (hfits _)
    | false => exact h.calm heffect .refl (calm_abandon call w false false _) (hfits _)

theorem readBody_resumed (h : Steady p i files call) (hphase : call.phase = .reading w)
    (hwork : call.work = .put metadata given)
    (hnext : readBody files call metadata.size w a = some next) :
    Resumed p i a files call next.1 next.2 := by
  have heffect : call.phase.effect = none := by rw [hphase]; rfl
  obtain ⟨metadata', given', hwork', hfresh, hblob, hcontents, hgives⟩ :
      ∃ metadata given, call.work = .put metadata given ∧ Fresh p i call w ∧
        files.blobs w.name = true ∧ files.contents w.name = w.bytes ∧
        Gives given metadata.size call.body w.bytes := by
    simpa only [Fits, hphase] using h.fits
  obtain ⟨rfl, rfl⟩ := Work.put.inj (hwork'.symm.trans hwork)
  cases a with
  | wrote count => cases hnext
  | failed fault took => cases hnext
  | ok now =>
    obtain rfl := Option.some.inj hnext
    -- The call with what is left of its body.
    have hfreshBody (phase : Phase) : Fresh p i { call with body := call.body.read.2, phase } w :=
      ⟨hfresh.name, hfresh.previous⟩
    have hbody : Fresh p i { call with body := call.body.read.2 } w := hfreshBody call.phase
    have habandon (e : Thrown) : Calm call ({ call with body := call.body.read.2 }.abandon w true true e) := by
      obtain ⟨hkey, hwork, heffect, hactive, hsilent⟩ :=
        calm_abandon { call with body := call.body.read.2 } w true true e
      exact ⟨hkey, hwork, heffect, hactive, hsilent⟩
    have hother {e : Thrown} (he : e ≠ .fault .missing) : Resumed p i (.ok now) files call files
        ({ call with body := call.body.read.2 }.abandon w true true e) :=
      h.calm heffect .refl (habandon e) (fits_abandon_other hbody he)
    have horAbort (phase : Phase) (hnone : phase.effect = none) (hactive : phase ≠ .waiting)
        (hsilent : ∀ m, ¬ phase.answers m)
        (hfits : Fits p i files { call with body := call.body.read.2, phase }) :
        Resumed p i (.ok now) files call files
          ({ call with body := call.body.read.2 }.orAbort w true phase) := by
      have hcalm : Calm { call with body := call.body.read.2 }
          { call with body := call.body.read.2, phase } := ⟨rfl, rfl, hnone, hactive, hsilent⟩
      obtain ⟨hkey, hwork, heffect', hactive', hsilent'⟩ := calm_orAbort hcalm w true
      exact h.calm heffect .refl ⟨hkey, hwork, heffect', hactive', hsilent'⟩ (fits_orAbort hbody hfits)
    show Resumed p i (.ok now) files call files
      (call.received metadata'.size w call.body.read.2 call.body.read.1)
    cases hread : call.body.read.1 with
    | failed e =>
      refine h.calm heffect .refl (habandon e) (fits_abandon hbody fun _ => ?_)
      intro metadata given hput
      exact gives_cancel_failed hread
    | chunk chunk =>
      cases chunk with
      | foreign => exact hother (by rintro ⟨⟩)
      | bytes bytes =>
        unfold Call.received
        simp only
        split
        · exact hother (by rintro ⟨⟩)
        · split
          · rename_i hempty
            refine horAbort _ rfl (by rintro ⟨⟩) (by simp [Phase.answers]) ?_
            refine ⟨metadata', given', hwork', hfreshBody _, hblob, hcontents, ?_⟩
            have := hgives.chunk hread
            rwa [hempty, List.append_nil] at this
          · refine horAbort _ rfl (by rintro ⟨⟩) (by simp [Phase.answers]) ?_
            exact ⟨metadata', given', hwork', hfreshBody _, hblob, by rw [hcontents], hgives.chunk hread⟩
    | done =>
      unfold Call.received
      simp only
      split
      · exact hother (by rintro ⟨⟩)
      · split
        · exact hother (by rintro ⟨⟩)
        · rename_i hlength
          have hsize : w.bytes.length = metadata'.size := by simpa using hlength
          refine h.calm heffect .refl ⟨rfl, rfl, rfl, by simp, by simp [Phase.answers]⟩ ?_
          exact ⟨metadata', given', hwork', hfreshBody _, hblob, hcontents, hgives.done hread hsize, hsize⟩

theorem writeChunk_resumed (h : Steady p i files call) {chunk rest : Bytes}
    (hphase : call.phase = .writing w chunk rest) (hnext : writeChunk files call w chunk rest a = some next) :
    Resumed p i a files call next.1 next.2 := by
  have heffect : call.phase.effect = none := by rw [hphase]; rfl
  obtain ⟨metadata, given, hwork, hfresh, hblob, hcontents, hgives⟩ :
      ∃ metadata given, call.work = .put metadata given ∧ Fresh p i call w ∧
        files.blobs w.name = true ∧ files.contents w.name ++ rest = w.bytes ++ chunk ∧
        Gives given metadata.size call.body (w.bytes ++ chunk) := by
    simpa only [Fits, hphase] using h.fits
  have hother : Resumed p i a files call files (call.abandon w true true (.fault .other)) :=
    h.calm heffect .refl (calm_abandon call w true true _) (fits_abandon_other hfresh (by rintro ⟨⟩))
  have happended (bytes : Bytes) :
      (files.append w.name bytes).contents w.name = files.contents w.name ++ bytes :=
    Function.update_self ..
  cases a with
  | ok now => cases hnext
  | failed fault took =>
    obtain rfl := Option.some.inj hnext
    exact hother
  | wrote count =>
    simp only [writeChunk] at hnext
    split at hnext
    · obtain rfl := Option.some.inj hnext
      exact hother
    · split at hnext
      · obtain rfl := Option.some.inj hnext
        refine h.calm heffect (private_append hfresh.name rest)
          (calm_orAbort (calm_reading call _) _ true) (fits_orAbort (fresh_bytes hfresh _) ?_)
        refine ⟨metadata, given, hwork, ⟨hfresh.name, hfresh.previous⟩, hblob, ?_, hgives⟩
        exact (happended rest).trans hcontents
      · obtain rfl := Option.some.inj hnext
        have hcalm : Calm call { call with phase := .writing w chunk (rest.drop count) } :=
          calm_phase rfl (by rintro ⟨⟩) (by simp [Phase.answers])
        refine h.calm heffect (private_append hfresh.name (rest.take count))
          (calm_orAbort hcalm w true) (fits_orAbort hfresh ?_)
        refine ⟨metadata, given, hwork, ⟨hfresh.name, hfresh.previous⟩, hblob, ?_, hgives⟩
        rw [happended, List.append_assoc, List.take_append_drop, hcontents]

/-! ## Section 3: The manifest -/

theorem Complete.write (h : Complete p i files call metadata given w) (content : Option Manifest)
    (phase : Phase) : Complete p i (files.write w.name content) { call with phase } metadata given w :=
  ⟨h.work, ⟨h.fresh.name, h.fresh.previous⟩, h.blob, h.contents, h.whole, h.length⟩

theorem Complete.phase (h : Complete p i files call metadata given w) (phase : Phase) :
    Complete p i files { call with phase } metadata given w :=
  ⟨h.work, ⟨h.fresh.name, h.fresh.previous⟩, h.blob, h.contents, h.whole, h.length⟩

/-- The body has been read to its end, so the work can run again. -/
theorem Complete.fits_abandon (h : Complete p i files call metadata given w) (files' : Files)
    (opened : Bool) (e : Thrown) : Fits p i files' (call.abandon w true opened e) := by
  refine LocalStorage.fits_abandon h.fresh fun _ metadata' given' hwork => ?_
  obtain ⟨rfl, rfl⟩ := Work.put.inj (h.work.symm.trans hwork)
  exact gives_cancel h.whole h.length call.body

/-- A step on an open file after the body has been read. -/
theorem proceed_resumed (h : Steady p i files call) (heffect : call.phase.effect = none) {phase : Phase}
    (hcalm : Calm call { call with phase }) (hcomplete : Complete p i files call metadata given w)
    (hfits : Fits p i files { call with phase }) (hnext : proceed files call w phase a = some next) :
    Resumed p i a files call next.1 next.2 := by
  cases a with
  | ok now =>
    obtain rfl := Option.some.inj hnext
    exact h.calm heffect .refl hcalm hfits
  | wrote count => cases hnext
  | failed fault took =>
    obtain rfl := Option.some.inj hnext
    exact h.calm heffect .refl (calm_abandon call w true true _) (hcomplete.fits_abandon _ true _)

theorem closeBlob_resumed (h : Steady p i files call) (hphase : call.phase = .closing w)
    (hwork : call.work = .put metadata given) (hnext : closeBlob p files call metadata w a = some next) :
    Resumed p i a files call next.1 next.2 := by
  have heffect : call.phase.effect = none := by rw [hphase]; rfl
  obtain ⟨metadata', given', hcomplete⟩ :
      ∃ metadata given, Complete p i files call metadata given w := by
    simpa only [Fits, hphase] using h.fits
  obtain ⟨rfl, rfl⟩ := Work.put.inj (hcomplete.work.symm.trans hwork)
  cases a with
  | ok now =>
    simp only [closeBlob, Option.ite_none_right_eq_some] at hnext
    obtain ⟨hnow, hnext⟩ := hnext
    obtain rfl := Option.some.inj hnext
    exact h.calm heffect .refl (calm_phase rfl (by rintro ⟨⟩) (by simp [Phase.answers]))
      ⟨metadata', given', hcomplete.phase _, now, hnow, rfl⟩
  | wrote count => cases hnext
  | failed fault took =>
    obtain rfl := Option.some.inj hnext
    exact h.calm heffect .refl (calm_abandon call w true true _) (hcomplete.fits_abandon _ true _)

theorem createInfo_resumed (h : Steady p i files call) (hphase : call.phase = .creatingInfo w m)
    (hnext : createInfo files call w m a = some next) : Resumed p i a files call next.1 next.2 := by
  have heffect : call.phase.effect = none := by rw [hphase]; rfl
  obtain ⟨metadata, given, hcomplete, hdescribes⟩ :
      ∃ metadata given, Complete p i files call metadata given w ∧ Describes p call metadata w m := by
    simpa only [Fits, hphase] using h.fits
  have hwrite : Private p i call files (files.write w.name none) :=
    private_write hcomplete.fresh.name none
  cases a with
  | ok now =>
    obtain rfl := Option.some.inj hnext
    exact h.calm heffect hwrite (calm_phase rfl (by rintro ⟨⟩) (by simp [Phase.answers]))
      ⟨metadata, given, hcomplete.write none _, hdescribes⟩
  | wrote count => cases hnext
  | failed fault took =>
    obtain rfl := Option.some.inj hnext
    have hfits (files' : Files) := hcomplete.fits_abandon files' false (.fault fault)
    cases took with
    | true => exact h.calm heffect hwrite (calm_abandon call w true false _) (hfits _)
    | false => exact h.calm heffect .refl (calm_abandon call w true false _) (hfits _)

theorem writeInfo_resumed (h : Steady p i files call) (hphase : call.phase = .writingInfo w m)
    (hnext : writeInfo files call w m a = some next) : Resumed p i a files call next.1 next.2 := by
  have heffect : call.phase.effect = none := by rw [hphase]; rfl
  obtain ⟨metadata, given, hcomplete, hdescribes⟩ :
      ∃ metadata given, Complete p i files call metadata given w ∧ Describes p call metadata w m := by
    simpa only [Fits, hphase] using h.fits
  cases a with
  | ok now =>
    obtain rfl := Option.some.inj hnext
    exact h.calm heffect (private_write hcomplete.fresh.name (some m))
      (calm_phase rfl (by rintro ⟨⟩) (by simp [Phase.answers]))
      ⟨⟨metadata, given, hcomplete.write (some m) _, hdescribes⟩, Function.update_self ..⟩
  | wrote count => cases hnext
  | failed fault took =>
    obtain rfl := Option.some.inj hnext
    exact h.calm heffect .refl (calm_abandon call w true true _) (hcomplete.fits_abandon _ true _)

theorem closeInfo_resumed (h : Steady p i files call) (hphase : call.phase = .closingInfo w m)
    (hnext : closeInfo files call w m a = some next) : Resumed p i a files call next.1 next.2 := by
  have heffect : call.phase.effect = none := by rw [hphase]; rfl
  obtain ⟨⟨metadata, given, hcomplete, hdescribes⟩, htemporary⟩ :
      (∃ metadata given, Complete p i files call metadata given w ∧ Describes p call metadata w m) ∧
        files.temporaries w.name = some (some m) := by
    simpa only [Fits, hphase] using h.fits
  cases a with
  | ok now =>
    obtain rfl := Option.some.inj hnext
    have hcalm : Calm call { call with phase := .publishing w m } :=
      calm_phase rfl (by rintro ⟨⟩) (by simp [Phase.answers])
    refine h.calm heffect .refl (calm_orAbort hcalm w false) (fits_orAbort hcomplete.fresh ?_)
    exact ⟨⟨metadata, given, hcomplete.phase _, hdescribes⟩, htemporary⟩
  | wrote count => cases hnext
  | failed fault took =>
    obtain rfl := Option.some.inj hnext
    exact h.calm heffect .refl (calm_abandon call w true true _) (hcomplete.fits_abandon _ true _)

/-- The manifest that is published can be read and its blob is whole. -/
theorem Complete.published (hcomplete : Complete p i files call metadata given w)
    (hdescribes : Describes p call metadata w m) (hadmitted : Admitted call) :
    Stored p i files call m ∧ Readable p files m ∧ m.file = w.name := by
  obtain ⟨now, hnow, rfl⟩ := hdescribes
  have hfile : (writtenManifest p call.key metadata w.bytes now w.name.uuid).file = w.name := by
    show Name.mk _ _ = w.name
    rw [hcomplete.fresh.name]
    rfl
  have huuid : w.name.uuid = .drawn i call.again := by rw [hcomplete.fresh.name]; rfl
  obtain ⟨options, hoptions⟩ := hadmitted.options metadata given hcomplete.work
  refine ⟨⟨metadata, given, now, call.again, hcomplete.work, hnow, ?_, ?_, ?_⟩, ⟨?_, ?_, ?_⟩, hfile⟩
  · rw [hfile, hcomplete.contents, huuid]
  · rw [hfile, hcomplete.contents]
    exact hcomplete.whole
  · rw [hfile, hcomplete.contents]
    exact hcomplete.length
  · exact readable_written p hadmitted.key hoptions w.bytes hnow _
  · rw [hfile]
    exact hcomplete.blob
  · rw [hfile, hcomplete.contents]
    exact hcomplete.length

/-! ## Section 4: Publishing -/

/-- The rename is the step by which a put takes effect. -/
theorem renameInfo_resumed (h : Steady p i files call) (hphase : call.phase = .publishing w m)
    (hnext : renameInfo files call w a = some next) : Resumed p i a files call next.1 next.2 := by
  have heffect : call.phase.effect = none := by rw [hphase]; rfl
  obtain ⟨⟨metadata, given, hcomplete, hdescribes⟩, htemporary⟩ :
      (∃ metadata given, Complete p i files call metadata given w ∧ Describes p call metadata w m) ∧
        files.temporaries w.name = some (some m) := by
    simpa only [Fits, hphase] using h.fits
  obtain ⟨hstored, hreadable, hfile⟩ := hcomplete.published hdescribes h.admitted
  have hstem : w.name.keyPrefix = p.keyPrefix call.key := by rw [hcomplete.fresh.name]; rfl
  cases a with
  | ok now =>
    simp only [renameInfo, htemporary] at hnext
    obtain rfl := Option.some.inj hnext
    have hmanifest : (files.rename w.name m).manifests (p.keyPrefix call.key) = some m := by
      rw [← hstem]
      exact Function.update_self ..
    have hread : Readable p (files.rename w.name m) m :=
      ⟨hreadable.readable, hreadable.blob, hreadable.length⟩
    have htouches : Touches p i call files (files.rename w.name m) := by
      refine ⟨fun other hother => ?_, fun _ _ => rfl, fun _ _ => rfl, fun name hname => ?_⟩
      · exact Function.update_of_ne (by rwa [hstem]) _ _
      · exact Function.update_of_ne (by rwa [hcomplete.fresh.name]) _ _
    have hresumed (phase : Phase) (hfits : Fits p i (files.rename w.name m) { call with phase })
        (hactive : phase ≠ .waiting) (hpublished : phase.effect = some (some m))
        (hsilent : ∀ m, ¬ phase.answers m) :
        Resumed p i (.ok now) files call (files.rename w.name m) { call with phase } :=
      { fits := hfits
        key := rfl
        work := rfl
        active := hactive
        touches := htouches
        effect := .inr ⟨heffect, by rw [hmanifest]; exact hpublished⟩
        present := fun m' hm => by
          obtain rfl := Option.some.inj (hmanifest.symm.trans hm)
          exact ⟨hread, by rw [hfile, hstem]⟩
        found := fun m' hm => absurd hm (hsilent (some m'))
        nothing := fun hm => absurd hm (hsilent none) }
    cases hprevious : w.previous with
    | none =>
      exact hresumed (.clearing w (.ok m)) ⟨hstored, hmanifest, hcomplete.fresh.name⟩ (by rintro ⟨⟩) rfl (by simp [Phase.answers])
    | some previous =>
      obtain ⟨hsame, hother⟩ := hcomplete.fresh.previous previous hprevious
      exact hresumed (.unlinkingPrevious w previous m)
        ⟨⟨hstored, hmanifest, hcomplete.fresh.name⟩, hsame, by rwa [hfile]⟩ (by rintro ⟨⟩) rfl (by simp [Phase.answers])
  | wrote count => cases hnext
  | failed fault took =>
    obtain rfl := Option.some.inj hnext
    exact h.calm heffect .refl (calm_abandon call w true false _) (hcomplete.fits_abandon _ false _)

theorem unlinkPrevious_resumed (h : Steady p i files call) {previous : Manifest}
    (hphase : call.phase = .unlinkingPrevious w previous m)
    (hnext : unlinkPrevious files call w previous m a = some next) :
    Resumed p i a files call next.1 next.2 := by
  obtain ⟨⟨hstored, hmanifest, hname⟩, hstem, hother⟩ : (Stored p i files call m ∧
      files.manifests (p.keyPrefix call.key) = some m ∧ w.name = call.ownName p i) ∧
        previous.file.keyPrefix = p.keyPrefix call.key ∧ previous.file ≠ m.file := by
    simpa only [Fits, hphase] using h.fits
  obtain ⟨hreadable, hown⟩ := h.present m hmanifest
  have hresumed (files' : Files) (hmanifests : files'.manifests = files.manifests)
      (hcontents : files'.contents = files.contents) (hblob : files'.blobs m.file = true)
      (htouches : Touches p i call files files') :
      Resumed p i a files call files' { call with phase := .clearing w (.ok m) } := by
    refine ⟨⟨?_, ?_, hname⟩, rfl, rfl, (by rintro ⟨⟩), htouches, .inl ⟨by rw [hphase]; rfl, by rw [hmanifests]⟩,
      ?_, ?_, ?_⟩
    · simpa only [Stored, hcontents] using hstored
    · show files'.manifests (p.keyPrefix call.key) = some m
      rw [hmanifests, hmanifest]
    · intro m' hm
      rw [hmanifests, hmanifest] at hm
      obtain rfl := Option.some.inj hm
      exact ⟨⟨hreadable.readable, hblob, by rw [hcontents]; exact hreadable.length⟩, hown⟩
    · intro m' hm
      simp [Phase.answers] at hm
    · intro hm
      simp [Phase.answers] at hm
  cases a with
  | ok now =>
    obtain rfl := Option.some.inj hnext
    refine hresumed _ rfl rfl ?_ ⟨fun _ _ => rfl, fun name hname => ?_, fun _ _ => rfl, fun _ _ => rfl⟩
    · exact (Function.update_of_ne (Ne.symm hother) _ _).trans hreadable.blob
    · exact Function.update_of_ne (fun heq => hname (by rw [heq, hstem])) _ _
  | wrote count => cases hnext
  | failed fault took =>
    obtain rfl := Option.some.inj hnext
    exact hresumed _ rfl rfl hreadable.blob Private.refl.touches

/-! ## Section 5: `finally` -/

theorem closeAbandoned_resumed (h : Steady p i files call) {e : Thrown}
    (hphase : call.phase = .abandoning w e) (hnext : closeAbandoned files call w e a = some next) :
    Resumed p i a files call next.1 next.2 := by
  have heffect : call.phase.effect = none := by rw [hphase]; rfl
  obtain ⟨hfresh, hreplay⟩ : Fresh p i call w ∧ (e = .fault .missing → Replayable call) := by
    simpa only [Fits, hphase] using h.fits
  cases a with
  | ok now =>
    obtain rfl := Option.some.inj hnext
    exact h.calm heffect .refl (calm_phase rfl (by rintro ⟨⟩) (by simp [Phase.answers]))
      ⟨⟨hfresh.name, hfresh.previous⟩, hreplay⟩
  | wrote count => cases hnext
  | failed fault took =>
    obtain rfl := Option.some.inj hnext
    have hraise : Fits p i files (call.raise (.fault .other)) := fits_raise (by rintro ⟨⟩)
    exact h.calm heffect .refl (calm_raise call (.fault .other)) hraise

theorem clear_resumed (h : Steady p i files call) {published : Except Thrown Manifest}
    (hphase : call.phase = .clearing w published)
    (hnext : clear files call w published a = some next) : Resumed p i a files call next.1 next.2 := by
  have hname : w.name = call.ownName p i := by
    have hfits := h.fits
    cases published with
    | error e =>
      obtain ⟨hfresh, -⟩ : Fresh p i call w ∧ (e = .fault .missing → Replayable call) := by
        simpa only [Fits, hphase] using hfits
      exact hfresh.name
    | ok m =>
      obtain ⟨-, -, hname⟩ : Stored p i files call m ∧
          files.manifests (p.keyPrefix call.key) = some m ∧ w.name = call.ownName p i := by
        simpa only [Fits, hphase] using hfits
      exact hname
  have hresumed (files' : Files) (hprivate : Private p i call files files')
      (hblobs : files'.blobs = files.blobs) (hcontents : files'.contents = files.contents) :
      Resumed p i a files call files' (cleared call w published) := by
    cases published with
    | error e =>
      have heffect : call.phase.effect = none := by rw [hphase]; rfl
      obtain ⟨hfresh, hreplay⟩ : Fresh p i call w ∧ (e = .fault .missing → Replayable call) := by
        simpa only [Fits, hphase] using h.fits
      exact h.calm heffect hprivate (calm_phase rfl (by rintro ⟨⟩) (by simp [Phase.answers]))
        ⟨⟨hfresh.name, hfresh.previous⟩, hreplay⟩
    | ok m =>
      obtain ⟨hstored, hmanifest, -⟩ : Stored p i files call m ∧
          files.manifests (p.keyPrefix call.key) = some m ∧ w.name = call.ownName p i := by
        simpa only [Fits, hphase] using h.fits
      refine ⟨?_, rfl, rfl, (by rintro ⟨⟩), hprivate.touches,
        .inl ⟨by rw [hphase]; rfl, by rw [hprivate.manifests]⟩, ?_, ?_, ?_⟩
      · show Stored p i files' _ m
        simpa only [Stored, hcontents, cleared, Call.settle] using hstored
      · intro m' hm
        rw [hprivate.manifests] at hm
        obtain ⟨hreadable, hstem⟩ := h.present m' hm
        exact ⟨⟨hreadable.readable, by rw [hblobs]; exact hreadable.blob,
          by rw [hcontents]; exact hreadable.length⟩, hstem⟩
      · intro m' hm
        simp [Phase.answers, cleared, Call.settle] at hm
      · intro hm
        simp [Phase.answers, cleared, Call.settle] at hm
  cases a with
  | ok now =>
    obtain rfl := Option.some.inj hnext
    exact hresumed _ (private_unlinkTemporary hname) rfl rfl
  | wrote count => cases hnext
  | failed fault took =>
    obtain rfl := Option.some.inj hnext
    exact hresumed _ .refl rfl rfl

theorem discard_resumed (h : Steady p i files call) {e : Thrown} (hphase : call.phase = .discarding w e)
    (hnext : discard files call w e a = some next) : Resumed p i a files call next.1 next.2 := by
  have heffect : call.phase.effect = none := by rw [hphase]; rfl
  obtain ⟨hfresh, hreplay⟩ : Fresh p i call w ∧ (e = .fault .missing → Replayable call) := by
    simpa only [Fits, hphase] using h.fits
  cases a with
  | ok now =>
    obtain rfl := Option.some.inj hnext
    exact h.calm heffect (private_unlink hfresh.name) (calm_raise call e) (fits_raise hreplay)
  | wrote count => cases hnext
  | failed fault took =>
    obtain rfl := Option.some.inj hnext
    exact h.calm heffect .refl (calm_raise call e) (fits_raise hreplay)

/-! ## Section 6: Any step -/

theorem resumePut_resumed (h : Steady p i files call) (hwork : call.work = .put metadata given)
    (hnext : resumePut p files call metadata a call.phase = some next) :
    Resumed p i a files call next.1 next.2 := by
  cases hphase : call.phase with
  | creating w => exact createBlob_resumed h hphase hwork (by rwa [hphase] at hnext)
  | reading w => exact readBody_resumed h hphase hwork (by rwa [hphase] at hnext)
  | writing w chunk rest => exact writeChunk_resumed h hphase (by rwa [hphase] at hnext)
  | syncing w =>
    obtain ⟨metadata', given', hcomplete⟩ : ∃ metadata given, Complete p i files call metadata given w := by
      simpa only [Fits, hphase] using h.fits
    have hcalm : Calm call { call with phase := .closing w } :=
      calm_phase rfl (by rintro ⟨⟩) (by simp [Phase.answers])
    rw [hphase] at hnext
    exact proceed_resumed h (by rw [hphase]; rfl) hcalm hcomplete
      ⟨metadata', given', hcomplete.phase _⟩ hnext
  | closing w => exact closeBlob_resumed h hphase hwork (by rwa [hphase] at hnext)
  | creatingInfo w m => exact createInfo_resumed h hphase (by rwa [hphase] at hnext)
  | writingInfo w m => exact writeInfo_resumed h hphase (by rwa [hphase] at hnext)
  | syncingInfo w m =>
    obtain ⟨⟨metadata', given', hcomplete, hdescribes⟩, htemporary⟩ :
        (∃ metadata given, Complete p i files call metadata given w ∧ Describes p call metadata w m) ∧
          files.temporaries w.name = some (some m) := by
      simpa only [Fits, hphase] using h.fits
    have hcalm : Calm call { call with phase := .closingInfo w m } :=
      calm_phase rfl (by rintro ⟨⟩) (by simp [Phase.answers])
    rw [hphase] at hnext
    exact proceed_resumed h (by rw [hphase]; rfl) hcalm hcomplete
      ⟨⟨metadata', given', hcomplete.phase _, hdescribes⟩, htemporary⟩ hnext
  | closingInfo w m => exact closeInfo_resumed h hphase (by rwa [hphase] at hnext)
  | publishing w m => exact renameInfo_resumed h hphase (by rwa [hphase] at hnext)
  | unlinkingPrevious w previous m => exact unlinkPrevious_resumed h hphase (by rwa [hphase] at hnext)
  | abandoning w e => exact closeAbandoned_resumed h hphase (by rwa [hphase] at hnext)
  | clearing w published => exact clear_resumed h hphase (by rwa [hphase] at hnext)
  | discarding w e => exact discard_resumed h hphase (by rwa [hphase] at hnext)
  | _ =>
    rw [hphase] at hnext
    cases hnext

theorem resume_resumed (h : Steady p i files call) (hnext : resume p i files call a = some next) :
    Resumed p i a files call next.1 next.2 := by
  unfold resume at hnext
  split at hnext
  · exact prepare_resumed h ‹_› hnext
  · exact inspect_resumed h ‹_› hnext
  · exact openBlob_resumed h ‹_› hnext
  · exact sizeBlob_resumed h ‹_› hnext
  · exact dropBlob_resumed h ‹_› hnext
  · exact unlinkManifest_resumed h ‹_› hnext
  · exact unlinkBlob_resumed h ‹_› hnext
  · split at hnext
    · exact resumePut_resumed h ‹_› hnext
    · cases hnext

end steps

end Cossack.NodeAdapter.LocalStorage
