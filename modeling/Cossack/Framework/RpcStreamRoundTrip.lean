import Cossack.Core.RpcStreamChunks
import Cossack.Framework.RpcStreamResponse
import Cossack.Lib.Outcome
import Mathlib.Data.List.TakeWhile

/-! # What a response sends, its reader accepts

    The frames of a response, read back from its bytes under any chunking. -/

namespace Cossack.Framework.RpcStreamResponse

open JsonText
open Cossack.Core.RpcStream (maxFrameBytes FrameType RpcStreamFrame Progress frameType carries isBlank
  isNonBlank isObject isString parseFrame readRpcStream readRpcStream_eq specification streamInvalid
  validate validateRpcFrame)

/-! ## Section 1: Names and properties -/

theorem key_inj {a b : String} : key a = key b ↔ a = b :=
  ⟨JsString.utf16_injective, congrArg key⟩

@[simp] theorem lookup_nil (wanted : String) : lookup [] wanted = none := rfl

theorem lookup_key (name : String) (v : Json) (rest : List (List Nat × Json)) (wanted : String) :
    lookup ((key name, v) :: rest) wanted = if name = wanted then some v else lookup rest wanted := by
  unfold lookup
  rw [List.find?_cons]
  by_cases h : name = wanted
  · subst h
    simp [key]
  · have hne : key name ≠ JsString.utf16 wanted := fun heq => h (JsString.utf16_injective heq)
    simp [hne, h]

theorem lookup_append (a b : List (List Nat × Json)) (wanted : String) :
    lookup (a ++ b) wanted = (lookup a wanted).or (lookup b wanted) := by
  unfold lookup
  rw [List.find?_append]
  cases a.find? fun e => decide (e.1 = JsString.utf16 wanted) <;> rfl

theorem lookup_optional (name : String) (v : Option Json) (wanted : String) :
    lookup (optional name v) wanted = if name = wanted then v else none := by
  cases v with
  | none => simp [optional]
  | some v => simp [optional, lookup_key]

theorem validMembers_iff (fields : List (List Nat × Json)) :
    ValidMembers fields ↔ ∀ e ∈ fields, (∀ u ∈ e.1, u < 0x10000) ∧ Valid e.2 := by
  induction fields with
  | nil => simp [ValidMembers]
  | cons e es ih => simp [ValidMembers, ih, and_assoc]

theorem key_bounded {name : String} {u : Nat} (h : u ∈ key name) : u < 0x10000 := utf16_lt h

/-! ## Section 2: Snapshots of objects -/

/-- What is left of an object are distinct properties with valid data. -/
theorem snapshotMembers_ok {members : List (Text × Snapshot)} {fields : List (List Nat × Json)}
    (h : snapshotMembers members = .ok fields) :
    (fields.map Prod.fst).Sublist (members.map fun m => m.1.units) ∧ ValidMembers fields := by
  induction members generalizing fields with
  | nil =>
      obtain rfl := Outcome.pure_eq_ok.mp h
      exact ⟨List.Sublist.refl _, by rw [ValidMembers]; trivial⟩
  | cons m members ih =>
      obtain ⟨name, snapshot⟩ := m
      obtain ⟨value, -, h⟩ := Outcome.bind_eq_ok.mp h
      obtain ⟨rest, hrest, h⟩ := Outcome.bind_eq_ok.mp h
      obtain ⟨hsub, hvalid⟩ := ih hrest
      cases value with
      | none =>
          obtain rfl := Outcome.pure_eq_ok.mp h
          exact ⟨hsub.cons _, hvalid⟩
      | some data =>
          obtain rfl := Outcome.pure_eq_ok.mp h
          refine ⟨hsub.cons_cons _, ?_⟩
          rw [ValidMembers]
          exact ⟨name.bounded, data.valid, hvalid⟩

theorem assign_keys (name : Text) (value : Snapshot) (members : List (Text × Snapshot))
    (h : (members.map fun m => m.1.units).Nodup) :
    ((assign name value members).map fun m => m.1.units).Nodup ∧
      ∀ u ∈ (assign name value members).map fun m => m.1.units,
        u = name.units ∨ u ∈ members.map fun m => m.1.units := by
  induction members with
  | nil => simp [assign]
  | cons m members ih =>
      rw [List.map_cons, List.nodup_cons] at h
      obtain ⟨hnodup, hkeys⟩ := ih h.2
      unfold assign
      by_cases heq : m.1.units = name.units
      · rw [if_pos heq, List.map_cons, List.nodup_cons]
        exact ⟨⟨heq ▸ h.1, h.2⟩, fun u hu => .inr (by rw [List.map_cons, heq]; exact hu)⟩
      · rw [if_neg heq, List.map_cons, List.nodup_cons]
        refine ⟨⟨fun hmem => ?_, hnodup⟩, fun u hu => ?_⟩
        · rcases hkeys _ hmem with h' | h'
          · exact heq h'
          · exact h.1 h'
        · rcases List.mem_cons.mp hu with rfl | hu
          · exact .inr (by simp)
          · rcases hkeys _ hu with h' | h'
            · exact .inl h'
            · exact .inr (List.mem_cons_of_mem _ h')

theorem withCursor_keys (cursor : Option Decimal) (state : Fields) :
    ((withCursor cursor state).map fun m => m.1.units).Nodup := by
  cases cursor with
  | none => exact state.distinct
  | some n => exact (assign_keys cursorField _ state.members state.distinct).1

theorem snapshot_valid {members : List (Text × Snapshot)} {fields : List (List Nat × Json)}
    (hkeys : (members.map fun m => m.1.units).Nodup) (h : snapshotMembers members = .ok fields) :
    Valid (.obj fields) := by
  obtain ⟨hsub, hvalid⟩ := snapshotMembers_ok h
  rw [Valid]
  exact ⟨hsub.nodup hkeys, hvalid⟩

/-! ## Section 3: Frames -/

/-- An error frame that the reader takes: a code that is not blank, and field errors that are
    an object if there are any. -/
def presentable (error : Thrown) : Bool :=
  !isBlank (errorCode error).units &&
    match errorFieldErrors error with
    | .ok (some data) => isObject (some data.json)
    | _ => true

/-- The fields of a frame, as far as the reader looks at them. -/
structure Frame (requestId : Text) (type : FrameType) (carried : Bool)
    (fields : List (List Nat × Json)) : Prop where
  valid : Valid (.obj fields)
  v : lookup fields "v" = some (.num ⟨false, 1, 0⟩)
  kind : frameType (lookup fields "type") = some type
  id : lookup fields "requestId" = some (.str requestId.units)
  carry : carries fields type = carried

theorem snapshotValueFrame_frame {done : Bool} {requestId : Text} {value : Snapshot}
    {state : List (Text × Snapshot)} {scope : Option Fields} {fields : List (List Nat × Json)}
    (hstate : (state.map fun m => m.1.units).Nodup)
    (h : snapshotValueFrame (if done then "done" else "yield") requestId value state scope =
      .ok fields) :
    Frame requestId (if done then .done else .yield) true fields ∧
      lookup fields "developmentTrace" = none := by
  obtain ⟨value, hvalue, h⟩ := Outcome.bind_eq_ok.mp h
  obtain ⟨state', hsnap, h⟩ := Outcome.bind_eq_ok.mp h
  obtain ⟨scope', hscope, h⟩ := Outcome.bind_eq_ok.mp h
  obtain rfl := Outcome.pure_eq_ok.mp h
  have hvalidState := snapshot_valid hstate hsnap
  have hvalidScope : ∀ fields ∈ scope', Valid (.obj fields) := by
    intro fields hmem
    cases scope with
    | none =>
        obtain rfl := Outcome.pure_eq_ok.mp hscope
        cases hmem
    | some scope =>
        obtain ⟨fields', hfields, rfl⟩ := Outcome.map_eq_ok.mp hscope
        obtain rfl := Option.mem_some_iff.mp hmem
        exact snapshot_valid scope.distinct hfields
  refine ⟨⟨?_, ?_, ?_, ?_, ?_⟩, ?_⟩
  · rw [Valid, validMembers_iff]
    refine ⟨?_, ?_⟩
    · cases value <;> cases scope' <;> simp [metadata, optional, key_inj]
    · intro e he
      simp only [metadata, optional, List.mem_append, List.mem_cons, List.not_mem_nil, or_false,
        List.mem_map, Option.mem_toList] at he
      rcases he with ((((rfl | rfl | rfl) | ⟨v, hv, rfl⟩) | rfl) | ⟨v, hv, rfl⟩)
      · exact ⟨fun u => key_bounded, by rw [Valid]; trivial⟩
      · exact ⟨fun u => key_bounded, by rw [Valid]; exact fun u => utf16_lt⟩
      · exact ⟨fun u => key_bounded, by rw [Valid]; exact requestId.bounded⟩
      · obtain ⟨data, -, rfl⟩ := Option.map_eq_some_iff.mp hv
        exact ⟨fun u => key_bounded, data.valid⟩
      · exact ⟨fun u => key_bounded, hvalidState⟩
      · obtain ⟨fields, hfields, rfl⟩ := Option.map_eq_some_iff.mp hv
        exact ⟨fun u => key_bounded, hvalidScope fields hfields⟩
  · simp [metadata, lookup_append, lookup_key]
  · cases done <;> simp [metadata, lookup_append, lookup_key] <;> decide
  · simp [metadata, lookup_append, lookup_key]
  · cases done <;> cases scope' <;>
      simp [carries, metadata, lookup_append, lookup_key, lookup_optional, isObject]
  · simp [metadata, lookup_append, lookup_key, lookup_optional]

theorem snapshotErrorFrame_frame {requestId : Text} {error : Thrown}
    {fields : List (List Nat × Json)} (h : snapshotErrorFrame requestId error = .ok fields) :
    Frame requestId .error (presentable error) fields ∧
      lookup fields "developmentTrace" = none := by
  obtain ⟨fieldErrors, herrors, h⟩ := Outcome.bind_eq_ok.mp h
  obtain rfl := Outcome.pure_eq_ok.mp h
  refine ⟨⟨?_, ?_, ?_, ?_, ?_⟩, ?_⟩
  · rw [Valid, validMembers_iff]
    refine ⟨?_, ?_⟩
    · cases fieldErrors <;> simp [metadata, optional, key_inj]
    · intro e he
      simp only [metadata, optional, List.mem_append, List.mem_cons, List.not_mem_nil, or_false,
        List.mem_map, Option.mem_toList] at he
      rcases he with ((((rfl | rfl | rfl) | rfl) | ⟨v, hv, rfl⟩) | rfl)
      · exact ⟨fun u => key_bounded, by rw [Valid]; trivial⟩
      · exact ⟨fun u => key_bounded, by rw [Valid]; exact fun u => utf16_lt⟩
      · exact ⟨fun u => key_bounded, by rw [Valid]; exact requestId.bounded⟩
      · exact ⟨fun u => key_bounded, by rw [Valid]; exact (errorCode error).bounded⟩
      · obtain ⟨data, -, rfl⟩ := Option.map_eq_some_iff.mp hv
        exact ⟨fun u => key_bounded, data.valid⟩
      · exact ⟨fun u => key_bounded, by rw [Valid]; exact (errorMessage error).bounded⟩
  · simp [metadata, lookup_append, lookup_key]
  · simp [metadata, lookup_append, lookup_key]
    decide
  · simp [metadata, lookup_append, lookup_key]
  · cases fieldErrors <;>
      simp [carries, presentable, herrors, metadata, lookup_append, lookup_key, lookup_optional,
        isNonBlank, isString]
  · simp [metadata, lookup_append, lookup_key, lookup_optional]

/-! ## Section 4: What is sent -/

/-- A frame on a line of its own, within the limit. -/
structure Sent (requestId : Text) (type : FrameType) (carried : Bool) (f : Emitted) : Prop where
  frame : Frame requestId type carried f.fields
  bytes : f.bytes = line f.fields
  size : (line f.fields).length - 1 ≤ maxFrameBytes

/-- Evidence is one more property, which the reader does not look at. -/
theorem Frame.traced {requestId : Text} {type : FrameType} {carried : Bool}
    {fields : List (List Nat × Json)} (h : Frame requestId type carried fields)
    (hnone : lookup fields "developmentTrace" = none) (trace : Text) :
    Frame requestId type carried (fields ++ [(key "developmentTrace", .str trace.units)]) := by
  have hlookup : ∀ name, name ≠ "developmentTrace" →
      lookup (fields ++ [(key "developmentTrace", .str trace.units)]) name = lookup fields name := by
    intro name hne
    rw [lookup_append, lookup_key, if_neg (Ne.symm hne), lookup_nil, Option.or_none]
  have hnew : key "developmentTrace" ∉ fields.map Prod.fst := by
    intro hmem
    obtain ⟨e, he, heq⟩ := List.mem_map.mp hmem
    unfold lookup at hnone
    rw [Option.map_eq_none_iff, List.find?_eq_none] at hnone
    exact hnone e he (by simpa [key] using heq)
  obtain ⟨hvalid, hv, hkind, hid, hcarry⟩ := h
  rw [Valid, validMembers_iff] at hvalid
  refine ⟨?_, ?_, ?_, ?_, ?_⟩
  · rw [Valid, validMembers_iff]
    refine ⟨?_, ?_⟩
    · rw [List.map_append, List.nodup_append]
      refine ⟨hvalid.1, by simp, ?_⟩
      rintro a ha b hb rfl
      obtain rfl : a = key "developmentTrace" := by simpa using hb
      exact hnew ha
    · intro e he
      rcases List.mem_append.mp he with he | he
      · exact hvalid.2 e he
      · obtain rfl := List.mem_singleton.mp he
        exact ⟨fun u => key_bounded, by rw [Valid]; exact trace.bounded⟩
  · rw [hlookup _ (by decide), hv]
  · rw [hlookup _ (by decide), hkind]
  · rw [hlookup _ (by decide), hid]
  · rw [← hcarry]
    cases type <;> simp only [carries] <;>
      rw [hlookup _ (by decide), hlookup _ (by decide)]
    rw [hlookup _ (by decide)]

theorem encode_sent {requestId : Text} {type : FrameType} {carried : Bool}
    {fields : List (List Nat × Json)} (h : Frame requestId type carried fields)
    (hnone : lookup fields "developmentTrace" = none) {development : Option Text} {f : Emitted}
    (hf : encode fields development = .ok f) : Sent requestId type carried f := by
  unfold encode at hf
  simp only at hf
  split at hf
  · cases hf
  · rename_i hsize
    have hplain : Sent requestId type carried ⟨fields, line fields⟩ := ⟨h, rfl, Nat.not_lt.mp hsize⟩
    cases development with
    | none =>
        obtain rfl := Outcome.pure_eq_ok.mp hf
        exact hplain
    | some trace =>
        simp only at hf
        split at hf
        · rename_i hfits
          obtain rfl := Outcome.pure_eq_ok.mp hf
          exact ⟨h.traced hnone trace, rfl, by simp only; omega⟩
        · obtain rfl := Outcome.pure_eq_ok.mp hf
          exact hplain

theorem mapError_ok {α ε ε' : Type} {x : Except ε α} {g : ε → ε'} {a : α}
    (h : x.mapError g = .ok a) : x = .ok a := by
  cases x with
  | error e => cases h
  | ok b => exact congrArg _ (Except.ok.inj h)

theorem turn_sent {o : Options} {turn : Turn} {f : Emitted} (h : o.turn turn = .ok f) :
    Sent o.requestId (if turn.done then .done else .yield) true f := by
  obtain ⟨state, -, h⟩ := Outcome.bind_eq_ok.mp h
  obtain ⟨scope, -, h⟩ := Outcome.bind_eq_ok.mp h
  obtain ⟨fields, hfields, h⟩ := Outcome.bind_eq_ok.mp h
  obtain ⟨emitted, hemitted, h⟩ := Outcome.bind_eq_ok.mp h
  obtain ⟨hframe, hnone⟩ :=
    snapshotValueFrame_frame (withCursor_keys turn.cursor state) (mapError_ok hfields)
  have hsent := encode_sent hframe hnone hemitted
  split at h
  · -- the last frame, after the cleanup
    cases hcleanup : o.cleanup true with
    | some error =>
        rw [hcleanup] at h
        cases h
    | none =>
        rw [hcleanup] at h
        cases htrace : o.developmentTrace with
        | none =>
            rw [htrace] at h
            obtain rfl := Outcome.pure_eq_ok.mp h
            exact hsent
        | some trace =>
            rw [htrace] at h
            exact encode_sent hframe hnone h
  · obtain rfl := Outcome.pure_eq_ok.mp h
    exact hsent

theorem failed_sent {o : Options} {finished : Bool} {error : Thrown} {f : Emitted}
    (h : o.failed finished error = .ok f) : Sent o.requestId .error (presentable error) f := by
  obtain ⟨fields, hfields, h⟩ := Outcome.bind_eq_ok.mp h
  obtain ⟨hframe, hnone⟩ := snapshotErrorFrame_frame (mapError_ok hfields)
  exact encode_sent hframe hnone h

/-- The frames of a body that ends with its last frame. -/
structure Sequence (requestId : Text) (body : Body) where
  front : List Emitted
  last : Emitted
  type : FrameType
  carried : Bool
  frames : body.frames = front ++ [last]
  yields : ∀ f ∈ front, Sent requestId .yield true f
  ends : Sent requestId type carried last
  terminal : type ≠ .yield
  presented : carried = true ↔ ∀ error, body.ending = .failed error → presentable error = true

/-- By the pulls: each sends a frame and goes on, or sends the last one. -/
theorem pulls_sequence (o : Options) (pulls : List (Except Thrown Turn))
    (hclosed : (o.pulls pulls).closed = true) : Nonempty (Sequence o.requestId (o.pulls pulls)) := by
  induction pulls with
  | nil => cases hclosed
  | cons pull rest ih =>
      simp only [Options.pulls] at hclosed ⊢
      cases hturn : pull.bind o.turn with
      | error error =>
          rw [hturn] at hclosed
          simp only at hclosed ⊢
          cases hfailed : o.failed (hasFinished pull) error with
          | error e =>
              rw [hfailed] at hclosed
              cases hclosed
          | ok f =>
              refine ⟨⟨[], f, .error, presentable error, rfl, fun _ h => (nomatch h),
                failed_sent hfailed, by decide, ?_⟩⟩
              simp only [Ending.failed.injEq]
              exact ⟨fun h e he => he ▸ h, fun h => h error rfl⟩
      | ok f =>
          rw [hturn] at hclosed
          obtain ⟨turn, rfl, hf⟩ : ∃ turn, pull = .ok turn ∧ o.turn turn = .ok f := by
            cases pull with
            | error e => cases hturn
            | ok turn => exact ⟨turn, rfl, hturn⟩
          have hsent := turn_sent hf
          simp only at hclosed ⊢
          by_cases hdone : turn.done = true
          · rw [if_pos hdone] at hsent
            rw [if_pos (show hasFinished (.ok turn) = true from hdone)]
            refine ⟨⟨[], f, .done, true, rfl, fun _ h => (nomatch h), hsent, by decide, ?_⟩⟩
            simp
          · rw [if_neg hdone] at hsent
            rw [if_neg (show ¬ hasFinished (.ok turn) = true from hdone)] at hclosed ⊢
            obtain ⟨front, last, type, carried, hframes, hyields, hends, hterminal, hpresented⟩ :=
              ih hclosed
            refine ⟨⟨f :: front, last, type, carried, ?_, ?_, hends, hterminal, hpresented⟩⟩
            · rw [hframes, List.cons_append]
            · intro g hg
              rcases List.mem_cons.mp hg with rfl | hg
              · exact hsent
              · exact hyields g hg

/-! ## Section 5: Reading a line -/

/-- The line without its line feed. -/
def content (f : Emitted) : List UInt8 := Utf8.encode (print (.obj f.fields))

def received (requestId : Text) (type : FrameType) (f : Emitted) : RpcStreamFrame :=
  ⟨canonicalMembers f.fields, type, requestId.units⟩

theorem carries_canonical (fields : List (List Nat × Json)) (type : FrameType) :
    carries (canonicalMembers fields) type = carries fields type := by
  have hobject : ∀ v : Option Json, isObject (v.map canonical) = isObject v := by
    intro v
    rcases v with _ | v
    · rfl
    · cases v <;> simp [canonical, isObject]
  have hstring : ∀ v : Option Json, isString (v.map canonical) = isString v := by
    intro v
    rcases v with _ | v
    · rfl
    · cases v <;> simp [canonical, isString]
  have hblank : ∀ v : Option Json, isNonBlank (v.map canonical) = isNonBlank v := by
    intro v
    rcases v with _ | v
    · rfl
    · cases v <;> simp [canonical, isNonBlank]
  cases type <;> simp [carries, lookup_canonical, hobject, hstring, hblank]

/-- A line is the frame that was sent, or malformed for the reader. -/
theorem parseFrame_sent {requestId : Text} {type : FrameType} {carried : Bool} {f : Emitted}
    (h : Sent requestId type carried f) :
    parseFrame (content f) =
      if !isBlank requestId.units && carried then .ok (received requestId type f)
      else .error (streamInvalid "Unsupported or malformed RPC stream frame.") := by
  obtain ⟨⟨hvalid, hv, hkind, hid, hcarry⟩, -, -⟩ := h
  have htext : Utf8.decodeText (content f) = some (print (.obj f.fields)) := by
    unfold content
    rw [print]
    exact Utf8.decodeText_encode _ _ (by decide)
  have hv' : lookup (canonicalMembers f.fields) "v" = some (.num ⟨false, 1, 0⟩) := by
    rw [lookup_canonical, hv, Option.map_some, canonical]
    rfl
  have hid' : lookup (canonicalMembers f.fields) "requestId" = some (.str requestId.units) := by
    rw [lookup_canonical, hid, Option.map_some, canonical]
  have hkind' : frameType (lookup (canonicalMembers f.fields) "type") = some type := by
    rw [lookup_canonical, ← hkind]
    rcases lookup f.fields "type" with _ | v
    · rfl
    · cases v <;> simp [canonical, frameType]
  have hone : Decimal.isOne ⟨false, 1, 0⟩ = true := by decide
  rw [parseFrame, htext, Option.bind_some, parse_print _ hvalid, canonical]
  simp only [validateRpcFrame, hv', hid', hkind', hone, carries_canonical, hcarry, Bool.true_and]
  rfl

theorem lineFeed_content (f : Emitted) : 10 ∉ content f :=
  Utf8.lineFeed_encode (lineFeed_print _)

/-- The lines of a body are the frames that were sent. -/
theorem split_frames (frames : List Emitted) (h : ∀ f ∈ frames, f.bytes = line f.fields) :
    Lines.split 10 (frames.flatMap Emitted.bytes) = (frames.map content, []) := by
  induction frames with
  | nil => rfl
  | cons f frames ih =>
      have hbytes : f.bytes = content f ++ [10] := h f (by simp)
      rw [List.flatMap_cons, hbytes, List.append_assoc, List.singleton_append,
        Lines.split_append (lineFeed_content f), ih fun g hg => h g (by simp [hg])]
      rfl

/-! ## Section 6: Reading the body -/

/-- The line of a frame, as the reader's specification takes it. -/
def lineOf (f : Emitted) : Nat × Except Cossack.Core.RpcStream.RpcError RpcStreamFrame :=
  ((content f).length, parseFrame (content f))

/-- No line is too long. -/
theorem check_sent {requestId : Text} {type : FrameType} {carried : Bool} {f : Emitted}
    (h : Sent requestId type carried f) {p : Progress} (hopen : p.completion = none) :
    p.check (content f).length = .ok () := by
  have hsize := h.size
  have hline : (line f.fields).length = (content f).length + 1 := by simp [line, content]
  unfold Progress.check
  rw [if_neg (by simp [hopen]), if_neg (by omega)]

theorem accept_expected (p : Progress) (frame : RpcStreamFrame) (hopen : p.completion = none)
    (hid : p.requestId = some frame.requestId) :
    p.accept (.ok frame) =
      .ok (if frame.type = .yield then ⟨none, some frame.requestId, p.yielded ++ [frame]⟩
        else ⟨some frame, some frame.requestId, p.yielded⟩) := by
  unfold Progress.accept
  simp only [hopen, hid, Option.isSome_none, Bool.false_eq_true, if_false, ne_eq, not_true_eq_false,
    and_false]
  split <;> rfl

/-- A frame with the expected id is yielded, and the stream stays open. -/
theorem line_yield {requestId : Text} {f : Emitted} (h : Sent requestId .yield true f)
    (hid : isBlank requestId.units = false) (yielded : List RpcStreamFrame) :
    Progress.line ⟨none, some requestId.units, yielded⟩ (lineOf f) =
      .ok ⟨none, some requestId.units, yielded ++ [received requestId .yield f]⟩ := by
  have hparse := parseFrame_sent h
  rw [hid] at hparse
  unfold Progress.line lineOf
  rw [check_sent h rfl, hparse]
  exact accept_expected ⟨none, some requestId.units, yielded⟩ (received requestId .yield f) rfl rfl

theorem lines_yields {requestId : Text} {front : List Emitted}
    (h : ∀ f ∈ front, Sent requestId .yield true f) (hid : isBlank requestId.units = false)
    (yielded : List RpcStreamFrame)
    (rest : List (Nat × Except Cossack.Core.RpcStream.RpcError RpcStreamFrame)) :
    Progress.lines ⟨none, some requestId.units, yielded⟩ (front.map lineOf ++ rest) =
      Progress.lines ⟨none, some requestId.units, yielded ++ front.map (received requestId .yield)⟩
        rest := by
  induction front generalizing yielded with
  | nil => simp
  | cons f front ih =>
      rw [List.map_cons, List.cons_append, Progress.lines, line_yield (h f (by simp)) hid]
      show Progress.lines _ (front.map lineOf ++ rest) = _
      rw [ih (fun g hg => h g (by simp [hg])), List.append_assoc]
      rfl

/-- A first line that is refused refuses the body. -/
theorem lines_refused {p : Progress} {f : Emitted} {requestId : Text} {type : FrameType}
    {carried : Bool} (h : Sent requestId type carried f) (hopen : p.completion = none)
    (hbad : isBlank requestId.units = true ∨ carried = false ∨
      (p.requestId ≠ none ∧ p.requestId ≠ some requestId.units))
    (rest : List (Nat × Except Cossack.Core.RpcStream.RpcError RpcStreamFrame)) :
    ∃ failure, p.lines (lineOf f :: rest) = .error failure := by
  have haccept : ∃ failure, p.accept (parseFrame (content f)) = .error failure := by
    rw [parseFrame_sent h]
    unfold Progress.accept
    rw [if_neg (by simp [hopen])]
    by_cases hgood : (!isBlank requestId.units && carried) = true
    · -- the frame is well formed, and its id is another one
      rw [if_pos hgood]
      simp only [Bool.and_eq_true, Bool.not_eq_true'] at hgood
      rcases hbad with hblank | hcarried | hother
      · rw [hblank] at hgood
        cases hgood.1
      · rw [hcarried] at hgood
        cases hgood.2
      · exact ⟨_, if_pos hother⟩
    · rw [if_neg hgood]
      exact ⟨_, rfl⟩
  obtain ⟨failure, haccept⟩ := haccept
  refine ⟨failure, ?_⟩
  rw [Progress.lines, Progress.line]
  unfold lineOf
  rw [check_sent h hopen]
  show (p.accept (parseFrame (content f)) >>= _) = _
  rw [haccept]
  rfl

/-- A last frame that the reader takes completes the stream. -/
theorem lines_last {requestId : Text} {type : FrameType} {f : Emitted}
    (h : Sent requestId type true f) (hid : isBlank requestId.units = false) (hlast : type ≠ .yield)
    (yielded : List RpcStreamFrame) :
    Progress.lines ⟨none, some requestId.units, yielded⟩ [lineOf f] =
      .ok ⟨some (received requestId type f), some requestId.units, yielded⟩ := by
  have hparse := parseFrame_sent h
  rw [hid] at hparse
  rw [Progress.lines, Progress.line]
  unfold lineOf
  rw [check_sent h rfl, hparse]
  have haccept := accept_expected ⟨none, some requestId.units, yielded⟩
    (received requestId type f) rfl rfl
  rw [if_neg (show (received requestId type f).type ≠ .yield from hlast)] at haccept
  show (Progress.accept ⟨none, some requestId.units, yielded⟩ (.ok (received requestId type f)) >>=
    fun p => p.lines []) = _
  rw [haccept]
  rfl

/-! ## Section 7: The header -/

theorem isSpace_http {u : Nat} (h : isHttpSpace u = true) : JsString.isSpace (Char.ofNat u) = true := by
  simp only [isHttpSpace, Bool.or_eq_true, decide_eq_true_eq] at h
  rcases h with ((rfl | rfl) | rfl) | rfl <;> decide

/-- An id that is not blank leaves a header. -/
theorem headerValue_ne_nil {units header : List Nat} (hid : isBlank units = false)
    (h : headerValue units = some header) : header ≠ [] := by
  unfold headerValue at h
  simp only at h
  split at h
  · obtain rfl := Option.some.inj h
    intro hnil
    have hall : ∀ u ∈ units.dropWhile isHttpSpace, isHttpSpace u = true := by
      have hdrop := List.reverse_eq_nil_iff.mp hnil
      intro u hu
      exact List.dropWhile_eq_nil_iff.mp hdrop u (List.mem_reverse.mpr hu)
    have hspaces : ∀ u ∈ units, isHttpSpace u = true := by
      intro u hu
      rw [← List.takeWhile_append_dropWhile (p := isHttpSpace) (l := units)] at hu
      rcases List.mem_append.mp hu with hu | hu
      · exact List.mem_takeWhile_imp hu
      · exact hall u hu
    have hblank : isBlank units = true := by
      rw [isBlank, List.all_eq_true]
      exact fun u hu => isSpace_http (hspaces u hu)
    rw [hblank] at hid
    cases hid
  · cases h

/-! ## Section 8: The round trip -/

/-- The reader yields the frames that were sent and ends with the last one: the same
    properties in the same order, whose numbers are the same. -/
def RoundTrip (body : Body) (outcome : Cossack.Core.RpcStream.Outcome) : Prop :=
  outcome.error = none ∧ ∃ front last, body.frames = front ++ [last] ∧
    outcome.yielded.map RpcStreamFrame.fields = front.map (fun f => canonicalMembers f.fields) ∧
    outcome.completion.map RpcStreamFrame.fields = some (canonicalMembers last.fields)

/-- The reader's verdict, line by line. -/
theorem read_frames (header : List Nat) {body : Body} (h : ∀ f ∈ body.frames, f.bytes = line f.fields)
    {chunks : List (List UInt8)} (hchunks : chunks.flatten = body.bytes) :
    readRpcStream (some header) (some (chunks, .done)) =
      validate (some header) (body.frames.map lineOf) 0 .done := by
  rw [readRpcStream_eq, hchunks, specification]
  simp only [Body.bytes, split_frames body.frames h, List.map_map, List.length_nil]
  rfl

theorem validate_refused {header : List Nat}
    {lines : List (Nat × Except Cossack.Core.RpcStream.RpcError RpcStreamFrame)} {body : Body}
    {failure : Cossack.Core.RpcStream.Failure}
    (h : (Progress.start (some header)).lines lines = .error failure) :
    ¬ RoundTrip body (validate (some header) lines 0 .done) := by
  rintro ⟨herror, -⟩
  rw [validate, h] at herror
  cases herror

/-- For every stream that ends with its last frame, under any chunking: the reader gives back
    the frames that were sent exactly when the request id is not blank and its own header, and
    the error that ended the stream, if one did, is presentable. -/
theorem stream_round_trip (o : Options) (pulls : List (Except Thrown Turn)) {header : List Nat}
    {body : Body} (hresponse : createRpcStreamResponse o pulls = some (header, body))
    (hclosed : body.closed = true) (chunks : List (List UInt8))
    (hchunks : chunks.flatten = body.bytes) :
    RoundTrip body (readRpcStream (some header) (some (chunks, .done))) ↔
      isBlank o.requestId.units = false ∧
        headerValue o.requestId.units = some o.requestId.units ∧
        ∀ error, body.ending = .failed error → presentable error = true := by
  obtain ⟨header', hheader, hpair⟩ := Option.map_eq_some_iff.mp hresponse
  obtain ⟨rfl, rfl⟩ := Prod.mk.inj hpair
  obtain ⟨front, last, type, carried, hframes, hyields, hends, hterminal, hpresented⟩ :=
    pulls_sequence o pulls hclosed
  have hbytes : ∀ f ∈ (o.pulls pulls).frames, f.bytes = line f.fields := by
    intro f hf
    rw [hframes, List.mem_append, List.mem_singleton] at hf
    rcases hf with hf | rfl
    · exact (hyields f hf).bytes
    · exact hends.bytes
  rw [read_frames header' hbytes hchunks, hframes, List.map_append, List.map_singleton,
    ← hpresented]
  have hstart : (Progress.start (some header')).completion = none := rfl
  -- the first line is refused for the id, whichever frame it is
  have hfirst : (isBlank o.requestId.units = true ∨
      ((Progress.start (some header')).requestId ≠ none ∧
        (Progress.start (some header')).requestId ≠ some o.requestId.units)) →
      ∃ failure, (Progress.start (some header')).lines (front.map lineOf ++ [lineOf last]) =
        .error failure := by
    intro hbad
    cases front with
    | nil => exact lines_refused hends hstart (hbad.imp_right .inr) []
    | cons f front =>
        exact lines_refused (hyields f (by simp)) hstart (hbad.imp_right .inr)
          (front.map lineOf ++ [lineOf last])
  by_cases hid : isBlank o.requestId.units = true
  · obtain ⟨failure, hfailure⟩ := hfirst (.inl hid)
    refine ⟨fun h => absurd h (validate_refused hfailure), ?_⟩
    rintro ⟨hne, -⟩
    rw [hid] at hne
    cases hne
  have hid : isBlank o.requestId.units = false := by simpa using hid
  have hstartId : (Progress.start (some header')).requestId = some header' := by
    simp [Progress.start, headerValue_ne_nil hid hheader]
  by_cases hsame : header' = o.requestId.units
  · subst hsame
    have hprogress : Progress.start (some o.requestId.units) = ⟨none, some o.requestId.units, []⟩ := by
      exact congrArg (fun id => (⟨none, id, []⟩ : Progress)) hstartId
    have hlines := lines_yields hyields hid [] [lineOf last]
    rw [← hprogress, List.nil_append] at hlines
    by_cases hcarried : carried = true
    · -- every line is taken
      subst hcarried
      rw [lines_last hends hid hterminal] at hlines
      refine ⟨fun _ => ⟨hid, hheader, rfl⟩, fun _ => ?_⟩
      rw [validate, hlines]
      refine ⟨rfl, front, last, hframes, ?_, rfl⟩
      show (front.map (received o.requestId .yield)).map RpcStreamFrame.fields = _
      rw [List.map_map]
      rfl
    · have hcarried : carried = false := by simpa using hcarried
      obtain ⟨failure, hfailure⟩ := lines_refused
        (p := ⟨none, some o.requestId.units, front.map (received o.requestId .yield)⟩) hends rfl
        (.inr (.inl hcarried)) []
      rw [hfailure] at hlines
      refine ⟨fun h => absurd h (validate_refused hlines), ?_⟩
      rintro ⟨-, -, h⟩
      rw [hcarried] at h
      cases h
  · obtain ⟨failure, hfailure⟩ := hfirst (.inr (by
      rw [hstartId]
      exact ⟨by simp, by simpa using hsame⟩))
    refine ⟨fun h => absurd h (validate_refused hfailure), ?_⟩
    rintro ⟨-, h, -⟩
    exact absurd (Option.some.inj (hheader.symm.trans h)) hsame

/-- A stream of requests `a` without hooks. -/
def plainOptions : Options where
  requestId := .of "a"
  cleanup := fun _ => none
  developmentTrace := none

/-- A pull with a number as its value and `{ count: 0 }` as its state. -/
def numberTurn (done : Bool) (n : Nat) : Turn where
  done := done
  value := .ok (some ⟨.num ⟨false, n, 0⟩, by rw [Valid]; trivial⟩)
  state := .ok ⟨[(.of "count", .ok (some ⟨.num ⟨false, 0, 0⟩, by rw [Valid]; trivial⟩))], by simp⟩
  cursor := none
  scopeState := none

/-- An action that yields 1 and returns 2; the chunks are single bytes. -/
theorem stream_round_trip_numbers :
    RoundTrip (plainOptions.pulls [.ok (numberTurn false 1), .ok (numberTurn true 2)])
      (readRpcStream (some plainOptions.requestId.units)
        (some ((plainOptions.pulls [.ok (numberTurn false 1), .ok (numberTurn true 2)]).bytes.map
          fun byte => [byte], .done))) := by
  have hheader : headerValue plainOptions.requestId.units = some plainOptions.requestId.units := by
    decide
  have hend : ∀ error, (plainOptions.pulls [.ok (numberTurn false 1), .ok (numberTurn true 2)]).ending =
      .failed error → presentable error = true := by
    intro error h
    cases h
  refine (stream_round_trip plainOptions [.ok (numberTurn false 1), .ok (numberTurn true 2)]
    (by rw [createRpcStreamResponse, hheader]; rfl) (by decide) _ ?_).mpr
      ⟨by decide, hheader, hend⟩
  rw [← List.flatMap_def]
  simp

/-- `throw new RpcError('', 'No quota.')` in an action: the error frame that is sent is not one
    for the reader. -/
theorem blank_code_refused :
    ∃ (o : Options) (pulls : List (Except Thrown Turn)) (header : List Nat) (body : Body),
      createRpcStreamResponse o pulls = some (header, body) ∧ body.closed = true ∧
        ¬ RoundTrip body (readRpcStream (some header) (some ([body.bytes], .done))) := by
  have hheader : headerValue plainOptions.requestId.units = some plainOptions.requestId.units := by
    decide
  refine ⟨plainOptions, [.error (rpcError "" (.of "No quota."))], plainOptions.requestId.units,
    plainOptions.pulls [.error (rpcError "" (.of "No quota."))], ?_, ?_, ?_⟩
  · rw [createRpcStreamResponse, hheader]
    rfl
  · decide
  · rintro ⟨hnone, -⟩
    have hsome : (readRpcStream (some plainOptions.requestId.units) (some ([(plainOptions.pulls
        [.error (rpcError "" (.of "No quota."))]).bytes], .done))).error.isSome = true := by
      decide +kernel
    rw [hnone] at hsome
    cases hsome

end Cossack.Framework.RpcStreamResponse
