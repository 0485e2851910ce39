import Cossack.Core.RpcStream

/-! # The RPC stream reader does not depend on chunks

    The specification reads a body as a whole: it splits the bytes at line feeds
    and validates the lines in order.  The reader is first taken byte by byte,
    then line by line. -/

namespace Cossack.Core.RpcStream

/-! ## Section 1: The specification -/

/-- What is known between two lines. -/
structure Progress where
  completion : Option RpcStreamFrame
  requestId : Option (List Nat)
  yielded : List RpcStreamFrame

def Progress.start (header : Option (List Nat)) : Progress := ⟨none, header.filter (· ≠ []), []⟩

def Progress.fail (p : Progress) (error : RpcError) : Failure :=
  ⟨p.yielded, { error with requestId := p.requestId.or error.requestId }⟩

/-- Bytes of a line: none follow the last frame, and there are not too many. -/
def Progress.check (p : Progress) (size : Nat) : Except Failure Unit :=
  if p.completion.isSome ∧ size ≠ 0 then
    .error (p.fail (streamInvalid "RPC stream contains data after its result."))
  else if maxFrameBytes < size then
    .error (p.fail ⟨"COSSACK_RPC_STREAM_TOO_LARGE", "RPC stream frame exceeds the byte limit.", none⟩)
  else .ok ()

/-- The frame of a line that passed the check. -/
def Progress.accept (p : Progress) (parsed : Except RpcError RpcStreamFrame) :
    Except Failure Progress :=
  if p.completion.isSome then
    .error (p.fail (streamInvalid "RPC stream contains frames after its result."))
  else
    match parsed with
    | .error error => .error (p.fail error)
    | .ok frame =>
        if p.requestId ≠ none ∧ p.requestId ≠ some frame.requestId then
          .error (p.fail (streamInvalid "RPC stream contains inconsistent frames."))
        else if frame.type = .yield then
          .ok ⟨p.completion, some frame.requestId, p.yielded ++ [frame]⟩
        else .ok ⟨some frame, some frame.requestId, p.yielded⟩

/-- A whole line, by its bytes and the frame it parses to. -/
def Progress.line (p : Progress) (line : Nat × Except RpcError RpcStreamFrame) :
    Except Failure Progress := do
  p.check line.1
  p.accept line.2

def Progress.lines (p : Progress) :
    List (Nat × Except RpcError RpcStreamFrame) → Except Failure Progress
  | [] => .ok p
  | line :: rest => do
      let p ← p.line line
      p.lines rest

/-- The end of the body, after `size` bytes without a line feed. -/
def Progress.finish (p : Progress) (size : Nat) : BodyEnd → Outcome
  | .failed => (p.fail networkFailed).outcome
  | .done =>
      if size ≠ 0 then (p.fail (truncated "RPC stream ended inside a frame.")).outcome
      else if p.completion.isNone then
        (p.fail (truncated "RPC stream ended without a result.")).outcome
      else ⟨p.yielded, p.completion, none⟩

/-- The lines of a body are validated in order, under the limit of a frame. -/
def validate (header : Option (List Nat)) (lines : List (Nat × Except RpcError RpcStreamFrame))
    (size : Nat) (bodyEnd : BodyEnd) : Outcome :=
  match (Progress.start header).lines lines with
  | .error failure => failure.outcome
  | .ok p =>
      match p.check size with
      | .error failure => failure.outcome
      | .ok () => p.finish size bodyEnd

/-- Each line is decoded by itself. -/
def specification (header : Option (List Nat)) (body : List UInt8) (bodyEnd : BodyEnd) : Outcome :=
  let lines := Lines.split 10 body
  validate header (lines.1.map fun line => (line.length, parseFrame line)) lines.2.length bodyEnd

def parseText (text : List Char) : Except RpcError RpcStreamFrame :=
  match JsonText.parse text with
  | none => .error (streamInvalid "Invalid RPC stream frame.")
  | some frame => validateRpcFrame frame

/-- The body is decoded as a whole, and its text is split. -/
def wholeSpecification (header : Option (List Nat)) (body : List UInt8) (bodyEnd : BodyEnd) : Outcome :=
  match Utf8.decodeText body with
  | none => ((Progress.start header).fail (streamInvalid "Invalid RPC stream frame.")).outcome
  | some text =>
      let lines := Lines.split 10 body
      validate header
        (lines.1.zipWith (fun bytes line => (bytes.length, parseText line)) (Lines.split '\n' text).1)
        lines.2.length bodyEnd

/-! ## Section 2: Byte by byte -/

/-- The reader on single bytes: `line` is what came since the last line feed. -/
def Progress.bytes (p : Progress) (line : List UInt8) :
    List UInt8 → Except Failure (Progress × List UInt8)
  | [] => .ok (p, line)
  | byte :: rest =>
      if byte = 10 then do
        let p ← p.accept (parseFrame line)
        p.bytes [] rest
      else do
        p.check (line.length + 1)
        p.bytes (line ++ [byte]) rest

theorem bytes_feed (p : Progress) (line rest : List UInt8) : p.bytes line (10 :: rest) =
    (p.accept (parseFrame line) >>= fun p => p.bytes [] rest) := rfl

theorem bytes_cons (p : Progress) (line : List UInt8) {byte : UInt8} (h : byte ≠ 10)
    (rest : List UInt8) : p.bytes line (byte :: rest) =
      (p.check (line.length + 1) >>= fun _ => p.bytes (line ++ [byte]) rest) := if_neg h

theorem bytes_append (p : Progress) (line part rest : List UInt8) : p.bytes line (part ++ rest) =
    (p.bytes line part >>= fun next => next.1.bytes next.2 rest) := by
  induction part generalizing p line with
  | nil => rfl
  | cons byte part ih =>
    by_cases hbyte : byte = 10
    · subst hbyte
      rw [List.cons_append, bytes_feed, bytes_feed]
      cases p.accept (parseFrame line) with
      | error failure => rfl
      | ok p => exact ih p []
    · rw [List.cons_append, bytes_cons p line hbyte, bytes_cons p line hbyte]
      cases p.check (line.length + 1) with
      | error failure => rfl
      | ok _ => exact ih p (line ++ [byte])

/-- What a line between two steps is: not too long, and empty after the last
    frame. -/
def Progress.Fits (p : Progress) (line : List UInt8) : Prop := p.check line.length = .ok ()

/-- A line that was refused is refused with more bytes too. -/
theorem check_error {p : Progress} {size size' : Nat} (hsize : size ≠ 0) (hle : size ≤ size')
    {failure : Failure} (h : p.check size = .error failure) : p.check size' = .error failure := by
  unfold Progress.check at h ⊢
  by_cases hsome : p.completion.isSome
  · rw [if_pos ⟨hsome, hsize⟩] at h
    rw [if_pos ⟨hsome, by omega⟩]
    exact h
  · rw [if_neg fun hboth => hsome hboth.1] at h ⊢
    by_cases hlarge : maxFrameBytes < size
    · rw [if_pos hlarge] at h
      rw [if_pos (by omega)]
      exact h
    · rw [if_neg hlarge] at h
      cases h

/-- Bytes without a line feed are checked once, together. -/
theorem bytes_part (p : Progress) {line part : List UInt8} (hfits : p.Fits line) (hpart : 10 ∉ part) :
    p.bytes line part =
      (p.check (line.length + part.length) >>= fun _ => .ok (p, line ++ part)) := by
  induction part generalizing line with
  | nil =>
    rw [List.append_nil]
    show _ = (p.check line.length >>= fun _ => .ok (p, line))
    rw [show p.check line.length = .ok () from hfits]
    rfl
  | cons byte part ih =>
    have hbyte : byte ≠ 10 := fun heq => hpart (heq ▸ List.mem_cons_self ..)
    have hrest : 10 ∉ part := fun hmem => hpart (List.mem_cons_of_mem _ hmem)
    rw [bytes_cons p line hbyte]
    cases hcheck : p.check (line.length + 1) with
    | error failure =>
      have hlonger : line.length + 1 ≤ line.length + (byte :: part).length := by
        rw [List.length_cons]
        omega
      rw [check_error (Nat.succ_ne_zero _) hlonger hcheck]
      rfl
    | ok _ =>
      have hnext : p.Fits (line ++ [byte]) := by
        unfold Progress.Fits
        rw [List.length_append]
        exact hcheck
      have hlength : (line ++ [byte]).length + part.length = line.length + (byte :: part).length := by
        rw [List.length_append, List.length_singleton, List.length_cons]
        omega
      show p.bytes (line ++ [byte]) part = _
      rw [ih hnext hrest, hlength, List.append_assoc]
      rfl

/-- A whole line is checked and accepted. -/
theorem bytes_line (p : Progress) {part : List UInt8} (hfits : p.Fits []) (hpart : 10 ∉ part)
    (rest : List UInt8) : p.bytes [] (part ++ 10 :: rest) =
      (p.line (part.length, parseFrame part) >>= fun p => p.bytes [] rest) := by
  rw [bytes_append, bytes_part p hfits hpart]
  unfold Progress.line
  rw [List.length_nil, Nat.zero_add, List.nil_append]
  cases p.check part.length with
  | error failure => rfl
  | ok _ => rfl

theorem fits_nil (p : Progress) : p.Fits [] := by
  unfold Progress.Fits Progress.check
  rw [if_neg fun hboth => hboth.2 rfl, if_neg (by decide)]

/-- Byte by byte is line by line. -/
theorem bytes_lines (p : Progress) (body : List UInt8) : p.bytes [] body =
    (p.lines ((Lines.split 10 body).1.map fun line => (line.length, parseFrame line)) >>=
      fun p => p.check (Lines.split 10 body).2.length >>= fun _ => .ok (p, (Lines.split 10 body).2)) := by
  induction body using Lines.induction (10 : UInt8) generalizing p with
  | last last h =>
    rw [bytes_part p (fits_nil p) h, Lines.split_last h, List.length_nil, Nat.zero_add]
    rfl
  | line line rest h ih =>
    rw [bytes_line p (fits_nil p) h, Lines.split_append h]
    unfold Progress.lines
    rw [List.map_cons]
    simp only
    cases p.line (line.length, parseFrame line) with
    | error failure => rfl
    | ok p => exact ih p

/-! ## Section 3: Chunk by chunk -/

/-- The variables of the reader hold what is known and the bytes of the line. -/
structure Holds (s : Reader) (p : Progress) (line : List UInt8) : Prop where
  buffer : s.buffer.take s.size = line
  room : s.buffer.length ≤ maxFrameBytes
  size : s.size = line.length
  terminal : s.terminal = p.completion.isSome
  completion : s.completion = p.completion
  requestId : s.requestId = p.requestId
  yielded : s.yielded = p.yielded

/-- Both go on, or both fail in the same way. -/
def Agrees : Except Failure Reader → Except Failure (Progress × List UInt8) → Prop
  | .ok s, .ok next => Holds s next.1 next.2
  | .error failure, .error failure' => failure = failure'
  | _, _ => False

section reader

variable {s : Reader} {p : Progress} {line : List UInt8}

theorem Holds.fail (h : Holds s p line) (error : RpcError) : s.fail error = p.fail error := by
  unfold Reader.fail Progress.fail
  rw [h.requestId, h.yielded]

/-- What was in the buffer up to the offset, and the part after it. -/
theorem setBytes_eq (buffer part : List UInt8) (offset : Nat)
    (h : offset + part.length ≤ buffer.length) : ∃ buffer', setBytes buffer part offset = some buffer' ∧
      buffer'.take (offset + part.length) = buffer.take offset ++ part ∧
      buffer'.length = buffer.length := by
  refine ⟨_, if_pos h, ?_, ?_⟩
  · have hlength : (buffer.take offset ++ part).length = offset + part.length := by
      rw [List.length_append, List.length_take]
      omega
    rw [← hlength, List.take_left]
  · rw [List.length_append, List.length_append, List.length_take, List.length_drop]
    omega

/-- A part that is not too long finds or makes its room. -/
theorem Holds.grow (h : Holds s p line) {part : List UInt8}
    (hsize : line.length + part.length ≤ maxFrameBytes) : ∃ buffer,
      ((if s.buffer.length < s.size + part.length then
          setBytes (List.replicate
            (min maxFrameBytes (max (s.size + part.length) (s.buffer.length * 2))) 0)
            (s.buffer.take s.size) 0
        else some s.buffer).bind fun buffer => setBytes buffer part s.size) = some buffer ∧
      buffer.take (s.size + part.length) = line ++ part ∧ buffer.length ≤ maxFrameBytes := by
  have hsize' := h.size
  by_cases hgrow : s.buffer.length < s.size + part.length
  · have hgrown : 0 + (s.buffer.take s.size).length ≤ (List.replicate
        (min maxFrameBytes (max (s.size + part.length) (s.buffer.length * 2))) (0 : UInt8)).length := by
      rw [List.length_replicate, h.buffer]
      omega
    obtain ⟨grown, hset, htake, hlength⟩ := setBytes_eq _ _ 0 hgrown
    rw [List.length_replicate] at hlength
    rw [if_pos hgrow, hset, Option.bind_some]
    obtain ⟨buffer, hset', htake', hlength'⟩ :=
      setBytes_eq grown part s.size (by omega)
    refine ⟨buffer, hset', ?_, by omega⟩
    rw [htake']
    rw [Nat.zero_add, h.buffer, List.take_zero, List.nil_append, ← hsize'] at htake
    rw [htake]
  · rw [if_neg hgrow, Option.bind_some]
    obtain ⟨buffer, hset, htake, hlength⟩ :=
      setBytes_eq s.buffer part s.size (by omega)
    refine ⟨buffer, hset, ?_, ?_⟩
    · rw [htake, h.buffer]
    · rw [hlength]
      exact h.room

/-- A line that fits is empty after the last frame. -/
theorem Progress.Fits.nil_of_terminal (hfits : p.Fits line) (hsome : p.completion.isSome = true) :
    line.length = 0 := by
  by_contra hne
  unfold Progress.Fits Progress.check at hfits
  rw [if_pos ⟨hsome, hne⟩] at hfits
  cases hfits

/-- `append` does one check for the whole part. -/
theorem Holds.append (h : Holds s p line) (hfits : p.Fits line) (part : List UInt8) :
    Agrees (s.append part)
      (p.check (line.length + part.length) >>= fun _ => .ok (p, line ++ part)) := by
  unfold Reader.append Progress.check
  by_cases hterminal : p.completion.isSome = true ∧ line.length + part.length ≠ 0
  · have hline := hfits.nil_of_terminal hterminal.1
    have hpart : part ≠ [] := fun hnil => hterminal.2 (by rw [hline, hnil]; rfl)
    rw [if_pos ⟨h.terminal.trans hterminal.1, hpart⟩, if_pos hterminal]
    exact h.fail _
  · have hnot : ¬ (s.terminal = true ∧ part ≠ []) := by
      rintro ⟨hsome, hpart⟩
      have hlength : part.length ≠ 0 := fun hzero => hpart (List.length_eq_zero_iff.mp hzero)
      exact hterminal ⟨h.terminal.symm.trans hsome, by omega⟩
    rw [if_neg hnot, if_neg hterminal]
    simp only
    have hsize := h.size
    by_cases hlarge : maxFrameBytes < line.length + part.length
    · rw [if_pos (by omega), if_pos hlarge]
      exact h.fail _
    · rw [if_neg (by omega), if_neg hlarge]
      obtain ⟨buffer, hbuffer, htake, hroom⟩ := h.grow (Nat.not_lt.mp hlarge)
      rw [hbuffer]
      refine ⟨htake, hroom, ?_, h.terminal, h.completion, h.requestId, h.yielded⟩
      show s.size + part.length = (line ++ part).length
      rw [List.length_append, hsize]

/-- `decode` accepts the frame of the line. -/
theorem Holds.decode (h : Holds s p line) :
    Agrees s.decode (p.accept (parseFrame line) >>= fun p => .ok (p, [])) := by
  unfold Reader.decode Progress.accept
  by_cases hterminal : p.completion.isSome = true
  · rw [if_pos (h.terminal.trans hterminal), if_pos hterminal]
    exact h.fail _
  · rw [if_neg (h.terminal ▸ hterminal), if_neg hterminal, h.buffer]
    cases parseFrame line with
    | error error => exact h.fail _
    | ok frame =>
      simp only
      rw [h.requestId]
      split
      · exact h.fail _
      · split
        · refine ⟨rfl, h.room, rfl, h.terminal, h.completion, rfl, ?_⟩
          show s.yielded ++ [frame] = p.yielded ++ [frame]
          rw [h.yielded]
        · exact ⟨rfl, h.room, rfl, rfl, rfl, rfl, h.yielded⟩

theorem Agrees.bind {x : Except Failure Reader} {y : Except Failure (Progress × List UInt8)}
    {f : Reader → Except Failure Reader}
    {g : Progress × List UInt8 → Except Failure (Progress × List UInt8)} (h : Agrees x y)
    (hnext : ∀ s next, x = .ok s → y = .ok next → Holds s next.1 next.2 → Agrees (f s) (g next)) :
    Agrees (x >>= f) (y >>= g) := by
  cases x with
  | error failure =>
    cases y with
    | error failure' => exact h
    | ok next => exact h.elim
  | ok s =>
    cases y with
    | error failure' => exact h.elim
    | ok next => exact hnext s next rfl rfl h

/-- The loop over a chunk goes through its bytes. -/
theorem Holds.chunk (h : Holds s p line) (hfits : p.Fits line) {part : List UInt8}
    (hpart : 10 ∉ part) (value : List UInt8) :
    Agrees (s.chunk part value) (p.bytes line (part ++ value)) := by
  induction value generalizing s p line part with
  | nil =>
    rw [List.append_nil, bytes_part p hfits hpart]
    exact h.append hfits part
  | cons byte rest ih =>
    by_cases hbyte : byte = 10
    · subst hbyte
      have hchunk : s.chunk part (10 :: rest) =
          (s.append part >>= fun s => s.decode >>= fun s => s.chunk [] rest) := rfl
      rw [hchunk, bytes_append, bytes_part p hfits hpart]
      refine (h.append hfits part).bind fun s₁ next _ _ h₁ => ?_
      rw [bytes_feed]
      have hdecode := h₁.decode
      have hassoc : (next.1.accept (parseFrame next.2) >>= fun p => p.bytes [] rest) =
          ((next.1.accept (parseFrame next.2) >>= fun p => .ok (p, [])) >>= fun next =>
            next.1.bytes next.2 rest) := by
        cases next.1.accept (parseFrame next.2) with
        | error failure => rfl
        | ok p => rfl
      rw [hassoc]
      refine hdecode.bind fun s₂ next₂ _ hnext₂ h₂ => ?_
      have hline : next₂.2 = [] := by
        cases haccept : next.1.accept (parseFrame next.2) with
        | error failure => rw [haccept] at hnext₂; cases hnext₂
        | ok p => rw [haccept] at hnext₂; cases hnext₂; rfl
      rw [hline] at h₂ ⊢
      exact ih h₂ (fits_nil _) List.not_mem_nil
    · have hchunk : s.chunk part (byte :: rest) = s.chunk (part ++ [byte]) rest := if_pos hbyte
      have hnext : 10 ∉ part ++ [byte] := by
        rw [List.mem_append, List.mem_singleton]
        rintro (hmem | heq)
        · exact hpart hmem
        · exact hbyte heq.symm
      have hsame := ih h hfits hnext
      rw [List.append_assoc] at hsame
      rw [hchunk]
      exact hsame

theorem bytes_fits {p' : Progress} {body line' : List UInt8} (hfits : p.Fits line)
    (h : p.bytes line body = .ok (p', line')) : p'.Fits line' := by
  induction body generalizing p line with
  | nil =>
    cases h
    exact hfits
  | cons byte rest ih =>
    by_cases hbyte : byte = 10
    · subst hbyte
      rw [bytes_feed] at h
      cases haccept : p.accept (parseFrame line) with
      | error failure => rw [haccept] at h; cases h
      | ok p =>
        rw [haccept] at h
        exact ih (fits_nil p) h
    · rw [bytes_cons p line hbyte] at h
      cases hcheck : p.check (line.length + 1) with
      | error failure => rw [hcheck] at h; cases h
      | ok _ =>
        rw [hcheck] at h
        refine ih ?_ h
        unfold Progress.Fits
        rw [List.length_append, List.length_singleton]
        exact hcheck

/-- The chunks of a body are its bytes. -/
theorem Holds.chunks (h : Holds s p line) (hfits : p.Fits line) (values : List (List UInt8)) :
    Agrees (s.chunks values) (p.bytes line values.flatten) := by
  induction values generalizing s p line with
  | nil => exact h
  | cons value values ih =>
    have hchunks : s.chunks (value :: values) =
        (s.chunk [] value >>= fun s => s.chunks values) := rfl
    rw [hchunks, List.flatten_cons, bytes_append]
    refine (h.chunk hfits List.not_mem_nil value).bind fun s₁ next _ hnext h₁ => ?_
    exact ih h₁ (bytes_fits hfits hnext)

theorem Holds.finish (h : Holds s p line) (bodyEnd : BodyEnd) :
    s.finish bodyEnd = p.finish line.length bodyEnd := by
  unfold Reader.finish Progress.finish
  cases bodyEnd with
  | failed => exact congrArg Failure.outcome (h.fail _)
  | done =>
    simp only
    rw [h.size, h.terminal, h.completion, h.yielded]
    split
    · exact congrArg Failure.outcome (h.fail _)
    · cases hcompletion : p.completion with
      | none => exact congrArg Failure.outcome (h.fail _)
      | some frame => rfl

end reader

theorem holds_start (header : Option (List Nat)) :
    Holds (Reader.start header) (Progress.start header) [] := by
  refine ⟨rfl, ?_, rfl, rfl, rfl, rfl, rfl⟩
  show (List.replicate 4096 (0 : UInt8)).length ≤ maxFrameBytes
  rw [List.length_replicate]
  decide

def outcome {α : Type} (finish : α → Outcome) : Except Failure α → Outcome
  | .error failure => failure.outcome
  | .ok a => finish a

theorem outcome_bind {α β : Type} (x : Except Failure α) (f : α → Except Failure β)
    (finish : β → Outcome) : outcome finish (x >>= f) = outcome (fun a => outcome finish (f a)) x := by
  cases x <;> rfl

theorem Agrees.outcome {x : Except Failure Reader} {y : Except Failure (Progress × List UInt8)}
    (h : Agrees x y) (bodyEnd : BodyEnd) : RpcStream.outcome (Reader.finish · bodyEnd) x =
      RpcStream.outcome (fun next => next.1.finish next.2.length bodyEnd) y := by
  cases x with
  | error failure =>
    cases y with
    | error failure' => exact congrArg Failure.outcome h
    | ok next => exact h.elim
  | ok s =>
    cases y with
    | error failure' => exact h.elim
    | ok next => exact Holds.finish h bodyEnd

theorem validate_eq (header : Option (List Nat)) (lines : List (Nat × Except RpcError RpcStreamFrame))
    (size : Nat) (bodyEnd : BodyEnd) : validate header lines size bodyEnd =
      outcome (fun p => outcome (fun _ => p.finish size bodyEnd) (p.check size))
        ((Progress.start header).lines lines) := by
  unfold validate
  cases (Progress.start header).lines lines with
  | error failure => rfl
  | ok p =>
    simp only [outcome]
    cases p.check size <;> rfl

/-- However the body comes, the reader does what is specified for its lines. -/
theorem readRpcStream_eq (header : Option (List Nat)) (chunks : List (List UInt8)) (bodyEnd : BodyEnd) :
    readRpcStream header (some (chunks, bodyEnd)) = specification header chunks.flatten bodyEnd := by
  have hread : readRpcStream header (some (chunks, bodyEnd)) =
      outcome (Reader.finish · bodyEnd) ((Reader.start header).chunks chunks) := by
    unfold readRpcStream
    simp only
    cases (Reader.start header).chunks chunks <;> rfl
  have hagrees := (holds_start header).chunks (fits_nil _) chunks
  unfold specification
  simp only
  rw [hread, hagrees.outcome bodyEnd, bytes_lines, outcome_bind, validate_eq]
  congr 1
  funext p
  rw [outcome_bind]
  rfl

/-! ## Section 4: What is accepted -/

section lines

variable {p p' : Progress} {line : Nat × Except RpcError RpcStreamFrame}

/-- A line of an open stream: its frame is the last one exactly if it is no
    yield. -/
theorem line_open (hopen : p.completion = none) (h : p.line line = .ok p') :
    ∃ frame, line.2 = .ok frame ∧
      (frame.type = .yield ∧ p'.completion = none ∨ frame.type ≠ .yield ∧ p'.completion = some frame) := by
  unfold Progress.line at h
  cases hcheck : p.check line.1 with
  | error failure => rw [hcheck] at h; cases h
  | ok _ =>
    rw [hcheck] at h
    change p.accept line.2 = .ok p' at h
    unfold Progress.accept at h
    rw [hopen, if_neg nofun] at h
    cases hparsed : line.2 with
    | error error => rw [hparsed] at h; cases h
    | ok frame =>
      rw [hparsed] at h
      simp only at h
      refine ⟨frame, rfl, ?_⟩
      split at h
      · cases h
      · split at h
        · next hyield => cases h; exact .inl ⟨hyield, rfl⟩
        · next hyield => cases h; exact .inr ⟨hyield, rfl⟩

/-- No line follows the last frame. -/
theorem line_closed (hclosed : p.completion.isSome = true) (h : p.line line = .ok p') : False := by
  unfold Progress.line at h
  cases hcheck : p.check line.1 with
  | error failure => rw [hcheck] at h; cases h
  | ok _ =>
    rw [hcheck] at h
    change p.accept line.2 = .ok p' at h
    unfold Progress.accept at h
    rw [if_pos hclosed] at h
    cases h

/-- The last frame of lines that were accepted is that of the last line. -/
theorem lines_completion {lines : List (Nat × Except RpcError RpcStreamFrame)}
    (hopen : p.completion = none) (hlines : p.lines lines = .ok p') {frame : RpcStreamFrame}
    (hframe : p'.completion = some frame) :
    ∃ before size, lines = before ++ [(size, .ok frame)] ∧ frame.type ≠ .yield := by
  induction lines generalizing p with
  | nil =>
    cases hlines
    rw [hopen] at hframe
    cases hframe
  | cons line rest ih =>
    unfold Progress.lines at hlines
    cases hline : p.line line with
    | error failure => rw [hline] at hlines; cases hlines
    | ok p₁ =>
      rw [hline] at hlines
      change p₁.lines rest = .ok p' at hlines
      obtain ⟨first, hparsed, ⟨-, hcompletion⟩ | ⟨hlast, hcompletion⟩⟩ := line_open hopen hline
      · obtain ⟨before, size, rfl, htype⟩ := ih hcompletion hlines
        exact ⟨line :: before, size, rfl, htype⟩
      · cases rest with
        | nil =>
          cases hlines
          obtain rfl := Option.some.inj (hcompletion.symm.trans hframe)
          exact ⟨[], line.1, by rw [← hparsed]; rfl, hlast⟩
        | cons next rest =>
          exfalso
          unfold Progress.lines at hlines
          cases hnext : p₁.line next with
          | error failure => rw [hnext] at hlines; cases hlines
          | ok p₂ => exact line_closed (by rw [hcompletion]; rfl) hnext

end lines

/-- A result is accepted only where its line ends the body. -/
theorem specification_completion {header : Option (List Nat)} {body : List UInt8} {bodyEnd : BodyEnd}
    {frame : RpcStreamFrame} (h : (specification header body bodyEnd).completion = some frame) :
    bodyEnd = .done ∧ frame.type ≠ .yield ∧ ∃ lines line,
      body = Lines.join 10 lines ++ line ++ [10] ∧ 10 ∉ line ∧ parseFrame line = .ok frame := by
  unfold specification at h
  simp only at h
  rw [validate_eq] at h
  cases hlines : (Progress.start header).lines
      ((Lines.split 10 body).1.map fun line => (line.length, parseFrame line)) with
  | error failure => rw [hlines] at h; cases h
  | ok p =>
    rw [hlines] at h
    change (outcome (fun _ => p.finish (Lines.split 10 body).2.length bodyEnd)
      (p.check (Lines.split 10 body).2.length)).completion = some frame at h
    cases hcheck : p.check (Lines.split 10 body).2.length with
    | error failure => rw [hcheck] at h; cases h
    | ok _ =>
      rw [hcheck] at h
      change (p.finish (Lines.split 10 body).2.length bodyEnd).completion = some frame at h
      unfold Progress.finish at h
      cases bodyEnd with
      | failed => cases h
      | done =>
        simp only at h
        split at h
        · cases h
        · next hsize =>
          split at h
          · cases h
          · have hlast : (Lines.split 10 body).2 = [] := List.length_eq_zero_iff.mp (not_not.mp hsize)
            obtain ⟨before, size, hmap, htype⟩ := lines_completion rfl hlines h
            obtain ⟨lines, last, hsplit, hbefore, hline⟩ := List.map_eq_append_iff.mp hmap
            obtain ⟨line, hlast', hparsed⟩ := List.map_eq_singleton_iff.mp hline
            subst hlast'
            refine ⟨rfl, htype, lines, line, ?_, ?_, (Prod.mk.inj hparsed).2⟩
            · have hjoin : Lines.join 10 (Lines.split 10 body).1 ++ (Lines.split 10 body).2 = body :=
                Lines.join_split body
              rw [hlast, List.append_nil, hsplit] at hjoin
              rw [← hjoin, Lines.join_append]
            · have hmem : line ∈ (Lines.split 10 body).1 := by
                rw [hsplit]
                exact List.mem_append_right _ (List.mem_singleton.mpr rfl)
              exact Lines.not_mem_line hmem

/-! ## Section 5: The text of a body -/

theorem parseFrame_eq {line : List UInt8} {text : List Char} (hline : Utf8.decode line = some text)
    (hmark : Utf8.dropMark text = text) : parseFrame line = parseText text := by
  have hdecoded : Utf8.decodeText line = some text := by
    rw [Utf8.decodeText, hline, Option.map_some, hmark]
  unfold parseFrame parseText
  rw [hdecoded]
  rfl

theorem lines_text {lines : List (List UInt8)} {texts : List (List Char)}
    (hlines : lines.map Utf8.decode = texts.map some)
    (hmark : ∀ text ∈ texts, Utf8.dropMark text = text) :
    (lines.map fun line => (line.length, parseFrame line)) =
      lines.zipWith (fun bytes text => (bytes.length, parseText text)) texts := by
  induction lines generalizing texts with
  | nil => rfl
  | cons line lines ih =>
    cases texts with
    | nil => cases hlines
    | cons text texts =>
      rw [List.map_cons, List.map_cons] at hlines
      obtain ⟨hline, hrest⟩ := List.cons.inj hlines
      rw [List.map_cons, List.zipWith_cons_cons, ih hrest fun t ht => hmark t (List.mem_cons_of_mem _ ht),
        parseFrame_eq hline (hmark text (List.mem_cons_self ..))]

/-- Where no line begins with a byte order mark, decoding a body line by line is
    decoding it as a whole. -/
theorem specification_whole (header : Option (List Nat)) {body : List UInt8} {text : List Char}
    (htext : Utf8.decode body = some text)
    (hmark : ∀ line ∈ (Lines.split '\n' text).1 ++ [(Lines.split '\n' text).2],
      Utf8.dropMark line = line) (bodyEnd : BodyEnd) :
    specification header body bodyEnd = wholeSpecification header body bodyEnd := by
  have hwhole : Utf8.decodeText body = some text := by
    unfold Utf8.decodeText
    rw [htext, Option.map_some, Utf8.dropMark_eq hmark]
  obtain ⟨hlines, -⟩ := Utf8.decode_lines htext
  unfold specification wholeSpecification
  rw [hwhole]
  simp only
  rw [lines_text hlines fun line hline => hmark line (List.mem_append_left _ hline)]

/-! ## Section 6: The result -/

/-- The reader does not depend on the chunks: it does what is specified for the
    lines of the body, each decoded by itself, which are those of its text where
    no line begins with a byte order mark; and it accepts a result only at the end
    of the body. -/
theorem readRpcStream_chunks (header : Option (List Nat)) (bodyEnd : BodyEnd) :
    (∀ chunks : List (List UInt8), readRpcStream header (some (chunks, bodyEnd)) =
      specification header chunks.flatten bodyEnd) ∧
    (∀ chunks chunks' : List (List UInt8), chunks.flatten = chunks'.flatten →
      readRpcStream header (some (chunks, bodyEnd)) =
        readRpcStream header (some (chunks', bodyEnd))) ∧
    (∀ body text, Utf8.decode body = some text →
      (∀ line ∈ (Lines.split '\n' text).1 ++ [(Lines.split '\n' text).2],
        Utf8.dropMark line = line) →
      specification header body bodyEnd = wholeSpecification header body bodyEnd) ∧
    ∀ (chunks : List (List UInt8)) (frame : RpcStreamFrame),
      (readRpcStream header (some (chunks, bodyEnd))).completion = some frame →
      bodyEnd = .done ∧ frame.type ≠ .yield ∧ ∃ lines line,
        chunks.flatten = Lines.join 10 lines ++ line ++ [10] ∧ 10 ∉ line ∧
          parseFrame line = .ok frame := by
  refine ⟨fun chunks => readRpcStream_eq header chunks bodyEnd, fun chunks chunks' hsame => ?_,
    fun body text htext hmark => specification_whole header htext hmark bodyEnd,
    fun chunks frame hframe => ?_⟩
  · rw [readRpcStream_eq, readRpcStream_eq, hsame]
  · rw [readRpcStream_eq] at hframe
    exact specification_completion hframe

/-- A value, and a result on a line that begins with a byte order mark. -/
def markedBody : List UInt8 :=
  let bytes := fun text : String => text.toList.map fun c => c.toNat.toUInt8
  bytes "\x7b\"v\":1,\"type\":\"yield\",\"requestId\":\"r\",\"state\":\x7b\x7d\x7d\n" ++
    [0xEF, 0xBB, 0xBF] ++
    bytes "\x7b\"v\":1,\"type\":\"done\",\"requestId\":\"r\",\"state\":\x7b\x7d\x7d\n"

/-- The mark of a later line is part of the text of the whole body, but the reader
    drops it. -/
theorem marked_line_accepted :
    (readRpcStream none (some ([markedBody], .done))).completion.isSome = true ∧
      (wholeSpecification none markedBody .done).completion.isSome = false := by
  rw [readRpcStream_eq]
  exact ⟨by decide +kernel, by decide +kernel⟩

end Cossack.Core.RpcStream
