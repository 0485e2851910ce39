import Cossack.Lib.JsonPrint
import Cossack.Lib.TextEncoder
import Mathlib

/-! # Manifests of the local storage

    What `LocalStorageProvider` checks of a key, of the options of a `put` and of a
    manifest that it reads, after `packages/node-adapter/src/storage.ts`.  Texts are
    lists of UTF-16 code units. -/

namespace Cossack.NodeAdapter.LocalStorage

open JsonText (quote printUnit printUnits)

/-! ## Section 1: Keys and names -/

abbrev Text := List Nat

def maxSafe : Nat := 2 ^ 53 - 1

def isAlphanumeric (u : Nat) : Bool :=
  (0x30 ≤ u && u ≤ 0x39) || (0x41 ≤ u && u ≤ 0x5A) || (0x61 ≤ u && u ≤ 0x7A)

/-- `[a-zA-Z0-9._-]` -/
def isNameUnit (u : Nat) : Bool := isAlphanumeric u || u == 0x2E || u == 0x5F || u == 0x2D

/-- `/^[a-zA-Z0-9][a-zA-Z0-9._-]{0,127}$/` -/
def isName : Text → Bool
  | [] => false
  | first :: rest => isAlphanumeric first && rest.all isNameUnit && rest.length ≤ 127

def validKey (key : Text) : Bool :=
  key.length ≤ 1024 && key ≠ [] &&
    (key.splitOn 0x2F).all fun part => isName part && part ≠ [0x2E] && part ≠ [0x2E, 0x2E]

/-- UUIDs of files that were there before, and the one that a call draws each time its
    work runs.  No two are the same. -/
inductive Uuid where
  | earlier (n : Nat)
  | drawn (call : Nat) (again : Bool)
  deriving DecidableEq

def isHex (u : Nat) : Bool := (0x30 ≤ u && u ≤ 0x39) || (0x61 ≤ u && u ≤ 0x66)

/-- The hash in hexadecimal digits, and the text of a UUID. -/
structure Platform where
  sha256 : List UInt8 → Text
  uuid : Uuid → Text
  sha256_hex : ∀ bytes, (sha256 bytes).length = 64 ∧ (sha256 bytes).all isHex = true
  uuid_text : ∀ id, (uuid id).length = 36 ∧ (uuid id).all (fun u => isHex u || u == 0x2D) = true

/-- A name `prefix.uuid.blob`, or `prefix.uuid.json.tmp`. -/
structure Name where
  keyPrefix : Text
  uuid : Uuid
  deriving DecidableEq

def Platform.keyPrefix (p : Platform) (key : Text) : Text := p.sha256 (TextEncoder.encode key)

/-! ## Section 2: Options -/

structure StoragePutOptions where
  /-- Nothing when it is no integer. -/
  size : Option Int
  contentType : Option Text
  customMetadata : Option (List (Text × Text))

structure ObjectOptions where
  size : Nat
  contentType : Option Text
  customMetadata : Option (List (Text × Text))

/-- The length of a text in UTF-8. -/
def byteLength (text : List Char) : Nat := (text.map Char.utf8Size).sum

def metadataText (entries : List (Text × Text)) : List Char :=
  JsonText.print (.obj (entries.map fun e => (e.1, .str e.2)))

def isControl (u : Nat) : Bool := u ≤ 0x1F || u == 0x7F

def validSize (size : Option Int) : Bool := size.any fun (n : Int) => 0 ≤ n && n ≤ (maxSafe : Int)

def validType (type : Text) : Bool := type.length ≤ 256 && !type.any isControl

def validMetadata (entries : List (Text × Text)) : Bool :=
  entries.all (fun e => isName e.1 && e.2.length ≤ 2048) && entries.length ≤ 64 &&
    byteLength (metadataText entries) ≤ 8192

def metadataOptions (options : StoragePutOptions) : Option ObjectOptions :=
  if validSize options.size && options.contentType.all validType && options.customMetadata.all validMetadata then
    some ⟨(options.size.getD 0).toNat, options.contentType, options.customMetadata⟩
  else none

/-! ## Section 3: Manifests -/

structure Manifest extends ObjectOptions where
  key : Text
  etag : Text
  uploaded : Nat
  /-- The name of the blob. -/
  file : Name

structure StorageMetadata extends ObjectOptions where
  key : Text
  etag : Text
  uploaded : Nat

/-- The SHA-256 in quotes. -/
def etagOf (p : Platform) (bytes : List UInt8) : Text := 0x22 :: p.sha256 bytes ++ [0x22]

/-- `/^"[a-f0-9]{64}"$/` -/
def isEtag (etag : Text) : Bool :=
  etag.length == 66 && etag.head? == some 0x22 && etag.getLast? == some 0x22 &&
    (etag.drop 1).dropLast.all isHex

def fileText (p : Platform) (file : Name) : Text :=
  file.keyPrefix ++ 0x2E :: p.uuid file.uuid ++ [0x2E, 0x62, 0x6C, 0x6F, 0x62]

def digits (n : Nat) : List Char := Nat.toDigits 10 n

/-- `JSON.stringify(value)` -/
def manifestText (p : Platform) (m : Manifest) : List Char :=
  "\x7b\"key\":".toList ++ quote m.key ++ ",\"size\":".toList ++ digits m.size ++
    (m.contentType.elim [] fun type => ",\"contentType\":".toList ++ quote type) ++
    (m.customMetadata.elim [] fun entries => ",\"customMetadata\":".toList ++ metadataText entries) ++
    ",\"etag\":".toList ++ quote m.etag ++ ",\"uploaded\":".toList ++ digits m.uploaded ++
    ",\"file\":".toList ++ quote (fileText p m.file) ++ ['\x7d']

/-- What `manifest` asks of the file that it has opened. -/
def readable (p : Platform) (key : Text) (m : Manifest) : Bool :=
  byteLength (manifestText p m) ≤ 16384 && m.key == key && m.file.keyPrefix == p.keyPrefix key &&
    isEtag m.etag && m.uploaded ≤ maxSafe &&
    (metadataOptions ⟨some m.size, m.contentType, m.customMetadata⟩).isSome

/-! ## Section 4: The length of a manifest -/

@[simp] theorem byteLength_nil : byteLength [] = 0 := rfl

@[simp] theorem byteLength_cons (c : Char) (text : List Char) :
    byteLength (c :: text) = c.utf8Size + byteLength text := by
  simp [byteLength]

@[simp] theorem byteLength_append (a b : List Char) : byteLength (a ++ b) = byteLength a + byteLength b := by
  simp [byteLength]

theorem utf8Size_digitChar (n : Nat) : (Nat.digitChar n).utf8Size = 1 := by
  by_cases h : n < 16
  · have hall : ∀ m < 16, (Nat.digitChar m).utf8Size = 1 := by decide
    exact hall n h
  · unfold Nat.digitChar
    repeat' rw [if_neg (by omega)]
    rfl

theorem byteLength_printUnit (u : Nat) : byteLength (printUnit u) ≤ 6 := by
  unfold printUnit
  split
  · rename_i c _
    have hslash : '\\'.utf8Size = 1 := rfl
    have := Char.utf8Size_le_four c
    simp only [byteLength_cons, byteLength_nil, hslash]
    omega
  · split
    · have hslash : '\\'.utf8Size = 1 := rfl
      have hu : 'u'.utf8Size = 1 := rfl
      simp only [JsonText.hexEscape, byteLength_cons, byteLength_nil, utf8Size_digitChar, hslash, hu]
      omega
    · have := Char.utf8Size_le_four (Char.ofNat u)
      simp only [byteLength_cons, byteLength_nil]
      omega

theorem byteLength_printUnits (units : Text) : byteLength (printUnits units) ≤ 6 * units.length := by
  fun_induction printUnits units with
  | case1 high low rest hpair ih =>
    have := Char.utf8Size_le_four (Char.ofNat (0x10000 + (high - 0xD800) * 0x400 + (low - 0xDC00)))
    simp only [byteLength_cons, List.length_cons]
    omega
  | case2 high low rest hpair ih =>
    have := byteLength_printUnit high
    simp only [byteLength_append, List.length_cons] at ih ⊢
    omega
  | case3 u => simpa using byteLength_printUnit u
  | case4 => simp

theorem byteLength_quote (units : Text) : byteLength (quote units) ≤ 6 * units.length + 2 := by
  have := byteLength_printUnits units
  have hquote : '"'.utf8Size = 1 := rfl
  simp only [quote, byteLength_cons, byteLength_append, byteLength_nil, hquote, List.cons_append]
  omega

/-- Printed as it is, in one byte. -/
def isPlain (u : Nat) : Bool := isNameUnit u || u == 0x2F

theorem printUnit_plain {u : Nat} (h : isPlain u = true) : byteLength (printUnit u) = 1 ∧
    JsonText.isHigh u = false := by
  have hrange : 0x2D ≤ u ∧ u ≤ 0x7A ∧ u ≠ 0x5C := by
    simp only [isPlain, isNameUnit, isAlphanumeric, Bool.or_eq_true, Bool.and_eq_true,
      decide_eq_true_eq, beq_iff_eq] at h
    omega
  obtain ⟨hlow, hhigh, hslash⟩ := hrange
  have : ∀ v, v < 0x7B → 0x2D ≤ v → v ≠ 0x5C → byteLength (printUnit v) = 1 ∧
      JsonText.isHigh v = false := by decide
  exact this u (by omega) hlow hslash

theorem byteLength_plain {units : Text} (h : units.all isPlain = true) :
    byteLength (printUnits units) = units.length := by
  fun_induction printUnits units with
  | case1 high low rest hpair ih =>
    simp only [List.all_cons, Bool.and_eq_true] at h hpair
    rw [(printUnit_plain h.1).2] at hpair
    cases hpair.1
  | case2 high low rest hpair ih =>
    rw [List.all_cons, Bool.and_eq_true] at h
    rw [byteLength_append, (printUnit_plain h.1).1, ih h.2, Nat.add_comm]
    rfl
  | case3 u =>
    rw [List.all_cons, Bool.and_eq_true] at h
    simpa using (printUnit_plain h.1).1
  | case4 => rfl

theorem mem_splitOn (separator : Nat) {u : Nat} {text : Text} (h : u ∈ text) :
    u = separator ∨ ∃ part ∈ text.splitOn separator, u ∈ part := by
  induction text with
  | nil => cases h
  | cons v text ih =>
    rw [List.splitOn, List.splitOnP_cons_eq_if_modifyHead]
    by_cases hv : (v == separator) = true
    · rw [if_pos hv]
      rcases List.mem_cons.mp h with rfl | h
      · exact .inl (beq_iff_eq.mp hv)
      · obtain heq | ⟨part, hpart, hu⟩ := ih h
        · exact .inl heq
        · exact .inr ⟨part, List.mem_cons_of_mem _ hpart, hu⟩
    · rw [if_neg hv]
      obtain ⟨first, rest, hsplit⟩ := List.exists_cons_of_ne_nil
        (List.splitOnP_ne_nil (· == separator) text)
      rw [List.splitOn, hsplit] at ih
      rw [hsplit]
      rcases List.mem_cons.mp h with rfl | h
      · exact .inr ⟨_, List.mem_cons_self, List.mem_cons_self⟩
      · obtain heq | ⟨part, hpart, hu⟩ := ih h
        · exact .inl heq
        · rcases List.mem_cons.mp hpart with rfl | hpart
          · exact .inr ⟨_, List.mem_cons_self, List.mem_cons_of_mem _ hu⟩
          · exact .inr ⟨part, List.mem_cons_of_mem _ hpart, hu⟩

theorem validKey_plain {key : Text} (h : validKey key = true) :
    key.length ≤ 1024 ∧ key.all isPlain = true := by
  simp only [validKey, Bool.and_eq_true, decide_eq_true_eq, List.all_eq_true] at h
  obtain ⟨⟨hlength, -⟩, hparts⟩ := h
  refine ⟨hlength, List.all_eq_true.mpr fun u hu => ?_⟩
  obtain rfl | ⟨part, hpart, hmem⟩ := mem_splitOn 0x2F hu
  · rfl
  · have hname := (hparts part hpart).1.1
    cases part with
    | nil => cases hmem
    | cons first rest =>
      simp only [isName, Bool.and_eq_true] at hname
      have hunit : isNameUnit u = true := by
        rcases List.mem_cons.mp hmem with rfl | hmem
        · simp [isNameUnit, hname.1.1]
        · exact List.all_eq_true.mp hname.1.2 u hmem
      simp [isPlain, hunit]

theorem byteLength_digits {n : Nat} (h : n ≤ maxSafe) : byteLength (digits n) ≤ 16 := by
  have hlength : (digits n).length ≤ 16 := by
    refine (Nat.length_toDigits_le_iff (by decide) (by decide)).mpr ?_
    unfold maxSafe at h
    omega
  have hsize : ∀ text : List Char, (∀ c ∈ text, c.utf8Size = 1) → byteLength text = text.length := by
    intro text
    induction text with
    | nil => intro _; rfl
    | cons c text ih =>
      intro hall
      rw [byteLength_cons, hall c List.mem_cons_self,
        ih fun d hd => hall d (List.mem_cons_of_mem _ hd), List.length_cons, Nat.add_comm]
  rw [hsize]
  · exact hlength
  · intro c hc
    have hdigit := Nat.isDigit_of_mem_toDigits (by decide) (by decide) hc
    simp only [Char.isDigit, ge_iff_le, Bool.and_eq_true, decide_eq_true_eq, UInt32.le_iff_toNat_le] at hdigit
    unfold Char.utf8Size
    rw [if_pos]
    have hnine : '9'.val.toNat = 57 := rfl
    show c.val.toNat ≤ 127
    omega

/-! ## Section 5: What is written can be read -/

structure CheckedOptions (m : ObjectOptions) : Prop where
  size : m.size ≤ maxSafe
  contentType : ∀ type, m.contentType = some type → validType type = true
  customMetadata : ∀ entries, m.customMetadata = some entries → validMetadata entries = true

theorem metadataOptions_some {o : StoragePutOptions} {m : ObjectOptions} (h : metadataOptions o = some m) :
    CheckedOptions m ∧ metadataOptions ⟨some m.size, m.contentType, m.customMetadata⟩ = some m := by
  unfold metadataOptions at h
  split at h
  · rename_i hvalid
    obtain rfl := Option.some.inj h
    simp only [Bool.and_eq_true] at hvalid
    obtain ⟨⟨hsize, htype⟩, hmetadata⟩ := hvalid
    cases ho : o.size with
    | none => simp [ho, validSize] at hsize
    | some n =>
      simp only [ho, validSize, Option.any_some, Bool.and_eq_true, decide_eq_true_eq] at hsize
      have hnat : ((n.toNat : Nat) : Int) = n := Int.toNat_of_nonneg hsize.1
      refine ⟨⟨?_, ?_, ?_⟩, ?_⟩
      · show n.toNat ≤ maxSafe
        omega
      · intro type heq
        exact (Option.all_eq_true _ _).mp htype type heq
      · intro entries heq
        exact (Option.all_eq_true _ _).mp hmetadata entries heq
      · unfold metadataOptions
        rw [if_pos]
        · simp [hnat]
        · simp [validSize, hnat, hsize, htype, hmetadata]
  · cases h

theorem byteLength_manifestText {p : Platform} {m : Manifest} (hkey : validKey m.key = true)
    (hchecked : CheckedOptions m.toObjectOptions) (huploaded : m.uploaded ≤ maxSafe)
    (hetag : m.etag.length = 66) (hfile : (fileText p m.file).length ≤ 106) :
    byteLength (manifestText p m) ≤ 16384 := by
  obtain ⟨hlength, hplain⟩ := validKey_plain hkey
  have hquoted : byteLength (quote m.key) ≤ 1026 := by
    have hmark : '"'.utf8Size = 1 := rfl
    simp only [quote, byteLength_cons, byteLength_append, byteLength_nil, hmark, List.cons_append,
      byteLength_plain hplain]
    omega
  have hsize := byteLength_digits hchecked.size
  have htime := byteLength_digits huploaded
  have hetagText := byteLength_quote m.etag
  have hfileText := byteLength_quote (fileText p m.file)
  have htype : byteLength (m.contentType.elim [] fun type => ",\"contentType\":".toList ++ quote type) ≤ 1553 := by
    cases htype : m.contentType with
    | none => simp
    | some type =>
      have hvalid := hchecked.contentType type htype
      simp only [validType, Bool.and_eq_true, decide_eq_true_eq] at hvalid
      have hname : byteLength ",\"contentType\":".toList = 15 := by decide
      have := byteLength_quote type
      rw [Option.elim, byteLength_append, hname]
      omega
  have hmetadata : byteLength (m.customMetadata.elim [] fun entries =>
      ",\"customMetadata\":".toList ++ metadataText entries) ≤ 8210 := by
    cases hentries : m.customMetadata with
    | none => simp
    | some entries =>
      have hvalid := hchecked.customMetadata entries hentries
      simp only [validMetadata, Bool.and_eq_true, decide_eq_true_eq] at hvalid
      have hname : byteLength ",\"customMetadata\":".toList = 18 := by decide
      rw [Option.elim, byteLength_append, hname]
      omega
  have hkeyName : byteLength "\x7b\"key\":".toList = 7 := by decide
  have hsizeName : byteLength ",\"size\":".toList = 8 := by decide
  have hetagName : byteLength ",\"etag\":".toList = 8 := by decide
  have htimeName : byteLength ",\"uploaded\":".toList = 12 := by decide
  have hfileName : byteLength ",\"file\":".toList = 8 := by decide
  have hclose : byteLength ['\x7d'] = 1 := by decide
  unfold manifestText
  repeat rw [byteLength_append]
  rw [hkeyName, hsizeName, hetagName, htimeName, hfileName, hclose]
  omega

theorem etagOf_length (p : Platform) (bytes : List UInt8) : (etagOf p bytes).length = 66 := by
  simp [etagOf, (p.sha256_hex bytes).1]

theorem isEtag_etagOf (p : Platform) (bytes : List UInt8) : isEtag (etagOf p bytes) = true := by
  have hhex := (p.sha256_hex bytes).2
  have hlast : (etagOf p bytes).getLast? = some 0x22 := List.getLast?_concat ..
  have hinner : ((etagOf p bytes).drop 1).dropLast = p.sha256 bytes := by simp [etagOf]
  unfold isEtag
  rw [etagOf_length, hlast, hinner, hhex]
  rfl

theorem fileText_length (p : Platform) (key : Text) (id : Uuid) :
    (fileText p ⟨p.keyPrefix key, id⟩).length = 106 := by
  simp [fileText, Platform.keyPrefix, (p.sha256_hex _).1, (p.uuid_text id).1]

/-- The manifest that a put writes. -/
def writtenManifest (p : Platform) (key : Text) (options : ObjectOptions) (bytes : List UInt8) (now : Nat)
    (id : Uuid) : Manifest :=
  { toObjectOptions := options, key, etag := etagOf p bytes, uploaded := now, file := ⟨p.keyPrefix key, id⟩ }

theorem readable_written (p : Platform) {key : Text} (hkey : validKey key = true) {o : StoragePutOptions}
    {options : ObjectOptions} (ho : metadataOptions o = some options) (bytes : List UInt8) {now : Nat}
    (hnow : now ≤ maxSafe) (id : Uuid) :
    readable p key (writtenManifest p key options bytes now id) = true := by
  obtain ⟨hchecked, hagain⟩ := metadataOptions_some ho
  have hlength : byteLength (manifestText p (writtenManifest p key options bytes now id)) ≤ 16384 :=
    byteLength_manifestText hkey hchecked hnow (etagOf_length p bytes) (Nat.le_of_eq (fileText_length p key id))
  unfold readable
  rw [decide_eq_true hlength]
  simp only [writtenManifest, isEtag_etagOf, hnow, hagain, beq_self_eq_true, decide_true, Bool.and_self,
    Option.isSome_some]

end Cossack.NodeAdapter.LocalStorage
