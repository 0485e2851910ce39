import Cossack.Core.UrlState
import Cossack.Lib.Outcome
import Mathlib

/-! # The URL state round trip

    A URL written from a patch is read back as the patched values and, for the
    other fields, what the current URL had; the pairs of other keys stay. -/

namespace Cossack.Core.UrlState

variable {N : Type} {num : JsNumber N}

/-! ## Section 1: Codecs that read what they write -/

/-- `String` and `Number` on finite numbers; `===` is equality but for the sign
    of zero, which the tests of the codecs do not see. -/
structure JsNumber.Lawful (num : JsNumber N) : Prop where
  decimal : ∀ x, num.isFinite x = true → isDecimal (num.text x) = true
  short : ∀ x, num.isFinite x = true → jsLength (num.text x) ≤ maxStringLength
  reads : ∀ x, num.isFinite x = true → num.strictEqual (num.ofText (num.text x)) x = true
  refl : ∀ x, num.isFinite x = true → num.strictEqual x x = true
  finite : ∀ x y, num.strictEqual x y = true → num.isFinite x = num.isFinite y
  safe : ∀ x y, num.strictEqual x y = true → num.isSafeInteger x = num.isSafeInteger y
  le_left : ∀ x y z, num.strictEqual x y = true → num.le x z = num.le y z
  le_right : ∀ x y z, num.strictEqual x y = true → num.le z x = num.le z y

/-- The text reads back as the item. -/
def Reads (codec : ScalarCodec num) (encoded : Text) (item : UrlScalar N) : Prop :=
  ∃ decoded, codec.parse encoded = .ok (some decoded) ∧ strictEqual num decoded item = true

structure ScalarCodec.Faithful (codec : ScalarCodec num) : Prop where
  total : ∀ raw, ∃ decoded, codec.parse raw = .ok decoded
  reads : ∀ item, codec.valid item = true → ∃ encoded, codec.encode item = .ok encoded ∧
    scalar num (.string encoded : UrlScalar N) = true ∧ Reads codec encoded item

theorem strictEqual_refl (hnum : num.Lawful) {value : UrlScalar N} (h : scalar num value = true) :
    strictEqual num value value = true := by
  cases value with
  | string text => exact beq_self_eq_true text
  | number x => exact hnum.refl x h
  | boolean b => exact beq_self_eq_true b

/-- A tested codec is faithful when it decodes what it encodes. -/
theorem testedCodec_faithful {decode : Text → Option (UrlScalar N)} {accepts : UrlScalar N → Bool}
    {encode : UrlScalar N → Text}
    (h : ∀ item, (scalar num item && accepts item) = true → ∃ decoded, decode (encode item) = some decoded ∧
      (scalar num decoded && accepts decoded) = true ∧ strictEqual num decoded item = true ∧
      jsLength (encode item) ≤ maxStringLength) :
    (testedCodec decode accepts (fun item => .ok (encode item)) : ScalarCodec num).Faithful where
  total raw := ⟨_, rfl⟩
  reads item hitem := by
    obtain ⟨decoded, hdecode, hvalid, hequal, hshort⟩ := h item hitem
    refine ⟨encode item, rfl, decide_eq_true hshort, decoded, ?_, hequal⟩
    show Except.ok ((decode (encode item)).filter fun v => scalar num v && accepts v) = _
    rw [hdecode, Option.filter_some, if_pos hvalid]

theorem stringCodec_faithful (options : StringOptions) : (stringCodec options : ScalarCodec num).Faithful := by
  refine testedCodec_faithful ?_
  intro item hitem
  cases item with
  | string text =>
    refine ⟨.string text, rfl, hitem, beq_self_eq_true text, ?_⟩
    exact of_decide_eq_true (Bool.and_eq_true_iff.mp hitem).1
  | number x => simp at hitem
  | boolean b => simp at hitem

theorem enumCodec_faithful (values : List Text) : (enumCodec values : ScalarCodec num).Faithful := by
  refine testedCodec_faithful ?_
  intro item hitem
  cases item with
  | string text =>
    refine ⟨.string text, rfl, hitem, beq_self_eq_true text, ?_⟩
    exact of_decide_eq_true (Bool.and_eq_true_iff.mp hitem).1
  | number x => simp at hitem
  | boolean b => simp at hitem

theorem booleanCodec_faithful : (booleanCodec : ScalarCodec num).Faithful := by
  refine testedCodec_faithful ?_
  intro item hitem
  cases item with
  | boolean b =>
    cases b with
    | true => exact ⟨.boolean true, rfl, rfl, rfl, show jsLength "true".toList ≤ _ by decide⟩
    | false => exact ⟨.boolean false, rfl, rfl, rfl, show jsLength "false".toList ≤ _ by decide⟩
  | number x => simp at hitem
  | string text => simp at hitem

theorem numberScalar_faithful (hnum : num.Lawful) (options : NumberOptions N) :
    (numberScalar options : ScalarCodec num).Faithful := by
  refine testedCodec_faithful ?_
  intro item hitem
  cases item with
  | number x =>
    obtain ⟨hscalar, haccepts⟩ := Bool.and_eq_true_iff.mp hitem
    have hequal := hnum.reads x hscalar
    refine ⟨.number (num.ofText (num.text x)), ?_, ?_, hequal, hnum.short x hscalar⟩
    · simp only [toText, hnum.decimal x hscalar, if_true]
    · simp only [scalar, hnum.finite _ _ hequal, hnum.safe _ _ hequal, hnum.le_left _ _ _ hequal,
        hnum.le_right _ _ _ hequal]
      exact hitem
  | boolean b => simp at hitem
  | string text => simp at hitem

/-- What is asked of an application's callbacks: they neither throw nor return
    something else, and what is serialized parses to the same value. -/
structure CustomFaithful (num : JsNumber N) (default : UrlScalar N) (parse : Text → Returned N)
    (serialize : UrlScalar N → Returned N) : Prop where
  parses : ∀ raw, parse raw = .undefined ∨ ∃ v, parse raw = .value v ∧ scalar num v = true ∧ sameType default v = true
  serializes : ∀ v, scalar num v = true → sameType default v = true → ∃ text decoded,
    serialize v = .value (.string text) ∧ jsLength text ≤ maxStringLength ∧ parse text = .value decoded ∧
    strictEqual num decoded v = true

theorem customCodec_faithful {default : UrlScalar N} {parse : Text → Returned N}
    {serialize : UrlScalar N → Returned N} (h : CustomFaithful num default parse serialize) :
    (customCodec default parse serialize : ScalarCodec num).Faithful where
  total raw := by
    rcases h.parses raw with heq | ⟨v, heq, hscalar, htype⟩
    · exact ⟨none, by simp only [customCodec, heq]⟩
    · exact ⟨some v, by simp [customCodec, heq, hscalar, htype]⟩
  reads item hitem := by
    obtain ⟨hscalar, haccepts⟩ := Bool.and_eq_true_iff.mp hitem
    obtain ⟨text, decoded, hserialize, hshort, hparse, hequal⟩ :=
      h.serializes item hscalar (Bool.and_eq_true_iff.mp haccepts).2
    have htext : scalar num (.string text : UrlScalar N) = true := decide_eq_true hshort
    refine ⟨text, by simp [customCodec, hserialize, htext], htext, decoded, ?_, hequal⟩
    rcases h.parses text with heq | ⟨v, heq, hv, htype⟩
    · rw [hparse] at heq
      cases heq
    · rw [hparse] at heq
      cases heq
      simp [customCodec, hparse, hv, htype]

/-- The codecs `url` makes. -/
inductive Built : Codec num → Prop
  | string {options codec} : urlString options = .ok codec → Built codec
  | number {options codec} : numberCodec options = .ok codec → Built codec
  | integer {options codec} : urlInteger options = .ok codec → Built codec
  | boolean {default codec} : urlBoolean default = .ok codec → Built codec
  | enum {values default codec} : urlEnum values default = .ok codec → Built codec
  | custom {default parse serialize codec} : urlCustom default parse serialize = .ok codec →
      CustomFaithful num default parse serialize → Built codec
  | array {item maxItems default codec} : Built item → urlArray item maxItems default = .ok codec → Built codec
  | optional {inner codec} : Built inner → urlOptional inner = .ok codec → Built codec

theorem register_kind {kind : Kind num} {default : Option (UrlValue N)} {codec : Codec num}
    (h : register kind default = .ok codec) : codec.kind = kind := by
  unfold register at h
  split at h
  · rw [← Except.ok.inj h]
  · split at h
    · rw [← Except.ok.inj h]
    · cases h

theorem Built.faithful (hnum : num.Lawful) {codec : Codec num} (h : Built codec) :
    codec.kind.item.Faithful := by
  induction h with
  | string h =>
    unfold urlString at h
    split at h
    · cases h
    · rw [register_kind h]
      exact stringCodec_faithful _
  | number h =>
    unfold numberCodec at h
    split at h
    · cases h
    · rw [register_kind h]
      exact numberScalar_faithful hnum _
  | integer h =>
    unfold urlInteger numberCodec at h
    split at h
    · cases h
    · rw [register_kind h]
      exact numberScalar_faithful hnum _
  | boolean h =>
    rw [register_kind h]
    exact booleanCodec_faithful
  | enum h =>
    unfold urlEnum at h
    split at h
    · cases h
    · split at h
      · cases h
      · split at h
        · rw [register_kind h]
          exact enumCodec_faithful _
        · cases h
  | custom h hfaithful =>
    unfold urlCustom at h
    split at h
    · rw [register_kind h]
      exact customCodec_faithful hfaithful
    · cases h
  | array _ h ih =>
    unfold urlArray at h
    split at h
    · rename_i hkind _
      split at h
      · rw [register_kind h]
        rw [hkind] at ih
        exact ih
      · cases h
    · cases h
  | optional _ h ih =>
    rw [register_kind h]
    exact ih

/-! ## Section 2: Reading what was written -/

/-- Two values of a field that are the same under `===`. -/
def Alike (num : JsNumber N) : Option (UrlValue N) → Option (UrlValue N) → Prop
  | none, none => True
  | some (.one a), some (.one b) => strictEqual num a b = true
  | some (.many as), some (.many bs) => List.Forall₂ (fun a b => strictEqual num a b = true) as bs
  | _, _ => False

theorem valid_scalar {codec : ScalarCodec num} {v : UrlScalar N} (h : codec.valid v = true) :
    scalar num v = true :=
  (Bool.and_eq_true_iff.mp h).1

theorem alike_refl (hnum : num.Lawful) {codec : Codec num} {value : Option (UrlValue N)}
    (h : codec.accepts value = true) : Alike num value value := by
  cases value with
  | none => trivial
  | some v =>
    have hkind : codec.kind.accepts v = true := h
    cases hk : codec.kind with
    | scalar item =>
      rw [hk] at hkind
      cases v with
      | one a => exact strictEqual_refl hnum (valid_scalar hkind)
      | many as => cases hkind
    | array item maxItems bound =>
      rw [hk] at hkind
      cases v with
      | one a => cases hkind
      | many as =>
        have hall := List.all_eq_true.mp (Bool.and_eq_true_iff.mp hkind).2
        refine List.forall₂_same.mpr ?_
        intro a ha
        exact strictEqual_refl hnum (valid_scalar (hall a ha))

/-- A written pair as the reader sees it. -/
def Pair.reread (pair : Pair) : Pair := { pair with raw := some pair.text }

/-- The pairs written for a field's value, and what reading them gives. -/
def Written (codec : Codec num) (key : Text) (value : Option (UrlValue N)) (block : List Pair) : Prop :=
  (∀ pair ∈ block, pair.key = key ∧ pair.invalid = false ∧ pair.raw = none) ∧
  ∃ value', readField codec (block.map Pair.reread) = .ok (value', none) ∧ Alike num value' value

theorem encodeItem_ok {codec : ScalarCodec num} {key : Text} {item : UrlScalar N} {pair : Pair}
    (h : encodeItem codec key item = .ok pair) :
    ∃ encoded, pair = ⟨key, some encoded, false, none⟩ ∧ Reads codec encoded item := by
  unfold encodeItem at h
  split at h
  · cases h
  · rename_i encoded _
    split at h
    · split at h
      · rename_i decoded hparse
        split at h
        · rename_i hequal
          exact ⟨encoded, (Except.ok.inj h).symm, decoded, hparse, hequal⟩
        · cases h
      · cases h
    · cases h

theorem encodeItems_ok {codec : ScalarCodec num} {key : Text} {items : List (UrlScalar N)}
    {block : List Pair} (h : encodeItems codec key items = .ok block) :
    ∃ texts, block = texts.map (fun encoded => ⟨key, some encoded, false, none⟩) ∧
      List.Forall₂ (Reads codec) texts items := by
  induction items generalizing block with
  | nil =>
    obtain rfl := Except.ok.inj h
    exact ⟨[], rfl, .nil⟩
  | cons item items ih =>
    rw [encodeItems, List.mapM_cons] at h
    obtain ⟨pair, hpair, h⟩ := Outcome.bind_eq_ok.mp h
    obtain ⟨rest, hrest, h⟩ := Outcome.bind_eq_ok.mp h
    obtain rfl := Except.ok.inj h
    obtain ⟨encoded, rfl, hreads⟩ := encodeItem_ok hpair
    obtain ⟨texts, rfl, htexts⟩ := ih hrest
    exact ⟨encoded :: texts, rfl, .cons hreads htexts⟩

/-- Items that read back are parsed to accepted items that are the same. -/
theorem parseItems {item : ScalarCodec num} (key : Text) {texts : List Text} {items : List (UrlScalar N)}
    (h : List.Forall₂ (Reads item) texts items) :
    ∃ decoded : List (UrlScalar N),
      ((texts.map fun encoded => (⟨key, some encoded, false, none⟩ : Pair).reread).mapM (parseItem item)) =
        .ok (decoded.map some) ∧
      decoded.all item.valid = true ∧ List.Forall₂ (fun a b => strictEqual num a b = true) decoded items := by
  induction h with
  | nil => exact ⟨[], rfl, rfl, .nil⟩
  | @cons encoded x texts items hhead _ ih =>
    obtain ⟨decoded, hparse, hequal⟩ := hhead
    obtain ⟨rest, hrest, hall, hsame⟩ := ih
    refine ⟨decoded :: rest, ?_, ?_, .cons hequal hsame⟩
    · rw [List.map_cons, List.mapM_cons, hrest]
      show (item.parse encoded >>= _) = _
      rw [hparse]
      rfl
    · rw [List.all_cons, hall, Bool.and_true]
      exact item.parse_accepts hparse

theorem mapM_id_some (items : List (UrlScalar N)) : (items.map some).mapM id = some items := by
  induction items with
  | nil => rfl
  | cons item items ih =>
    rw [List.map_cons, List.mapM_cons, ih]
    rfl

theorem readField_nil (codec : Codec num) : readField codec [] = .ok (codec.defaultValue, none) := by
  unfold readField
  simp

theorem readField_one {codec : Codec num} {item : ScalarCodec num} (hkind : codec.kind = .scalar item)
    {entry : Pair} (hinvalid : entry.invalid = false) {encoded : Text} (hvalue : entry.value = some encoded)
    {decoded : UrlScalar N} (hparse : item.parse encoded = .ok (some decoded)) :
    readField codec [entry] = .ok (some (.one decoded), none) := by
  have htake : codec.take (.one decoded) = (some (.one decoded), none) := by
    have : codec.kind.accepts (.one decoded) = true := by
      rw [hkind]
      exact item.parse_accepts hparse
    rw [Codec.take, if_pos this]
  unfold readField
  simp only [List.any_cons, List.any_nil, hinvalid, Bool.or_false, Bool.false_eq_true, if_false, hkind, hvalue,
    Option.getD_some, hparse]
  show Except.ok (codec.take (.one decoded)) = _
  rw [htake]

theorem readField_bare {codec : Codec num} {item : ScalarCodec num} {maxItems : Nat} {bound}
    (hkind : codec.kind = .array item maxItems bound) {entry : Pair} (hinvalid : entry.invalid = false)
    (hvalue : entry.value = none) : readField codec [entry] = .ok (some (.many []), none) := by
  have htake : codec.take (.many []) = (some (.many []), none) := by
    have : codec.kind.accepts (.many []) = true := by simp [hkind, Kind.accepts]
    rw [Codec.take, if_pos this]
  unfold readField
  simp only [List.any_cons, List.any_nil, hinvalid, Bool.or_false, Bool.false_eq_true, if_false, hkind, isBare,
    hvalue, Option.isNone_none, if_true, htake]

theorem readField_many {codec : Codec num} {item : ScalarCodec num} {maxItems : Nat} {bound}
    (hkind : codec.kind = .array item maxItems bound) {entries : List Pair} (hne : entries ≠ [])
    (hinvalid : entries.any Pair.invalid = false) (hbare : isBare entries = false)
    (hlength : entries.length ≤ maxItems) {decoded : List (UrlScalar N)}
    (hparse : entries.mapM (parseItem item) = .ok (decoded.map some)) (hall : decoded.all item.valid = true)
    (hdecoded : decoded.length = entries.length) :
    readField codec entries = .ok (some (.many decoded), none) := by
  have htake : codec.take (.many decoded) = (some (.many decoded), none) := by
    have : codec.kind.accepts (.many decoded) = true := by
      simp only [hkind, Kind.accepts, hdecoded, hlength, decide_true, hall, Bool.and_true]
    rw [Codec.take, if_pos this]
  unfold readField
  rw [if_neg (by simp [hinvalid]), hkind]
  cases entries with
  | nil => exact absurd rfl hne
  | cons entry rest =>
    simp only [hbare, Bool.false_eq_true, if_false, if_neg (Nat.not_lt.mpr hlength), hparse]
    simp only [Outcome.ok_bind, mapM_id_some, htake]
    rfl

theorem texts_written (key : Text) (texts : List Text) :
    ∀ pair ∈ texts.map (fun encoded => (⟨key, some encoded, false, none⟩ : Pair)),
      pair.key = key ∧ pair.invalid = false ∧ pair.raw = none := by
  intro pair hpair
  obtain ⟨encoded, -, rfl⟩ := List.mem_map.mp hpair
  exact ⟨rfl, rfl, rfl⟩

variable [DecidableEq N]

/-- Whatever is written for a field reads back as the field's value. -/
theorem writeField_ok (hnum : num.Lawful) {codec : Codec num} {key : Text} {value : Option (UrlValue N)}
    {defaults : Defaults} {block : List Pair} (h : writeField codec key value defaults = .ok block) :
    Written codec key value block := by
  unfold writeField at h
  split at h
  · rename_i haccepts
    split at h
    · -- an absent value is one the codec has by default
      obtain rfl := Except.ok.inj h
      refine ⟨nofun, codec.defaultValue, readField_nil codec, ?_⟩
      have hnone : codec.defaultValue = none := Option.isNone_iff_eq_none.mp haccepts
      rw [hnone]
      trivial
    · rename_i v
      have hkind : codec.kind.accepts v = true := haccepts
      split at h
      · rename_i homit
        obtain rfl := Except.ok.inj h
        refine ⟨nofun, codec.defaultValue, readField_nil codec, ?_⟩
        rw [← homit.2]
        exact alike_refl hnum haccepts
      · split at h
        · rename_i item
          cases hk : codec.kind with
          | array inner maxItems bound => rw [hk] at hkind; cases hkind
          | scalar inner =>
            obtain ⟨texts, rfl, hreads⟩ := encodeItems_ok h
            rw [hk] at hreads
            obtain ⟨encoded, rest, ⟨decoded, hparse, hequal⟩, hrest, rfl⟩ := List.forall₂_cons_right_iff.mp hreads
            obtain rfl := List.forall₂_nil_right_iff.mp hrest
            exact ⟨texts_written key _, some (.one decoded), readField_one hk rfl rfl hparse, hequal⟩
        · cases hk : codec.kind with
          | scalar inner => rw [hk] at hkind; cases hkind
          | array inner maxItems bound =>
            obtain rfl := Except.ok.inj h
            refine ⟨?_, some (.many []), readField_bare hk rfl rfl, .nil⟩
            intro pair hpair
            rw [List.mem_singleton.mp hpair]
            exact ⟨rfl, rfl, rfl⟩
        · rename_i items hitems _
          cases hk : codec.kind with
          | scalar inner => rw [hk] at hkind; cases hkind
          | array inner maxItems bound =>
            obtain ⟨texts, rfl, hreads⟩ := encodeItems_ok h
            rw [hk] at hreads hkind
            obtain ⟨decoded, hparse, hall, hsame⟩ := parseItems key hreads
            refine ⟨texts_written key texts, some (.many decoded), ?_, hsame⟩
            rw [List.map_map]
            have hlength : texts.length = items.length := hreads.length_eq
            have hmax : items.length ≤ maxItems := of_decide_eq_true (Bool.and_eq_true_iff.mp hkind).1
            have hne : texts ≠ [] := by
              intro heq
              rw [heq] at hlength
              exact hitems (List.length_eq_zero_iff.mp hlength.symm)
            refine readField_many hk ?_ ?_ ?_ ?_ hparse hall ?_
            · simpa using hne
            · simp [Pair.reread]
            · cases texts with
              | nil => exact absurd rfl hne
              | cons first rest =>
                cases rest with
                | nil => rfl
                | cons second rest => rfl
            · rw [List.length_map]
              omega
            · rw [List.length_map, hsame.length_eq, hlength]
  · cases h

/-! ## Section 3: The text of a query -/

/-- The characters a URL parser leaves alone in a query. -/
def isQueryChar (c : Char) : Bool :=
  0x21 ≤ c.toNat && c.toNat ≤ 0x7E && c.toNat ≠ 0x22 && c.toNat ≠ 0x23 && c.toNat ≠ 0x27 && c.toNat ≠ 0x3C &&
    c.toNat ≠ 0x3E

theorem isEncoded_cases {c : Char} (h : FormText.isEncoded c = true) :
    isQueryChar c = true ∧ c ≠ '=' ∧ c ≠ '&' := by
  have hlt : c.toNat < 128 := by
    have h := h
    simp only [FormText.isEncoded, Char.isAlphanum, Char.isAlpha, Char.isUpper, Char.isLower, Char.isDigit,
      Bool.or_eq_true, beq_iff_eq, Bool.and_eq_true, decide_eq_true_eq] at h
    rcases h with ((((((h | rfl) | rfl) | rfl) | rfl) | rfl) | rfl)
    · have hle : c.val ≤ 122 := by
        rcases h with (⟨_, h⟩ | ⟨_, h⟩) | ⟨_, h⟩
        · exact UInt32.le_trans h (by decide)
        · exact h
        · exact UInt32.le_trans h (by decide)
      exact Nat.lt_of_le_of_lt (UInt32.le_iff_toNat_le.mp hle) (by decide)
    all_goals decide
  have hall : ∀ n < 128, FormText.isEncoded (Char.ofNat n) = true →
      isQueryChar (Char.ofNat n) = true ∧ Char.ofNat n ≠ '=' ∧ Char.ofNat n ≠ '&' := by decide
  have := hall c.toNat hlt
  rw [Char.ofNat_toNat] at this
  exact this h

theorem encode_free {text : Text} {c : Char} (h : c ∈ FormText.encode text) :
    isQueryChar c = true ∧ c ≠ '=' ∧ c ≠ '&' :=
  isEncoded_cases (FormText.isEncoded_encode h)

/-- A pair whose text is read back as `again`. -/
structure Readable (pair again : Pair) : Prop where
  nonempty : pair.text ≠ []
  free : '&' ∉ pair.text
  chars : ∀ c ∈ pair.text, isQueryChar c = true
  reads : parsePair pair.text = again

theorem written_readable {pair : Pair} (hkey : pair.key ≠ []) (hinvalid : pair.invalid = false)
    (hraw : pair.raw = none) : Readable pair pair.reread := by
  obtain ⟨key, value, invalid, raw⟩ := pair
  obtain rfl : invalid = false := hinvalid
  obtain rfl : raw = none := hraw
  have hequals : '=' ∉ FormText.encode key := fun h => (encode_free h).2.1 rfl
  cases value with
  | none =>
    refine ⟨FormText.encode_ne_nil hkey, fun h => (encode_free h).2.2 rfl, fun c hc => (encode_free hc).1, ?_⟩
    show parsePair (FormText.encode key) = _
    rw [parsePair, FormText.cut_none hequals]
    simp only [FormText.decode_encode]
    rfl
  | some value =>
    have htext : (⟨key, some value, false, none⟩ : Pair).text =
        FormText.encode key ++ '=' :: FormText.encode value := rfl
    refine ⟨by simp [htext], ?_, ?_, ?_⟩
    · rw [htext, List.mem_append, List.mem_cons, not_or, not_or]
      exact ⟨fun h => (encode_free h).2.2 rfl, by decide, fun h => (encode_free h).2.2 rfl⟩
    · intro c hc
      rw [htext, List.mem_append, List.mem_cons] at hc
      rcases hc with hc | rfl | hc
      · exact (encode_free hc).1
      · decide
      · exact (encode_free hc).1
    · rw [htext, parsePair, FormText.cut_some hequals]
      simp only [FormText.decode_encode]
      rfl

theorem parsePair_raw (part : Text) : (parsePair part).raw = some part := by
  unfold parsePair
  split
  · rfl
  · split
    · rfl
    · split
      · rfl
      · rfl

theorem parsed_readable {query part : Text} (hquery : ∀ c ∈ query, isQueryChar c = true)
    (h : part ∈ FormText.parts '&' query) : Readable (parsePair part) (parsePair part) := by
  obtain ⟨hne, hfree, hchars⟩ := FormText.mem_parts h
  have htext : (parsePair part).text = part := by rw [Pair.text, parsePair_raw]
  rw [← htext] at hne hfree
  refine ⟨hne, hfree, ?_, by rw [htext]⟩
  intro c hc
  rw [htext] at hc
  exact hquery c (hchars c hc)

theorem drop_withQuery (query : Text) : (withQuery query).drop 1 = query := by
  cases query <;> rfl

theorem jsLength_withQuery (query : Text) : jsLength (withQuery query) ≤ jsLength query + 1 := by
  cases query with
  | nil => exact Nat.zero_le _
  | cons c rest =>
    show (JsString.units '?' ++ (c :: rest).flatMap JsString.units).length ≤ _
    rw [List.length_append, Nat.add_comm]
    exact Nat.le_refl _

/-- The pairs of a joined query, within the limits. -/
theorem pairs_joinPairs {result again : List Pair} (h : List.Forall₂ Readable result again)
    (hlength : jsLength (joinPairs result) ≤ maxQueryLength) (hcount : result.length ≤ maxPairs) :
    pairs (withQuery (joinPairs result)) = .ok again := by
  have hparts : FormText.parts '&' (joinPairs result) = result.map Pair.text := by
    refine FormText.parts_intercalate ?_
    intro part hpart
    obtain ⟨pair, hpair, rfl⟩ := List.mem_map.mp hpart
    clear hpart hlength hcount
    induction h with
    | nil => cases hpair
    | cons hhead _ ih =>
      rcases List.mem_cons.mp hpair with rfl | hpair
      · exact ⟨hhead.nonempty, hhead.free⟩
      · exact ih hpair
  have hagain : result.map (fun pair => parsePair pair.text) = again := by
    clear hparts hlength hcount
    induction h with
    | nil => rfl
    | cons hhead _ ih => rw [List.map_cons, hhead.reads, ih]
  have hquery := jsLength_withQuery (joinPairs result)
  rw [pairs, if_neg (by omega), drop_withQuery, hparts]
  dsimp only
  rw [List.length_map, if_neg (by omega), List.map_map]
  exact congrArg _ hagain

theorem joinPairs_chars {result again : List Pair} (h : List.Forall₂ Readable result again) :
    ∀ c ∈ joinPairs result, isQueryChar c = true := by
  induction h with
  | nil => nofun
  | @cons pair _ rest _ hhead htail ih =>
    intro c hc
    cases rest with
    | nil =>
      refine hhead.chars c ?_
      simpa [joinPairs, List.intercalate] using hc
    | cons next rest =>
      rw [joinPairs, List.map_cons, List.map_cons, List.intercalate_cons_cons, List.append_assoc,
        List.mem_append, List.mem_append, List.mem_singleton] at hc
      rcases hc with hc | rfl | hc
      · exact hhead.chars c hc
      · decide
      · exact ih c hc

/-! ## Section 4: All the fields -/

theorem filter_key_all {block : List Pair} {key : Text} (h : ∀ pair ∈ block, pair.key = key) :
    block.filter (·.key = key) = block :=
  List.filter_eq_self.mpr fun pair hpair => decide_eq_true (h pair hpair)

theorem filter_key_none {block : List Pair} {key : Text} (h : ∀ pair ∈ block, pair.key ≠ key) :
    block.filter (·.key = key) = [] :=
  List.filter_eq_nil_iff.mpr fun pair hpair => by simpa using h pair hpair

theorem writeFields_ok (hnum : num.Lawful) {previous : UrlStateRead N} {patch : Patch N} {defaults : Defaults}
    {fields : List (Text × Codec num)} (hnodup : (fields.map Prod.fst).Nodup) {written : List Pair}
    (h : writeFields previous patch defaults fields = .ok written) :
    (∀ pair ∈ written, pair.key ∈ fields.map Prod.fst ∧ pair.invalid = false ∧ pair.raw = none) ∧
    ∀ field ∈ fields, Written field.2 field.1 (field.2.next previous patch field.1)
      (written.filter (·.key = field.1)) := by
  induction fields generalizing written with
  | nil =>
    obtain rfl := Except.ok.inj h
    exact ⟨nofun, nofun⟩
  | cons field fields ih =>
    obtain ⟨key, codec⟩ := field
    obtain ⟨block, hblock, h⟩ := Outcome.bind_eq_ok.mp h
    obtain ⟨rest, hrest, h⟩ := Outcome.bind_eq_ok.mp h
    obtain rfl := Except.ok.inj h
    rw [List.map_cons, List.nodup_cons] at hnodup
    obtain ⟨hkeys, hfields⟩ := ih hnodup.2 hrest
    have hwritten := writeField_ok hnum hblock
    have hown : ∀ pair ∈ block, pair.key = key := fun pair hpair => (hwritten.1 pair hpair).1
    refine ⟨?_, ?_⟩
    · intro pair hpair
      rcases List.mem_append.mp hpair with hpair | hpair
      · obtain ⟨hkey, hinvalid, hraw⟩ := hwritten.1 pair hpair
        exact ⟨by rw [hkey]; exact List.mem_cons_self, hinvalid, hraw⟩
      · obtain ⟨hkey, hinvalid, hraw⟩ := hkeys pair hpair
        exact ⟨List.mem_cons_of_mem _ hkey, hinvalid, hraw⟩
    · intro field hfield
      rw [List.filter_append]
      rcases List.mem_cons.mp hfield with rfl | hfield
      · -- the other fields have other keys
        have hother : ∀ pair ∈ rest, pair.key ≠ key := by
          rintro pair hpair rfl
          exact hnodup.1 (hkeys pair hpair).1
        rw [filter_key_all hown, filter_key_none hother, List.append_nil]
        exact hwritten
      · have hother : ∀ pair ∈ block, pair.key ≠ field.1 := by
          intro pair hpair heq
          rw [hown pair hpair] at heq
          apply hnodup.1
          rw [heq]
          exact List.mem_map.mpr ⟨field, hfield, rfl⟩
        rw [filter_key_none hother, List.nil_append]
        exact hfields field hfield

omit [DecidableEq N] in
/-- Fields that are read without an issue. -/
theorem readFields_ok {all : List Pair} {fields : List (Text × Codec num)}
    (good : Text × Codec num → Option (UrlValue N) → Prop)
    (h : ∀ field ∈ fields, ∃ value,
      readField field.2 (all.filter (·.key = field.1)) = .ok (value, none) ∧ good field value) :
    ∃ read, readFields all fields = .ok read ∧ read.issues = [] ∧
      List.Forall₂ (fun field entry => entry.1 = field.1 ∧ good field entry.2) fields read.values := by
  induction fields with
  | nil => exact ⟨_, rfl, rfl, .nil⟩
  | cons field fields ih =>
    obtain ⟨value, hvalue, hgood⟩ := h field List.mem_cons_self
    obtain ⟨read, hread, hissues, hvalues⟩ := ih fun other hother => h other (List.mem_cons_of_mem _ hother)
    refine ⟨⟨(field.1, value) :: read.values, read.issues⟩, ?_, hissues, .cons ⟨rfl, hgood⟩ hvalues⟩
    rw [readFields, hvalue, hread]
    rfl

/-- The pairs of the current URL that are kept, and the ones written, read again. -/
theorem readFields_result (hnum : num.Lawful) {state : UrlState num} {previous : UrlStateRead N}
    {patch : Patch N} {defaults : Defaults} (all : List Pair) {written : List Pair}
    (h : writeFields previous patch defaults state.fields = .ok written) :
    ∃ read, readFields (state.unknown all ++ written.map Pair.reread) state.fields = .ok read ∧
      read.issues = [] ∧ List.Forall₂ (fun field entry => entry.1 = field.1 ∧
        Alike num entry.2 (field.2.next previous patch field.1)) state.fields read.values := by
  obtain ⟨-, hfields⟩ := writeFields_ok hnum state.nodup h
  refine readFields_ok (fun field value => Alike num value (field.2.next previous patch field.1)) ?_
  intro field hfield
  obtain ⟨-, value, hread, halike⟩ := hfields field hfield
  refine ⟨value, ?_, halike⟩
  have hunknown : ∀ pair ∈ state.unknown all, pair.key ≠ field.1 := by
    intro pair hpair heq
    have hmem := of_decide_eq_true (List.mem_filter.mp hpair).2
    exact hmem (heq ▸ List.mem_map_of_mem hfield)
  have hfilter : (state.unknown all ++ written.map Pair.reread).filter (·.key = field.1) =
      (written.filter (·.key = field.1)).map Pair.reread := by
    rw [List.filter_append, filter_key_none hunknown, List.nil_append, List.filter_map]
    rfl
  rw [hfilter]
  exact hread

theorem unknown_result (hnum : num.Lawful) {state : UrlState num} {previous : UrlStateRead N}
    {patch : Patch N} {defaults : Defaults} {all written : List Pair}
    (h : writeFields previous patch defaults state.fields = .ok written) :
    state.unknown (state.unknown all ++ written.map Pair.reread) = state.unknown all := by
  obtain ⟨hkeys, -⟩ := writeFields_ok hnum state.nodup h
  have hwritten : (written.map Pair.reread).filter (fun pair => pair.key ∉ state.fields.map Prod.fst) = [] := by
    refine List.filter_eq_nil_iff.mpr ?_
    intro pair hpair
    obtain ⟨source, hsource, rfl⟩ := List.mem_map.mp hpair
    intro hfree
    exact of_decide_eq_true hfree (hkeys source hsource).1
  rw [UrlState.unknown, List.filter_append, hwritten, List.append_nil, UrlState.unknown, List.filter_filter]
  simp only [Bool.and_self]

/-! ## Section 5: Reading never fails, and gives accepted values -/

section

omit [DecidableEq N]

theorem default_accepted (codec : Codec num) : codec.accepts codec.defaultValue = true := by
  cases h : codec.defaultValue with
  | none => rw [Codec.accepts, h]; rfl
  | some value => exact codec.accepted value h

theorem take_accepted (codec : Codec num) (decoded : UrlValue N) :
    codec.accepts (codec.take decoded).1 = true := by
  unfold Codec.take
  split
  · rename_i haccepts
    exact haccepts
  · exact default_accepted codec

theorem parseItems_total {item : ScalarCodec num} (h : item.Faithful) (entries : List Pair) :
    ∃ decoded, entries.mapM (parseItem item) = .ok decoded := by
  induction entries with
  | nil => exact ⟨[], rfl⟩
  | cons entry rest ih =>
    obtain ⟨decoded, hrest⟩ := ih
    have hentry : ∃ value, parseItem item entry = .ok value := by
      unfold parseItem
      split
      · exact ⟨none, rfl⟩
      · exact h.total _
    obtain ⟨value, hvalue⟩ := hentry
    refine ⟨value :: decoded, ?_⟩
    rw [List.mapM_cons, hvalue, hrest]
    rfl

theorem readField_total {codec : Codec num} (h : codec.kind.item.Faithful) (entries : List Pair) :
    ∃ read, readField codec entries = .ok read ∧ codec.accepts read.1 = true := by
  have hdefault := default_accepted codec
  unfold readField
  split
  · exact ⟨_, rfl, hdefault⟩
  · split
    · exact ⟨_, rfl, hdefault⟩
    · rename_i scalarCodec entry hkind _
      rw [hkind] at h
      obtain ⟨decoded, hparse⟩ := h.total (entry.value.getD [])
      change scalarCodec.parse (entry.value.getD []) = _ at hparse
      rw [hparse]
      cases decoded with
      | none => exact ⟨_, rfl, hdefault⟩
      | some value => exact ⟨_, rfl, take_accepted codec _⟩
    · exact ⟨_, rfl, hdefault⟩
    · rename_i entries _ _ item maxItems bound hkind _ _
      rw [hkind] at h
      split
      · exact ⟨_, rfl, take_accepted codec _⟩
      · split
        · exact ⟨_, rfl, hdefault⟩
        · obtain ⟨decoded, hparse⟩ := parseItems_total h entries
          change entries.mapM (parseItem item) = _ at hparse
          rw [hparse, Outcome.ok_bind]
          split
          · exact ⟨_, rfl, take_accepted codec _⟩
          · exact ⟨_, rfl, hdefault⟩

theorem readFields_total {fields : List (Text × Codec num)} (hnodup : (fields.map Prod.fst).Nodup)
    (h : ∀ field ∈ fields, field.2.kind.item.Faithful) (all : List Pair) :
    ∃ read, readFields all fields = .ok read ∧ ∀ field ∈ fields, ∃ value,
      Entries.get read.values field.1 = some value ∧ field.2.accepts value = true := by
  induction fields with
  | nil => exact ⟨_, rfl, nofun⟩
  | cons field fields ih =>
    rw [List.map_cons, List.nodup_cons] at hnodup
    obtain ⟨⟨value, issue⟩, hvalue, haccepts⟩ := readField_total (h field List.mem_cons_self)
      (all.filter (·.key = field.1))
    obtain ⟨read, hread, hvalues⟩ := ih hnodup.2 fun other hother => h other (List.mem_cons_of_mem _ hother)
    refine ⟨⟨(field.1, value) :: read.values, (issue.map (field.1, ·)).toList ++ read.issues⟩, ?_, ?_⟩
    · rw [readFields, hvalue, hread]
      rfl
    · intro other hother
      rw [Entries.get_cons]
      rcases List.mem_cons.mp hother with rfl | hother
      · exact ⟨value, by simp, haccepts⟩
      · have hne : field.1 ≠ other.1 := by
          intro heq
          apply hnodup.1
          rw [heq]
          exact List.mem_map_of_mem hother
        obtain ⟨value', hget, haccepts'⟩ := hvalues other hother
        exact ⟨value', by simpa [hne] using hget, haccepts'⟩

end

/-! ## Section 6: Writing fails only at the limits -/

theorem mem_of_get {entries : List (Text × Option (UrlValue N))} {key : Text} {value : Option (UrlValue N)}
    (h : Entries.get entries key = some value) : (key, value) ∈ entries := by
  obtain ⟨entry, hfind, rfl⟩ := Option.map_eq_some_iff.mp h
  have hkey : entry.1 = key := by simpa using List.find?_some hfind
  rw [← hkey]
  exact List.mem_of_find?_eq_some hfind

theorem encodeItems_total {codec : ScalarCodec num} (h : codec.Faithful) (key : Text)
    {items : List (UrlScalar N)} (hitems : ∀ item ∈ items, codec.valid item = true) :
    ∃ block, encodeItems codec key items = .ok block := by
  induction items with
  | nil => exact ⟨[], rfl⟩
  | cons item items ih =>
    obtain ⟨block, hblock⟩ := ih fun other hother => hitems other (List.mem_cons_of_mem _ hother)
    obtain ⟨encoded, hencode, hscalar, decoded, hparse, hequal⟩ := h.reads item (hitems item List.mem_cons_self)
    have hitem : encodeItem codec key item = .ok ⟨key, some encoded, false, none⟩ := by
      unfold encodeItem
      simp only [hencode, hscalar, hparse, hequal, if_true]
    refine ⟨⟨key, some encoded, false, none⟩ :: block, ?_⟩
    change items.mapM (encodeItem codec key) = _ at hblock
    rw [encodeItems, List.mapM_cons, hitem, hblock]
    rfl

theorem writeField_total {codec : Codec num} (h : codec.kind.item.Faithful) (key : Text)
    {value : Option (UrlValue N)} (haccepts : codec.accepts value = true) (defaults : Defaults) :
    ∃ block, writeField codec key value defaults = .ok block := by
  unfold writeField
  rw [if_pos haccepts]
  split
  · exact ⟨[], rfl⟩
  · rename_i v
    have hkind : codec.kind.accepts v = true := haccepts
    split
    · exact ⟨[], rfl⟩
    · split
      · rename_i item _
        refine encodeItems_total h key ?_
        intro other hother
        rw [List.mem_singleton.mp hother]
        cases hk : codec.kind with
        | scalar inner => rw [hk] at hkind; exact hkind
        | array inner maxItems bound => rw [hk] at hkind; cases hkind
      · exact ⟨_, rfl⟩
      · rename_i items _ _
        refine encodeItems_total h key ?_
        intro other hother
        cases hk : codec.kind with
        | scalar inner => rw [hk] at hkind; cases hkind
        | array inner maxItems bound =>
          rw [hk] at hkind
          exact List.all_eq_true.mp (Bool.and_eq_true_iff.mp hkind).2 other hother

theorem writeFields_total {previous : UrlStateRead N} {patch : Patch N} (defaults : Defaults)
    {fields : List (Text × Codec num)} (h : ∀ field ∈ fields, field.2.kind.item.Faithful ∧
      field.2.accepts (field.2.next previous patch field.1) = true) :
    ∃ written, writeFields previous patch defaults fields = .ok written := by
  induction fields with
  | nil => exact ⟨[], rfl⟩
  | cons field fields ih =>
    obtain ⟨rest, hrest⟩ := ih fun other hother => h other (List.mem_cons_of_mem _ hother)
    obtain ⟨hfaithful, haccepts⟩ := h field List.mem_cons_self
    obtain ⟨block, hblock⟩ := writeField_total hfaithful field.1 haccepts defaults
    refine ⟨block ++ rest, ?_⟩
    rw [writeFields, hblock, hrest]
    rfl

/-- The patch has declared keys, with values their codecs accept. -/
def Patches (state : UrlState num) (patch : Patch N) : Prop :=
  ∀ key value, (key, value) ∈ patch → ∃ codec, (key, codec) ∈ state.fields ∧
    ∀ v, value = some v → codec.kind.accepts v = true

theorem field_unique {state : UrlState num} {a b : Text × Codec num} (ha : a ∈ state.fields)
    (hb : b ∈ state.fields) (h : a.1 = b.1) : a = b :=
  List.inj_on_of_nodup_map state.nodup ha hb h

theorem next_accepted {state : UrlState num} {patch : Patch N} (hpatch : Patches state patch)
    {previous : UrlStateRead N} {field : Text × Codec num} (hfield : field ∈ state.fields)
    (hprevious : ∃ value, Entries.get previous.values field.1 = some value ∧ field.2.accepts value = true) :
    field.2.accepts (field.2.next previous patch field.1) = true := by
  unfold Codec.next
  split
  · exact default_accepted field.2
  · rename_i value hget
    obtain ⟨codec, hcodec, haccepts⟩ := hpatch _ _ (mem_of_get hget)
    have heq : field.2 = codec := congrArg Prod.snd (field_unique hfield hcodec rfl)
    rw [heq]
    exact haccepts value rfl
  · obtain ⟨value, hget, haccepts⟩ := hprevious
    rw [hget]
    exact haccepts

/-! ## Section 7: The round trip -/

/-- A page's address: its path does not begin with two slashes, which a parser
    would take for a host. -/
def Target.Plain (target : Target) : Prop := target.special = true ∧ ¬ ['/', '/'] <+: target.pathname

/-- What is documented of `new URL`: a query is already escaped, and the parts of
    a URL, put together again, are the same parts. -/
structure UrlParser.Lawful (parseUrl : UrlParser) : Prop where
  escaped : ∀ value target, parseUrl value = some target → target.special = true →
    ∃ query, target.search = withQuery query ∧ ∀ c ∈ query, isQueryChar c = true
  readsBack : ∀ value target query, parseUrl value = some target → target.Plain →
    (∀ c ∈ query, isQueryChar c = true) → ∃ again,
      parseUrl (target.pathname ++ withQuery query ++ target.hash) = some again ∧
      again.search = withQuery query

theorem pairs_ok {search : Text} {all : List Pair} (h : pairs search = .ok all) :
    all = (FormText.parts '&' (search.drop 1)).map parsePair := by
  unfold pairs at h
  split at h
  · cases h
  · dsimp only at h
    split at h
    · cases h
    · exact (Except.ok.inj h).symm

theorem result_readable (hnum : num.Lawful) {state : UrlState num} {previous : UrlStateRead N} {patch : Patch N}
    {defaults : Defaults} {search query : Text} (hsearch : search = withQuery query)
    (hquery : ∀ c ∈ query, isQueryChar c = true) {all written : List Pair} (hall : pairs search = .ok all)
    (hwritten : writeFields previous patch defaults state.fields = .ok written) :
    List.Forall₂ Readable (state.unknown all ++ written) (state.unknown all ++ written.map Pair.reread) := by
  have hunknown : List.Forall₂ Readable (state.unknown all) (state.unknown all) := by
    refine List.forall₂_same.mpr ?_
    intro pair hpair
    have hmem := (List.mem_filter.mp hpair).1
    rw [pairs_ok hall, hsearch, drop_withQuery] at hmem
    obtain ⟨part, hpart, rfl⟩ := List.mem_map.mp hmem
    exact parsed_readable hquery hpart
  have hfresh : List.Forall₂ Readable written (written.map Pair.reread) := by
    refine List.forall₂_map_right_iff.mpr (List.forall₂_same.mpr ?_)
    intro pair hpair
    obtain ⟨hkey, hinvalid, hraw⟩ := (writeFields_ok hnum state.nodup hwritten).1 pair hpair
    obtain ⟨field, hfield, hfst⟩ := List.mem_map.mp hkey
    exact written_readable (hfst ▸ state.nonempty field hfield) hinvalid hraw
  exact List.rel_append hunknown hfresh

omit [DecidableEq N] in
/-- What the entries of a reading give by key. -/
theorem get_of_forall₂ {fields : List (Text × Codec num)} {values : List (Text × Option (UrlValue N))}
    (good : Text × Codec num → Option (UrlValue N) → Prop) (hnodup : (fields.map Prod.fst).Nodup)
    (h : List.Forall₂ (fun field entry => entry.1 = field.1 ∧ good field entry.2) fields values)
    {field : Text × Codec num} (hfield : field ∈ fields) :
    ∃ value, Entries.get values field.1 = some value ∧ good field value := by
  induction h with
  | nil => cases hfield
  | @cons first entry fields values hhead _ ih =>
    rw [List.map_cons, List.nodup_cons] at hnodup
    rw [Entries.get_cons]
    rcases List.mem_cons.mp hfield with rfl | hfield
    · exact ⟨entry.2, by rw [if_pos hhead.1], hhead.2⟩
    · have hne : entry.1 ≠ field.1 := by
        rw [hhead.1]
        intro heq
        apply hnodup.1
        rw [heq]
        exact List.mem_map.mpr ⟨field, hfield, rfl⟩
      obtain ⟨value, hget, hgood⟩ := ih hnodup.2 hfield
      exact ⟨value, by rw [if_neg hne, hget], hgood⟩

/-- What a written URL is read back as. -/
structure RoundTrip (num : JsNumber N) (state : UrlState num) (parseUrl : UrlParser) (target : Target)
    (patch : Patch N) (previous : UrlStateRead N) (result : Text) : Prop where
  intro ::
  reads : ∃ read, state.read parseUrl result = .ok read ∧ read.issues = [] ∧
    (∀ key value, Entries.get patch key = some (some value) →
      ∃ after, Entries.get read.values key = some after ∧ Alike num after (some value)) ∧
    (∀ key codec, (key, codec) ∈ state.fields → Entries.get patch key = some none →
      ∃ after, Entries.get read.values key = some after ∧ Alike num after codec.defaultValue) ∧
    (∀ key codec, (key, codec) ∈ state.fields → Entries.get patch key = none →
      ∃ after before, Entries.get read.values key = some after ∧
        Entries.get previous.values key = some before ∧ Alike num after before)
  keeps : ∃ again all all', parseUrl result = some again ∧ pairs target.search = .ok all ∧
    pairs again.search = .ok all' ∧ state.unknown all' = state.unknown all

/-- The URL put together from the kept pairs and the written ones. -/
theorem written_round_trip (hnum : num.Lawful) {parseUrl : UrlParser} (hparser : UrlParser.Lawful parseUrl)
    {state : UrlState num} {current : Text} {target : Target} (htarget : parseUrl current = some target)
    (hplain : target.Plain) {patch : Patch N} (hpatch : Patches state patch) {defaults : Defaults}
    {previous : UrlStateRead N} {all written : List Pair} (hall : pairs target.search = .ok all)
    (hprevious : ∀ field ∈ state.fields, ∃ value, Entries.get previous.values field.1 = some value)
    (hwritten : writeFields previous patch defaults state.fields = .ok written)
    (hlength : jsLength (joinPairs (state.unknown all ++ written)) ≤ maxQueryLength)
    (hcount : (state.unknown all ++ written).length ≤ maxPairs) :
    RoundTrip num state parseUrl target patch previous
      (target.pathname ++ withQuery (joinPairs (state.unknown all ++ written)) ++ target.hash) := by
  obtain ⟨query, hsearch, hquery⟩ := hparser.escaped current target htarget hplain.1
  have hreadable := result_readable hnum hsearch hquery hall hwritten
  obtain ⟨again, hagain, hsearch'⟩ :=
    hparser.readsBack current target _ htarget hplain (joinPairs_chars hreadable)
  have hpairs : pairs again.search = .ok (state.unknown all ++ written.map Pair.reread) := by
    rw [hsearch']
    exact pairs_joinPairs hreadable hlength hcount
  obtain ⟨read, hread, hissues, hvalues⟩ := readFields_result hnum all hwritten
  have hget (field : Text × Codec num) (hfield : field ∈ state.fields) :
      ∃ value, Entries.get read.values field.1 = some value ∧
        Alike num value (field.2.next previous patch field.1) :=
    get_of_forall₂ (fun field value => Alike num value (field.2.next previous patch field.1)) state.nodup
      hvalues hfield
  refine ⟨⟨read, ?_, hissues, ?_, ?_, ?_⟩, again, all, _, hagain, hall, hpairs, unknown_result hnum hwritten⟩
  · rw [UrlState.read, asUrl, hagain, Outcome.ok_bind, UrlState.readTarget, hpairs, Outcome.ok_bind, hread]
  · intro key value hkey
    obtain ⟨codec, hcodec, -⟩ := hpatch _ _ (mem_of_get hkey)
    obtain ⟨after, hafter, halike⟩ := hget _ hcodec
    rw [Codec.next, hkey] at halike
    exact ⟨after, hafter, halike⟩
  · intro key codec hcodec hkey
    obtain ⟨after, hafter, halike⟩ := hget _ hcodec
    rw [Codec.next, hkey] at halike
    exact ⟨after, hafter, halike⟩
  · intro key codec hcodec hkey
    obtain ⟨after, hafter, halike⟩ := hget _ hcodec
    obtain ⟨before, hbefore⟩ := hprevious _ hcodec
    rw [Codec.next, hkey, hbefore] at halike
    exact ⟨after, before, hafter, hbefore, halike⟩

omit [DecidableEq N] in
theorem pairs_cases (search : Text) : (∃ all, pairs search = .ok all) ∨
    (maxQueryLength + 1 < jsLength search ∨ maxPairs < (FormText.parts '&' (search.drop 1)).length) ∧
      pairs search = fail "LIMIT" none := by
  unfold pairs
  split
  · rename_i hlength
    exact .inr ⟨.inl hlength, rfl⟩
  · dsimp only
    split
    · rename_i hcount
      exact .inr ⟨.inr hcount, rfl⟩
    · exact .inl ⟨_, rfl⟩

/-- The current query, or what is to be written, passes a size limit. -/
def TooLarge (state : UrlState num) (target : Target) (patch : Patch N) (defaults : Defaults) : Prop :=
  maxQueryLength + 1 < jsLength target.search ∨
  maxPairs < (FormText.parts '&' (target.search.drop 1)).length ∨
  ∃ previous all written, state.readTarget target = .ok previous ∧ pairs target.search = .ok all ∧
    writeFields previous patch defaults state.fields = .ok written ∧
    (maxQueryLength < jsLength (joinPairs (state.unknown all ++ written)) ∨
      maxPairs < (state.unknown all ++ written).length)

/-- For every definition, every page address and every patch of values the codecs
    accept, `url` stops at a limit or returns a URL that is read back as the patch
    over the previous values, without issues, with the other pairs kept. -/
theorem url_round_trip (hnum : num.Lawful) {parseUrl : UrlParser} (hparser : UrlParser.Lawful parseUrl)
    {state : UrlState num} (hbuilt : ∀ field ∈ state.fields, Built field.2) {current : Text} {target : Target}
    (htarget : parseUrl current = some target) (hplain : target.Plain) {patch : Patch N}
    (hpatch : Patches state patch) (defaults : Defaults) :
    (TooLarge state target patch defaults ∧ state.url parseUrl current patch defaults = fail "LIMIT" none) ∨
    ∃ previous result, state.readTarget target = .ok previous ∧
      state.url parseUrl current patch defaults = .ok result ∧
      RoundTrip num state parseUrl target patch previous result := by
  have hfaithful : ∀ field ∈ state.fields, field.2.kind.item.Faithful :=
    fun field hfield => (hbuilt field hfield).faithful hnum
  have hasUrl : asUrl parseUrl current = .ok target := by rw [asUrl, htarget]
  rcases pairs_cases target.search with ⟨all, hall⟩ | ⟨hlarge, hlimit⟩
  · obtain ⟨previous, hprevious, haccepted⟩ := readFields_total state.nodup hfaithful all
    have hread : state.readTarget target = .ok previous := by
      rw [UrlState.readTarget, hall, Outcome.ok_bind, hprevious]
    have hdeclared : patch.find? (fun entry => entry.1 ∉ state.fields.map Prod.fst) = none := by
      refine List.find?_eq_none.mpr ?_
      intro entry hentry hunknown
      obtain ⟨codec, hcodec, -⟩ := hpatch _ _ hentry
      exact of_decide_eq_true hunknown (List.mem_map.mpr ⟨_, hcodec, rfl⟩)
    have hfields : ∀ field ∈ state.fields, field.2.kind.item.Faithful ∧
        field.2.accepts (field.2.next previous patch field.1) = true :=
      fun field hfield => ⟨hfaithful field hfield, next_accepted hpatch hfield (haccepted field hfield)⟩
    obtain ⟨written, hwritten⟩ := writeFields_total defaults hfields
    have hurl : state.url parseUrl current patch defaults =
        if maxQueryLength < jsLength (joinPairs (state.unknown all ++ written)) ∨
            maxPairs < (state.unknown all ++ written).length then fail "LIMIT" none
        else .ok (target.pathname ++ withQuery (joinPairs (state.unknown all ++ written)) ++ target.hash) := by
      rw [UrlState.url, hasUrl, Outcome.ok_bind, hread, Outcome.ok_bind, hdeclared]
      dsimp only
      rw [hall, Outcome.ok_bind, hwritten, Outcome.ok_bind]
      rfl
    rw [hurl]
    split
    · rename_i hlimits
      exact .inl ⟨.inr (.inr ⟨previous, all, written, hread, hall, hwritten, hlimits⟩), rfl⟩
    · rename_i hlimits
      obtain ⟨hlength, hcount⟩ := not_or.mp hlimits
      refine .inr ⟨previous, _, hread, rfl, ?_⟩
      exact written_round_trip hnum hparser htarget hplain hpatch hall
        (fun field hfield => (haccepted field hfield).imp fun _ h => h.1) hwritten
        (Nat.not_lt.mp hlength) (Nat.not_lt.mp hcount)
  · left
    have hread : state.readTarget target = fail "LIMIT" none := by
      rw [UrlState.readTarget, hlimit]
      rfl
    refine ⟨hlarge.imp id .inl, ?_⟩
    rw [UrlState.url, hasUrl, Outcome.ok_bind, hread]
    rfl

/-! ## Section 8: A page and its query -/

/-- Zero alone. -/
def zeroNumber : JsNumber Unit where
  zero := ()
  lowest := ()
  highest := ()
  text _ := ['0']
  ofText _ := ()
  isFinite _ := true
  isSafeInteger _ := true
  le _ _ := true
  strictEqual _ _ := true

theorem zeroNumber_lawful : zeroNumber.Lawful where
  decimal _ _ := show isDecimal ['0'] = true by decide
  short _ _ := show jsLength ['0'] ≤ maxStringLength by decide
  reads _ _ := rfl
  refl _ _ := rfl
  finite _ _ _ := rfl
  safe _ _ _ := rfl
  le_left _ _ _ _ := rfl
  le_right _ _ _ _ := rfl

/-- Addresses of letters, digits and slashes with an escaped query, which the
    parser takes as they are. -/
def parsePage (value : Text) : Option Target :=
  let path := value.takeWhile (· != '?')
  let query := (value.dropWhile (· != '?')).drop 1
  if path.head? = some '/' ∧ ¬ ['/', '/'] <+: path ∧ path.all (fun c => c.isAlphanum || c == '/') ∧
      query.all isQueryChar then
    some ⟨true, path, withQuery query, []⟩
  else none

theorem parsePage_lawful : UrlParser.Lawful parsePage where
  escaped value target h _ := by
    unfold parsePage at h
    dsimp only at h
    split at h
    · rename_i hpage
      obtain rfl := Option.some.inj h
      exact ⟨_, rfl, List.all_eq_true.mp hpage.2.2.2⟩
    · cases h
  readsBack value target query h _ hquery := by
    unfold parsePage at h
    dsimp only at h
    split at h
    · rename_i hpage
      obtain rfl := Option.some.inj h
      dsimp only
      generalize hpath : value.takeWhile (· != '?') = path at *
      have hfree : ∀ c ∈ path, (c != '?') = true := by
        rw [← hpath]
        intro c hc
        exact List.all_eq_true.mp List.all_takeWhile c hc
      have htake : (path ++ withQuery query).takeWhile (· != '?') = path := by
        rw [List.takeWhile_append_of_pos hfree]
        cases query <;> simp [withQuery]
      have hdrop : ((path ++ withQuery query).dropWhile (· != '?')).drop 1 = query := by
        rw [List.dropWhile_append_of_pos hfree]
        cases query <;> simp [withQuery]
      refine ⟨⟨true, path, withQuery query, []⟩, ?_, rfl⟩
      rw [List.append_nil, parsePage, htake, hdrop]
      exact if_pos ⟨hpage.1, hpage.2.1, hpage.2.2.1, List.all_eq_true.mpr hquery⟩
    · cases h

/-- One search text. -/
def searchState : UrlState zeroNumber where
  fields := [("q".toList, ⟨.scalar (stringCodec ⟨[], 0, maxStringLength⟩), some (.one (.string [])),
    fun _ h => by cases h; decide⟩)]
  nodup := by simp
  nonempty := by simp

theorem url_round_trip_search : ∃ previous result,
    searchState.url parsePage "/list?utm=a&q=old".toList [("q".toList, some (.one (.string "b c".toList)))] .omit =
      .ok result ∧
    RoundTrip zeroNumber searchState parsePage ⟨true, "/list".toList, "?utm=a&q=old".toList, []⟩
      [("q".toList, some (.one (.string "b c".toList)))] previous result := by
  have hbuilt : ∀ field ∈ searchState.fields, Built field.2 := by
    intro field hfield
    obtain rfl := List.mem_singleton.mp hfield
    exact .string (show urlString ⟨[], 0, maxStringLength⟩ = .ok _ from rfl)
  have hpatch : Patches searchState [("q".toList, some (.one (.string "b c".toList)))] := by
    intro key value hmem
    obtain ⟨rfl, rfl⟩ := Prod.mk.inj (List.mem_singleton.mp hmem)
    refine ⟨_, List.mem_singleton_self _, ?_⟩
    intro v hv
    obtain rfl := Option.some.inj hv
    decide
  have hplain : Target.Plain ⟨true, "/list".toList, "?utm=a&q=old".toList, []⟩ := ⟨rfl, by decide⟩
  have htarget : parsePage "/list?utm=a&q=old".toList =
      some ⟨true, "/list".toList, "?utm=a&q=old".toList, []⟩ := by decide
  rcases url_round_trip zeroNumber_lawful parsePage_lawful hbuilt htarget hplain hpatch .omit with
    ⟨-, h⟩ | ⟨previous, result, -, h, hround⟩
  · cases h
  · exact ⟨previous, result, h, hround⟩

/-- A codec that reads every text as `false` and writes `x`. -/
def lossyState : UrlState zeroNumber where
  fields := [("v".toList, ⟨.scalar (customCodec (.boolean false) (fun _ => .value (.boolean false))
    (fun _ => .value (.string ['x']))), some (.one (.boolean false)), fun _ h => by cases h; rfl⟩)]
  nodup := by simp
  nonempty := by simp

/-- A custom codec need not serialize what it accepts so that it reads back:
    `url` then throws. -/
theorem lossy_codec_refused :
    ¬ ∀ (state : UrlState zeroNumber) (current : Text) (target : Target), parsePage current = some target →
      ∀ patch, Patches state patch → ∀ defaults, ∃ previous result, state.readTarget target = .ok previous ∧
        state.url parsePage current patch defaults = .ok result ∧
        RoundTrip zeroNumber state parsePage target patch previous result := by
  intro h
  have hpatch : Patches lossyState [("v".toList, some (.one (.boolean true)))] := by
    intro key value hmem
    obtain ⟨rfl, rfl⟩ := Prod.mk.inj (List.mem_singleton.mp hmem)
    refine ⟨_, List.mem_singleton_self _, ?_⟩
    intro v hv
    obtain rfl := Option.some.inj hv
    rfl
  obtain ⟨previous, result, -, hurl, -⟩ := h lossyState ['/'] ⟨true, ['/'], [], []⟩ (by decide) _ hpatch .omit
  cases hurl

end Cossack.Core.UrlState
