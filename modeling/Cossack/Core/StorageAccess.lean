import Cossack.Core.SignedStorage
import Cossack.Lib.Outcome
import Mathlib

/-! # Signed access is exact

    A URL from `signedUrl` is served with the operation, the key and the options it
    was issued for, and a request is served in no other case.  What is checked when
    a ticket is signed is carried by the ticket as it was, so that checking it again
    gives the same; two grants with one signed text have one endpoint and one
    ticket, since an address has no line feed. -/

namespace Cossack.Core.SignedStorage

open UriText (Text)
open JsonText
open Macs (Mac)
open Base64 (urlEncode urlDecode isUrl)
open JsonBase64 (isUrl_lt)

variable {urls : Urls}

/-! ## Section 1: Checked options -/

theorem metadataFields_ok {entries : List (List Nat × JsonText.Json)} {bytes : Nat}
    {m : List (List Nat × List Nat)} (h : metadataFields entries bytes = .ok m) :
    entries = m.map fun e => (e.1, .str e.2) := by
  induction entries generalizing bytes m with
  | nil =>
    obtain rfl : [] = m := Except.ok.inj h
    rfl
  | cons e rest ih =>
    obtain ⟨key, v⟩ := e
    cases v with
    | str value =>
      simp only [metadataFields] at h
      split at h
      · cases h
      split at h
      · cases h
      obtain ⟨m', hrest, rfl⟩ := Outcome.map_eq_ok.mp h
      rw [List.map_cons, ← ih hrest]
    | _ => cases h

theorem metadata_ok {v : Option JsonText.Json} {m : Option (List (List Nat × List Nat))} (h : metadata v = .ok m) :
    v = m.map metadataJson := by
  unfold metadata at h
  split at h
  · obtain rfl := Except.ok.inj h
    rfl
  · rename_i entries
    split at h
    · cases h
    obtain ⟨fields, hfields, rfl⟩ := Outcome.map_eq_ok.mp h
    rw [Option.map_some, metadataJson, ← metadataFields_ok hfields]
  · cases h

theorem contentType_ok {types : Option (List (List Nat))} {v : Option JsonText.Json} {type : Option (List Nat)}
    (h : contentType types v = .ok type) : v = type.map .str := by
  unfold contentType at h
  split at h
  · split at h
    · cases h
    · obtain rfl := Except.ok.inj h
      rfl
  · split at h
    · cases h
    · obtain rfl := Except.ok.inj h
      rfl
  · cases h

/-- The checked options are the given ones, none dropped and none changed. -/
structure Carries (options : UploadOptions) (checked : StoragePutOptions) : Prop where
  size : ∃ d, options.size = some (.num d) ∧ d.toSafeInteger = some checked.size
  contentType : options.contentType = checked.contentType.map .str
  customMetadata : options.customMetadata = checked.customMetadata.map metadataJson

theorem safeInteger_some {v : Option JsonText.Json} {n : Int} (h : safeInteger v = some n) :
    ∃ d, v = some (.num d) ∧ d.toSafeInteger = some n := by
  unfold safeInteger at h
  split at h
  · exact ⟨_, rfl, h⟩
  · cases h

theorem safeInteger_ofInt {n : Int} (h : n.natAbs ≤ maxSafe) :
    safeInteger (some (.num (Decimal.ofInt n))) = some n := toSafeInteger_ofInt h

theorem upload_ok {s : Storage urls} {options : UploadOptions} {checked : StoragePutOptions}
    (h : s.upload options = .ok checked) : Carries options checked ∧ checked.size.natAbs ≤ maxSafe := by
  unfold Storage.upload at h
  split at h
  · cases h
  rename_i size hsize
  split at h
  · cases h
  obtain ⟨type, htype, h⟩ := Outcome.bind_eq_ok.mp h
  obtain ⟨custom, hcustom, h⟩ := Outcome.bind_eq_ok.mp h
  obtain rfl := Except.ok.inj h
  obtain ⟨d, hd, hsafe⟩ := safeInteger_some hsize
  exact ⟨⟨⟨d, hd, hsafe⟩, contentType_ok htype, metadata_ok hcustom⟩, toSafeInteger_le hsafe⟩

/-- Checking what was checked before gives the same. -/
theorem upload_again {s : Storage urls} {options : UploadOptions} {checked : StoragePutOptions}
    (h : s.upload options = .ok checked) :
    s.upload ⟨some (.num (Decimal.ofInt checked.size)), checked.contentType.map .str,
      checked.customMetadata.map metadataJson⟩ = .ok checked := by
  obtain ⟨hcarries, hsafe⟩ := upload_ok h
  obtain ⟨d, hd, hsize⟩ := hcarries.size
  have hgiven : safeInteger options.size = some checked.size := by rw [hd]; exact hsize
  unfold Storage.upload at h ⊢
  rw [hgiven, hcarries.contentType, hcarries.customMetadata] at h
  rw [safeInteger_ofInt hsafe]
  exact h

/-! ## Section 2: The ticket as data -/

theorem lookup_field (name name' : String) (v : JsonText.Json) (rest : List (List Nat × JsonText.Json)) :
    lookup (field name v :: rest) name' = if name = name' then some v else lookup rest name' := by
  unfold lookup field
  rw [List.find?_cons]
  by_cases heq : name = name'
  · simp [heq]
  · have hne : JsString.utf16 name ≠ JsString.utf16 name' := fun h => heq (JsString.utf16_injective h)
    simp [heq, hne]

theorem canonical_metadata (m : List (List Nat × List Nat)) : canonical (metadataJson m) = metadataJson m := by
  have hmembers : ∀ m : List (List Nat × List Nat),
      canonicalMembers (m.map fun e => (e.1, JsonText.Json.str e.2)) = m.map fun e => (e.1, JsonText.Json.str e.2) := by
    intro m
    induction m with
    | nil => rfl
    | cons e m ih => rw [List.map_cons, canonicalMembers, canonical, ih]
  rw [metadataJson, canonical, hmembers]

section Lookups

variable (key : List Nat) (operation : Access) (expires : Int) (checked : Option StoragePutOptions)

theorem ticket_version :
    safeInteger (lookup (canonicalMembers (ticketFields key operation expires checked)) "v") = some 1 := by
  rw [lookup_canonical, ticketFields, lookup_field, if_pos rfl, Option.map_some, canonical,
    canonical_ofInt (by decide)]
  exact safeInteger_ofInt (by decide)

theorem ticket_key :
    lookup (canonicalMembers (ticketFields key operation expires checked)) "key" = some (.str key) := by
  simp [lookup_canonical, ticketFields, lookup_field, canonical]

theorem ticket_operation :
    lookup (canonicalMembers (ticketFields key operation expires checked)) "operation" =
      some (.str (JsString.utf16 operation.text)) := by
  simp [lookup_canonical, ticketFields, lookup_field, canonical]

theorem ticket_expires {expires : Int} (h : expires.natAbs ≤ maxSafe) :
    safeInteger (lookup (canonicalMembers (ticketFields key operation expires checked)) "expires") =
      some expires := by
  have hlookup : lookup (canonicalMembers (ticketFields key operation expires checked)) "expires" =
      some (.num (Decimal.ofInt expires)) := by
    simp [lookup_canonical, ticketFields, lookup_field, canonical, canonical_ofInt h]
  rw [hlookup]
  exact safeInteger_ofInt h

/-- The options of a ticket for an upload. -/
theorem ticket_options {checked : StoragePutOptions} (h : checked.size.natAbs ≤ maxSafe) :
    let entries := canonicalMembers (ticketFields key operation expires (some checked))
    lookup entries "size" = some (.num (Decimal.ofInt checked.size)) ∧
      lookup entries "contentType" = checked.contentType.map .str ∧
      lookup entries "customMetadata" = checked.customMetadata.map metadataJson := by
  intro entries
  obtain ⟨size, type, custom⟩ := checked
  have hnil : ∀ name, lookup [] name = none := fun _ => rfl
  simp only [entries, lookup_canonical, ticketFields]
  refine ⟨?_, ?_, ?_⟩
  · simp [StoragePutOptions.fields, lookup_field, canonical, canonical_ofInt h]
  · cases type <;> cases custom <;> simp [StoragePutOptions.fields, lookup_field, canonical, hnil]
  · cases type <;> cases custom <;> simp [StoragePutOptions.fields, lookup_field, canonical_metadata, hnil]

end Lookups

theorem valid_field {name : String} {v : JsonText.Json} (h : Valid v) {rest : List (List Nat × JsonText.Json)}
    (hrest : ValidMembers rest) : ValidMembers (field name v :: rest) :=
  ⟨fun _ => utf16_lt, h, hrest⟩

theorem valid_ticket (key : Text) (operation : Access) (expires : Int) {checked : Option StoragePutOptions}
    (h : ∀ c, checked = some c → (∀ t, c.contentType = some t → Valid (.str t)) ∧
      ∀ m, c.customMetadata = some m → Valid (metadataJson m)) :
    Valid (.obj (ticketFields key.1 operation expires checked)) := by
  have hnames : ∀ names ∈ [["v", "key", "operation", "expires"],
      ["v", "key", "operation", "expires", "size"],
      ["v", "key", "operation", "expires", "size", "contentType"],
      ["v", "key", "operation", "expires", "size", "customMetadata"],
      ["v", "key", "operation", "expires", "size", "contentType", "customMetadata"]],
      (names.map JsString.utf16).Nodup := by decide
  have hhead : ∀ rest, ValidMembers rest → ValidMembers (field "v" (.num (Decimal.ofInt 1)) ::
      field "key" (.str key.1) :: field "operation" (.str (JsString.utf16 operation.text)) ::
      field "expires" (.num (Decimal.ofInt expires)) :: rest) := fun rest hrest =>
    ⟨fun _ => utf16_lt, trivial, fun _ => utf16_lt, key.2, fun _ => utf16_lt, fun _ => utf16_lt,
      fun _ => utf16_lt, trivial, hrest⟩
  cases checked with
  | none => exact ⟨hnames ["v", "key", "operation", "expires"] (by decide), hhead [] trivial⟩
  | some c =>
    obtain ⟨htype, hcustom⟩ := h c rfl
    obtain ⟨size, type, custom⟩ := c
    have hsize : ∀ rest, ValidMembers rest →
        ValidMembers (field "size" (.num (Decimal.ofInt size)) :: rest) := fun rest hrest =>
      ⟨fun _ => utf16_lt, trivial, hrest⟩
    cases type with
    | none =>
      cases custom with
      | none =>
        exact ⟨hnames ["v", "key", "operation", "expires", "size"] (by decide), hhead _ (hsize [] trivial)⟩
      | some m =>
        exact ⟨hnames ["v", "key", "operation", "expires", "size", "customMetadata"] (by decide),
          hhead _ (hsize _ (valid_field (hcustom m rfl) trivial))⟩
    | some t =>
      cases custom with
      | none =>
        exact ⟨hnames ["v", "key", "operation", "expires", "size", "contentType"] (by decide),
          hhead _ (hsize _ (valid_field (htype t rfl) trivial))⟩
      | some m =>
        exact ⟨hnames ["v", "key", "operation", "expires", "size", "contentType", "customMetadata"] (by decide),
          hhead _ (hsize _ (valid_field (htype t rfl) (valid_field (hcustom m rfl) trivial)))⟩

/-! ## Section 3: Grants -/

/-- A grant was made for these arguments. -/
structure Granted (s : Storage urls) (authorize : Authorizer) (now : TimeValue) (key : Text)
    (operation : Access) (options : StorageAccessOptions) (g : Grant urls) (signing : Signing urls)
    (seconds : Int) (checked : Option StoragePutOptions) : Prop where
  lifetime : options.expiresIn.toSafeInteger = some seconds
  day : 1 ≤ seconds ∧ seconds ≤ 86400
  configured : s.signing = some signing
  validKey : validateStorageKey (some (.str key.1)) = .ok key.1
  authorized : authorize operation.operation key.1 = true
  uploaded : (operation = .get ∧ checked = none) ∨
    (operation = .put ∧ ∃ c, checked = some c ∧ s.upload options.toUploadOptions = .ok c)
  short : g.payload.length ≤ 16384
  made : g = ⟨signing.endpoint, signing.secret,
    JsonBase64.encode (.obj (ticketFields key.1 operation (now.1 + seconds * 1000) checked))⟩

theorem validateStorageKey_eq {v : Option JsonText.Json} {key : List Nat} (h : validateStorageKey v = .ok key) :
    v = some (.str key) := by
  unfold validateStorageKey at h
  split at h
  · split at h
    · cases h
    · obtain rfl := Except.ok.inj h
      rfl
  · cases h

theorem allowed_ok {authorize : Authorizer} {operation : StorageOperation} {v : Option JsonText.Json} {signal : Signal}
    {key : List Nat} (h : allowed authorize operation v signal = .ok key) :
    validateStorageKey v = .ok key ∧ authorize operation key = true := by
  obtain ⟨key', hkey, h⟩ := Outcome.bind_eq_ok.mp h
  by_cases hbefore : signal.before = true
  · rw [if_pos hbefore] at h
    cases h
  rw [if_neg hbefore] at h
  by_cases hauthorize : authorize operation key' = true
  swap
  · rw [if_pos (by simpa using hauthorize)] at h
    cases h
  rw [if_neg (by simpa using hauthorize)] at h
  split at h
  · cases h
  · obtain rfl := Except.ok.inj h
    exact ⟨hkey, hauthorize⟩

theorem grant_ok {s : Storage urls} {authorize : Authorizer} {now : TimeValue} {key : Text}
    {operation : Access} {options : StorageAccessOptions} {g : Grant urls}
    (h : s.grant authorize now key operation options = .ok g) :
    ∃ signing seconds checked, Granted s authorize now key operation options g signing seconds checked := by
  unfold Storage.grant at h
  split at h
  · cases h
  rename_i seconds hseconds
  split at h
  · cases h
  rename_i hday
  obtain ⟨checked, hchecked, h⟩ := Outcome.bind_eq_ok.mp h
  split at h
  · cases h
  rename_i signing hsigning
  obtain ⟨key', hallowed, h⟩ := Outcome.bind_eq_ok.mp h
  obtain ⟨hkey, hauthorize⟩ := allowed_ok hallowed
  obtain rfl : key' = key.1 := (JsonText.Json.str.inj (Option.some.inj (validateStorageKey_eq hkey))).symm
  simp only at h
  split at h
  · cases h
  rename_i hlong
  obtain rfl := Except.ok.inj h
  refine ⟨signing, seconds, checked, hseconds, by omega, hsigning, hkey, hauthorize, ?_, by simp only; omega, rfl⟩
  cases operation with
  | get => exact .inl ⟨rfl, (Except.ok.inj hchecked).symm⟩
  | put =>
    obtain ⟨c, hc, rfl⟩ := Outcome.map_eq_ok.mp hchecked
    exact .inr ⟨rfl, c, rfl, hc⟩

theorem valid_metadata {options : UploadOptions} (hvalid : options.Valid) {c : StoragePutOptions}
    (h : Carries options c) : (∀ t, c.contentType = some t → Valid (.str t)) ∧
      ∀ m, c.customMetadata = some m → Valid (metadataJson m) := by
  constructor
  · intro t ht
    have htype := h.contentType
    rw [ht] at htype
    exact hvalid.1 _ htype
  · intro m hm
    have hcustom := h.customMetadata
    rw [hm] at hcustom
    exact hvalid.2 _ hcustom

section Granted

variable {s : Storage urls} {authorize : Authorizer} {now : TimeValue} {key : Text} {operation : Access}
  {options : StorageAccessOptions} {g : Grant urls} {signing : Signing urls} {seconds : Int}
  {checked : Option StoragePutOptions}

theorem Granted.valid (h : Granted s authorize now key operation options g signing seconds checked) :
    Valid (.obj (ticketFields key.1 operation (now.1 + seconds * 1000) checked)) := by
  apply valid_ticket
  rintro c rfl
  rcases h.uploaded with ⟨-, hnone⟩ | ⟨-, c', hc, hupload⟩
  · cases hnone
  · obtain rfl := Option.some.inj hc
    exact valid_metadata options.valid (upload_ok hupload).1

/-- The time that a ticket expires is a safe integer. -/
theorem Granted.expires (h : Granted s authorize now key operation options g signing seconds checked) :
    (now.1 + seconds * 1000).natAbs ≤ maxSafe := by
  have hnow := now.2
  have hday := h.day
  have hmax : maxSafe = 9007199254740991 := rfl
  omega

theorem Granted.isUrl (h : Granted s authorize now key operation options g signing seconds checked) :
    ∀ u ∈ g.payload, isUrl u = true := by
  intro u hu
  rw [h.made] at hu
  exact JsonBase64.isUrl_encode hu

theorem Granted.payload_ne_nil (h : Granted s authorize now key operation options g signing seconds checked) :
    g.payload ≠ [] := by
  rw [h.made]
  exact JsonBase64.encode_ne_nil _

/-- The data of the ticket, whoever opens it. -/
theorem Granted.opened (h : Granted s authorize now key operation options g signing seconds checked) :
    JsonBase64.decode g.payload =
      some (.obj (canonicalMembers (ticketFields key.1 operation (now.1 + seconds * 1000) checked))) := by
  rw [h.made]
  exact JsonBase64.decode_encode h.valid

/-- A ticket is valid until it expires. -/
theorem Granted.checkTicket (h : Granted s authorize now key operation options g signing seconds checked)
    (later : TimeValue) :
    checkTicket later (.obj (canonicalMembers (ticketFields key.1 operation (now.1 + seconds * 1000) checked))) =
      if now.1 + seconds * 1000 ≤ later.1 then .error expiredAccess
      else .ok (operation,
        canonicalMembers (ticketFields key.1 operation (now.1 + seconds * 1000) checked)) := by
  unfold SignedStorage.checkTicket
  simp only [ticket_version, ticket_expires _ _ _ h.expires, ticket_operation]
  by_cases hlate : now.1 + seconds * 1000 ≤ later.1
  · rw [if_pos (.inr hlate), if_pos hlate]
  · rw [if_neg (by omega), if_neg hlate]
    cases operation with
    | get => rw [if_pos (by rfl)]
    | put => rw [if_neg (by decide), if_pos (by rfl)]

end Granted

/-! ## Section 4: What a request does -/

variable {Body Meta Obj : Type}

/-- The request is answered by the operation of a grant on its key with its options. -/
def Serves (provider : Provider Body Meta Obj) (key : Text) (operation : Access)
    (options : StorageAccessOptions) (request : Request Body)
    (result : List (Call Body) × Response Meta Obj) : Prop :=
  match operation with
  | .get =>
      result = ([.get key.1], match reported request.signal (provider.get key.1) with
        | .ok (some object) => .found object
        | .ok none => .notFound
        | .error e => .ofCode e.code)
  | .put =>
      ∃ body checked, request.body = some body ∧ Carries options.toUploadOptions checked ∧
        result = ([.put key.1 body checked],
          match reported request.signal (provider.put key.1 body checked) with
          | .ok object => .created object
          | .error e => .ofCode e.code)

theorem allowed_true {authorize : Authorizer} {operation : StorageOperation} {key : List Nat} {signal : Signal}
    (hkey : validateStorageKey (some (.str key)) = .ok key) (hauthorize : authorize operation key = true)
    (hsignal : signal.before = false ∧ signal.after = false) :
    allowed authorize operation (some (.str key)) signal = .ok key := by
  unfold allowed
  rw [hkey, Outcome.ok_bind]
  simp [hauthorize, hsignal]

theorem metadataJson_injective {a b : List (List Nat × List Nat)} (h : metadataJson a = metadataJson b) :
    a = b := by
  have hmap := JsonText.Json.obj.inj h
  refine List.map_injective_iff.mpr ?_ hmap
  rintro ⟨k, v⟩ ⟨k', v'⟩ heq
  simpa using heq

/-- Options are carried by one checked value only. -/
theorem Carries.unique {options : UploadOptions} {a b : StoragePutOptions} (ha : Carries options a)
    (hb : Carries options b) : a = b := by
  obtain ⟨d, hd, hsize⟩ := ha.size
  obtain ⟨d', hd', hsize'⟩ := hb.size
  obtain rfl : d = d' := JsonText.Json.num.inj (Option.some.inj (hd.symm.trans hd'))
  have htype : a.contentType = b.contentType :=
    Option.map_injective (fun _ _ h => JsonText.Json.str.inj h) (ha.contentType.symm.trans hb.contentType)
  have hcustom : a.customMetadata = b.customMetadata :=
    Option.map_injective (fun _ _ h => metadataJson_injective h)
      (ha.customMetadata.symm.trans hb.customMetadata)
  obtain ⟨size, type, custom⟩ := a
  obtain ⟨size', type', custom'⟩ := b
  obtain rfl : type = type' := htype
  obtain rfl : custom = custom' := hcustom
  obtain rfl : size = size' := Option.some.inj (hsize.symm.trans hsize')
  rfl

/-- The options in a ticket for an upload, as `put` is given them. -/
theorem carries_ticket (key : List Nat) (operation : Access) (expires : Int) {checked : StoragePutOptions}
    (hsafe : checked.size.natAbs ≤ maxSafe) :
    let entries := canonicalMembers (ticketFields key operation expires (some checked))
    Carries ⟨lookup entries "size", lookup entries "contentType", lookup entries "customMetadata"⟩ checked := by
  intro entries
  obtain ⟨hsize, htype, hcustom⟩ := ticket_options key operation expires hsafe
  exact ⟨⟨_, hsize, toSafeInteger_ofInt hsafe⟩, htype, hcustom⟩

section Serves

variable {s s' : Storage urls} {authorize : Authorizer} {now later : TimeValue} {key : Text}
  {operation : Access} {options : StorageAccessOptions} {g : Grant urls} {signing : Signing urls}
  {seconds : Int} {checked : Option StoragePutOptions} {mac : Mac} {request : Request Body}
  (provider : Provider Body Meta Obj) (authorize' : Authorizer)

/-- A request with the ticket of a grant does nothing, or what was granted. -/
theorem Granted.handled (h : Granted s authorize now key operation options g signing seconds checked)
    (hticket : s'.ticket mac later request = .ok (operation,
      canonicalMembers (ticketFields key.1 operation (now.1 + seconds * 1000) checked))) :
    (s'.handleSignedRequest mac provider authorize' later request).1 = [] ∨
      (request.method = operation.method ∧ Serves provider key operation options request
        (s'.handleSignedRequest mac provider authorize' later request)) := by
  unfold Storage.handleSignedRequest
  rw [hticket]
  simp only [ticket_key]
  by_cases hmethod : request.method = operation.method
  swap
  · rw [if_pos hmethod]
    exact .inl rfl
  rw [if_neg (not_not_intro hmethod)]
  cases operation with
  | get =>
    simp only [get]
    cases hallowed : allowed authorize' .get (some (.str key.1)) request.signal with
    | error e => exact .inl rfl
    | ok key' =>
      obtain rfl : key' = key.1 :=
        (JsonText.Json.str.inj (Option.some.inj (validateStorageKey_eq (allowed_ok hallowed).1))).symm
      right
      refine ⟨hmethod, ?_⟩
      simp only [Serves]
      cases reported request.signal (provider.get key.1) with
      | error e => rfl
      | ok object => cases object <;> rfl
  | put =>
    obtain ⟨c, rfl, hupload⟩ : ∃ c, checked = some c ∧ s.upload options.toUploadOptions = .ok c := by
      rcases h.uploaded with ⟨hget, -⟩ | ⟨-, c, hc, hupload⟩
      · cases hget
      · exact ⟨c, hc, hupload⟩
    obtain ⟨hcarries, hsafe⟩ := upload_ok hupload
    simp only
    cases hbody : request.body with
    | none => exact .inl rfl
    | some body =>
      simp only [Storage.put]
      cases hagain : s'.upload ⟨_, _, _⟩ with
      | error e => exact .inl rfl
      | ok c' =>
        obtain rfl : c' = c := (upload_ok hagain).1.unique (carries_ticket key.1 .put _ hsafe)
        cases hallowed : allowed authorize' .put (some (.str key.1)) request.signal with
        | error e => exact .inl rfl
        | ok key' =>
          obtain rfl : key' = key.1 :=
            (JsonText.Json.str.inj (Option.some.inj (validateStorageKey_eq (allowed_ok hallowed).1))).symm
          right
          refine ⟨hmethod, body, c', hbody, hcarries, ?_⟩
          simp only
          cases reported request.signal (provider.put key.1 body c') <;> rfl

/-- With its own storage, method and body, and an authorizer that agrees, it is not refused. -/
theorem Granted.served (h : Granted s authorize now key operation options g signing seconds checked)
    (hticket : s.ticket mac later request = .ok (operation,
      canonicalMembers (ticketFields key.1 operation (now.1 + seconds * 1000) checked)))
    (hmethod : request.method = operation.method) (hbody : operation = .put → request.body.isSome)
    (hauthorize : authorize' operation.operation key.1 = true)
    (hsignal : request.signal.before = false ∧ request.signal.after = false) :
    (s.handleSignedRequest mac provider authorize' later request).1 ≠ [] := by
  have hallowed := allowed_true h.validKey hauthorize hsignal
  unfold Storage.handleSignedRequest
  rw [hticket]
  simp only [ticket_key]
  rw [if_neg (not_not_intro hmethod)]
  cases operation with
  | get =>
    simp only [get]
    rw [show allowed authorize' .get (some (.str key.1)) request.signal = .ok key.1 from hallowed]
    simp only
    cases reported request.signal (provider.get key.1) with
    | error e => simp
    | ok object => cases object <;> simp
  | put =>
    obtain ⟨c, rfl, hupload⟩ : ∃ c, checked = some c ∧ s.upload options.toUploadOptions = .ok c := by
      rcases h.uploaded with ⟨hget, -⟩ | ⟨-, c, hc, hupload⟩
      · cases hget
      · exact ⟨c, hc, hupload⟩
    obtain ⟨body, hsome⟩ := Option.isSome_iff_exists.mp (hbody rfl)
    obtain ⟨hsize, htype, hcustom⟩ := ticket_options key.1 .put (now.1 + seconds * 1000) (upload_ok hupload).2
    have hput : allowed authorize' .put (some (.str key.1)) request.signal = .ok key.1 := hallowed
    simp only [Storage.put, hsome, hsize, htype, hcustom, upload_again hupload, hput]
    cases reported request.signal (provider.put key.1 body c) <;> simp

end Serves

/-! ## Section 5: Opening tickets -/

theorem decode_urlEncode {bytes : List UInt8} (h : urlEncode bytes ≠ []) :
    decode (urlEncode bytes) = some bytes := by
  have hall : (urlEncode bytes).all isUrl = true := List.all_eq_true.mpr fun _ => Base64.isUrl_urlEncode
  unfold decode
  rw [if_neg (by simp [h, hall]), Base64.urlDecode_urlEncode]

theorem decode_plain {value : List Nat} (hne : value ≠ []) (h : ∀ u ∈ value, isUrl u = true) :
    decode value = urlDecode value := by
  have hall : value.all isUrl = true := List.all_eq_true.mpr h
  unfold decode
  rw [if_neg (by simp [hne, hall])]

/-- A ticket is opened for a right signature only. -/
theorem openTicket_eq {mac : Mac} {signing : Signing urls} {payload signature : List Nat} {ticket : JsonText.Json} :
    openTicket mac signing payload signature = some ticket ↔
      ∃ k, mac.keyOf signing.secret = some k ∧
        decode signature =
          some (mac.sign k (TextEncoder.encode (signedText (urls.href signing.endpoint) payload))) ∧
        payload ≠ [] ∧ (∀ u ∈ payload, isUrl u = true) ∧ JsonBase64.decode payload = some ticket := by
  unfold openTicket
  cases hkey : mac.keyOf signing.secret with
  | none => simp
  | some k =>
    simp only [Option.bind_eq_bind, Option.bind_some]
    cases hsignature : decode signature with
    | none => simp
    | some bytes =>
      simp only [Option.bind_some, ne_eq, ite_not, Option.some.injEq, exists_eq_left']
      by_cases hright : mac.sign k (TextEncoder.encode (signedText (urls.href signing.endpoint) payload)) = bytes
      swap
      · rw [if_neg hright]
        simp [Ne.symm hright]
      rw [if_pos hright]
      by_cases hplain : payload ≠ [] ∧ ∀ u ∈ payload, isUrl u = true
      · rw [decode_plain hplain.1 hplain.2]
        exact ⟨fun hparse => ⟨hright.symm, hplain.1, hplain.2, hparse⟩, fun h => h.2.2.2⟩
      · have hnone : decode payload = none := by
          unfold decode
          rw [if_pos]
          by_cases hnil : payload = []
          · exact .inl hnil
          · right
            rw [not_and] at hplain
            simpa using hplain hnil
        rw [hnone]
        simp only [Option.bind_none, reduceCtorEq, false_iff]
        rintro ⟨-, hne, hall, -⟩
        exact hplain ⟨hne, hall⟩

theorem cut_lineFeed {a b c d : List Nat} (ha : 10 ∉ a) (hc : 10 ∉ c) (h : a ++ 10 :: b = c ++ 10 :: d) :
    a = c ∧ b = d := by
  induction a generalizing c with
  | nil =>
    cases c with
    | nil => exact ⟨rfl, (List.cons.inj h).2⟩
    | cons u c => exact absurd (by rw [(List.cons.inj h).1]; exact List.mem_cons_self) hc
  | cons u a ih =>
    cases c with
    | nil => exact absurd (by rw [(List.cons.inj h).1]; exact List.mem_cons_self) ha
    | cons v c =>
      obtain ⟨rfl, htail⟩ := List.cons.inj h
      rw [List.mem_cons, not_or] at ha hc
      obtain ⟨rfl, rfl⟩ := ih ha.2 hc.2 htail
      exact ⟨rfl, rfl⟩

/-- Two grants with one signed text have one address and one ticket. -/
theorem signedText_injective {url url' : urls.Url} {payload payload' : List Nat}
    (hp : ∀ u ∈ payload, isUrl u = true) (hp' : ∀ u ∈ payload', isUrl u = true)
    (h : TextEncoder.encode (signedText (urls.href url) payload) =
      TextEncoder.encode (signedText (urls.href url') payload')) :
    urls.href url = urls.href url' ∧ payload = payload' := by
  have hascii : ∀ (url : urls.Url) (payload : List Nat), (∀ u ∈ payload, isUrl u = true) →
      ∀ u ∈ signedText (urls.href url) payload, u < 0x80 := by
    intro url payload hpayload u hu
    rcases List.mem_append.mp hu with hu | hu
    · exact (urls.href_ascii url u hu).1
    · rcases List.mem_cons.mp hu with rfl | hu
      · decide
      · exact (isUrl_lt (hpayload u hu)).1
  have htext := TextEncoder.encode_ascii_injective (hascii url' payload' hp')
    (fun u hu => Nat.lt_trans (hascii url payload hp u hu) (by decide)) h
  exact cut_lineFeed (fun hmem => (urls.href_ascii url 10 hmem).2 rfl)
    (fun hmem => (urls.href_ascii url' 10 hmem).2 rfl) htext

/-! ## Section 6: Signed access is exact -/

/-- A call of `signedUrl` that came to its signature. -/
structure Issue (urls : Urls) where
  storage : Storage urls
  authorize : Authorizer
  now : TimeValue
  key : Text
  operation : Access
  options : StorageAccessOptions
  grant : Grant urls
  granted : storage.grant authorize now key operation options = .ok grant

/-- What a key has signed in some calls. -/
def Signed (mac : Mac) (log : List (Issue urls)) (k : mac.Key) (message : List UInt8) : Prop :=
  ∃ i ∈ log, mac.keyOf i.grant.secret = some k ∧
    TextEncoder.encode (signedText (urls.href i.grant.endpoint) i.grant.payload) = message

/-- The ticket that a request brings, and its signature. -/
def Brings (urls : Urls) (request : Request Body) (payload signature : List Nat) : Prop :=
  ∃ url access, urls.parse request.url = some url ∧ urls.getAccess url = some access ∧
    access.splitOn 46 = [payload, signature]

/-- The code is unforgeable: where the signature that a request brings is right at this
endpoint, the ticket was signed. -/
def NotForged (mac : Mac) (log : List (Issue urls)) (s : Storage urls) (request : Request Body) : Prop :=
  ∀ signing k payload signature bytes, s.signing = some signing → mac.keyOf signing.secret = some k →
    Brings urls request payload signature → decode signature = some bytes →
    mac.Unforged (Signed mac log) k
      (TextEncoder.encode (signedText (urls.href signing.endpoint) payload)) bytes

/-- The request brings the ticket of this call, for the endpoint of `s`, in time and with
its method. -/
def Redeems (mac : Mac) (s : Storage urls) (later : TimeValue) (request : Request Body) (i : Issue urls) : Prop :=
  (∃ signing signature, s.signing = some signing ∧
    urls.href signing.endpoint = urls.href i.grant.endpoint ∧
    mac.keyOf signing.secret = mac.keyOf i.grant.secret ∧
    Brings urls request i.grant.payload signature) ∧
  request.method = i.operation.method ∧
  ∃ seconds, i.options.expiresIn.toSafeInteger = some seconds ∧ later.1 < i.now.1 + seconds * 1000

theorem ticket_ok {mac : Mac} {s : Storage urls} {later : TimeValue} {request : Request Body}
    {operation : Access} {entries : List (List Nat × JsonText.Json)}
    (h : s.ticket mac later request = .ok (operation, entries)) :
    ∃ signing payload signature ticket, s.signing = some signing ∧
      Brings urls request payload signature ∧
      openTicket mac signing payload signature = some ticket ∧
      checkTicket later ticket = .ok (operation, entries) := by
  unfold Storage.ticket at h
  split at h
  · cases h
  rename_i signing hsigning
  split at h
  · cases h
  rename_i url hurl
  simp only at h
  split at h
  · cases h
  rename_i hrefused
  split at h
  · rename_i payload signature hsplit
    split at h
    · cases h
    rename_i ticket hopen
    refine ⟨signing, payload, signature, ticket, hsigning, ⟨url, _, hurl, ?_, hsplit⟩, hopen, h⟩
    -- an address without a ticket was refused
    cases haccess : urls.getAccess url with
    | none => exact absurd (by rw [haccess]; exact .inr (.inl rfl)) hrefused
    | some access => rfl
  · cases h

/-- The ticket of a request that is not refused was issued. -/
theorem ticket_issued {mac : Mac} {log : List (Issue urls)} {s : Storage urls} {later : TimeValue}
    {request : Request Body} {operation : Access} {entries : List (List Nat × JsonText.Json)}
    (hforged : NotForged mac log s request) (h : s.ticket mac later request = .ok (operation, entries)) :
    ∃ i ∈ log, ∃ signing seconds checked,
      Granted i.storage i.authorize i.now i.key i.operation i.options i.grant signing seconds checked ∧
      s.ticket mac later request = .ok (i.operation,
        canonicalMembers (ticketFields i.key.1 i.operation (i.now.1 + seconds * 1000) checked)) ∧
      later.1 < i.now.1 + seconds * 1000 ∧
      ∃ own signature, s.signing = some own ∧ urls.href own.endpoint = urls.href i.grant.endpoint ∧
        mac.keyOf own.secret = mac.keyOf i.grant.secret ∧
        Brings urls request i.grant.payload signature := by
  obtain ⟨own, payload, signature, ticket, hown, hbrings, hopen, hcheck⟩ := ticket_ok h
  obtain ⟨k, hk, hdecode, -, hplain, hdata⟩ := openTicket_eq.mp hopen
  obtain ⟨i, hi, hkey, htext⟩ := hforged own k payload signature _ hown hk hbrings hdecode rfl
  obtain ⟨signing, seconds, checked, hgranted⟩ := grant_ok i.granted
  obtain ⟨hhref, rfl⟩ := signedText_injective hplain hgranted.isUrl htext.symm
  obtain rfl : ticket = _ := Option.some.inj (hdata.symm.trans hgranted.opened)
  rw [hgranted.checkTicket] at hcheck
  by_cases hlate : i.now.1 + seconds * 1000 ≤ later.1
  · rw [if_pos hlate] at hcheck
    cases hcheck
  rw [if_neg hlate] at hcheck
  obtain ⟨rfl, rfl⟩ := Prod.mk.inj (Except.ok.inj hcheck)
  exact ⟨i, hi, signing, seconds, checked, hgranted, h, by omega, own, signature, hown, hhref,
    by rw [hk, hkey], hbrings⟩

section Redeemed

variable {mac : Mac} {s : Storage urls} {authorize : Authorizer} {now later : TimeValue} {key : Text}
  {operation : Access} {options : StorageAccessOptions} {g : Grant urls} {signing : Signing urls}
  {seconds : Int} {checked : Option StoragePutOptions} {request : Request Body}

/-- The URL that is returned is read as the endpoint with the ticket and its signature. -/
theorem Granted.parsed (h : Granted s authorize now key operation options g signing seconds checked)
    (hurl : g.url mac = some request.url) :
    ∃ k signature, mac.keyOf signing.secret = some k ∧
      decode signature =
        some (mac.sign k (TextEncoder.encode (signedText (urls.href signing.endpoint) g.payload))) ∧
      urls.parse request.url = some (urls.setAccess signing.endpoint (g.payload ++ 46 :: signature)) ∧
      (g.payload ++ 46 :: signature).all isPlain = true ∧ signature.length = 43 ∧
      (g.payload ++ 46 :: signature).splitOn 46 = [g.payload, signature] := by
  obtain ⟨k, hk, hrequest⟩ := Option.map_eq_some_iff.mp hurl
  have hendpoint : g.endpoint = signing.endpoint := by rw [h.made]
  have hsecret : g.secret = signing.secret := by rw [h.made]
  rw [hsecret] at hk
  rw [hendpoint] at hrequest
  generalize hcode : mac.sign k (TextEncoder.encode (signedText (urls.href signing.endpoint) g.payload)) = code
    at hrequest
  have hlength : (urlEncode code).length = 43 := by
    rw [Base64.length_urlEncode, ← hcode, mac.length_sign]
  have hsign : ∀ u ∈ urlEncode code, Base64.isUrl u = true := fun _ => Base64.isUrl_urlEncode
  have hplain : (g.payload ++ 46 :: urlEncode code).all isPlain = true := by
    apply List.all_eq_true.mpr
    intro u hu
    unfold isPlain
    rcases List.mem_append.mp hu with hu | hu
    · rw [h.isUrl u hu]
      rfl
    · rcases List.mem_cons.mp hu with rfl | hu
      · rfl
      · rw [hsign u hu]
        rfl
  have hdot : ∀ text : List Nat, (∀ u ∈ text, Base64.isUrl u = true) → 46 ∉ text :=
    fun text htext hmem => (isUrl_lt (htext 46 hmem)).2 rfl
  obtain ⟨text, hparsed⟩ := signing.parsed
  have hprotocol : urls.protocol signing.endpoint = JsString.utf16 "https:" ∨
      urls.protocol signing.endpoint = JsString.utf16 "http:" := by
    have hsecure := signing.secure
    simp only [Urls.secure, Bool.or_eq_true, Bool.and_eq_true, decide_eq_true_eq] at hsecure
    exact hsecure.imp_right And.left
  refine ⟨k, urlEncode code, hk, ?_, ?_, hplain, hlength, ?_⟩
  · rw [hcode]
    apply decode_urlEncode
    intro hnil
    rw [hnil] at hlength
    cases hlength
  · rw [← hrequest]
    exact urls.parse_href text _ _ hparsed hprotocol hplain
  · rw [List.splitOn_append_cons_self_of_not_mem (hdot _ h.isUrl), List.splitOn_eq_singleton (hdot _ hsign)]

/-- The URL that is returned opens its ticket. -/
theorem ticket_granted (h : Granted s authorize now key operation options g signing seconds checked)
    (hurl : g.url mac = some request.url) (hlater : later.1 < now.1 + seconds * 1000) :
    s.ticket mac later request = .ok (operation,
      canonicalMembers (ticketFields key.1 operation (now.1 + seconds * 1000) checked)) := by
  obtain ⟨k, signature, hk, hdecode, hparse, hplain, hlength, hsplit⟩ := h.parsed hurl
  have hopen : openTicket mac signing g.payload signature =
      some (.obj (canonicalMembers (ticketFields key.1 operation (now.1 + seconds * 1000) checked))) :=
    openTicket_eq.mpr ⟨k, hk, hdecode, h.payload_ne_nil, h.isUrl, h.opened⟩
  have hshort := h.short
  unfold Storage.ticket
  rw [h.configured]
  simp only
  rw [hparse]
  simp only [urls.get_set _ _ hplain, Option.getD_some, urls.origin_set, urls.pathname_set, ne_eq,
    not_true_eq_false, false_or, hsplit, hopen, h.checkTicket]
  rw [if_neg, if_neg (by omega)]
  rw [List.length_append, List.length_cons, hlength]
  simp only [List.append_eq_nil_iff, reduceCtorEq, and_false, false_or]
  omega

/-- A URL that was returned brings no forged ticket, to whichever storage. -/
theorem issued_notForged {i : Issue urls} {log : List (Issue urls)} (hi : i ∈ log)
    (hurl : i.grant.url mac = some request.url) {s' : Storage urls}
    (hsame : ∀ own, s'.signing = some own → own.endpoint = i.grant.endpoint ∧ own.secret = i.grant.secret) :
    NotForged mac log s' request := by
  obtain ⟨signing, seconds, checked, hgranted⟩ := grant_ok i.granted
  obtain ⟨k', signature', hk', -, hparse, hplain, -, hsplit⟩ := hgranted.parsed hurl
  intro own k payload signature bytes hown hk hbrings _ _
  obtain ⟨url, access, hurl', haccess, hparts⟩ := hbrings
  obtain rfl := Option.some.inj (hparse.symm.trans hurl')
  rw [urls.get_set _ _ hplain] at haccess
  obtain rfl := Option.some.inj haccess
  obtain rfl : i.grant.payload = payload := (List.cons.inj (hsplit.symm.trans hparts)).1
  obtain ⟨hendpoint, hsecret⟩ := hsame own hown
  exact ⟨i, hi, by rw [← hsecret]; exact hk, by rw [hendpoint]⟩

end Redeemed

/-- Signed access is exact: a URL of `signedUrl` that is requested in time, with its method
and, for an upload, a body, performs the granted operation on the granted key with the
granted options, where the authorizer agrees; and a request that performs any operation
redeems a call of `signedUrl` for this endpoint and performs what was granted. -/
theorem signed_access_exact (mac : Mac) (provider : Provider Body Meta Obj) (authorize' : Authorizer)
    (later : TimeValue) (request : Request Body) :
    (∀ (s : Storage urls) (authorize : Authorizer) (now : TimeValue) (key : Text) (operation : Access)
      (options : StorageAccessOptions) (seconds : Int),
      s.signedUrl mac authorize now key operation options = .ok (some request.url) →
      options.expiresIn.toSafeInteger = some seconds → later.1 < now.1 + seconds * 1000 →
      request.method = operation.method → (operation = .put → request.body.isSome) →
      authorize' operation.operation key.1 = true →
      request.signal.before = false ∧ request.signal.after = false →
      Serves provider key operation options request
        (s.handleSignedRequest mac provider authorize' later request)) ∧
    (∀ (log : List (Issue urls)) (s : Storage urls), NotForged mac log s request →
      (s.handleSignedRequest mac provider authorize' later request).1 = [] ∨
        ∃ i ∈ log, Redeems mac s later request i ∧ Serves provider i.key i.operation i.options request
          (s.handleSignedRequest mac provider authorize' later request)) := by
  constructor
  · intro s authorize now key operation options seconds hsigned hseconds hlater hmethod hbody hauthorize hsignal
    obtain ⟨g, hgrant, hurl⟩ := Outcome.map_eq_ok.mp hsigned
    obtain ⟨signing, seconds', checked, hgranted⟩ := grant_ok hgrant
    obtain rfl : seconds' = seconds := Option.some.inj (hgranted.lifetime.symm.trans hseconds)
    have hticket := ticket_granted hgranted hurl hlater
    rcases hgranted.handled provider authorize' hticket with hnone | ⟨-, hserves⟩
    · exact absurd hnone (hgranted.served provider authorize' hticket hmethod hbody hauthorize hsignal)
    · exact hserves
  · intro log s hforged
    cases hticket : s.ticket mac later request with
    | error e =>
      left
      unfold Storage.handleSignedRequest
      rw [hticket]
    | ok result =>
      obtain ⟨operation, entries⟩ := result
      obtain ⟨i, hi, signing, seconds, checked, hgranted, hticket, hlater, own, signature, hown⟩ :=
        ticket_issued hforged hticket
      rcases hgranted.handled provider authorize' hticket with hnone | ⟨hmethod, hserves⟩
      · exact .inl hnone
      · exact .inr ⟨i, hi, ⟨⟨own, signature, hown⟩, hmethod, seconds, hgranted.lifetime, hlater⟩, hserves⟩

/-! ## Section 7: An endpoint and a ticket -/

/-- A URL of ASCII whose query is nothing but a ticket. -/
structure PlainUrl where
  base : List Nat
  access : Option (List Nat)
  ascii : ∀ u ∈ base, u < 0x80 ∧ u ≠ 10 ∧ u ≠ 63
  plain : ∀ value, access = some value → value.all isPlain = true

/-- `?access=`. -/
def accessText : List Nat := [63, 97, 99, 99, 101, 115, 115, 61]

def PlainUrl.href (url : PlainUrl) : List Nat :=
  url.base ++ (url.access.map (accessText ++ ·)).getD []

def PlainUrl.parse (text : List Nat) : Option PlainUrl :=
  if hbase : ∀ u ∈ text.takeWhile (· != 63), u < 0x80 ∧ u ≠ 10 ∧ u ≠ 63 then
    if text.dropWhile (· != 63) = [] then some ⟨text.takeWhile (· != 63), none, hbase, nofun⟩
    else if h : accessText.isPrefixOf (text.dropWhile (· != 63)) = true ∧
        ((text.dropWhile (· != 63)).drop 8).all isPlain = true then
      some ⟨text.takeWhile (· != 63), some ((text.dropWhile (· != 63)).drop 8), hbase,
        fun _ hvalue => Option.some.inj hvalue ▸ h.2⟩
    else none
  else none

def PlainUrl.setAccess (url : PlainUrl) (value : List Nat) : PlainUrl :=
  if h : value.all isPlain = true then
    ⟨url.base, some value, url.ascii, fun _ hvalue => Option.some.inj hvalue ▸ h⟩
  else url

theorem PlainUrl.parse_href (url : PlainUrl) : PlainUrl.parse url.href = some url := by
  obtain ⟨base, access, hascii, hplain⟩ := url
  have hall : ∀ u ∈ base, (u != 63) = true := fun u hu => bne_iff_ne.mpr (hascii u hu).2.2
  cases access with
  | none =>
    have htake : base.takeWhile (· != 63) = base := List.takeWhile_eq_self_iff.mpr hall
    have hdrop : base.dropWhile (· != 63) = [] := List.dropWhile_eq_nil_iff.mpr hall
    simp only [parse, href, Option.map_none, Option.getD_none, List.append_nil, htake, hdrop]
    rw [dif_pos hascii]
    rfl
  | some value =>
    have htake : (base ++ (accessText ++ value)).takeWhile (· != 63) = base := by
      rw [List.takeWhile_append_of_pos hall]
      simp [accessText]
    have hdrop : (base ++ (accessText ++ value)).dropWhile (· != 63) = accessText ++ value := by
      rw [List.dropWhile_append_of_pos hall]
      simp [accessText]
    have hprefix : accessText.isPrefixOf (accessText ++ value) = true := by simp
    have hvalue : (accessText ++ value).drop 8 = value := rfl
    have hne : accessText ++ value ≠ [] := by simp [accessText]
    simp only [parse, href, Option.map_some, Option.getD_some, htake, hdrop, hprefix, hvalue, hne]
    simp only [hplain value rfl, if_false, and_self, dif_pos]
    rw [dif_pos hascii]

/-- What is between slashes. -/
def PlainUrl.parts (url : PlainUrl) : List (List Nat) := url.base.splitOn 47

theorem PlainUrl.href_ascii (url : PlainUrl) : ∀ u ∈ url.href, u < 0x80 ∧ u ≠ 10 := by
  intro u hu
  obtain ⟨base, access, hascii, hplain⟩ := url
  rcases List.mem_append.mp hu with hu | hu
  · exact ⟨(hascii u hu).1, (hascii u hu).2.1⟩
  · cases access with
    | none => cases hu
    | some value =>
      have hvalue : u ∈ accessText ++ value := hu
      rcases List.mem_append.mp hvalue with hu | hu
      · have hall : ∀ u ∈ accessText, u < 0x80 ∧ u ≠ 10 := by decide
        exact hall u hu
      · have hplain := List.all_eq_true.mp (hplain value rfl) u hu
        simp only [isPlain, Base64.isUrl, Bool.or_eq_true, Bool.and_eq_true, decide_eq_true_eq] at hplain
        omega

theorem PlainUrl.get_set (url : PlainUrl) (value : List Nat) (h : value.all isPlain = true) :
    (url.setAccess value).access = some value := by
  simp [PlainUrl.setAccess, h]

theorem PlainUrl.parts_set (url : PlainUrl) (value : List Nat) : (url.setAccess value).parts = url.parts := by
  unfold PlainUrl.setAccess PlainUrl.parts
  split <;> rfl

theorem PlainUrl.origin_set (url : PlainUrl) (value : List Nat) :
    [47].intercalate ((url.setAccess value).parts.take 3) = [47].intercalate (url.parts.take 3) := by
  rw [url.parts_set]

theorem PlainUrl.pathname_set (url : PlainUrl) (value : List Nat) :
    47 :: [47].intercalate ((url.setAccess value).parts.drop 3) =
      47 :: [47].intercalate (url.parts.drop 3) := by
  rw [url.parts_set]

def plainUrls : Urls where
  Url := PlainUrl
  parse := PlainUrl.parse
  href := PlainUrl.href
  origin url := [47].intercalate (url.parts.take 3)
  pathname url := 47 :: [47].intercalate (url.parts.drop 3)
  protocol url := url.parts.headD []
  hostname url := url.parts.getD 2 []
  username _ := []
  password _ := []
  search url := (url.access.map (accessText ++ ·)).getD []
  hash _ := []
  getAccess url := url.access
  setAccess := PlainUrl.setAccess
  href_ascii := PlainUrl.href_ascii
  get_set := PlainUrl.get_set
  origin_set := PlainUrl.origin_set
  pathname_set := PlainUrl.pathname_set
  parse_href text url value _ _ _ := PlainUrl.parse_href _

def exampleSecret : List Nat := JsString.utf16 "0123456789abcdef0123456789abcdef"

def exampleEndpoint : PlainUrl where
  base := JsString.utf16 "https://a.b/s"
  access := none
  ascii := by decide
  plain := nofun

def exampleStorage : Storage plainUrls where
  maxBytes := 67108864
  contentTypes := none
  signing := some {
    endpoint := exampleEndpoint
    secret := exampleSecret
    parsed := ⟨exampleEndpoint.href, PlainUrl.parse_href exampleEndpoint⟩
    bare := ⟨rfl, rfl, rfl, rfl⟩
    secure := by decide
    long := by decide }
  bounded := by decide

/-- The ticket of the example. -/
def examplePayload : List Nat :=
  JsString.utf16 "eyJ2IjoxLCJrZXkiOiJhL2IudHh0Iiwib3Bl" ++
    JsString.utf16 "cmF0aW9uIjoicHV0IiwiZXhwaXJlcyI6NjEw" ++
    JsString.utf16 "MDAsInNpemUiOjMsImNvbnRlbnRUeXBlIjoi" ++
    JsString.utf16 "dGV4dC9wbGFpbiIsImN1c3RvbU1ldGFkYXRh" ++
    JsString.utf16 "Ijp7ImsiOiJ2In19"

/-- HMAC-SHA256 under the example secret, for the ticket of the example. -/
def exampleMac : Mac where
  Key := List UInt8
  importKey bytes := if bytes = [] then none else some bytes
  sign k message :=
    if k = TextEncoder.encode exampleSecret ∧
        message = TextEncoder.encode (signedText (JsString.utf16 "https://a.b/s") examplePayload) then
      [253, 152, 204, 92, 208, 238, 145, 205, 137, 164, 128, 22, 165, 196, 55, 149, 159, 151, 184, 23, 148,
        226, 23, 157, 66, 151, 40, 66, 216, 68, 251, 107]
    else List.replicate 32 0
  length_sign k message := by
    split
    · rfl
    · simp

def exampleOptions : StorageAccessOptions where
  size := some (.num (Decimal.ofInt 3))
  contentType := some (.str (JsString.utf16 "text/plain"))
  customMetadata := some (.obj [(JsString.utf16 "k", .str (JsString.utf16 "v"))])
  expiresIn := Decimal.ofInt 60
  valid := by
    constructor
    · intro v hv
      rw [← Option.some.inj hv]
      exact fun _ => utf16_lt
    · intro v hv
      rw [← Option.some.inj hv]
      exact ⟨by decide, fun _ => utf16_lt, fun _ => utf16_lt, trivial⟩

def exampleUrl : List Nat :=
  JsString.utf16 "https://a.b/s?access=" ++ examplePayload ++
    JsString.utf16 "._ZjMXNDukc2JpIAWpcQ3lZ-XuBeU4hedQpcoQthE-2s"

/-- An upload to the URL of the example; its body is a number. -/
def exampleRequest : Request Nat := ⟨"PUT", exampleUrl, some 7, .quiet⟩

def exampleProvider : Provider Nat Nat Nat where
  put _ body _ := .ok body
  get _ := .ok none

def exampleKey : Text := UriText.ofString "a/b.txt"

def signedAt : TimeValue := ⟨1000, by decide⟩

theorem exampleUrl_signed :
    exampleStorage.signedUrl exampleMac (fun _ _ => true) signedAt exampleKey .put exampleOptions =
      .ok (some exampleRequest.url) := by
  decide +kernel

theorem signed_access_exact_example :
    Serves exampleProvider exampleKey .put exampleOptions exampleRequest
      (exampleStorage.handleSignedRequest exampleMac exampleProvider (fun _ _ => true)
        ⟨60999, by decide⟩ exampleRequest) ∧
    ∃ i : Issue plainUrls, Redeems exampleMac exampleStorage ⟨60999, by decide⟩ exampleRequest i := by
  have hserves := (signed_access_exact exampleMac exampleProvider (fun _ _ => true) ⟨60999, by decide⟩
    exampleRequest).1 exampleStorage (fun _ _ => true) signedAt exampleKey .put exampleOptions 60
    exampleUrl_signed (by decide) (by decide) rfl (fun _ => rfl) rfl ⟨rfl, rfl⟩
  refine ⟨hserves, ?_⟩
  obtain ⟨g, hgrant, hurl⟩ := Outcome.map_eq_ok.mp exampleUrl_signed
  obtain ⟨signing, seconds, checked, hgranted⟩ := grant_ok hgrant
  have hforged : NotForged exampleMac [⟨_, _, _, _, _, _, g, hgrant⟩] exampleStorage exampleRequest := by
    apply issued_notForged List.mem_cons_self hurl
    intro own hown
    obtain rfl := Option.some.inj (hgranted.configured.symm.trans hown)
    exact ⟨congrArg Grant.endpoint hgranted.made.symm, congrArg Grant.secret hgranted.made.symm⟩
  rcases (signed_access_exact exampleMac exampleProvider (fun _ _ => true) ⟨60999, by decide⟩
    exampleRequest).2 _ exampleStorage hforged with hnone | ⟨i, -, hredeems, -⟩
  · obtain ⟨body, c, -, -, hresult⟩ := hserves
    rw [hresult] at hnone
    cases hnone
  · exact ⟨i, hredeems⟩

end Cossack.Core.SignedStorage
