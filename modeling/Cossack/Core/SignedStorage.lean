import Cossack.Lib.JsonBase64
import Cossack.Lib.Macs
import Cossack.Lib.SafeIntegers
import Cossack.Lib.UriText

/-! # Signed access to a storage

    `Storage.signedUrl` and `Storage.handleSignedRequest`
    (`core/src/storage/runtime.ts`).  A ticket is signed together with the address
    of the endpoint and put in the query of a URL; a request is served by the
    ordinary `put` and `get` with what the ticket says.  URLs, the code, the
    provider and the authorizer are parameters, and a function gives the operations
    of the provider that it performs. -/

namespace Cossack.Core.SignedStorage

open UriText (Text)
open JsonText
open Macs (Mac)
open Base64 (urlEncode urlDecode isUrl)

/-! ## Section 1: Errors and keys -/

structure StorageError where
  code : String
  message : String
  deriving DecidableEq

inductive StorageOperation where
  | put | get | head | delete

def keyError : StorageError :=
  ⟨"COSSACK_STORAGE_KEY_INVALID", "Use a relative object key without empty or traversal segments."⟩

/-- `/[\\\x00-\x1f\x7f]/`. -/
def isForbidden (u : Nat) : Bool := u = 0x5C || u < 0x20 || u = 0x7F

def isSegment (part : List Nat) : Bool := part ≠ [] && part ≠ [46] && part ≠ [46, 46]

/-- `validateStorageKey`; the answer is the key as a string. -/
def validateStorageKey : Option JsonText.Json → Except StorageError (List Nat)
  | some (.str key) =>
      if key = [] ∨ 1024 < key.length ∨ key.any isForbidden ∨ !(key.splitOn 47).all isSegment then
        .error keyError
      else .ok key
  | _ => .error keyError

/-! ## Section 2: Options of an upload -/

def metadataError : StorageError :=
  ⟨"COSSACK_STORAGE_METADATA_INVALID", "Metadata must contain plain string fields."⟩

/-- `/^[a-zA-Z0-9_-]{1,64}$/`. -/
def isMetadataKey (key : List Nat) : Bool := 0 < key.length && key.length ≤ 64 && key.all isUrl

/-- The loop over the fields, after `bytes` bytes of them. -/
def metadataFields : List (List Nat × JsonText.Json) → Nat → Except StorageError (List (List Nat × List Nat))
  | [], _ => .ok []
  | (key, .str value) :: rest, bytes =>
      if !isMetadataKey key then .error metadataError
      else
        let bytes := bytes + (TextEncoder.encode (key ++ value)).length
        if 8192 < bytes then
          .error ⟨"COSSACK_STORAGE_METADATA_INVALID", "Metadata exceeds its byte limit."⟩
        else (metadataFields rest bytes).map ((key, value) :: ·)
  | _ :: _, _ => .error metadataError

/-- `metadata`: a property of the result is one of its argument, whatever its name. -/
def metadata : Option JsonText.Json → Except StorageError (Option (List (List Nat × List Nat)))
  | none => .ok none
  | some (.obj entries) =>
      if 32 < entries.length then
        .error ⟨"COSSACK_STORAGE_METADATA_INVALID", "Metadata has too many fields."⟩
      else (metadataFields entries 0).map some
  | some _ => .error metadataError

/-- The options of `put` before they are checked. -/
structure UploadOptions where
  size : Option JsonText.Json
  contentType : Option JsonText.Json
  customMetadata : Option JsonText.Json

structure StoragePutOptions where
  size : Int
  contentType : Option (List Nat)
  customMetadata : Option (List (List Nat × List Nat))

/-- `Number.isSafeInteger`, and the integer. -/
def safeInteger : Option JsonText.Json → Option Int
  | some (.num d) => d.toSafeInteger
  | _ => none

def typeError : StorageError := ⟨"COSSACK_STORAGE_TYPE_INVALID", "The content type is not permitted."⟩

def contentType (contentTypes : Option (List (List Nat))) : Option JsonText.Json → Except StorageError (Option (List Nat))
  | none =>
      if contentTypes.isSome then
        .error ⟨"COSSACK_STORAGE_TYPE_INVALID", "A permitted content type is required."⟩
      else .ok none
  | some (.str type) =>
      if type = [] ∨ 128 < type.length ∨ type.any (fun u => u = 13 || u = 10 || u = 0) ∨
          contentTypes.any (!·.contains type) then .error typeError
      else .ok (some type)
  | some _ => .error typeError

/-- Strings of 16-bit units and no property twice, as JavaScript has them. -/
def UploadOptions.Valid (options : UploadOptions) : Prop :=
  (∀ v, options.contentType = some v → JsonText.Valid v) ∧
    ∀ v, options.customMetadata = some v → JsonText.Valid v

/-! ## Section 3: URLs and storages -/

/-- The characters that stand for themselves in a query: the base64 of URLs and full stops. -/
def isPlain (u : Nat) : Bool := isUrl u || u = 46

/-- URLs, of which the ones with a host are serialised without loss.  `getAccess` and
`setAccess` are `searchParams.get('access')` and `searchParams.set('access', value)`. -/
structure Urls where
  Url : Type
  parse : List Nat → Option Url
  href : Url → List Nat
  origin : Url → List Nat
  pathname : Url → List Nat
  protocol : Url → List Nat
  hostname : Url → List Nat
  username : Url → List Nat
  password : Url → List Nat
  search : Url → List Nat
  hash : Url → List Nat
  getAccess : Url → Option (List Nat)
  setAccess : Url → List Nat → Url
  href_ascii : ∀ url, ∀ u ∈ href url, u < 0x80 ∧ u ≠ 10
  get_set : ∀ url value, value.all isPlain = true → getAccess (setAccess url value) = some value
  origin_set : ∀ url value, origin (setAccess url value) = origin url
  pathname_set : ∀ url value, pathname (setAccess url value) = pathname url
  parse_href : ∀ text url value, parse text = some url →
    (protocol url = JsString.utf16 "https:" ∨ protocol url = JsString.utf16 "http:") →
    value.all isPlain = true → parse (href (setAccess url value)) = some (setAccess url value)

/-- The last condition of the constructor on the endpoint. -/
def Urls.secure (urls : Urls) (url : urls.Url) : Bool :=
  urls.protocol url = JsString.utf16 "https:" ||
    (urls.protocol url = JsString.utf16 "http:" &&
      ["127.0.0.1", "localhost", "[::1]"].any fun host => urls.hostname url = JsString.utf16 host)

/-- The endpoint and the secret of a storage. -/
structure Signing (urls : Urls) where
  endpoint : urls.Url
  secret : List Nat
  parsed : ∃ text, urls.parse text = some endpoint
  bare : urls.username endpoint = [] ∧ urls.password endpoint = [] ∧ urls.search endpoint = [] ∧
    urls.hash endpoint = []
  secure : urls.secure endpoint = true
  long : 32 ≤ (TextEncoder.encode secret).length

structure Storage (urls : Urls) where
  maxBytes : Int
  contentTypes : Option (List (List Nat))
  signing : Option (Signing urls)
  bounded : 0 ≤ maxBytes ∧ maxBytes.natAbs ≤ maxSafe

/-- The options of the constructor; the endpoint and the secret come together. -/
structure StorageOptions where
  maxBytes : Option Decimal
  contentTypes : Option (List (List Nat))
  signing : Option (List Nat × List Nat)

theorem toSafeInteger_le {d : Decimal} {n : Int} (h : d.toSafeInteger = some n) : n.natAbs ≤ maxSafe := by
  unfold Decimal.toSafeInteger at h
  split at h
  · cases h
  · split at h
    · obtain rfl := Option.some.inj h
      split <;> omega
    · cases h

/-- The part of the constructor for `signing`. -/
def Signing.make (urls : Urls) (endpoint secret : List Nat) : Except StorageError (Signing urls) :=
  match h : urls.parse endpoint with
  | none => .error ⟨"COSSACK_STORAGE_CONFIG_INVALID", "Configure an absolute secure storage endpoint."⟩
  | some url =>
      if hok : (urls.username url = [] ∧ urls.password url = [] ∧ urls.search url = [] ∧ urls.hash url = []) ∧
          urls.secure url = true ∧ 32 ≤ (TextEncoder.encode secret).length then
        .ok ⟨url, secret, ⟨endpoint, h⟩, hok.1, hok.2.1, hok.2.2⟩
      else
        .error ⟨"COSSACK_STORAGE_CONFIG_INVALID",
          "Configure a secure endpoint and a signing secret of at least 32 bytes."⟩

/-- `new Storage(options)`. -/
def Storage.make (urls : Urls) (options : StorageOptions) : Except StorageError (Storage urls) :=
  match h : (options.maxBytes.getD (Decimal.ofInt (64 * 1024 * 1024))).toSafeInteger with
  | none => .error ⟨"COSSACK_STORAGE_CONFIG_INVALID", "Configure an authorizer and a valid byte limit."⟩
  | some maxBytes =>
      if hpos : maxBytes < 0 then
        .error ⟨"COSSACK_STORAGE_CONFIG_INVALID", "Configure an authorizer and a valid byte limit."⟩
      else
        match options.signing with
        | none => .ok ⟨maxBytes, options.contentTypes, none, by omega, toSafeInteger_le h⟩
        | some (endpoint, secret) => do
            let signing ← Signing.make urls endpoint secret
            .ok ⟨maxBytes, options.contentTypes, some signing, by omega, toSafeInteger_le h⟩

variable {urls : Urls}

/-- `upload`: the options of `put` once they are checked. -/
def Storage.upload (s : Storage urls) (options : UploadOptions) : Except StorageError StoragePutOptions :=
  match safeInteger options.size with
  | none => .error ⟨"COSSACK_STORAGE_SIZE_INVALID", "The declared size must fit the configured byte limit."⟩
  | some size =>
      if size < 0 ∨ s.maxBytes < size then
        .error ⟨"COSSACK_STORAGE_SIZE_INVALID", "The declared size must fit the configured byte limit."⟩
      else do
        let type ← contentType s.contentTypes options.contentType
        let custom ← metadata options.customMetadata
        .ok ⟨size, type, custom⟩

/-! ## Section 4: Operations -/

/-- When the signal of a request is aborted. -/
structure Signal where
  before : Bool
  after : Bool
  failed : Bool

/-- A signal that is never aborted, or none. -/
def Signal.quiet : Signal := ⟨false, false, false⟩

/-- What the authorizer answers; one that throws refuses. -/
abbrev Authorizer := StorageOperation → List Nat → Bool

def aborted : StorageError := ⟨"COSSACK_STORAGE_ABORTED", "The storage operation was cancelled."⟩

/-- `allowed`: the key is valid and the authorizer agrees. -/
def allowed (authorize : Authorizer) (operation : StorageOperation) (key : Option JsonText.Json) (signal : Signal) :
    Except StorageError (List Nat) := do
  let key ← validateStorageKey key
  if signal.before then .error aborted
  else if !authorize operation key then
    .error ⟨"COSSACK_STORAGE_FORBIDDEN", "The object operation is not authorized."⟩
  else if signal.after then .error aborted
  else .ok key

/-- An operation of the provider. -/
inductive Call (Body : Type) where
  | put (key : List Nat) (body : Body) (options : StoragePutOptions)
  | get (key : List Nat)

/-- A provider, whose errors may have a code. -/
structure Provider (Body Meta Obj : Type) where
  put : List Nat → Body → StoragePutOptions → Except (Option String) Meta
  get : List Nat → Except (Option String) (Option Obj)

variable {Body Meta Obj : Type}

/-- `operation`: the error of a provider as the storage reports it. -/
def reported {α : Type} (signal : Signal) : Except (Option String) α → Except StorageError α
  | .ok a => .ok a
  | .error code =>
      if signal.failed then .error aborted
      else
        let known := code.filter fun code => ["COSSACK_STORAGE_ABORTED", "COSSACK_STORAGE_SIZE_MISMATCH",
          "COSSACK_STORAGE_TRANSFER_FAILED", "COSSACK_STORAGE_BODY_INVALID"].contains code
        .error ⟨known.getD "COSSACK_STORAGE_PROVIDER_FAILED",
          "The storage operation failed. Check the provider and transfer limits."⟩

/-- `put`: what the provider is asked, and the answer. -/
def Storage.put (s : Storage urls) (provider : Provider Body Meta Obj) (authorize : Authorizer)
    (key : Option JsonText.Json) (body : Body) (options : UploadOptions) (signal : Signal) :
    List (Call Body) × Except StorageError Meta :=
  match s.upload options with
  | .error e => ([], .error e)
  | .ok checked =>
      match allowed authorize .put key signal with
      | .error e => ([], .error e)
      | .ok key => ([.put key body checked], reported signal (provider.put key body checked))

/-- `get`. -/
def get (provider : Provider Body Meta Obj) (authorize : Authorizer) (key : Option JsonText.Json)
    (signal : Signal) : List (Call Body) × Except StorageError (Option Obj) :=
  match allowed authorize .get key signal with
  | .error e => ([], .error e)
  | .ok key => ([.get key], reported signal (provider.get key))

/-! ## Section 5: Signed URLs -/

structure StorageAccessOptions extends UploadOptions where
  expiresIn : Decimal
  valid : toUploadOptions.Valid

/-- A value of `Date.now()`. -/
abbrev TimeValue := { t : Int // -8640000000000000 ≤ t ∧ t ≤ 8640000000000000 }

def accessError : StorageError :=
  ⟨"COSSACK_STORAGE_ACCESS_INVALID", "Signed access must expire within one day."⟩

def signingError : StorageError :=
  ⟨"COSSACK_STORAGE_SIGNING_UNAVAILABLE", "Configure a storage endpoint and signing secret."⟩

/-- The two operations that can be signed. -/
inductive Access where
  | get | put

def Access.operation : Access → StorageOperation
  | .get => .get
  | .put => .put

def Access.text : Access → String
  | .get => "get"
  | .put => "put"

def Access.method : Access → String
  | .get => "GET"
  | .put => "PUT"

def field (name : String) (v : JsonText.Json) : List Nat × JsonText.Json := (JsString.utf16 name, v)

def metadataJson (entries : List (List Nat × List Nat)) : JsonText.Json :=
  .obj (entries.map fun e => (e.1, .str e.2))

/-- The checked options in a ticket; `JSON.stringify` leaves out what is undefined. -/
def StoragePutOptions.fields (checked : StoragePutOptions) : List (List Nat × JsonText.Json) :=
  field "size" (.num (Decimal.ofInt checked.size)) ::
    ((checked.contentType.map fun type => field "contentType" (.str type)).toList ++
      (checked.customMetadata.map fun entries => field "customMetadata" (metadataJson entries)).toList)

/-- The properties of a ticket; only a ticket for `put` has options. -/
def ticketFields (key : List Nat) (operation : Access) (expires : Int) (checked : Option StoragePutOptions) :
    List (List Nat × JsonText.Json) :=
  field "v" (.num (Decimal.ofInt 1)) :: field "key" (.str key) ::
    field "operation" (.str (JsString.utf16 operation.text)) ::
    field "expires" (.num (Decimal.ofInt expires)) :: (checked.map StoragePutOptions.fields).getD []

/-- The text under the signature. -/
def signedText (href payload : List Nat) : List Nat := href ++ 10 :: payload

/-- What the URL of a call of `signedUrl` is made of. -/
structure Grant (urls : Urls) where
  endpoint : urls.Url
  secret : List Nat
  payload : List Nat

/-- `checked` in `signedUrl`: only an upload has options. -/
def Storage.checkedOptions (s : Storage urls) (operation : Access) (options : UploadOptions) :
    Except StorageError (Option StoragePutOptions) :=
  match operation with
  | .put => (s.upload options).map some
  | .get => .ok none

/-- `signedUrl` up to the signature, at the clock `now`. -/
def Storage.grant (s : Storage urls) (authorize : Authorizer) (now : TimeValue) (key : Text)
    (operation : Access) (options : StorageAccessOptions) : Except StorageError (Grant urls) :=
  match options.expiresIn.toSafeInteger with
  | none => .error accessError
  | some expiresIn =>
      if expiresIn < 1 ∨ 86400 < expiresIn then .error accessError
      else do
        let checked ← s.checkedOptions operation options.toUploadOptions
        match s.signing with
        | none => .error signingError
        | some signing =>
            let key ← allowed authorize operation.operation (some (.str key.1)) .quiet
            let payload := JsonBase64.encode (.obj (ticketFields key operation (now.1 + expiresIn * 1000) checked))
            if 16384 < payload.length then
              .error ⟨"COSSACK_STORAGE_ACCESS_INVALID", "Signed access metadata is too large."⟩
            else .ok ⟨signing.endpoint, signing.secret, payload⟩

/-- The URL of a grant; none where the secret is refused as a key. -/
def Grant.url (mac : Mac) (g : Grant urls) : Option (List Nat) :=
  (mac.keyOf g.secret).map fun k =>
    let signature := urlEncode (mac.sign k (TextEncoder.encode (signedText (urls.href g.endpoint) g.payload)))
    urls.href (urls.setAccess g.endpoint (g.payload ++ 46 :: signature))

/-- `signedUrl`; none where the promise of the key is rejected. -/
def Storage.signedUrl (mac : Mac) (s : Storage urls) (authorize : Authorizer) (now : TimeValue) (key : Text)
    (operation : Access) (options : StorageAccessOptions) : Except StorageError (Option (List Nat)) :=
  (s.grant authorize now key operation options).map (Grant.url mac)

/-! ## Section 6: Requests -/

structure Request (Body : Type) where
  method : String
  url : List Nat
  body : Option Body
  signal : Signal

inductive Response (Meta Obj : Type) where
  | created (object : Meta)
  | found (object : Obj)
  | notFound
  | methodNotAllowed (allow : String)
  | failed (code : String) (status : Nat)

def invalidAccess : StorageError := ⟨"COSSACK_STORAGE_ACCESS_INVALID", "The signed access is invalid."⟩

def expiredAccess : StorageError := ⟨"COSSACK_STORAGE_ACCESS_EXPIRED", "The signed access is expired or invalid."⟩

/-- The `catch` of `handleSignedRequest`. -/
def Response.ofCode (code : String) : Response Meta Obj :=
  .failed code (
    if code = "COSSACK_STORAGE_FORBIDDEN" then 403
    else if code = "COSSACK_STORAGE_ACCESS_EXPIRED" then 410
    else if code = "COSSACK_STORAGE_ABORTED" then 499
    else if code = "COSSACK_STORAGE_PROVIDER_FAILED" then 502 else 400)

/-- `decode`. -/
def decode (value : List Nat) : Option (List UInt8) :=
  if value = [] ∨ !value.all isUrl then none else urlDecode value

/-- The data of a ticket, where its signature is right. -/
def openTicket (mac : Mac) (signing : Signing urls) (payload signature : List Nat) : Option JsonText.Json := do
  let k ← mac.keyOf signing.secret
  let bytes ← decode signature
  if mac.sign k (TextEncoder.encode (signedText (urls.href signing.endpoint) payload)) ≠ bytes then none
  else
    let ticket ← decode payload
    let text ← Utf8.decodeText ticket
    JsonText.parse text

/-- What a valid ticket allows, and its other properties. -/
def checkTicket (now : TimeValue) : JsonText.Json → Except StorageError (Access × List (List Nat × JsonText.Json))
  | .obj entries =>
      match safeInteger (lookup entries "v"), safeInteger (lookup entries "expires") with
      | some v, some expires =>
          if v ≠ 1 ∨ expires ≤ now.1 then .error expiredAccess
          else
            match lookup entries "operation" with
            | some (.str operation) =>
                if operation = JsString.utf16 "get" then .ok (.get, entries)
                else if operation = JsString.utf16 "put" then .ok (.put, entries)
                else .error expiredAccess
            | _ => .error expiredAccess
      | _, _ => .error expiredAccess
  | _ => .error expiredAccess

/-- The ticket of a request. -/
def Storage.ticket (mac : Mac) (s : Storage urls) (now : TimeValue) (request : Request Body) :
    Except StorageError (Access × List (List Nat × JsonText.Json)) :=
  match s.signing with
  | none => .error signingError
  | some signing =>
      match urls.parse request.url with
      | none => .error ⟨"COSSACK_STORAGE_PROVIDER_FAILED", "Invalid URL"⟩
      | some url =>
          let access := (urls.getAccess url).getD []
          if urls.origin url ++ urls.pathname url ≠ urls.origin signing.endpoint ++ urls.pathname signing.endpoint ∨
              access = [] ∨ 16500 < access.length then .error invalidAccess
          else
            match access.splitOn 46 with
            | [payload, signature] =>
                match openTicket mac signing payload signature with
                | none => .error invalidAccess
                | some ticket => checkTicket now ticket
            | _ => .error invalidAccess

/-- `handleSignedRequest`: the operations it asks the provider for, and its response. -/
def Storage.handleSignedRequest (mac : Mac) (s : Storage urls) (provider : Provider Body Meta Obj)
    (authorize : Authorizer) (now : TimeValue) (request : Request Body) : List (Call Body) × Response Meta Obj :=
  match s.ticket mac now request with
  | .error e => ([], .ofCode e.code)
  | .ok (operation, entries) =>
      if request.method ≠ operation.method then ([], .methodNotAllowed operation.method)
      else
        match operation with
        | .put =>
            match request.body with
            | none => ([], .ofCode "COSSACK_STORAGE_BODY_INVALID")
            | some body =>
                let options := ⟨lookup entries "size", lookup entries "contentType", lookup entries "customMetadata"⟩
                match s.put provider authorize (lookup entries "key") body options request.signal with
                | (calls, .ok object) => (calls, .created object)
                | (calls, .error e) => (calls, .ofCode e.code)
        | .get =>
            match get provider authorize (lookup entries "key") request.signal with
            | (calls, .ok (some object)) => (calls, .found object)
            | (calls, .ok none) => (calls, .notFound)
            | (calls, .error e) => (calls, .ofCode e.code)

end Cossack.Core.SignedStorage
