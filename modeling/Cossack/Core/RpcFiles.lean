import Cossack.Lib.JsString
import Cossack.Lib.JsonTree

/-! # RPC payloads with files

    How the client moves files out of an argument list (`extractFilesFromArg`
    of the component proxies, `snapshotRpcPayload` of scoped services) and how
    `readRpcRequest` of the server puts them back.  In between a file is the
    in-band placeholder `{ _cossack_file_id: "file_<n>" }`.

    A JSON text is represented by the value it denotes, so that `JSON.parse`
    of what `JSON.stringify` wrote is that value. -/

namespace Cossack.Core

/-- A `File`: its name, media type and bytes. -/
structure File where
  name : String
  type : String
  content : List UInt8

/-- What a payload holds besides JSON data. -/
inductive Upload where
  | file (f : File)
  | fileList (files : List File)

/-- JSON data over the number type `N`. -/
abbrev Json (N : Type) := JsonTree N Empty

abbrev Payload (N : Type) := JsonTree N Upload

structure RpcError where
  code : String
  message : String

variable {N L : Type}

/-! ## Section 1: `snapshotRpcValue` on JSON data and handled leaves -/

def maximumDepth : Nat := 256

def RpcError.unsupported (description : String) : RpcError where
  code := "COSSACK_RPC_SERIALIZATION_FAILED"
  message := s!"Cannot serialize RPC data: unsupported value at {description}."

mutual
/-- `snapshotValue`: the depth limit comes before everything else, and the
    leaves are the values the caller declared as handled. -/
def snapshotValue (path : String) (depth : Nat) (t : JsonTree N L) :
    Except RpcError (JsonTree N L) :=
  if depth > maximumDepth then
    .error (.unsupported ((if path = "" then "(root)" else path) ++ " (maximum depth exceeded)"))
  else
    match t with
    | .null => .ok .null
    | .bool b => .ok (.bool b)
    | .num n => .ok (.num n)
    | .str s => .ok (.str s)
    | .leaf l => .ok (.leaf l)
    | .arr items => (snapshotItems path 0 (depth + 1) items).map .arr
    | .obj entries => (snapshotEntries path (depth + 1) entries).map .obj

def snapshotItems (path : String) (index depth : Nat) :
    List (JsonTree N L) → Except RpcError (List (JsonTree N L))
  | [] => .ok []
  | t :: rest => do
      let normalized ← snapshotValue s!"{path}[{index}]" depth t
      let tail ← snapshotItems path (index + 1) depth rest
      return normalized :: tail

def snapshotEntries (path : String) (depth : Nat) :
    List (String × JsonTree N L) → Except RpcError (List (String × JsonTree N L))
  | [] => .ok []
  | (key, t) :: rest => do
      let normalized ← snapshotValue (if path = "" then key else s!"{path}.{key}") depth t
      let tail ← snapshotEntries path depth rest
      return (key, normalized) :: tail
end

def snapshotRpcValue (t : JsonTree N L) (path : String) : Except RpcError (JsonTree N L) :=
  snapshotValue path 0 t

/-! ## Section 2: Moving files out of the arguments -/

def fileMarker : String := "_cossack_file_id"

def fileId (n : Nat) : String := "file_" ++ toString n

/-- The file parts collected so far, in insertion order. -/
abbrev Files := List (String × File)

/-- `files.set(id, file)` under the next id, and the placeholder. -/
def addFile (files : Files) (f : File) : Json N × Files :=
  let id := fileId files.length
  (.obj [(fileMarker, .str id)], files ++ [(id, f)])

def addFileList (files : Files) : List File → List (Json N) × Files
  | [] => ([], files)
  | f :: rest =>
      let placeholder := addFile files f
      let tail := addFileList placeholder.2 rest
      (placeholder.1 :: tail.1, tail.2)

/-- What the client does with an object before it walks its properties: keep
    it as data (`ok false`), drop it as an event or window (`ok true`), or fail
    with a `TypeError`. -/
abbrev NativeCheck (N : Type) := List (String × Payload N) → Except String Bool

mutual
/-- The walk shared by the two clients. -/
def extractWith (check : NativeCheck N) (files : Files) :
    Payload N → Except String (Json N × Files)
  | .null => .ok (.null, files)
  | .bool b => .ok (.bool b, files)
  | .num n => .ok (.num n, files)
  | .str s => .ok (.str s, files)
  | .leaf (.file f) => .ok (addFile files f)
  | .leaf (.fileList list) =>
      let placeholders := addFileList files list
      .ok (.arr placeholders.1, placeholders.2)
  | .arr items => do
      let (items', files') ← extractItems check files items
      return (.arr items', files')
  | .obj entries => do
      if ← check entries then return (.null, files)
      else
        let (entries', files') ← extractEntries check files entries
        return (.obj entries', files')

def extractItems (check : NativeCheck N) (files : Files) :
    List (Payload N) → Except String (List (Json N) × Files)
  | [] => .ok ([], files)
  | t :: rest => do
      let (t', files₁) ← extractWith check files t
      let (rest', files₂) ← extractItems check files₁ rest
      return (t' :: rest', files₂)

def extractEntries (check : NativeCheck N) (files : Files) :
    List (String × Payload N) → Except String (List (String × Json N) × Files)
  | [] => .ok ([], files)
  | (key, t) :: rest => do
      let (t', files₁) ← extractWith check files t
      let (rest', files₂) ← extractEntries check files₁ rest
      return ((key, t') :: rest', files₂)
end

/-- `name.endsWith('Event') || name === 'Window' || name === 'Document'`. -/
def nativeName (name : String) : Bool :=
  "Event".toList.isSuffixOf name.toList || name == "Window" || name == "Document"

/-- The test on `arg.constructor && arg.constructor.name`.  An object of the
    normalised arguments has no prototype, so `constructor` is its own property
    or missing; a truthy `name` that is not a string has no `endsWith`. -/
def constructorCheck [Zero N] [DecidableEq N] : NativeCheck N := fun entries =>
  match JsonTree.lookup entries "constructor" with
  | some (.leaf (.file f)) => .ok (nativeName f.name)
  | some (.obj fields) =>
      match JsonTree.lookup fields "name" with
      | none | some .null | some (.bool false) => .ok false
      | some (.str name) => .ok (nativeName name)
      | some (.num n) =>
          if n = 0 then .ok false else .error "arg.constructor.name.endsWith is not a function"
      | some _ => .error "arg.constructor.name.endsWith is not a function"
  | _ => .ok false

/-- `extractFilesFromArg` of the component proxies. -/
def extractFilesFromArg [Zero N] [DecidableEq N] : Files → Payload N → Except String (Json N × Files) :=
  extractWith constructorCheck

/-- `extract` of `snapshotRpcPayload`, used by scoped services. -/
def extract : Files → Payload N → Except String (Json N × Files) :=
  extractWith fun _ => .ok false

/-! ## Section 3: Requests -/

def textKeys : List String := ["componentRouteId", "pageRouteId", "action", "target", "scopeKey"]

def jsonKeys : List String := ["state", "payload", "service", "pageParams"]

def objectKeys : List String := ["state", "service", "pageParams"]

/-- A part of a multipart form: the JSON text of a value, another string, or a
    file. -/
inductive Part (N : Type) where
  | json (value : Json N)
  | text (s : String)
  | file (f : File)

abbrev FormData (N : Type) := List (String × Part N)

/-- `form.set`. -/
def FormData.set (form : FormData N) (name : String) (part : Part N) : FormData N :=
  if form.any (·.1 == name) then form.map fun p => if p.1 == name then (name, part) else p
  else form ++ [(name, part)]

/-- A field of the request body besides the payload: a string, or a JSON
    object. -/
inductive BodyField (N : Type) where
  | text (s : String)
  | object (entries : List (String × Json N))

inductive Request (N : Type) where
  /-- `POST` of a multipart form to the upload route. -/
  | multipart (form : FormData N)
  /-- `POST` of a JSON text to the RPC route. -/
  | json (body : Json N)

def BodyField.part : BodyField N → Part N
  | .text s => .text s
  | .object entries => .json (.obj entries)

def BodyField.json : BodyField N → Json N
  | .text s => .str s
  | .object entries => .obj entries

/-- The fields of a request body besides the payload, as the client fills them:
    strings that are not blank and JSON objects, each under a key of its
    kind. -/
structure Envelope (N : Type) where
  fields : List (String × BodyField N)
  nodup : (fields.map Prod.fst).Nodup
  valid : ∀ e ∈ fields, match e.2 with
    | .text s => e.1 ∈ textKeys ∧ JsString.isBlank s = false
    | .object _ => e.1 ∈ objectKeys

/-- `rpcFormData(body, files)` with the payload as the last field of the body. -/
def rpcFormData (body : List (String × BodyField N)) (payload : Json N) (files : Files) :
    FormData N :=
  let fields : FormData N := body.map (fun e => (e.1, e.2.part)) ++ [("payload", .json payload)]
  files.foldl (fun form e => FormData.set form e.1 (.file e.2)) fields

/-- The client: validate, extract, and send a form when there are files. -/
def encodeRequest (walk : Files → Payload N → Except String (Json N × Files))
    (body : Envelope N) (args : List (Payload N)) : Except RpcError (Request N) := do
  let normalized ← snapshotRpcValue (.arr args) "payload"
  match walk [] normalized with
  | .error message =>
      .error { code := "COSSACK_RPC_SERIALIZATION_FAILED", message := message }
  | .ok (payload, files) =>
      if files.length ≠ 0 then return .multipart (rpcFormData body.fields payload files)
      else return .json (.obj (body.fields.map (fun e => (e.1, e.2.json)) ++ [("payload", payload)]))

/-! ## Section 4: `readRpcRequest` -/

/-- A value `parseBody` gives for a form field name. -/
inductive Field (N : Type) where
  | one (part : Part N)
  | many (parts : List (Part N))

/-- The parts of the server that are not the framework's: the form parser, the
    JSON reading of a string no JSON writer produced, and the number of bytes
    of a request body; with them the configured limits. -/
structure Server (N : Type) where
  parseBody : FormData N → String → Option (Field N)
  parseText : String → Option (Json N)
  size : Request N → Nat
  jsonBytes : Nat := 1024 * 1024
  uploadBytes : Nat := 32 * 1024 * 1024
  /-- A name that occurs once is delivered with its part. -/
  parseBody_one : ∀ form name part, form.filter (·.1 == name) = [(name, part)] →
    parseBody form name = some (.one part)
  /-- A name that does not occur is undefined. -/
  parseBody_none : ∀ form name, form.filter (·.1 == name) = [] → parseBody form name = none

def RpcError.invalid (path : String) : RpcError where
  code := "COSSACK_RPC_REQUEST_INVALID"
  message := s!"Invalid RPC request at {path}."

def RpcError.tooLarge : RpcError where
  code := "COSSACK_RPC_REQUEST_TOO_LARGE"
  message := "RPC request body is too large."

/-- A value of the decoded body. -/
inductive BodyValue (N : Type) where
  /-- The string `JSON.stringify` gives for a value. -/
  | jsonText (value : Json N)
  | text (s : String)
  | tree (value : JsonTree N File)

abbrev Body (N : Type) := String → Option (BodyValue N)

def Body.empty : Body N := fun _ => none

def Body.set (body : Body N) (key : String) (value : BodyValue N) : Body N :=
  fun k => if k = key then some value else body k

/-- `/^file_[0-9]+$/`. -/
def isFileId (id : String) : Bool :=
  "file_".toList.isPrefixOf id.toList && id.toList.drop 5 != [] &&
    (id.toList.drop 5).all Char.isDigit

mutual
/-- `restore`: placeholders become the files of the form, everything else is
    copied. -/
def restore (fields : String → Option (Field N)) (path : String) (depth : Nat) (t : Json N) :
    Except RpcError (JsonTree N File) :=
  if depth > maximumDepth then .error (.invalid path)
  else
    match t with
    | .null => .ok .null
    | .bool b => .ok (.bool b)
    | .num n => .ok (.num n)
    | .str s => .ok (.str s)
    | .arr items => (restoreItems fields path 0 (depth + 1) items).map .arr
    | .obj entries =>
        if JsonTree.hasKey entries fileMarker then
          match JsonTree.lookup entries fileMarker with
          | some (.str id) =>
              if entries.length ≠ 1 ∨ isFileId id = false then .error (.invalid path)
              else
                match fields id with
                | some (.one (.file f)) => .ok (.leaf f)
                | _ => .error (.invalid path)
          | _ => .error (.invalid path)
        else (restoreEntries fields path (depth + 1) entries).map .obj

def restoreItems (fields : String → Option (Field N)) (path : String) (index depth : Nat) :
    List (Json N) → Except RpcError (List (JsonTree N File))
  | [] => .ok []
  | t :: rest => do
      let t' ← restore fields s!"{path}[{index}]" depth t
      let rest' ← restoreItems fields path (index + 1) depth rest
      return t' :: rest'

def restoreEntries (fields : String → Option (Field N)) (path : String) (depth : Nat) :
    List (String × Json N) → Except RpcError (List (String × JsonTree N File))
  | [] => .ok []
  | (key, t) :: rest => do
      let t' ← restore fields s!"{path}.{key}" depth t
      let rest' ← restoreEntries fields path depth rest
      return (key, t') :: rest'
end

/-- Copy the string fields of a form. -/
def readTexts (fields : String → Option (Field N)) :
    List String → Body N → Except RpcError (Body N)
  | [], body => .ok body
  | key :: rest, body =>
      match fields key with
      | none => readTexts fields rest body
      | some (.one (.text s)) => readTexts fields rest (body.set key (.text s))
      | some (.one (.json v)) => readTexts fields rest (body.set key (.jsonText v))
      | some _ => .error (.invalid key)

/-- Copy and parse the JSON fields of a form. -/
def readJsons (server : Server N) (fields : String → Option (Field N)) :
    List String → (String → Option (Json N)) → Except RpcError (String → Option (Json N))
  | [], parsed => .ok parsed
  | key :: rest, parsed =>
      match fields key with
      | none => readJsons server fields rest parsed
      | some (.one (.json v)) =>
          readJsons server fields rest fun k => if k = key then some v else parsed k
      | some (.one (.text s)) =>
          match server.parseText s with
          | none => .error (.invalid key)
          | some v => readJsons server fields rest fun k => if k = key then some v else parsed k
      | some _ => .error (.invalid key)

/-- JSON data holds no files. -/
def ofJson : Json N → JsonTree N File := JsonTree.bind fun e => nomatch e

def BodyValue.ofJson : Json N → BodyValue N
  | .str s => .text s
  | v => .tree (Core.ofJson v)

def readMultipart (server : Server N) (form : FormData N) : Except RpcError (Body N) := do
  let fields := server.parseBody form
  let texts ← readTexts fields textKeys .empty
  let parsed ← readJsons server fields jsonKeys fun _ => none
  let payload ← restore fields "payload" 0 ((parsed "payload").getD (.arr []))
  return fun key =>
    if key = "payload" then some (.tree payload)
    else
      match parsed key with
      | some v => some (.ofJson v)
      | none => texts key

def validateTexts (body : Body N) : List String → Except RpcError Unit
  | [] => .ok ()
  | key :: rest =>
      match body key with
      | none | some (.jsonText _) => validateTexts body rest
      | some (.text s) => if JsString.isBlank s then .error (.invalid key) else validateTexts body rest
      | some (.tree _) => .error (.invalid key)

def validateObjects (body : Body N) : List String → Except RpcError Unit
  | [] => .ok ()
  | key :: rest =>
      match body key with
      | none | some (.tree (.obj _)) => validateObjects body rest
      | some _ => .error (.invalid key)

def validateBody (body : Body N) : Except RpcError (Body N) := do
  validateTexts body textKeys
  match body "payload" with
  | none | some (.tree (.arr _)) => validateObjects body objectKeys
  | some _ => .error (.invalid "payload")
  return body

def readRpcRequest (server : Server N) (request : Request N) : Except RpcError (Body N) :=
  match request with
  | .multipart form =>
      if server.size request > server.uploadBytes then .error .tooLarge
      else readMultipart server form >>= validateBody
  | .json body =>
      if server.size request > server.jsonBytes then .error .tooLarge
      else
        match body with
        | .obj entries => validateBody fun key => (JsonTree.lookup entries key).map .ofJson
        | _ => .error (.invalid "(root)")

end Cossack.Core
