import Cossack.Core.RpcRoundTrip
import Cossack.Lib.Entries
import Mathlib

/-! # What the server reads of a request

    `readRpcRequest` on the requests the client builds: the form has every
    field and every file under its own name, so that the body is accepted
    exactly when the payload is restored, and the theorem on the whole way from
    the argument list of the client to the one of the server. -/

namespace Cossack.Core

open JsonTree (lookup leaves leavesItems leavesEntries Everywhere everywhere_arr everywhere_obj
  everywhere_scalar)

variable {N : Type}

/-! ## Section 1: The client's validation -/

theorem snapshotValue_within {t : Payload N} :
    ∀ path depth, Everywhere Within depth t → snapshotValue path depth t = .ok t := by
  induction t using JsonTree.ind with
  | null | bool | num | str | leaf =>
    intro path depth h
    have hd : ¬ depth > maximumDepth := Nat.not_lt.mpr h.root
    simp [snapshotValue, hd]
  | arr items ih =>
    intro path depth h
    have hd : ¬ depth > maximumDepth := Nat.not_lt.mpr h.root
    have hitems := (everywhere_arr.mp h).2
    have hall : ∀ index, snapshotItems path index (depth + 1) items = .ok items := by
      clear h hd
      induction items with
      | nil => exact fun _ => rfl
      | cons t rest ihr =>
        intro index
        have ht := ih t List.mem_cons_self s!"{path}[{index}]" _
          (hitems t List.mem_cons_self)
        have hrest := ihr (fun u hu => ih u (List.mem_cons_of_mem _ hu))
          (fun u hu => hitems u (List.mem_cons_of_mem _ hu)) (index + 1)
        simp only [snapshotItems, ht, hrest, Outcome.ok_bind]
        rfl
    simp [snapshotValue, hd, hall, Except.map]
  | obj entries ih =>
    intro path depth h
    have hd : ¬ depth > maximumDepth := Nat.not_lt.mpr h.root
    have hentries := (everywhere_obj.mp h).2
    have hall : snapshotEntries path (depth + 1) entries = .ok entries := by
      clear h hd
      induction entries with
      | nil => rfl
      | cons e rest ihr =>
        have he := ih e List.mem_cons_self (if path = "" then e.1 else s!"{path}.{e.1}") _
          (hentries e List.mem_cons_self)
        have hrest := ihr (fun u hu => ih u (List.mem_cons_of_mem _ hu))
          (fun u hu => hentries u (List.mem_cons_of_mem _ hu))
        simp only [snapshotEntries, he, hrest, Outcome.ok_bind]
        rfl
    simp [snapshotValue, hd, hall, Except.map]

theorem within_of_snapshotValue {t : Payload N} :
    ∀ {path depth u}, snapshotValue path depth t = .ok u → Everywhere Within depth t := by
  induction t using JsonTree.ind with
  | null | bool | num | str | leaf =>
    intro path depth u h
    refine (everywhere_scalar rfl).mpr ?_
    by_contra hd
    have hgt : depth > maximumDepth := Nat.not_le.mp hd
    simp [snapshotValue, hgt] at h
  | arr items ih =>
    intro path depth u h
    by_cases hd : depth > maximumDepth
    · simp [snapshotValue, hd] at h
    · simp only [snapshotValue, hd, if_false] at h
      obtain ⟨items', hitems, -⟩ := Outcome.map_eq_ok.mp h
      refine everywhere_arr.mpr ⟨Nat.not_lt.mp hd, ?_⟩
      clear h hd
      generalize 0 = index at hitems
      induction items generalizing items' index with
      | nil => simp
      | cons t rest ihr =>
        simp only [snapshotItems] at hitems
        obtain ⟨v, hv, hitems⟩ := Outcome.bind_eq_ok.mp hitems
        obtain ⟨vs, hvs, -⟩ := Outcome.bind_eq_ok.mp hitems
        have h₁ := ih t List.mem_cons_self hv
        have h₂ := ihr (fun u hu => ih u (List.mem_cons_of_mem _ hu)) vs _ hvs
        exact List.forall_mem_cons.mpr ⟨h₁, h₂⟩
  | obj entries ih =>
    intro path depth u h
    by_cases hd : depth > maximumDepth
    · simp [snapshotValue, hd] at h
    · simp only [snapshotValue, hd, if_false] at h
      obtain ⟨entries', hentries, -⟩ := Outcome.map_eq_ok.mp h
      refine everywhere_obj.mpr ⟨Nat.not_lt.mp hd, ?_⟩
      clear h hd
      induction entries generalizing entries' with
      | nil => simp
      | cons e rest ihr =>
        simp only [snapshotEntries] at hentries
        obtain ⟨v, hv, hentries⟩ := Outcome.bind_eq_ok.mp hentries
        obtain ⟨vs, hvs, -⟩ := Outcome.bind_eq_ok.mp hentries
        have h₁ := ih e List.mem_cons_self hv
        have h₂ := ihr (fun u hu => ih u (List.mem_cons_of_mem _ hu)) vs hvs
        exact List.forall_mem_cons.mpr ⟨h₁, h₂⟩

/-- Validation is the depth limit, and changes no accepted value. -/
theorem snapshotRpcValue_eq_ok {path : String} {t u : Payload N} :
    snapshotRpcValue t path = .ok u ↔ Everywhere Within 0 t ∧ u = t := by
  constructor
  · intro h
    have hin := within_of_snapshotValue h
    have hsame := snapshotValue_within path 0 hin
    rw [snapshotRpcValue, hsame] at h
    cases h
    exact ⟨hin, rfl⟩
  · rintro ⟨hin, rfl⟩
    exact snapshotValue_within path 0 hin

/-! ## Section 2: The form -/

theorem FormData.set_fresh {form : FormData N} {name : String} (part : Part N)
    (h : name ∉ form.map Prod.fst) : form.set name part = form ++ [(name, part)] := by
  have hany : form.any (·.1 == name) = false := by
    rw [List.any_eq_false]
    intro e he
    have hne : e.1 ≠ name := fun heq => h (List.mem_map.mpr ⟨e, he, heq⟩)
    simpa using hne
  simp [FormData.set, hany]

theorem foldl_set_fresh {files : Files} {form : FormData N}
    (h : (form.map Prod.fst ++ files.map Prod.fst).Nodup) :
    files.foldl (fun form e => FormData.set form e.1 (.file e.2)) form =
      form ++ files.map fun e => (e.1, Part.file e.2) := by
  induction files generalizing form with
  | nil => simp
  | cons e rest ih =>
    have hfresh : e.1 ∉ form.map Prod.fst := by
      intro hmem
      exact (List.nodup_append.mp h).2.2 _ hmem _ (by simp) rfl
    have hnodup : ((form ++ [(e.1, Part.file e.2)]).map Prod.fst ++ rest.map Prod.fst).Nodup := by
      simpa using h
    rw [List.foldl_cons, FormData.set_fresh _ hfresh, ih hnodup]
    simp

theorem numbered_keys (fs : List File) :
    (numbered fs).map Prod.fst = (List.range fs.length).map fileId := by
  have hmap : (numbered fs).map Prod.fst = (fs.zipIdx.map Prod.snd).map fileId := by
    rw [numbered, List.map_map, List.map_map]
    rfl
  rw [hmap, List.zipIdx_map_snd, List.range_eq_range']

theorem mem_numbered {fs : List File} {i : Nat} {f : File} (h : fs[i]? = some f) :
    (fileId i, f) ∈ numbered fs := by
  refine List.mem_map.mpr ⟨(f, i), ?_, rfl⟩
  exact List.mk_mem_zipIdx_iff_getElem?.mpr h

/-- No field of a request is named like a file. -/
theorem fileId_not_key (n : Nat) : fileId n ∉ textKeys ++ jsonKeys := by
  intro hmem
  have hall : ∀ key ∈ textKeys ++ jsonKeys, isFileId key = false := by decide
  have := hall _ hmem
  rw [isFileId_fileId] at this
  exact Bool.noConfusion this

theorem Envelope.key_mem (env : Envelope N) {key : String} (h : key ∈ env.fields.map Prod.fst) :
    key ∈ textKeys ++ jsonKeys ∧ key ≠ "payload" := by
  obtain ⟨e, he, rfl⟩ := List.mem_map.mp h
  have hvalid := env.valid e he
  cases hfield : e.2 with
  | text s =>
    rw [hfield] at hvalid
    have hkey : e.1 ∈ textKeys := hvalid.1
    have hne : ∀ key ∈ textKeys, key ≠ "payload" := by decide
    exact ⟨List.mem_append_left _ hkey, hne _ hkey⟩
  | object entries =>
    rw [hfield] at hvalid
    have hkey : e.1 ∈ objectKeys := hvalid
    have hsub : ∀ key ∈ objectKeys, key ∈ textKeys ++ jsonKeys ∧ key ≠ "payload" := by decide
    exact hsub _ hkey

/-- The form of a request, its payload and its numbered files. -/
def form (env : Envelope N) (payload : Json N) (fs : List File) : FormData N :=
  env.fields.map (fun e => (e.1, e.2.part)) ++ [("payload", .json payload)] ++
    (numbered fs).map fun e => (e.1, .file e.2)

theorem form_keys (env : Envelope N) (payload : Json N) (fs : List File) :
    (form env payload fs).map Prod.fst =
      (env.fields.map Prod.fst ++ ["payload"]) ++ (numbered fs).map Prod.fst := by
  simp [form, Function.comp_def]

theorem form_nodup (env : Envelope N) (payload : Json N) (fs : List File) :
    ((form env payload fs).map Prod.fst).Nodup := by
  rw [form_keys, numbered_keys]
  have hpayload : ("payload" : String) ∉ env.fields.map Prod.fst := fun h => (env.key_mem h).2 rfl
  have hids : ((List.range fs.length).map fileId).Nodup :=
    List.nodup_range.map fun _ _ => fileId_injective
  refine List.nodup_append.mpr ⟨?_, hids, ?_⟩
  · refine List.nodup_append.mpr ⟨env.nodup, by simp, ?_⟩
    intro key hkey key' hkey' heq
    rw [heq, List.mem_singleton.mp hkey'] at hkey
    exact hpayload hkey
  · intro key hkey id hid heq
    obtain ⟨n, -, rfl⟩ := List.mem_map.mp hid
    refine fileId_not_key n ?_
    rw [← heq]
    rcases List.mem_append.mp hkey with h | h
    · exact (env.key_mem h).1
    · rw [List.mem_singleton.mp h]
      decide

theorem rpcFormData_eq (env : Envelope N) (payload : Json N) (fs : List File) :
    rpcFormData env.fields payload (numbered fs) = form env payload fs := by
  refine foldl_set_fresh ?_
  have h := form_nodup env payload fs
  rw [form_keys] at h
  simpa [Function.comp_def] using h

/-! ## Section 3: Reading the form -/

theorem Server.parseBody_mem (server : Server N) {form : FormData N} {name : String} {part : Part N}
    (h : (form.map Prod.fst).Nodup) (hmem : (name, part) ∈ form) :
    server.parseBody form name = some (.one part) :=
  server.parseBody_one form name part (Entries.filter_of_mem h hmem)

theorem Server.parseBody_not_mem (server : Server N) {form : FormData N} {name : String}
    (h : name ∉ form.map Prod.fst) : server.parseBody form name = none :=
  server.parseBody_none form name (Entries.filter_of_not_mem h)

/-- The server sees every file under its id. -/
theorem delivers (server : Server N) (env : Envelope N) (payload : Json N) (fs : List File) :
    Delivers (server.parseBody (form env payload fs)) fs := by
  intro i f hf
  refine server.parseBody_mem (form_nodup env payload fs) ?_
  refine List.mem_append_right _ (List.mem_map.mpr ⟨(fileId i, f), mem_numbered hf, rfl⟩)

/-- What the server sees under the name of a field of the request. -/
theorem parseBody_field (server : Server N) (env : Envelope N) (payload : Json N) (fs : List File)
    {key : String} (hkey : key ∈ textKeys ++ jsonKeys) (hne : key ≠ "payload") :
    server.parseBody (form env payload fs) key = none ∨
      ∃ field, (key, field) ∈ env.fields ∧
        server.parseBody (form env payload fs) key = some (.one field.part) := by
  rcases Entries.exists_or_not_mem env.fields key with ⟨field, hmem⟩ | hnone
  · refine .inr ⟨field, hmem, server.parseBody_mem (form_nodup env payload fs) ?_⟩
    have : (key, field.part) ∈ env.fields.map fun e => (e.1, e.2.part) :=
      List.mem_map.mpr ⟨(key, field), hmem, rfl⟩
    simp only [form, List.mem_append]
    exact .inl (.inl this)
  · refine .inl (server.parseBody_not_mem ?_)
    rw [form_keys, numbered_keys]
    intro hmem
    rcases List.mem_append.mp hmem with h | h
    · rcases List.mem_append.mp h with h | h
      · exact hnone h
      · exact hne (List.mem_singleton.mp h)
    · obtain ⟨n, -, rfl⟩ := List.mem_map.mp h
      exact fileId_not_key n hkey

/-- A form field that is absent or a string of the request. -/
def TextField (fields : String → Option (Field N)) (key : String) : Prop :=
  fields key = none ∨ ∃ s, fields key = some (.one (.text s)) ∧ JsString.isBlank s = false

/-- A body value that is absent or a string of the request. -/
def TextValue (body : Body N) (key : String) : Prop :=
  body key = none ∨ ∃ s, body key = some (.text s) ∧ JsString.isBlank s = false

theorem readTexts_ok {fields : String → Option (Field N)} {keys : List String} (body : Body N)
    (h : ∀ key ∈ keys, TextField fields key) :
    ∃ body', readTexts fields keys body = .ok body' ∧
      (∀ key, TextValue body key → TextValue body' key) ∧
      (∀ key, key ∉ keys → body' key = body key) := by
  induction keys generalizing body with
  | nil => exact ⟨body, rfl, fun _ h => h, fun _ _ => rfl⟩
  | cons key rest ih =>
    have hrest : ∀ key ∈ rest, TextField fields key := fun k hk => h k (List.mem_cons_of_mem _ hk)
    rcases h key List.mem_cons_self with hnone | ⟨s, hs, hblank⟩
    · obtain ⟨body', hread, hkeep, hframe⟩ := ih body hrest
      refine ⟨body', by simp [readTexts, hnone, hread], hkeep, fun k hk => ?_⟩
      exact hframe k fun hmem => hk (List.mem_cons_of_mem _ hmem)
    · obtain ⟨body', hread, hkeep, hframe⟩ := ih (body.set key (.text s)) hrest
      refine ⟨body', by simp [readTexts, hs, hread], fun k hk => hkeep k ?_, fun k hk => ?_⟩
      · by_cases heq : k = key
        · exact .inr ⟨s, by simp [Body.set, heq], hblank⟩
        · simpa [TextValue, Body.set, heq] using hk
      · rw [hframe k fun hmem => hk (List.mem_cons_of_mem _ hmem)]
        have hne : k ≠ key := fun heq => hk (heq ▸ List.mem_cons_self)
        simp [Body.set, hne]

/-- The JSON value of a form field, if it is one the client wrote. -/
def jsonField (fields : String → Option (Field N)) (key : String) : Option (Json N) :=
  match fields key with
  | some (.one (.json v)) => some v
  | _ => none

theorem readJsons_ok (server : Server N) {fields : String → Option (Field N)} {keys : List String}
    (parsed : String → Option (Json N))
    (h : ∀ key ∈ keys, fields key = none ∨ ∃ v, fields key = some (.one (.json v))) :
    ∃ parsed', readJsons server fields keys parsed = .ok parsed' ∧
      ∀ key, parsed' key = if key ∈ keys then (jsonField fields key).or (parsed key)
        else parsed key := by
  induction keys generalizing parsed with
  | nil => exact ⟨parsed, rfl, fun _ => by simp⟩
  | cons key rest ih =>
    have hrest : ∀ key ∈ rest, fields key = none ∨ ∃ v, fields key = some (.one (.json v)) :=
      fun k hk => h k (List.mem_cons_of_mem _ hk)
    rcases h key List.mem_cons_self with hnone | ⟨v, hv⟩
    · obtain ⟨parsed', hread, hspec⟩ := ih parsed hrest
      refine ⟨parsed', by simp [readJsons, hnone, hread], fun k => ?_⟩
      by_cases heq : k = key
      · have hjson : jsonField fields k = none := by simp [jsonField, heq, hnone]
        simp [hspec, hjson]
      · simp [hspec, heq]
    · obtain ⟨parsed', hread, hspec⟩ :=
        ih (fun k => if k = key then some v else parsed k) hrest
      refine ⟨parsed', by simp [readJsons, hv, hread], fun k => ?_⟩
      by_cases heq : k = key
      · subst heq
        have hjson : jsonField fields k = some v := by simp [jsonField, hv]
        simp [hspec, hjson]
      · simp [hspec, heq]

theorem validateTexts_ok {body : Body N} {keys : List String}
    (h : ∀ key ∈ keys, TextValue body key) : validateTexts body keys = .ok () := by
  induction keys with
  | nil => rfl
  | cons key rest ih =>
    have hrest := ih fun k hk => h k (List.mem_cons_of_mem _ hk)
    rcases h key List.mem_cons_self with hnone | ⟨s, hs, hblank⟩
    · simp [validateTexts, hnone, hrest]
    · simp [validateTexts, hs, hblank, hrest]

theorem validateObjects_ok {body : Body N} {keys : List String}
    (h : ∀ key ∈ keys, body key = none ∨ ∃ entries, body key = some (.tree (.obj entries))) :
    validateObjects body keys = .ok () := by
  induction keys with
  | nil => rfl
  | cons key rest ih =>
    have hrest := ih fun k hk => h k (List.mem_cons_of_mem _ hk)
    rcases h key List.mem_cons_self with hnone | ⟨entries, hobj⟩
    · simp [validateObjects, hnone, hrest]
    · simp [validateObjects, hobj, hrest]

/-- A body with the fields of a request is accepted with its arguments. -/
theorem validateBody_ok {body : Body N} {args : List (JsonTree N File)}
    (htexts : ∀ key ∈ textKeys, TextValue body key)
    (hpayload : body "payload" = some (.tree (.arr args)))
    (hobjects : ∀ key ∈ objectKeys,
      body key = none ∨ ∃ entries, body key = some (.tree (.obj entries))) :
    validateBody body = .ok body := by
  simp only [validateBody, validateTexts_ok htexts, hpayload, validateObjects_ok hobjects]
  rfl

theorem validateBody_same {body body' : Body N} (h : validateBody body = .ok body') :
    body' = body := by
  simp only [validateBody] at h
  obtain ⟨_, -, h⟩ := Outcome.bind_eq_ok.mp h
  split at h
  · obtain ⟨_, -, h⟩ := Outcome.bind_eq_ok.mp h
    exact (Outcome.pure_eq_ok.mp h).symm
  · obtain ⟨_, -, h⟩ := Outcome.bind_eq_ok.mp h
    exact (Outcome.pure_eq_ok.mp h).symm
  · obtain ⟨_, h, -⟩ := Outcome.bind_eq_ok.mp h
    exact nomatch h

/-- The other fields of a body as a request has them. -/
def Framed (body : Body N) : Prop :=
  (∀ key ∈ textKeys, TextValue body key) ∧
    ∀ key ∈ objectKeys, body key = none ∨ ∃ entries, body key = some (.tree (.obj entries))

theorem parseBody_text (server : Server N) (env : Envelope N) (payload : Json N) (fs : List File)
    {key : String} (hkey : key ∈ textKeys) :
    TextField (server.parseBody (form env payload fs)) key := by
  have hne : ∀ key ∈ textKeys, key ≠ "payload" ∧ key ∉ objectKeys := by decide
  rcases parseBody_field server env payload fs (List.mem_append_left _ hkey) (hne _ hkey).1 with
    hnone | ⟨field, hmem, hfield⟩
  · exact .inl hnone
  · have hvalid := env.valid _ hmem
    cases field with
    | text s => exact .inr ⟨s, hfield, hvalid.2⟩
    | object entries => exact absurd hvalid (hne _ hkey).2

theorem parseBody_object (server : Server N) (env : Envelope N) (payload : Json N) (fs : List File)
    {key : String} (hkey : key ∈ objectKeys) :
    server.parseBody (form env payload fs) key = none ∨
      ∃ entries, server.parseBody (form env payload fs) key = some (.one (.json (.obj entries))) := by
  have hne : ∀ key ∈ objectKeys, key ≠ "payload" ∧ key ∉ textKeys ∧ key ∈ textKeys ++ jsonKeys := by
    decide
  obtain ⟨hpayload, htext, hmem⟩ := hne _ hkey
  rcases parseBody_field server env payload fs hmem hpayload with hnone | ⟨field, hfields, hfield⟩
  · exact .inl hnone
  · have hvalid := env.valid _ hfields
    cases field with
    | text s => exact absurd hvalid.1 htext
    | object entries => exact .inr ⟨entries, hfield⟩

theorem parseBody_payload (server : Server N) (env : Envelope N) (payload : Json N)
    (fs : List File) :
    server.parseBody (form env payload fs) "payload" = some (.one (.json payload)) :=
  server.parseBody_mem (form_nodup env payload fs) (by simp [form])

/-- The body of a form: the restored arguments, the parsed fields, then the texts. -/
def formBody (parsed : String → Option (Json N)) (texts : Body N) (args : JsonTree N File) : Body N :=
  fun key => if key = "payload" then some (.tree args) else
    match parsed key with
    | some v => some (.ofJson v)
    | none => texts key

/-- Reading the form of a request is restoring its payload. -/
theorem readMultipart_form (server : Server N) (env : Envelope N) (payload : Json N)
    (fs : List File) :
    ∃ body : JsonTree N File → Body N,
      (∀ args, body args "payload" = some (.tree args) ∧ Framed (body args)) ∧
      readMultipart server (form env payload fs) =
        (restore (server.parseBody (form env payload fs)) "payload" 0 payload).map body := by
  have hjsons : ∀ key ∈ jsonKeys, server.parseBody (form env payload fs) key = none ∨
      ∃ v, server.parseBody (form env payload fs) key = some (.one (.json v)) := by
    intro key hkey
    have hsplit : ∀ key ∈ jsonKeys, key = "payload" ∨ key ∈ objectKeys := by decide
    rcases hsplit key hkey with rfl | hobj
    · exact .inr ⟨payload, parseBody_payload server env payload fs⟩
    · rcases parseBody_object server env payload fs hobj with hnone | ⟨entries, h⟩
      · exact .inl hnone
      · exact .inr ⟨_, h⟩
  obtain ⟨texts, htexts, hkeep, hframe⟩ := readTexts_ok .empty
    fun key hkey => parseBody_text server env payload fs hkey
  obtain ⟨parsed, hparsed, hspec⟩ := readJsons_ok server (fun _ => none) hjsons
  have hpayload : parsed "payload" = some payload := by
    have hmem : ("payload" : String) ∈ jsonKeys := by decide
    simp [hspec, hmem, jsonField, parseBody_payload]
  refine ⟨formBody parsed texts, fun args => ⟨if_pos rfl, ?_, ?_⟩, ?_⟩
  · intro key hkey
    have hne : ∀ key ∈ textKeys, key ≠ "payload" ∧ key ∉ jsonKeys := by decide
    have hnone : parsed key = none := by simp [hspec, (hne key hkey).2]
    have htext : TextValue texts key := hkeep key (.inl rfl)
    simpa [formBody, TextValue, hnone, (hne key hkey).1] using htext
  · intro key hkey
    have hne : ∀ key ∈ objectKeys, key ≠ "payload" ∧ key ∉ textKeys ∧ key ∈ jsonKeys := by decide
    obtain ⟨hpay, hnt, hj⟩ := hne key hkey
    have htext : texts key = none := hframe key hnt
    rcases parseBody_object server env payload fs hkey with hnone | ⟨entries, h⟩
    · have hp : parsed key = none := by simp [hspec, jsonField, hnone]
      exact .inl (by simp [formBody, hpay, hp, htext])
    · have hp : parsed key = some (.obj entries) := by simp [hspec, hj, jsonField, h]
      refine .inr ⟨entries.map fun e => (e.1, ofJson e.2), ?_⟩
      simp [formBody, hpay, hp, BodyValue.ofJson, ofJson_obj]
  · simp only [readMultipart, htexts, hparsed, hpayload, Outcome.ok_bind, Option.getD_some]
    rfl

/-- The server gets the arguments `args` out of a request. -/
def Receives (server : Server N) (request : Request N) (args : List (JsonTree N File)) : Prop :=
  ∃ body, readRpcRequest server request = .ok body ∧ body "payload" = some (.tree (.arr args))

theorem receives_form (server : Server N) (env : Envelope N) (payload : Json N) (fs : List File)
    (args : List (JsonTree N File)) :
    Receives server (.multipart (form env payload fs)) args ↔
      server.size (.multipart (form env payload fs)) ≤ server.uploadBytes ∧
        restore (server.parseBody (form env payload fs)) "payload" 0 payload = .ok (.arr args) := by
  obtain ⟨body, hbody, hread⟩ := readMultipart_form server env payload fs
  by_cases hsize : server.size (.multipart (form env payload fs)) > server.uploadBytes
  · simp [Receives, readRpcRequest, hsize, Nat.not_le.mpr hsize]
  · have hle : server.size (.multipart (form env payload fs)) ≤ server.uploadBytes := by omega
    simp only [Receives, readRpcRequest, hsize, if_false, hle, true_and]
    rw [hread]
    constructor
    · rintro ⟨b, hb, hpay⟩
      obtain ⟨b', hb', hvalid⟩ := Outcome.bind_eq_ok.mp hb
      obtain ⟨restored, hrestored, rfl⟩ := Outcome.map_eq_ok.mp hb'
      rw [validateBody_same hvalid, (hbody restored).1] at hpay
      cases hpay
      exact hrestored
    · intro hrestored
      obtain ⟨hpay, htexts, hobjects⟩ := hbody (.arr args)
      refine ⟨body (.arr args), ?_, hpay⟩
      rw [hrestored]
      exact validateBody_ok htexts hpay hobjects

/-- The JSON body of a request. -/
def jsonBody (env : Envelope N) (payload : Json N) : List (String × Json N) :=
  env.fields.map (fun e => (e.1, e.2.json)) ++ [("payload", payload)]

theorem jsonBody_nodup (env : Envelope N) (payload : Json N) :
    ((jsonBody env payload).map Prod.fst).Nodup := by
  have h := form_nodup env payload []
  simpa [form, jsonBody, Function.comp_def] using h

theorem lookup_jsonBody (env : Envelope N) (payload : Json N) {key : String}
    (hne : key ≠ "payload") :
    lookup (jsonBody env payload) key = none ∨
      ∃ field, (key, field) ∈ env.fields ∧ lookup (jsonBody env payload) key = some field.json := by
  rcases Entries.exists_or_not_mem env.fields key with ⟨field, hmem⟩ | hnone
  · refine .inr ⟨field, hmem, ?_⟩
    have : (key, field.json) ∈ jsonBody env payload :=
      List.mem_append_left _ (List.mem_map.mpr ⟨(key, field), hmem, rfl⟩)
    simp [lookup, Entries.find_of_mem (jsonBody_nodup env payload) this]
  · refine .inl ?_
    have : key ∉ (jsonBody env payload).map Prod.fst := by
      simp only [jsonBody, List.map_append, List.map_map, List.mem_append, not_or]
      exact ⟨hnone, by simpa using hne⟩
    simp [lookup, Entries.find_of_not_mem this]

theorem receives_json (server : Server N) (env : Envelope N) (payload : Json N)
    (args : List (JsonTree N File)) :
    Receives server (.json (.obj (jsonBody env payload))) args ↔
      server.size (.json (.obj (jsonBody env payload))) ≤ server.jsonBytes ∧
        ofJson payload = .arr args := by
  have hpay : lookup (jsonBody env payload) "payload" = some payload := by
    have : ("payload", payload) ∈ jsonBody env payload := by simp [jsonBody]
    simp [lookup, Entries.find_of_mem (jsonBody_nodup env payload) this]
  by_cases hsize : server.size (.json (.obj (jsonBody env payload))) > server.jsonBytes
  · simp [Receives, readRpcRequest, hsize, Nat.not_le.mpr hsize]
  · have hle : server.size (.json (.obj (jsonBody env payload))) ≤ server.jsonBytes := by omega
    simp only [Receives, readRpcRequest, hsize, if_false, hle, true_and]
    constructor
    · rintro ⟨b, hb, hbpay⟩
      rw [validateBody_same hb] at hbpay
      simp only [hpay, Option.map_some, Option.some.injEq] at hbpay
      cases payload <;> simp [BodyValue.ofJson] at hbpay <;> exact hbpay
    · intro hargs
      have hvalue : BodyValue.ofJson payload = .tree (.arr args) := by
        cases payload <;> simp_all [BodyValue.ofJson, ofJson, JsonTree.bind]
      refine ⟨_, validateBody_ok ?_ (by rw [hpay, Option.map_some, hvalue]) ?_,
        by simp [hpay, hvalue]⟩
      · intro key hkey
        have hne : ∀ key ∈ textKeys, key ≠ "payload" ∧ key ∉ objectKeys := by decide
        rcases lookup_jsonBody env payload (hne key hkey).1 with hnone | ⟨field, hmem, hfield⟩
        · exact .inl (by simp [hnone])
        · have hvalid := env.valid _ hmem
          cases field with
          | text s => exact .inr ⟨s, by simp [hfield, BodyField.json, BodyValue.ofJson], hvalid.2⟩
          | object entries => exact absurd hvalid (hne key hkey).2
      · intro key hkey
        have hne : ∀ key ∈ objectKeys, key ≠ "payload" ∧ key ∉ textKeys := by decide
        rcases lookup_jsonBody env payload (hne key hkey).1 with hnone | ⟨field, hmem, hfield⟩
        · exact .inl (by simp [hnone])
        · have hvalid := env.valid _ hmem
          cases field with
          | text s => exact absurd hvalid.1 (hne key hkey).2
          | object entries =>
            refine .inr ⟨entries.map fun e => (e.1, ofJson e.2), ?_⟩
            simp [hfield, BodyField.json, BodyValue.ofJson, ofJson_obj]

/-! ## Section 4: The whole way -/

/-- Nothing in the arguments is mistaken for a value of the walks. -/
def Transparent (check : NativeCheck N) (args : List (Payload N)) : Prop :=
  Everywhere (Walked check) 0 (.arr args) ∧
    (uploads (.arr args) ≠ [] → Everywhere Restorable 0 (.arr args))

/-- The request is within the server's limit for its route. -/
def Fits (server : Server N) : Request N → Prop
  | .multipart form => server.size (.multipart form) ≤ server.uploadBytes
  | .json body => server.size (.json body) ≤ server.jsonBytes

/-- A payload that passes the client's validation is encoded, and the server
    gets it in JSON form with every file in place. -/
def RoundTrips (server : Server N) (walk : Files → Payload N → Except String (Json N × Files))
    (env : Envelope N) (args : List (Payload N)) : Prop :=
  ∀ normalized, snapshotRpcValue (.arr args) "payload" = .ok normalized →
    ∃ request, encodeRequest walk env args = .ok request ∧
      Receives server request (args.map expected)

/-- The request for a walked payload: a form exactly when there are files. -/
theorem encodeRequest_walked {check : NativeCheck N} (env : Envelope N) {args : List (Payload N)}
    {payload : Json N} {fs : List File} (hin : Everywhere Within 0 (.arr args))
    (hwalk : extractWith check [] (.arr args) = .ok (payload, numbered fs)) :
    encodeRequest (extractWith check) env args =
      .ok (if fs = [] then .json (.obj (jsonBody env payload))
        else .multipart (form env payload fs)) := by
  have hsnap : snapshotRpcValue (.arr args) "payload" = _ := snapshotValue_within "payload" 0 hin
  simp only [encodeRequest, hsnap, Outcome.ok_bind, hwalk, length_numbered, rpcFormData_eq]
  by_cases hfs : fs = []
  · simp only [hfs, List.length_nil, ne_eq, not_true_eq_false, if_false, if_true]
    rfl
  · have hlen : fs.length ≠ 0 := fun h => hfs (List.eq_nil_of_length_eq_zero h)
    simp only [hlen, hfs, ne_eq, not_false_eq_true, if_true, if_false]
    rfl

/-- A request that was built comes from a walk. -/
theorem walk_of_encodeRequest {check : NativeCheck N} {env : Envelope N} {args : List (Payload N)}
    {request : Request N} (hin : Everywhere Within 0 (.arr args))
    (h : encodeRequest (extractWith check) env args = .ok request) :
    ∃ payload fs, extractWith check [] (.arr args) = .ok (payload, numbered fs) := by
  have hsnap : snapshotRpcValue (.arr args) "payload" = _ := snapshotValue_within "payload" 0 hin
  simp only [encodeRequest, hsnap, Outcome.ok_bind] at h
  cases hwalk : extractWith check [] (.arr args) with
  | error message => simp [hwalk] at h
  | ok result =>
    obtain ⟨payload, files⟩ := result
    obtain ⟨fs, rfl⟩ := extractWith_numbered ⟨[], rfl⟩ hwalk
    exact ⟨payload, fs, rfl⟩

/-- What arrives in place was walked, and restored where there were files. -/
theorem transparent_of_receives {server : Server N} {check : NativeCheck N} {env : Envelope N}
    {args : List (Payload N)} {payload : Json N} {fs : List File}
    (hwalk : extractWith check [] (.arr args) = .ok (payload, numbered fs))
    (h : Receives server (if fs = [] then .json (.obj (jsonBody env payload))
      else .multipart (form env payload fs)) (args.map expected)) :
    Transparent check args := by
  by_cases hfs : fs = []
  · rw [if_pos hfs] at h
    have hjson := ((receives_json server env payload _).mp h).2
    rw [← expected_arr] at hjson
    have hwalked : Everywhere (Walked check) 0 (.arr args) := walked_of_ofJson 0 hwalk hjson
    refine ⟨hwalked, fun hne => absurd ?_ hne⟩
    obtain ⟨payload', hwalk', -⟩ := carries check (.arr args) [] 0 hwalked
    rw [numbered_nil, hwalk, hfs, List.nil_append] at hwalk'
    have hlen := congrArg List.length (Prod.mk.inj (Except.ok.inj hwalk')).2
    simp only [length_numbered, List.length_nil] at hlen
    exact List.eq_nil_of_length_eq_zero hlen.symm
  · rw [if_neg hfs] at h
    have hrestore := ((receives_form server env payload fs _).mp h).2
    rw [← expected_arr] at hrestore
    obtain ⟨hwalked, hrestorable⟩ := transparent_of_restore hwalk hrestore
    exact ⟨hwalked, fun _ => hrestorable⟩

theorem receives_of_transparent {server : Server N} {check : NativeCheck N} {env : Envelope N}
    {args : List (Payload N)} (hin : Everywhere Within 0 (.arr args))
    (h : Transparent check args)
    (hfits : ∀ request, encodeRequest (extractWith check) env args = .ok request →
      Fits server request) :
    ∃ request, encodeRequest (extractWith check) env args = .ok request ∧
      Receives server request (args.map expected) := by
  obtain ⟨hwalked, hrestorable⟩ := h
  obtain ⟨payload, hwalk, hjson, hrestore⟩ := carries check (.arr args) [] 0 hwalked
  rw [List.nil_append] at hwalk
  have hencode := encodeRequest_walked env hin hwalk
  refine ⟨_, hencode, ?_⟩
  have hsize := hfits _ hencode
  by_cases hnone : uploads (.arr args) = []
  · rw [if_pos hnone] at hsize ⊢
    refine (receives_json server env payload _).mpr ⟨hsize, ?_⟩
    rw [hjson hnone, expected_arr]
  · rw [if_neg hnone] at hsize ⊢
    refine (receives_form server env payload _ _).mpr ⟨hsize, ?_⟩
    rw [← expected_arr]
    exact hrestore _ "payload" hin (hrestorable hnone) (delivers server env payload _)

theorem roundTrips_iff (server : Server N) (check : NativeCheck N) (env : Envelope N)
    (args : List (Payload N)) :
    RoundTrips server (extractWith check) env args ↔
      (Everywhere Within 0 (.arr args) → Transparent check args ∧
        ∀ request, encodeRequest (extractWith check) env args = .ok request →
          Fits server request) := by
  constructor
  · intro h hin
    obtain ⟨request, hencode, hreceives⟩ :=
      h _ (snapshotValue_within "payload" 0 hin)
    obtain ⟨payload, fs, hwalk⟩ := walk_of_encodeRequest hin hencode
    have heq := encodeRequest_walked env hin hwalk
    rw [hencode] at heq
    have hrequest := Except.ok.inj heq
    rw [hrequest] at hreceives
    refine ⟨transparent_of_receives hwalk hreceives, fun request' hencode' => ?_⟩
    rw [hencode] at hencode'
    rw [← Except.ok.inj hencode', hrequest]
    by_cases hfs : fs = []
    · rw [if_pos hfs] at hreceives ⊢
      exact ((receives_json server env payload _).mp hreceives).1
    · rw [if_neg hfs] at hreceives ⊢
      exact ((receives_form server env payload fs _).mp hreceives).1
  · intro h normalized hsnap
    obtain ⟨hin, -⟩ := snapshotRpcValue_eq_ok.mp hsnap
    obtain ⟨htransparent, hfits⟩ := h hin
    exact receives_of_transparent hin htransparent hfits

/-- The round trip of the component proxies and of scoped services. -/
theorem payload_round_trip_iff [Zero N] [DecidableEq N] (server : Server N) (env : Envelope N)
    (args : List (Payload N)) :
    (RoundTrips server extractFilesFromArg env args ↔
      (Everywhere Within 0 (.arr args) → Transparent constructorCheck args ∧
        ∀ request, encodeRequest extractFilesFromArg env args = .ok request →
          Fits server request)) ∧
    (RoundTrips server extract env args ↔
      (Everywhere Within 0 (.arr args) → Transparent (fun _ => .ok false) args ∧
        ∀ request, encodeRequest extract env args = .ok request → Fits server request)) :=
  ⟨roundTrips_iff server constructorCheck env args, roundTrips_iff server _ env args⟩

/-- A server that keeps the parts of a form by name and has no size limit in
    reach. -/
def unlimited : Server Int where
  parseBody form name :=
    match form.filter (·.1 == name) with
    | [] => none
    | [e] => some (.one e.2)
    | es => some (.many (es.map Prod.snd))
  parseText _ := none
  size _ := 0
  parseBody_one form name part h := by simp [h]
  parseBody_none form name h := by simp [h]

def noFields : Envelope Int := ⟨[], List.nodup_nil, fun _ h => absurd h List.not_mem_nil⟩

def greeting : File := ⟨"a.txt", "text/plain", [104, 105]⟩

/-- A file and a data object that looks like its placeholder. -/
def lookalike : List (Payload Int) :=
  [.leaf (.file greeting), .obj [("_cossack_file_id", .str "file_0")]]

theorem restore_twice {fields : String → Option (Field Int)} (h : Delivers fields [greeting]) :
    restore fields "payload" 0 (.arr [.obj [(fileMarker, .str (fileId 0))],
      .obj [(fileMarker, .str (fileId 0))]]) = .ok (.arr [.leaf greeting, .leaf greeting]) := by
  have hone : ∀ path, restore fields path 1 (.obj [(fileMarker, .str (fileId 0))]) =
      .ok (.leaf greeting) :=
    fun path => restore_placeholder (show Delivers fields ([] ++ [greeting]) from h) path (by decide)
  rw [restore, if_neg (by decide)]
  simp only [restoreItems, Nat.zero_add, hone, Outcome.ok_bind]
  rfl

/-- The data object arrives as a second copy of the file. -/
theorem lookalike_replaced :
    (∃ request, encodeRequest extractFilesFromArg noFields lookalike = .ok request ∧
      Receives unlimited request [.leaf greeting, .leaf greeting]) ∧
    ¬ RoundTrips unlimited extractFilesFromArg noFields lookalike := by
  have hin : Everywhere Within 0 (.arr lookalike) := by
    simp [lookalike, Everywhere, JsonTree.nodes, Within, maximumDepth]
  have hid : fileId 0 = "file_0" := by decide
  have hwalk : extractFilesFromArg [] (.arr lookalike) =
      .ok (.arr [.obj [(fileMarker, .str (fileId 0))], .obj [(fileMarker, .str (fileId 0))]],
        numbered [greeting]) := by
    rw [hid]
    rfl
  constructor
  · refine ⟨_, encodeRequest_walked noFields hin hwalk, ?_⟩
    refine (receives_form _ _ _ _ _).mpr ⟨Nat.zero_le _, ?_⟩
    exact restore_twice (delivers unlimited noFields _ [greeting])
  · intro h
    obtain ⟨⟨-, hrestorable⟩, -⟩ := (roundTrips_iff _ _ _ _).mp h hin
    have huploads : uploads (.arr lookalike) ≠ [] := by
      simp [uploads, leaves, leavesItems, lookalike, Upload.files]
    have hobject := (everywhere_arr.mp (hrestorable huploads)).2
      (.obj [("_cossack_file_id", .str "file_0")]) (by simp [lookalike])
    have hkey : JsonTree.hasKey _ fileMarker = false := hobject.root
    simp [JsonTree.hasKey, fileMarker] at hkey

end Cossack.Core
