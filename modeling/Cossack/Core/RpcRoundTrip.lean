import Cossack.Core.RpcFiles
import Cossack.Lib.Outcome

/-! # Round trip of payloads with files

    The arguments the server restores are the client's arguments in JSON form
    with every file at its place, exactly when no data object of the payload
    can be mistaken for one of the walks' own values: an object with the
    placeholder's key, an object whose `constructor.name` looks like a browser
    event, or a file list at the deepest level. -/

namespace Cossack.Core

open JsonTree (hasKey lookup leaves leavesItems leavesEntries Everywhere everywhere_arr everywhere_obj
  everywhere_scalar)

variable {N : Type}

-- the equations of the walks are generated here once, before the lemmas that need them
section

attribute [local simp] extractWith restore leaves JsonTree.bind

end

/-! ## Section 1: Numbered files -/

theorem fileId_injective {m n : Nat} (h : fileId m = fileId n) : m = n := by
  apply JsString.toString_injective
  have := congrArg String.toList h
  simp only [fileId, String.toList_append] at this
  exact String.toList_inj.mp (List.append_cancel_left this)

theorem isFileId_fileId (n : Nat) : isFileId (fileId n) = true := by
  have hlist : (fileId n).toList = "file_".toList ++ (toString n).toList := by
    simp [fileId]
  have hdrop : (fileId n).toList.drop 5 = (toString n).toList := by
    rw [hlist]
    rfl
  have hprefix : "file_".toList.isPrefixOf (fileId n).toList = true := by
    rw [hlist]
    simp
  simp only [isFileId, hdrop, hprefix, JsString.all_isDigit, Bool.and_true, Bool.true_and,
    bne_iff_ne, ne_eq]
  exact JsString.digits_ne_nil n

/-- The file parts for `files`, numbered from 0. -/
def numbered (files : List File) : Files :=
  files.zipIdx.map fun e => (fileId e.2, e.1)

@[simp] theorem numbered_nil : numbered [] = [] := rfl

@[simp] theorem length_numbered (files : List File) : (numbered files).length = files.length := by
  simp [numbered]

theorem numbered_append (files : List File) (f : File) :
    numbered files ++ [(fileId files.length, f)] = numbered (files ++ [f]) := by
  simp [numbered, List.zipIdx_append]

/-- The files of one leaf, and of a payload in the order of the walk. -/
def Upload.files : Upload → List File
  | .file f => [f]
  | .fileList fs => fs

def uploads (t : Payload N) : List File := (leaves t).flatMap Upload.files

def uploadsItems (items : List (Payload N)) : List File := (leavesItems items).flatMap Upload.files

def uploadsEntries (entries : List (String × Payload N)) : List File :=
  (leavesEntries entries).flatMap Upload.files

@[simp] theorem uploadsItems_cons (t : Payload N) (rest : List (Payload N)) :
    uploadsItems (t :: rest) = uploads t ++ uploadsItems rest := by
  simp [uploadsItems, uploads, leavesItems]

@[simp] theorem uploadsEntries_cons (e : String × Payload N) (rest : List (String × Payload N)) :
    uploadsEntries (e :: rest) = uploads e.2 ++ uploadsEntries rest := by
  simp [uploadsEntries, uploads, leavesEntries]

/-! ## Section 2: The two walks -/

/-- The JSON form of a payload with its files in place. -/
def expected : Payload N → JsonTree N File :=
  JsonTree.bind fun
    | .file f => .leaf f
    | .fileList fs => .arr (fs.map .leaf)

/-- The client walks into every object: none is taken for a browser value. -/
def Walked (check : NativeCheck N) (_ : Nat) : Payload N → Prop
  | .obj entries => check entries = .ok false
  | _ => True

/-- The server takes no value of the payload for a placeholder, and no
    placeholder of a list lies below the depth limit. -/
def Restorable (depth : Nat) : Payload N → Prop
  | .obj entries => hasKey entries fileMarker = false
  | .leaf (.fileList fs) => fs = [] ∨ depth < maximumDepth
  | _ => True

/-- The form has the files under their ids. -/
def Delivers (fields : String → Option (Field N)) (files : List File) : Prop :=
  ∀ i f, files[i]? = some f → fields (fileId i) = some (.one (.file f))

theorem Delivers.prefix {fields : String → Option (Field N)} {fs gs : List File}
    (h : Delivers fields (fs ++ gs)) : Delivers fields fs := by
  intro i f hf
  have hlt : i < fs.length := (List.getElem?_eq_some_iff.mp hf).1
  exact h i f (by rw [List.getElem?_append_left hlt]; exact hf)

theorem addFile_numbered (fs : List File) (f : File) :
    addFile (N := N) (numbered fs) f =
      (.obj [(fileMarker, .str (fileId fs.length))], numbered (fs ++ [f])) := by
  simp only [addFile, length_numbered, numbered_append]

/-- A placeholder is restored to its file wherever the depth limit lets it be. -/
theorem restore_placeholder {fields : String → Option (Field N)} {fs : List File} {f : File}
    (h : Delivers fields (fs ++ [f])) (path : String) {depth : Nat} (hd : depth ≤ maximumDepth) :
    restore (N := N) fields path depth (.obj [(fileMarker, .str (fileId fs.length))]) =
      .ok (.leaf f) := by
  have hf := h fs.length f (by simp)
  have hnd : ¬ depth > maximumDepth := by omega
  simp [restore, hnd, hasKey, lookup, isFileId_fileId, hf]

theorem addFileList_numbered (fs list : List File) :
    ∃ placeholders, addFileList (N := N) (numbered fs) list = (placeholders, numbered (fs ++ list)) ∧
      (list = [] → placeholders = []) ∧
      ∀ fields path index depth, Delivers fields (fs ++ list) → depth ≤ maximumDepth →
        restoreItems fields path index depth placeholders = .ok (list.map .leaf) := by
  induction list generalizing fs with
  | nil => exact ⟨[], by simp [addFileList], by simp, fun _ _ _ _ _ _ => rfl⟩
  | cons f rest ih =>
    obtain ⟨tail, hadd, -, hrestore⟩ := ih (fs ++ [f])
    refine ⟨.obj [(fileMarker, .str (fileId fs.length))] :: tail, ?_, by simp, ?_⟩
    · simp only [addFileList, addFile_numbered, hadd]
      simp
    · intro fields path index depth hdel hd
      have hsplit : fs ++ f :: rest = (fs ++ [f]) ++ rest := by simp
      rw [hsplit] at hdel
      simp only [restoreItems, restore_placeholder hdel.prefix _ hd,
        hrestore fields path (index + 1) depth hdel hd]
      rfl

/-! ## Section 3: The server restores what the client extracts -/

/-- The nesting that `snapshotRpcValue` and `restore` accept. -/
def Within (depth : Nat) (_ : Payload N) : Prop := depth ≤ maximumDepth

/-- What the client makes of one value: the walk succeeds, numbers the files
    of the value, and leaves JSON that is the expected form when there are no
    files and that the server restores when nothing is mistaken. -/
def Carries (check : NativeCheck N) (t : Payload N) : Prop :=
  ∀ fs depth, Everywhere (Walked check) depth t →
    ∃ t', extractWith check (numbered fs) t = .ok (t', numbered (fs ++ uploads t)) ∧
      (uploads t = [] → ofJson t' = expected t) ∧
      ∀ fields path, Everywhere Within depth t → Everywhere Restorable depth t →
        Delivers fields (fs ++ uploads t) → restore fields path depth t' = .ok (expected t)

theorem carries_items {check : NativeCheck N} {items : List (Payload N)}
    (ih : ∀ t ∈ items, Carries check t) (fs : List File) (depth : Nat)
    (hwalk : ∀ t ∈ items, Everywhere (Walked check) depth t) :
    ∃ items', extractItems check (numbered fs) items =
        .ok (items', numbered (fs ++ uploadsItems items)) ∧
      (uploadsItems items = [] → items'.map ofJson = items.map expected) ∧
      ∀ fields path index, (∀ t ∈ items, Everywhere Within depth t) →
        (∀ t ∈ items, Everywhere Restorable depth t) →
        Delivers fields (fs ++ uploadsItems items) →
        restoreItems fields path index depth items' = .ok (items.map expected) := by
  induction items generalizing fs with
  | nil => exact ⟨[], by simp [extractItems, uploadsItems, leavesItems], by simp, fun _ _ _ _ _ _ => rfl⟩
  | cons t rest ihr =>
    obtain ⟨t', hext, hjson, hrest⟩ := ih t List.mem_cons_self fs depth (hwalk t List.mem_cons_self)
    obtain ⟨rest', hext', hjson', hrest'⟩ := ihr (fun u hu => ih u (List.mem_cons_of_mem _ hu))
      (fs ++ uploads t) (fun u hu => hwalk u (List.mem_cons_of_mem _ hu))
    refine ⟨t' :: rest', ?_, ?_, ?_⟩
    · simp only [extractItems, hext, hext', Outcome.ok_bind, uploadsItems_cons, ← List.append_assoc]
      rfl
    · intro hnone
      simp only [uploadsItems_cons, List.append_eq_nil_iff] at hnone
      simp [hjson hnone.1, hjson' hnone.2]
    · intro fields path index hin hres hdel
      rw [uploadsItems_cons, ← List.append_assoc] at hdel
      have ht := hrest fields s!"{path}[{index}]" (hin t List.mem_cons_self)
        (hres t List.mem_cons_self) hdel.prefix
      have hr := hrest' fields path (index + 1) (fun u hu => hin u (List.mem_cons_of_mem _ hu))
        (fun u hu => hres u (List.mem_cons_of_mem _ hu)) hdel
      simp only [restoreItems, ht, hr, Outcome.ok_bind]
      rfl

theorem carries_entries {check : NativeCheck N} {entries : List (String × Payload N)}
    (ih : ∀ e ∈ entries, Carries check e.2) (fs : List File) (depth : Nat)
    (hwalk : ∀ e ∈ entries, Everywhere (Walked check) depth e.2) :
    ∃ entries', extractEntries check (numbered fs) entries =
        .ok (entries', numbered (fs ++ uploadsEntries entries)) ∧
      entries'.map Prod.fst = entries.map Prod.fst ∧
      (uploadsEntries entries = [] →
        entries'.map (fun e => (e.1, ofJson e.2)) = entries.map fun e => (e.1, expected e.2)) ∧
      ∀ fields path, (∀ e ∈ entries, Everywhere Within depth e.2) →
        (∀ e ∈ entries, Everywhere Restorable depth e.2) →
        Delivers fields (fs ++ uploadsEntries entries) →
        restoreEntries fields path depth entries' =
          .ok (entries.map fun e => (e.1, expected e.2)) := by
  induction entries generalizing fs with
  | nil =>
    exact ⟨[], by simp [extractEntries, uploadsEntries, leavesEntries], rfl, by simp,
      fun _ _ _ _ _ => rfl⟩
  | cons e rest ihr =>
    obtain ⟨key, t⟩ := e
    obtain ⟨t', hext, hjson, hrest⟩ := ih (key, t) List.mem_cons_self fs depth
      (hwalk (key, t) List.mem_cons_self)
    obtain ⟨rest', hext', hkeys, hjson', hrest'⟩ := ihr (fun u hu => ih u (List.mem_cons_of_mem _ hu))
      (fs ++ uploads t) (fun u hu => hwalk u (List.mem_cons_of_mem _ hu))
    refine ⟨(key, t') :: rest', ?_, by simp [hkeys], ?_, ?_⟩
    · simp only [extractEntries, hext, hext', Outcome.ok_bind, uploadsEntries_cons, ← List.append_assoc]
      rfl
    · intro hnone
      simp only [uploadsEntries_cons, List.append_eq_nil_iff] at hnone
      simp [hjson hnone.1, hjson' hnone.2]
    · intro fields path hin hres hdel
      rw [uploadsEntries_cons, ← List.append_assoc] at hdel
      have ht := hrest fields s!"{path}.{key}" (hin _ List.mem_cons_self)
        (hres _ List.mem_cons_self) hdel.prefix
      have hr := hrest' fields path (fun u hu => hin u (List.mem_cons_of_mem _ hu))
        (fun u hu => hres u (List.mem_cons_of_mem _ hu)) hdel
      simp only [restoreEntries, ht, hr, Outcome.ok_bind]
      rfl

theorem hasKey_eq_of_keys {L M : Type} {entries : List (String × JsonTree N L)}
    {entries' : List (String × JsonTree N M)} (h : entries'.map Prod.fst = entries.map Prod.fst)
    (key : String) : hasKey entries' key = hasKey entries key := by
  have hmap : ∀ {K : Type} (l : List (String × JsonTree N K)),
      hasKey l key = (l.map Prod.fst).any (· == key) := fun l => by
    simp [hasKey, List.any_map, Function.comp_def]
  rw [hmap, hmap, h]

theorem ofJson_arr (items : List (Json N)) : ofJson (.arr items) = .arr (items.map ofJson) := by
  simp [ofJson, JsonTree.bind]

theorem ofJson_obj (entries : List (String × Json N)) :
    ofJson (.obj entries) = .obj (entries.map fun e => (e.1, ofJson e.2)) := by
  simp [ofJson, JsonTree.bind]

theorem expected_arr (items : List (Payload N)) : expected (.arr items) = .arr (items.map expected) := by
  simp [expected, JsonTree.bind]

theorem expected_obj (entries : List (String × Payload N)) :
    expected (.obj entries) = .obj (entries.map fun e => (e.1, expected e.2)) := by
  simp [expected, JsonTree.bind]

theorem carries_scalar {check : NativeCheck N} {t : Payload N} (t' : Json N)
    (hext : ∀ files, extractWith check files t = .ok (t', files)) (hnone : uploads t = [])
    (hjson : ofJson t' = expected t)
    (hrestore : ∀ fields path depth, ¬ depth > maximumDepth →
      restore fields path depth t' = .ok (expected t)) : Carries check t := by
  intro fs depth _
  refine ⟨t', by rw [hext, hnone, List.append_nil], fun _ => hjson, fun fields path hin _ _ => ?_⟩
  exact hrestore fields path depth (Nat.not_lt.mpr hin.root)

theorem carries (check : NativeCheck N) (t : Payload N) : Carries check t := by
  induction t using JsonTree.ind with
  | null => exact carries_scalar .null (fun _ => rfl) rfl rfl fun _ _ _ hd => by simp [restore, hd, expected, JsonTree.bind]
  | bool b => exact carries_scalar (.bool b) (fun _ => rfl) rfl rfl fun _ _ _ hd => by simp [restore, hd, expected, JsonTree.bind]
  | num n => exact carries_scalar (.num n) (fun _ => rfl) rfl rfl fun _ _ _ hd => by simp [restore, hd, expected, JsonTree.bind]
  | str s => exact carries_scalar (.str s) (fun _ => rfl) rfl rfl fun _ _ _ hd => by simp [restore, hd, expected, JsonTree.bind]
  | leaf l =>
    intro fs depth _
    cases l with
    | file f =>
      refine ⟨_, by rw [extractWith, addFile_numbered]; rfl, by simp [uploads, leaves, Upload.files],
        fun fields path hin _ hdel => ?_⟩
      exact restore_placeholder hdel path hin.root
    | fileList list =>
      obtain ⟨placeholders, hadd, hnil, hrestore⟩ := addFileList_numbered (N := N) fs list
      refine ⟨.arr placeholders, ?_, ?_, ?_⟩
      · simp [extractWith, hadd, uploads, leaves, Upload.files]
      · intro hnone
        have hlist : list = [] := by simpa [uploads, leaves, Upload.files] using hnone
        simp [hlist, hnil hlist, ofJson, expected, JsonTree.bind]
      · intro fields path hin hres hdel
        have hd : ¬ depth > maximumDepth := Nat.not_lt.mpr hin.root
        have hroot : list = [] ∨ depth < maximumDepth := hres.root
        have hexp : expected (N := N) (.leaf (.fileList list)) = .arr (list.map .leaf) := by
          simp [expected, JsonTree.bind]
        rcases hroot with hlist | hlt
        · simp [restore, hd, hlist, hnil hlist, restoreItems, Except.map, expected, JsonTree.bind]
        · have := hrestore fields path 0 (depth + 1)
            (by simpa [uploads, leaves, Upload.files] using hdel) hlt
          simp [restore, hd, hexp, this, Except.map]
  | arr items ih =>
    intro fs depth hwalk
    obtain ⟨items', hext, hjson, hrestore⟩ :=
      carries_items ih fs (depth + 1) (everywhere_arr.mp hwalk).2
    refine ⟨.arr items', ?_, ?_, ?_⟩
    · simp only [extractWith, hext]
      rfl
    · intro hnone
      have := hjson hnone
      simpa [expected_arr, ofJson_arr] using this
    · intro fields path hin hres hdel
      have hd : ¬ depth > maximumDepth := Nat.not_lt.mpr hin.root
      have := hrestore fields path 0 (everywhere_arr.mp hin).2 (everywhere_arr.mp hres).2 hdel
      simp [restore, hd, expected_arr, this, Except.map]
  | obj entries ih =>
    intro fs depth hwalk
    have hcheck : check entries = .ok false := hwalk.root
    obtain ⟨entries', hext, hkeys, hjson, hrestore⟩ :=
      carries_entries ih fs (depth + 1) (everywhere_obj.mp hwalk).2
    refine ⟨.obj entries', ?_, ?_, ?_⟩
    · simp only [extractWith, hcheck, hext]
      rfl
    · intro hnone
      have := hjson hnone
      simpa [expected_obj, ofJson_obj] using this
    · intro fields path hin hres hdel
      have hd : ¬ depth > maximumDepth := Nat.not_lt.mpr hin.root
      have hmark : hasKey entries' fileMarker = false := by
        rw [hasKey_eq_of_keys hkeys]
        exact hres.root
      have := hrestore fields path (everywhere_obj.mp hin).2 (everywhere_obj.mp hres).2 hdel
      simp [restore, hd, hmark, expected_obj, this, Except.map]

/-! ## Section 4: What a round trip needs -/

/-- Some list of files was numbered from 0. -/
def Numbered (files : Files) : Prop := ∃ fs, files = numbered fs

theorem Numbered.addFile {files : Files} (h : Numbered files) (f : File) :
    Numbered (addFile (N := N) files f).2 := by
  obtain ⟨fs, rfl⟩ := h
  exact ⟨fs ++ [f], by rw [addFile_numbered]⟩

theorem Numbered.addFileList {files : Files} (h : Numbered files) (list : List File) :
    Numbered (addFileList (N := N) files list).2 := by
  obtain ⟨fs, rfl⟩ := h
  obtain ⟨placeholders, hadd, -⟩ := addFileList_numbered (N := N) fs list
  exact ⟨fs ++ list, by rw [hadd]⟩

/-- Inversion of the walk over an array: each item has its own walk. -/
theorem extractItems_cons {check : NativeCheck N} {files : Files} {t : Payload N}
    {rest : List (Payload N)} {items' : List (Json N)} {files' : Files}
    (h : extractItems check files (t :: rest) = .ok (items', files')) :
    ∃ t' rest' files₁, extractWith check files t = .ok (t', files₁) ∧
      extractItems check files₁ rest = .ok (rest', files') ∧ items' = t' :: rest' := by
  simp only [extractItems] at h
  obtain ⟨⟨t', files₁⟩, ht, h⟩ := Outcome.bind_eq_ok.mp h
  obtain ⟨⟨rest', files₂⟩, hrest, h⟩ := Outcome.bind_eq_ok.mp h
  cases h
  exact ⟨t', rest', files₁, ht, hrest, rfl⟩

theorem extractEntries_cons {check : NativeCheck N} {files : Files} {key : String} {t : Payload N}
    {rest : List (String × Payload N)} {entries' : List (String × Json N)} {files' : Files}
    (h : extractEntries check files ((key, t) :: rest) = .ok (entries', files')) :
    ∃ t' rest' files₁, extractWith check files t = .ok (t', files₁) ∧
      extractEntries check files₁ rest = .ok (rest', files') ∧ entries' = (key, t') :: rest' := by
  simp only [extractEntries] at h
  obtain ⟨⟨t', files₁⟩, ht, h⟩ := Outcome.bind_eq_ok.mp h
  obtain ⟨⟨rest', files₂⟩, hrest, h⟩ := Outcome.bind_eq_ok.mp h
  cases h
  exact ⟨t', rest', files₁, ht, hrest, rfl⟩

/-- Inversion of the walk over an object: it was dropped, or walked. -/
theorem extractWith_obj {check : NativeCheck N} {files : Files}
    {entries : List (String × Payload N)} {t' : Json N} {files' : Files}
    (h : extractWith check files (.obj entries) = .ok (t', files')) :
    (t' = .null ∧ files' = files) ∨
    (check entries = .ok false ∧ ∃ entries',
      extractEntries check files entries = .ok (entries', files') ∧ t' = .obj entries') := by
  simp only [extractWith] at h
  obtain ⟨native, hcheck, h⟩ := Outcome.bind_eq_ok.mp h
  cases native with
  | true =>
    cases h
    exact .inl ⟨rfl, rfl⟩
  | false =>
    obtain ⟨⟨entries', files₁⟩, hentries, h⟩ := Outcome.bind_eq_ok.mp h
    cases h
    exact .inr ⟨hcheck, entries', hentries, rfl⟩

theorem extractWith_arr {check : NativeCheck N} {files : Files} {items : List (Payload N)}
    {t' : Json N} {files' : Files} (h : extractWith check files (.arr items) = .ok (t', files')) :
    ∃ items', extractItems check files items = .ok (items', files') ∧ t' = .arr items' := by
  simp only [extractWith] at h
  obtain ⟨⟨items', files₁⟩, hitems, h⟩ := Outcome.bind_eq_ok.mp h
  cases h
  exact ⟨items', hitems, rfl⟩

/-- A property of the collected files that one file keeps is kept by the walk. -/
theorem extractWith_numbered {check : NativeCheck N} {t : Payload N} :
    ∀ {files t' files'}, Numbered files → extractWith check files t = .ok (t', files') →
      Numbered files' := by
  induction t using JsonTree.ind with
  | null | bool | num | str =>
    intro files t' files' hnum h
    cases h
    exact hnum
  | leaf l =>
    intro files t' files' hnum h
    cases l with
    | file f =>
      cases h
      exact hnum.addFile (N := N) f
    | fileList list =>
      cases h
      exact hnum.addFileList (N := N) list
  | arr items ih =>
    intro files t' files' hnum h
    obtain ⟨items', hitems, -⟩ := extractWith_arr h
    clear h
    induction items generalizing files items' with
    | nil =>
      cases hitems
      exact hnum
    | cons t rest ihr =>
      obtain ⟨u, rest', files₁, ht, hrest, -⟩ := extractItems_cons hitems
      have h₁ := ih t List.mem_cons_self hnum ht
      exact ihr (fun v hv => ih v (List.mem_cons_of_mem _ hv)) h₁ rest' hrest
  | obj entries ih =>
    intro files t' files' hnum h
    rcases extractWith_obj h with ⟨-, rfl⟩ | ⟨-, entries', hentries, -⟩
    · exact hnum
    · clear h
      induction entries generalizing files entries' with
      | nil =>
        cases hentries
        exact hnum
      | cons e rest ihr =>
        obtain ⟨u, rest', files₁, ht, hrest, -⟩ := extractEntries_cons hentries
        have h₁ := ih e List.mem_cons_self hnum ht
        exact ihr (fun v hv => ih v (List.mem_cons_of_mem _ hv)) h₁ rest' hrest

/-- A payload that arrives through the JSON route was walked everywhere. -/
theorem walked_of_ofJson {check : NativeCheck N} {t : Payload N} :
    ∀ {files t' files'} depth, extractWith check files t = .ok (t', files') →
      ofJson t' = expected t → Everywhere (Walked check) depth t := by
  induction t using JsonTree.ind with
  | null | bool | num | str | leaf =>
    intro files t' files' depth _ _
    exact (everywhere_scalar rfl).mpr trivial
  | arr items ih =>
    intro files t' files' depth h heq
    obtain ⟨items', hitems, rfl⟩ := extractWith_arr h
    rw [everywhere_arr]
    refine ⟨trivial, ?_⟩
    have hmap : items'.map ofJson = items.map expected := by
      simpa [expected_arr, ofJson_arr] using heq
    clear h heq
    induction items generalizing files items' with
    | nil => simp
    | cons t rest ihr =>
      obtain ⟨u, rest', files₁, ht, hrest, rfl⟩ := extractItems_cons hitems
      simp only [List.map_cons, List.cons.injEq] at hmap
      have h₁ := ih t List.mem_cons_self (depth + 1) ht hmap.1
      have h₂ := ihr (fun v hv => ih v (List.mem_cons_of_mem _ hv)) rest' hrest hmap.2
      exact List.forall_mem_cons.mpr ⟨h₁, h₂⟩
  | obj entries ih =>
    intro files t' files' depth h heq
    rcases extractWith_obj h with ⟨rfl, -⟩ | ⟨hcheck, entries', hentries, rfl⟩
    · simp [expected_obj, ofJson, JsonTree.bind] at heq
    · rw [everywhere_obj]
      refine ⟨hcheck, ?_⟩
      have hmap : entries'.map (fun e => (e.1, ofJson e.2)) =
          entries.map fun e => (e.1, expected e.2) := by
        simpa [expected_obj, ofJson_obj] using heq
      clear h heq hcheck
      induction entries generalizing files entries' with
      | nil => simp
      | cons e rest ihr =>
        obtain ⟨u, rest', files₁, ht, hrest, rfl⟩ := extractEntries_cons hentries
        simp only [List.map_cons, List.cons.injEq, Prod.mk.injEq] at hmap
        have h₁ := ih e List.mem_cons_self (depth + 1) ht hmap.1.2
        have h₂ := ihr (fun v hv => ih v (List.mem_cons_of_mem _ hv)) rest' hrest hmap.2
        exact List.forall_mem_cons.mpr ⟨h₁, h₂⟩

theorem restoreItems_cons {fields : String → Option (Field N)} {path : String} {index depth : Nat}
    {t : Json N} {rest : List (Json N)} {out : List (JsonTree N File)}
    (h : restoreItems fields path index depth (t :: rest) = .ok out) :
    ∃ u us, restore fields s!"{path}[{index}]" depth t = .ok u ∧
      restoreItems fields path (index + 1) depth rest = .ok us ∧ out = u :: us := by
  simp only [restoreItems] at h
  obtain ⟨u, hu, h⟩ := Outcome.bind_eq_ok.mp h
  obtain ⟨us, hus, h⟩ := Outcome.bind_eq_ok.mp h
  cases h
  exact ⟨u, us, hu, hus, rfl⟩

theorem restoreEntries_cons {fields : String → Option (Field N)} {path : String} {depth : Nat}
    {key : String} {t : Json N} {rest : List (String × Json N)}
    {out : List (String × JsonTree N File)}
    (h : restoreEntries fields path depth ((key, t) :: rest) = .ok out) :
    ∃ u us, restore fields s!"{path}.{key}" depth t = .ok u ∧
      restoreEntries fields path depth rest = .ok us ∧ out = (key, u) :: us := by
  simp only [restoreEntries] at h
  obtain ⟨u, hu, h⟩ := Outcome.bind_eq_ok.mp h
  obtain ⟨us, hus, h⟩ := Outcome.bind_eq_ok.mp h
  cases h
  exact ⟨u, us, hu, hus, rfl⟩

theorem restore_arr {fields : String → Option (Field N)} {path : String} {depth : Nat}
    {items : List (Json N)} {out : List (JsonTree N File)}
    (h : restore fields path depth (.arr items) = .ok (.arr out)) :
    depth ≤ maximumDepth ∧ restoreItems fields path 0 (depth + 1) items = .ok out := by
  by_cases hd : depth > maximumDepth
  · simp [restore, hd] at h
  · simp only [restore, hd, if_false] at h
    obtain ⟨out', hout, heq⟩ := Outcome.map_eq_ok.mp h
    cases heq
    exact ⟨Nat.not_lt.mp hd, hout⟩

/-- An object is restored to an object only when it has no placeholder key. -/
theorem restore_obj {fields : String → Option (Field N)} {path : String} {depth : Nat}
    {entries : List (String × Json N)} {out : List (String × JsonTree N File)}
    (h : restore fields path depth (.obj entries) = .ok (.obj out)) :
    hasKey entries fileMarker = false ∧
      restoreEntries fields path (depth + 1) entries = .ok out := by
  by_cases hd : depth > maximumDepth
  · simp [restore, hd] at h
  · simp only [restore, hd, if_false] at h
    by_cases hmark : hasKey entries fileMarker = true
    · rw [if_pos hmark] at h
      -- every branch of a marked object fails or gives a file
      repeat' split at h
      all_goals simp at h
    · rw [if_neg hmark] at h
      obtain ⟨out', hout, heq⟩ := Outcome.map_eq_ok.mp h
      cases heq
      exact ⟨by simpa using hmark, hout⟩

theorem restoreItems_files_depth {fields : String → Option (Field N)} {path : String}
    {index depth : Nat} {files : Files} {list : List File} {out : List (JsonTree N File)}
    (h : restoreItems fields path index depth (addFileList (N := N) files list).1 = .ok out)
    (hne : list ≠ []) : depth ≤ maximumDepth := by
  cases list with
  | nil => exact absurd rfl hne
  | cons f rest =>
    simp only [addFileList, addFile] at h
    obtain ⟨u, us, hu, -⟩ := restoreItems_cons h
    by_contra hd
    have hgt : depth > maximumDepth := by omega
    simp [restore, hgt] at hu

theorem keys_of_extractEntries {check : NativeCheck N} {entries : List (String × Payload N)} :
    ∀ {files entries' files'}, extractEntries check files entries = .ok (entries', files') →
      entries'.map Prod.fst = entries.map Prod.fst := by
  induction entries with
  | nil =>
    intro files entries' files' h
    cases h
    rfl
  | cons e rest ih =>
    intro files entries' files' h
    obtain ⟨u, rest', files₁, -, hrest, rfl⟩ := extractEntries_cons h
    simp [ih hrest]

/-- A payload that arrives through the upload route was walked everywhere and
    nothing in it was taken for a placeholder. -/
theorem transparent_of_restore {check : NativeCheck N} {fields : String → Option (Field N)}
    {t : Payload N} :
    ∀ {files t' files' path depth}, extractWith check files t = .ok (t', files') →
      restore fields path depth t' = .ok (expected t) →
      Everywhere (Walked check) depth t ∧ Everywhere Restorable depth t := by
  induction t using JsonTree.ind with
  | null | bool | num | str =>
    intro files t' files' path depth _ _
    exact ⟨(everywhere_scalar rfl).mpr trivial, (everywhere_scalar rfl).mpr trivial⟩
  | leaf l =>
    intro files t' files' path depth h hrestore
    refine ⟨(everywhere_scalar rfl).mpr trivial, (everywhere_scalar rfl).mpr ?_⟩
    cases l with
    | file f => trivial
    | fileList list =>
      cases h
      have hexp : expected (N := N) (.leaf (.fileList list)) = .arr (list.map .leaf) := by
        simp [expected, JsonTree.bind]
      rw [hexp] at hrestore
      by_cases hlist : list = []
      · exact .inl hlist
      · exact .inr (restoreItems_files_depth (restore_arr hrestore).2 hlist)
  | arr items ih =>
    intro files t' files' path depth h hrestore
    obtain ⟨items', hitems, rfl⟩ := extractWith_arr h
    rw [expected_arr] at hrestore
    have hout := (restore_arr hrestore).2
    rw [everywhere_arr, everywhere_arr]
    suffices hall : ∀ t ∈ items, Everywhere (Walked check) (depth + 1) t ∧
        Everywhere Restorable (depth + 1) t from
      ⟨⟨trivial, fun t ht => (hall t ht).1⟩, trivial, fun t ht => (hall t ht).2⟩
    clear h hrestore
    generalize 0 = index at hout
    induction items generalizing files items' index with
    | nil => simp
    | cons t rest ihr =>
      obtain ⟨u, rest', files₁, ht, hrest, rfl⟩ := extractItems_cons hitems
      obtain ⟨v, vs, hv, hvs, heq⟩ := restoreItems_cons hout
      simp only [List.map_cons, List.cons.injEq] at heq
      rw [← heq.1] at hv
      rw [← heq.2] at hvs
      have h₁ := ih t List.mem_cons_self ht hv
      have h₂ := ihr (fun v hv => ih v (List.mem_cons_of_mem _ hv)) rest' hrest _ hvs
      exact List.forall_mem_cons.mpr ⟨h₁, h₂⟩
  | obj entries ih =>
    intro files t' files' path depth h hrestore
    rw [expected_obj] at hrestore
    rcases extractWith_obj h with ⟨rfl, -⟩ | ⟨hcheck, entries', hentries, rfl⟩
    · by_cases hd : depth > maximumDepth <;> simp [restore, hd] at hrestore
    · obtain ⟨hmark, hout⟩ := restore_obj hrestore
      rw [hasKey_eq_of_keys (keys_of_extractEntries hentries)] at hmark
      rw [everywhere_obj, everywhere_obj]
      suffices hall : ∀ e ∈ entries, Everywhere (Walked check) (depth + 1) e.2 ∧
          Everywhere Restorable (depth + 1) e.2 from
        ⟨⟨hcheck, fun e he => (hall e he).1⟩, hmark, fun e he => (hall e he).2⟩
      clear h hrestore hcheck hmark
      induction entries generalizing files entries' with
      | nil => simp
      | cons e rest ihr =>
        obtain ⟨u, rest', files₁, ht, hrest, rfl⟩ := extractEntries_cons hentries
        obtain ⟨v, vs, hv, hvs, heq⟩ := restoreEntries_cons hout
        simp only [List.map_cons, List.cons.injEq, Prod.mk.injEq, true_and] at heq
        rw [← heq.1] at hv
        rw [← heq.2] at hvs
        have h₁ := ih e List.mem_cons_self ht hv
        have h₂ := ihr (fun v hv => ih v (List.mem_cons_of_mem _ hv)) rest' hrest hvs
        exact List.forall_mem_cons.mpr ⟨h₁, h₂⟩

end Cossack.Core
