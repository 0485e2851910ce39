import Cossack.Database.RelationLoading

/-! # Loaded relations and lookups for one entity

    The rows that loading assigns to an entity are those of a query for its key alone
    when the texts of keys agree with the comparison of the database and no related
    row is read by two chunks. -/

namespace Cossack.Database.RelationLoading

open EntitySaves (Value)
open Batches

/-! ## Section 1: Keys -/

theorem Held.value_of_same {a b : Held} (h : a.same b = true) : a.value = b.value := by
  unfold Held.same at h
  rw [Bool.and_eq_true] at h
  exact of_decide_eq_true h.1

theorem mem_distinct (held : List Held) (v : Value) :
    v ∈ (distinct held).map Held.value ↔ v ∈ held.map Held.value := by
  induction held with
  | nil => rfl
  | cons first rest ih =>
    simp only [distinct, List.map_cons, List.mem_cons, ← ih]
    simp only [List.mem_map, List.mem_filter, Bool.not_eq_true']
    constructor
    · rintro (h | ⟨other, ⟨hmem, -⟩, rfl⟩)
      · exact .inl h
      · exact .inr ⟨other, hmem, rfl⟩
    · rintro (h | ⟨other, hmem, rfl⟩)
      · exact .inl h
      · by_cases hsame : first.same other = true
        · exact .inl (Held.value_of_same hsame).symm
        · exact .inr ⟨other, ⟨hmem, Bool.eq_false_iff.mpr hsame⟩, rfl⟩

def Lookup.manyToMany : Lookup → Bool
  | .junction .. => true
  | _ => false

namespace ORM

variable {orm : ORM}

@[simp] theorem finds_nullish (target : EntityMetadata) (column : ColumnMetadata) {key : Value}
    (h : isNullish key = true) (row : Row) : orm.finds target column key row = false := by
  unfold finds encodeValue
  rw [if_pos h]
  rfl

@[simp] theorem answers_nullish (db : Tables) (table column : String) {key : Value}
    (h : isNullish key = true) (row : Row) : db.answers table column key row = false := by
  unfold Tables.answers
  rw [h]
  rfl

/-! ## Section 2: Queries -/

theorem chunked_ok {α : Type} {read : List (List Value) → α} {keys : List Value} {loaded : α}
    (h : (do let chunks ← orm.chunked keys; .ok (read chunks) : Except Error α) = .ok loaded) :
    loaded = read (chunks orm.parameterLimit keys) := by
  unfold chunked at h
  split at h
  · cases h
  · exact (Except.ok.inj h).symm

theorem chunkedFind_ok {target : EntityMetadata} {column : ColumnMetadata} {keys : List Value}
    {loaded : List Row} (h : orm.chunkedFind target column keys = .ok loaded) :
    loaded = fetch (orm.finds target column) (orm.database.tables target.tableName)
      (chunks orm.parameterLimit keys) :=
  chunked_ok h

theorem chunkedFindPhysical_ok {table column : String} {keys : List Value} {loaded : List Row}
    (h : orm.chunkedFindPhysical table column keys = .ok loaded) :
    loaded = fetch (orm.database.answers table column) (orm.database.tables table)
      (chunks orm.parameterLimit keys) :=
  chunked_ok h

/-- A result of two steps comes from results of both. -/
theorem bind_ok {α β : Type} {first : Except Error α} {next : α → Except Error β} {b : β}
    (h : (first >>= next) = .ok b) : ∃ a, first = .ok a ∧ next a = .ok b := by
  cases first with
  | error e => cases h
  | ok a => exact ⟨a, rfl, h⟩

/-! ## Section 3: A query for one entity -/

/-- The rows that a query for the key of the entity alone returns. -/
def related (orm : ORM) (entity : Entity) : Lookup → List Row
  | .reference joinColumn target column =>
      (orm.database.tables target.tableName).filter
        (orm.finds target column (entity.cell joinColumn).value)
  | .children _ target joinColumn ownerColumn =>
      (orm.database.tables target.tableName).filter
        (orm.database.answers target.tableName joinColumn
          (entity.property ownerColumn.propertyName).value)
  | .junction table currentProperty currentJoinColumn target targetColumn targetJoinColumn =>
      ((orm.database.tables table).filter
          (orm.database.answers table currentJoinColumn (entity.property currentProperty).value)).flatMap
        fun row => (orm.database.tables target.tableName).filter
          (orm.finds target targetColumn (cell row targetJoinColumn))

/-- Each entity of the list is assigned what a query for it alone returns. -/
def Exact (orm : ORM) (entities : List Entity) (lookup : Lookup) (assigned : Entity → Related) : Prop :=
  ∀ entity ∈ entities, (assigned entity).rows.Perm (orm.related entity lookup)

def ownerKeys (ownerColumn : ColumnMetadata) (entities : List Entity) : List Value :=
  (distinct ((entities.map (·.property ownerColumn.propertyName)).filter fun key =>
    !isNullish key.value)).map Held.value

/-- The texts of the keys tell the rows apart as the database does, and what is read
    is read once. -/
def Separable (orm : ORM) (entities : List Entity) : Lookup → Prop
  | .reference joinColumn target column =>
      Distinguished (orm.finds target column) (orm.database.tables target.tableName)
        (orm.decodedText column)
        (entities.filter fun entity => !isNullish (entity.cell joinColumn).value)
        (fun entity => (entity.cell joinColumn).value)
        (fun entity => orm.js.string (entity.cell joinColumn).value)
  | .children true target joinColumn ownerColumn =>
      Distinguished (orm.database.answers target.tableName joinColumn)
        (orm.database.tables target.tableName) (orm.rawText joinColumn) entities
        (fun entity => (entity.property ownerColumn.propertyName).value)
        (fun entity => orm.js.string (entity.property ownerColumn.propertyName).value)
  | .children false target joinColumn ownerColumn =>
      ∀ entity ∈ entities,
        Grouped (orm.database.answers target.tableName joinColumn)
          (orm.database.tables target.tableName)
          (chunks orm.parameterLimit (ownerKeys ownerColumn entities))
          (orm.rawText joinColumn) (entity.property ownerColumn.propertyName).value
          (orm.js.string (entity.property ownerColumn.propertyName).value)
  | .junction table currentProperty currentJoinColumn target targetColumn targetJoinColumn =>
      (∀ entity ∈ entities,
        Grouped (orm.database.answers table currentJoinColumn) (orm.database.tables table)
          (chunks orm.parameterLimit
            (entities.map fun entity => (entity.property currentProperty).value))
          (orm.rawText currentJoinColumn) (entity.property currentProperty).value
          (orm.js.string (entity.property currentProperty).value)) ∧
      Distinguished (orm.finds target targetColumn) (orm.database.tables target.tableName)
        (orm.decodedText targetColumn)
        ((orm.database.tables table).filter fun row => entities.any fun entity =>
          orm.database.answers table currentJoinColumn (entity.property currentProperty).value row)
        (fun row => cell row targetJoinColumn) (orm.rawText targetJoinColumn)

/-! ## Section 4: Keys of an entity -/

/-- The distinct keys that are not null find what the keys of the entities find. -/
theorem mem_keys_iff (limit : Nat) {hit : Value → Row → Bool} (hnull : ∀ v row, isNullish v = true → hit v row = false)
    (entities : List Entity) (key : Entity → Held) (row : Row) :
    (∃ k ∈ (chunks limit
        ((distinct ((entities.map key).filter fun k => !isNullish k.value)).map Held.value)).flatten,
      hit k row = true) ↔
    ∃ entity ∈ entities, hit (key entity).value row = true := by
  have hmem : ∀ k, k ∈ (distinct ((entities.map key).filter fun k => !isNullish k.value)).map Held.value ↔
      ∃ entity ∈ entities, isNullish (key entity).value = false ∧ (key entity).value = k := by
    intro k
    rw [mem_distinct]
    simp only [List.mem_map, List.mem_filter, Bool.not_eq_true']
    constructor
    · rintro ⟨-, ⟨⟨entity, hentity, rfl⟩, hkey⟩, rfl⟩
      exact ⟨entity, hentity, hkey, rfl⟩
    · rintro ⟨entity, hentity, hkey, rfl⟩
      exact ⟨key entity, ⟨⟨entity, hentity, rfl⟩, hkey⟩, rfl⟩
  rw [flatten_chunks]
  constructor
  · rintro ⟨k, hk, hhit⟩
    obtain ⟨entity, hentity, -, rfl⟩ := (hmem k).mp hk
    exact ⟨entity, hentity, hhit⟩
  · rintro ⟨entity, hentity, hhit⟩
    have hkey : isNullish (key entity).value = false := by
      by_contra hnot
      rw [hnull _ row (Bool.of_not_eq_false hnot)] at hhit
      cases hhit
    exact ⟨_, (hmem _).mpr ⟨entity, hentity, hkey, rfl⟩, hhit⟩

/-! ## Section 5: Each kind of relation -/

variable {entities : List Entity} {assigned : Entity → Related}

theorem loadReference_exact {joinColumn : String} {target : EntityMetadata} {column : ColumnMetadata}
    (h : orm.loadReference joinColumn target column entities = .ok assigned) :
    orm.Exact entities (.reference joinColumn target column) assigned ↔
      orm.Separable entities (.reference joinColumn target column) := by
  obtain ⟨loaded, hloaded, h⟩ := bind_ok h
  obtain rfl := Except.ok.inj h
  obtain rfl := chunkedFind_ok hloaded
  have hnull : ∀ v row, isNullish v = true → orm.finds target column v row = false :=
    fun _ row hv => finds_nullish target column hv row
  -- The keys that are asked for are those of the entities that have one.
  have hasking : ∀ row ∈ orm.database.tables target.tableName,
      (∃ k ∈ (chunks orm.parameterLimit ((distinct ((entities.map (·.cell joinColumn)).filter
          fun k => !isNullish k.value)).map Held.value)).flatten, orm.finds target column k row = true) ↔
      ∃ entity ∈ entities.filter fun entity => !isNullish (entity.cell joinColumn).value,
        orm.finds target column (entity.cell joinColumn).value row = true := by
    intro row _
    rw [mem_keys_iff orm.parameterLimit hnull]
    constructor
    · rintro ⟨entity, hentity, hhit⟩
      refine ⟨entity, List.mem_filter.mpr ⟨hentity, ?_⟩, hhit⟩
      by_contra hnot
      rw [finds_nullish target column (by simpa using hnot)] at hhit
      cases hhit
    · rintro ⟨entity, hentity, hhit⟩
      exact ⟨entity, (List.mem_filter.mp hentity).1, hhit⟩
  refine Iff.trans ?_ (single_iff List.getLast? (fun _ _ => List.mem_of_getLast?)
    (fun _ => List.getLast?_eq_none_iff.mp) hasking)
  unfold Exact related
  constructor
  · intro hexact entity hentity
    obtain ⟨hentity, hkey⟩ := List.mem_filter.mp hentity
    have hkey : isNullish (entity.cell joinColumn).value = false := by simpa using hkey
    have := hexact entity hentity
    simpa [Related.rows, hkey] using this
  · intro hexact entity hentity
    cases hkey : isNullish (entity.cell joinColumn).value with
    | true => simp [Related.rows, hkey]
    | false =>
      have := hexact entity (List.mem_filter.mpr ⟨hentity, by rw [hkey]; rfl⟩)
      simpa [Related.rows, hkey] using this

theorem loadChildren_exact {single : Bool} {target : EntityMetadata} {joinColumn : String}
    {ownerColumn : ColumnMetadata}
    (h : orm.loadChildren single target joinColumn ownerColumn entities = .ok assigned) :
    orm.Exact entities (.children single target joinColumn ownerColumn) assigned ↔
      orm.Separable entities (.children single target joinColumn ownerColumn) := by
  obtain ⟨loaded, hloaded, h⟩ := bind_ok h
  obtain rfl := Except.ok.inj h
  obtain rfl := chunkedFindPhysical_ok hloaded
  have hnull : ∀ v row, isNullish v = true →
      orm.database.answers target.tableName joinColumn v row = false :=
    fun _ row hv => answers_nullish orm.database target.tableName joinColumn hv row
  cases single with
  | true =>
    exact single_iff List.head? (fun _ _ => List.mem_of_head?)
      (fun _ => List.head?_eq_none_iff.mp) fun row _ =>
        mem_keys_iff orm.parameterLimit hnull entities (·.property ownerColumn.propertyName) row
  | false =>
    exact forall₂_congr fun entity _ => group_perm_iff

/-- The keys that are asked of the target are those of the junction rows of the
    entities. -/
theorem targets_iff {table currentProperty currentJoinColumn : String} {target : EntityMetadata}
    {targetColumn : ColumnMetadata} (targetJoinColumn : String) (t : Row) :
    (∃ key ∈ (chunks orm.parameterLimit ((distinct ((fetch
        (orm.database.answers table currentJoinColumn) (orm.database.tables table)
        (chunks orm.parameterLimit (entities.map fun entity => (entity.property currentProperty).value))
          ).zipIdx.map fun row => ⟨row.2, cell row.1 targetJoinColumn⟩)).map Held.value)).flatten,
      orm.finds target targetColumn key t = true) ↔
    ∃ row ∈ (orm.database.tables table).filter fun row => entities.any fun entity =>
        orm.database.answers table currentJoinColumn (entity.property currentProperty).value row,
      orm.finds target targetColumn (cell row targetJoinColumn) t = true := by
  have hvalues : ∀ rows : List Row, (rows.zipIdx.map fun row =>
      (⟨row.2, cell row.1 targetJoinColumn⟩ : Held)).map Held.value =
      rows.map (cell · targetJoinColumn) := by
    intro rows
    rw [List.map_map]
    calc rows.zipIdx.map (Held.value ∘ fun row => ⟨row.2, cell row.1 targetJoinColumn⟩)
        = (rows.zipIdx.map Prod.fst).map (cell · targetJoinColumn) := by
          rw [List.map_map]
          rfl
      _ = rows.map (cell · targetJoinColumn) := by rw [List.zipIdx_map_fst]
  have hrow : ∀ row, row ∈ fetch (orm.database.answers table currentJoinColumn)
      (orm.database.tables table) (chunks orm.parameterLimit
        (entities.map fun entity => (entity.property currentProperty).value)) ↔
      row ∈ (orm.database.tables table).filter fun row => entities.any fun entity =>
        orm.database.answers table currentJoinColumn (entity.property currentProperty).value row := by
    intro row
    rw [mem_fetch, flatten_chunks, List.mem_filter, List.any_eq_true]
    simp only [List.mem_map, exists_exists_and_eq_and]
  rw [flatten_chunks]
  constructor
  · rintro ⟨key, hkey, hhit⟩
    rw [mem_distinct, hvalues] at hkey
    obtain ⟨row, hmem, rfl⟩ := List.mem_map.mp hkey
    exact ⟨row, (hrow row).mp hmem, hhit⟩
  · rintro ⟨row, hmem, hhit⟩
    refine ⟨cell row targetJoinColumn, ?_, hhit⟩
    rw [mem_distinct, hvalues]
    exact List.mem_map.mpr ⟨row, (hrow row).mpr hmem, rfl⟩

theorem loadJunction_exact {table currentProperty currentJoinColumn : String}
    {target : EntityMetadata} {targetColumn : ColumnMetadata} {targetJoinColumn : String}
    (h : orm.loadJunction table currentProperty currentJoinColumn target targetColumn targetJoinColumn
      entities = .ok assigned)
    (hseparable : orm.Separable entities
      (.junction table currentProperty currentJoinColumn target targetColumn targetJoinColumn)) :
    orm.Exact entities
      (.junction table currentProperty currentJoinColumn target targetColumn targetJoinColumn) assigned := by
  obtain ⟨junctionRows, hrows, h⟩ := bind_ok h
  obtain ⟨loaded, hloaded, h⟩ := bind_ok h
  obtain rfl := Except.ok.inj h
  obtain rfl := chunkedFindPhysical_ok hrows
  obtain rfl := chunkedFind_ok hloaded
  have hasking : ∀ t ∈ orm.database.tables target.tableName, _ ↔
      ∃ row ∈ (orm.database.tables table).filter fun row => entities.any fun entity =>
        orm.database.answers table currentJoinColumn (entity.property currentProperty).value row,
      orm.finds target targetColumn (cell row targetJoinColumn) t = true :=
    fun t _ => targets_iff targetJoinColumn t
  have hsingle := (single_iff List.getLast? (fun _ _ => List.mem_of_getLast?)
    (fun _ => List.getLast?_eq_none_iff.mp) hasking).mpr hseparable.2
  intro entity hentity
  have hgroup := group_perm_iff.mpr (hseparable.1 entity hentity)
  refine (hgroup.filterMap _).trans ?_
  rw [List.filterMap_eq_flatMap_toList]
  refine List.Perm.flatMap_left _ fun row hrow => hsingle row ?_
  obtain ⟨htable, hhit⟩ := List.mem_filter.mp hrow
  exact List.mem_filter.mpr ⟨htable, List.any_eq_true.mpr ⟨entity, hentity, hhit⟩⟩

/-! ## Section 6: The relations of a list -/

theorem load_exact {lookup : Lookup} (h : orm.load entities lookup = .ok assigned) :
    (orm.Separable entities lookup → orm.Exact entities lookup assigned) ∧
      (lookup.manyToMany = false → orm.Exact entities lookup assigned → orm.Separable entities lookup) := by
  cases lookup with
  | reference joinColumn target column =>
    have := loadReference_exact h
    exact ⟨this.mpr, fun _ => this.mp⟩
  | children single target joinColumn ownerColumn =>
    have := loadChildren_exact h
    exact ⟨this.mpr, fun _ => this.mp⟩
  | junction =>
    exact ⟨loadJunction_exact h, fun hnot => Bool.noConfusion hnot⟩

theorem loadEach_mem {metadata : EntityMetadata} {relations : List String}
    {loaded : List (String × (Entity → Related))}
    (h : loadEach orm entities metadata relations = .ok loaded) {property : String}
    (hmem : (property, assigned) ∈ loaded) :
    ∃ lookup, orm.resolve metadata property = .ok (some lookup) ∧ orm.load entities lookup = .ok assigned := by
  induction relations generalizing loaded with
  | nil =>
    obtain rfl := Except.ok.inj h
    cases hmem
  | cons first relations ih =>
    obtain ⟨found, hfound, h⟩ := bind_ok h
    cases found with
    | none => exact ih h hmem
    | some lookup =>
      obtain ⟨values, hvalues, h⟩ := bind_ok h
      obtain ⟨others, hothers, h⟩ := bind_ok h
      obtain rfl := Except.ok.inj h
      rcases List.mem_cons.mp hmem with heq | hmem
      · obtain ⟨rfl, rfl⟩ := Prod.mk.inj heq
        exact ⟨lookup, hfound, hvalues⟩
      · exact ih hothers hmem

theorem loadEach_complete {metadata : EntityMetadata} {relations : List String}
    {loaded : List (String × (Entity → Related))}
    (h : loadEach orm entities metadata relations = .ok loaded) {property : String} {lookup : Lookup}
    (hmem : property ∈ relations) (hresolve : orm.resolve metadata property = .ok (some lookup)) :
    ∃ assigned, (property, assigned) ∈ loaded := by
  induction relations generalizing loaded with
  | nil => cases hmem
  | cons first relations ih =>
    obtain ⟨found, hfound, h⟩ := bind_ok h
    rcases List.mem_cons.mp hmem with rfl | hmem
    · obtain rfl := Except.ok.inj (hfound.symm.trans hresolve)
      obtain ⟨values, hvalues, h⟩ := bind_ok h
      obtain ⟨others, hothers, h⟩ := bind_ok h
      obtain rfl := Except.ok.inj h
      exact ⟨values, List.mem_cons_self⟩
    · cases found with
      | none => exact ih h hmem
      | some =>
        obtain ⟨values, hvalues, h⟩ := bind_ok h
        obtain ⟨others, hothers, h⟩ := bind_ok h
        obtain rfl := Except.ok.inj h
        obtain ⟨assigned, hassigned⟩ := ih hothers hmem
        exact ⟨assigned, List.mem_cons_of_mem _ hassigned⟩

theorem chunked_total (hlimit : 0 < orm.parameterLimit) (keys : List Value) :
    orm.chunked keys = .ok (chunks orm.parameterLimit keys) := by
  unfold chunked
  rw [if_neg fun h => by omega]

theorem load_total (hlimit : 0 < orm.parameterLimit) (entities : List Entity) (lookup : Lookup) :
    ∃ assigned, orm.load entities lookup = .ok assigned := by
  cases lookup with
  | reference joinColumn target column =>
    simp only [load, loadReference, chunkedFind, chunked_total hlimit]
    exact ⟨_, rfl⟩
  | children single target joinColumn ownerColumn =>
    simp only [load, loadChildren, chunkedFindPhysical, chunked_total hlimit]
    exact ⟨_, rfl⟩
  | junction =>
    simp only [load, loadJunction, chunkedFind, chunkedFindPhysical, chunked_total hlimit]
    exact ⟨_, rfl⟩

theorem loadEach_total (hlimit : 0 < orm.parameterLimit) {metadata : EntityMetadata}
    {relations : List String}
    (hresolve : ∀ property ∈ relations, ∃ lookup, orm.resolve metadata property = .ok lookup) :
    ∃ loaded, loadEach orm entities metadata relations = .ok loaded := by
  induction relations with
  | nil => exact ⟨[], rfl⟩
  | cons first relations ih =>
    obtain ⟨found, hfound⟩ := hresolve first List.mem_cons_self
    obtain ⟨others, hothers⟩ := ih fun property hmem => hresolve property (List.mem_cons_of_mem _ hmem)
    unfold loadEach
    rw [hfound]
    cases found with
    | none => exact ⟨others, hothers⟩
    | some lookup =>
      obtain ⟨values, hvalues⟩ := load_total hlimit entities lookup
      exact ⟨(first, values) :: others, by simp only [bind, Except.bind, hvalues, hothers]⟩

end ORM

/-! ## Section 7: A table of users -/

def sampleRuntime : Runtime where
  dateString := fun _ => "Tue Jan 02 2024 03:04:05 GMT+0000 (Coordinated Universal Time)"
  bytesString := fun _ => ""
  jsonString := fun _ => "[object Object]"
  toISOString := fun _ => "2024-01-02T03:04:05.000Z"
  stringify := fun _ => ""
  parse := fun text => .json text
  readDate := fun _ => 1704164645000
  readBigint := fun _ => 0

def sampleUsers : EntityMetadata where
  modelName := "User"
  tableName := "users"
  columns := [⟨"id", "id", .other, true⟩, ⟨"eventAt", "event_at", .datetime, false⟩]
  relations :=
    [⟨"event", .manyToOne, "Event", true, none, some "event_at", some "startsAt", none⟩,
     ⟨"roles", .manyToMany, "Role", true, none, none, none,
       some ⟨"user_roles", "user_id", "id", "role_id", "id"⟩⟩]

def sampleORM (parameterLimit : Nat) : ORM where
  js := sampleRuntime
  dialect := .sqlite
  parameterLimit := parameterLimit
  metadata :=
    [sampleUsers,
     ⟨"Event", "events", [⟨"startsAt", "starts_at", .datetime, true⟩], []⟩,
     ⟨"Role", "roles", [⟨"id", "id", .other, true⟩], []⟩]
  database :=
    { tables := fun table =>
        if table = "events" then [[("starts_at", .text "2024-01-02 03:04:05.000")]]
        else if table = "user_roles" then [[("user_id", .number (.int 1)), ("role_id", .number (.int 7))]]
        else if table = "roles" then [[("id", .number (.int 7))]]
        else []
      equal := fun _ _ a b => a == b }

def sampleUser : Entity where
  raw := [("id", ⟨0, .number (.int 1)⟩), ("event_at", ⟨0, .text "2024-01-02 03:04:05.000"⟩)]
  property := fun property => if property = "id" then ⟨0, .number (.int 1)⟩ else ⟨1, .date 1704164645000⟩

end Cossack.Database.RelationLoading
