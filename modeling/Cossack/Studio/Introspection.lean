import Cossack.Lib.Runs
import Mathlib.Logic.Function.Basic

/-! # Introspection caches

    `StudioDatabase` caches the schema and the inspection of a database, each with the
    load that is under way.  One generation counts the invalidations of both; a refresh of
    the inspection alone does not count, so an inspection that was under way before it may
    still be cached. -/

namespace Cossack.Studio

open Runs

/-! ## Section 1: The caches -/

inductive Cache
  | schema
  | inspection
  deriving DecidableEq

/-- A load, with the generation and the drops of its cache when it was started. -/
structure Load where
  cache : Cache
  generation : Nat
  drops : Nat

/-- How often its cache had been dropped when a call was made, and the load it resolves to. -/
structure Call where
  cache : Cache
  drops : Nat
  load : Nat

/-- Loads go by their numbers; `drops` counts the invalidations and refreshes of a cache. -/
structure StudioDatabase where
  generation : Nat
  cached : Cache → Option Nat
  pending : Cache → Option Nat
  loads : List Load
  settled : List Nat
  drops : Cache → Nat
  calls : List Call

namespace StudioDatabase

def initial : StudioDatabase := ⟨0, fun _ => none, fun _ => none, [], [], fun _ => 0, []⟩

def invalidateSchema (s : StudioDatabase) : StudioDatabase :=
  { s with
    generation := s.generation + 1, cached := fun _ => none, pending := fun _ => none
    drops := fun cache => s.drops cache + 1 }

/-- What `refresh` does before the caches are looked at. -/
def refresh (s : StudioDatabase) : Cache → StudioDatabase
  | .schema => s.invalidateSchema
  | .inspection =>
    { s with
      cached := Function.update s.cached .inspection none
      pending := Function.update s.pending .inspection none
      drops := Function.update s.drops .inspection (s.drops .inspection + 1) }

def answer (s : StudioDatabase) (cache : Cache) (load : Nat) : StudioDatabase :=
  { s with calls := ⟨cache, s.drops cache, load⟩ :: s.calls }

def start (s : StudioDatabase) (cache : Cache) : StudioDatabase :=
  { s with
    loads := s.loads ++ [⟨cache, s.generation, s.drops cache⟩]
    pending := Function.update s.pending cache (some s.loads.length) }

/-- `getSchema` and `getInspection`, where the connection can inspect. -/
def get (s : StudioDatabase) (cache : Cache) : StudioDatabase :=
  match (s.cached cache).or (s.pending cache) with
  | some load => s.answer cache load
  | none => (s.start cache).answer cache s.loads.length

def settle (s : StudioDatabase) (id : Nat) : StudioDatabase := { s with settled := id :: s.settled }

/-- The callback of a load that has a value, or `undefined`. -/
def succeed (s : StudioDatabase) (id : Nat) (load : Load) (defined : Bool) : StudioDatabase :=
  if load.generation = s.generation then
    { s with cached := Function.update s.cached load.cache (if defined then some id else none) }
  else s

/-- `finally`. -/
def finish (s : StudioDatabase) (id : Nat) (load : Load) : StudioDatabase :=
  if s.pending load.cache = some id then
    { s with pending := Function.update s.pending load.cache none }
  else s

end StudioDatabase

inductive Event
  | get (cache : Cache) (refresh : Bool)
  | invalidateSchema
  | succeed (load : Nat) (defined : Bool)
  | fail (load : Nat)
  | finish (load : Nat)

def step (s : StudioDatabase) : Event → Option StudioDatabase
  | .get cache refresh => some ((if refresh then s.refresh cache else s).get cache)
  | .invalidateSchema => some s.invalidateSchema
  | .succeed id defined =>
    if id ∈ s.settled then none
    else s.loads[id]?.map fun load => (s.succeed id load defined).settle id
  | .fail id => if id ∈ s.settled then none else some (s.settle id)
  | .finish id => if id ∈ s.settled then s.loads[id]?.map (s.finish id) else none

/-- A load of the cache, started after it was last dropped. -/
def Current (s : StudioDatabase) (cache : Cache) (id : Nat) : Prop :=
  ∃ load, s.loads[id]? = some load ∧ load.cache = cache ∧ load.drops = s.drops cache

/-- Neither a cached value nor the answer of a call comes from a load that was started
    before the cache was last dropped. -/
def Fresh (s : StudioDatabase) : Prop :=
  (∀ cache id, s.cached cache = some id → Current s cache id) ∧
  ∀ call ∈ s.calls, ∃ load, s.loads[call.load]? = some load ∧ load.cache = call.cache ∧
    call.drops ≤ load.drops

/-- The inspection is not refreshed while an inspection of this generation is under way. -/
def Quiet (s : StudioDatabase) (e : Event) : Prop :=
  e = .get .inspection true → ∀ (id : Nat) (load : Load), s.loads[id]? = some load → load.cache = .inspection →
    load.generation = s.generation → id ∈ s.settled

/-! ## Section 2: The invariant -/

structure Inv (s : StudioDatabase) : Prop where
  fresh : Fresh s
  pending : ∀ cache id, s.pending cache = some id → Current s cache id
  generations : ∀ (id : Nat) (load : Load), s.loads[id]? = some load → load.generation ≤ s.generation
  /-- What is under way in this generation was started after the last drop. -/
  started : ∀ (id : Nat) (load : Load), s.loads[id]? = some load → id ∉ s.settled →
    load.generation = s.generation → load.drops = s.drops load.cache

variable {s : StudioDatabase} {cache : Cache} {id : Nat} {load : Load}

/-- What holds of every cached load still does when one of the caches changes. -/
theorem all_update {P : Cache → Nat → Prop} {caches : Cache → Option Nat} {value : Option Nat}
    (hold : ∀ other i, caches other = some i → other ≠ cache → P other i)
    (hnew : ∀ i, value = some i → P cache i) (other : Cache) (i : Nat)
    (hi : Function.update caches cache value other = some i) : P other i := by
  by_cases hother : other = cache
  · subst hother
    rw [Function.update_self] at hi
    exact hnew i hi
  · rw [Function.update_of_ne hother] at hi
    exact hold other i hi hother

theorem inv_initial : Inv .initial := ⟨⟨nofun, nofun⟩, nofun, nofun, nofun⟩

theorem Inv.invalidate (h : Inv s) : Inv s.invalidateSchema := by
  refine ⟨⟨nofun, h.fresh.2⟩, nofun, fun id load hload => ?_, fun id load hload _ hsame => ?_⟩
  · exact Nat.le_succ_of_le (h.generations id load hload)
  · have hle := h.generations id load hload
    have hlt : load.generation = s.generation + 1 := hsame
    omega

theorem Inv.refresh (h : Inv s) (hquiet : Quiet s (.get cache true)) : Inv (s.refresh cache) := by
  cases cache with
  | schema => exact h.invalidate
  | inspection =>
    have hkept : ∀ other i, Current s other i → other ≠ .inspection →
        Current (s.refresh .inspection) other i := by
      intro other i hi hother
      cases other with
      | inspection => exact absurd rfl hother
      | schema => exact hi
    refine ⟨⟨?_, h.fresh.2⟩, ?_, h.generations, ?_⟩
    · exact all_update (fun other i hi => hkept other i (h.fresh.1 other i hi)) nofun
    · exact all_update (fun other i hi => hkept other i (h.pending other i hi)) nofun
    intro id load hload hunsettled hsame
    cases hcache : load.cache with
    | schema => exact (h.started id load hload hunsettled hsame).trans (by rw [hcache]; rfl)
    | inspection => exact absurd (hquiet rfl id load hload hcache hsame) hunsettled

theorem Inv.answer (h : Inv s) (hid : Current s cache id) : Inv (s.answer cache id) := by
  refine ⟨⟨h.fresh.1, fun call hcall => ?_⟩, h.pending, h.generations, h.started⟩
  rcases List.mem_cons.mp hcall with rfl | hcall
  · obtain ⟨load, hload, hcache, hdrops⟩ := hid
    exact ⟨load, hload, hcache, Nat.le_of_eq hdrops.symm⟩
  · exact h.fresh.2 call hcall

theorem Inv.start (h : Inv s) : Inv (s.start cache) ∧ Current (s.start cache) cache s.loads.length := by
  have hloads : (s.start cache).loads = s.loads ++ [⟨cache, s.generation, s.drops cache⟩] := rfl
  have hnew : Current (s.start cache) cache s.loads.length :=
    ⟨_, List.getElem?_concat_length, rfl, rfl⟩
  have hold : ∀ {i : Nat} {load}, s.loads[i]? = some load → (s.start cache).loads[i]? = some load := by
    intro i load hload
    rw [hloads, List.getElem?_append_left (List.getElem?_eq_some_iff.mp hload).1, hload]
  have hcurrent : ∀ other i, Current s other i → Current (s.start cache) other i := by
    rintro other i ⟨load, hload, hrest⟩
    exact ⟨load, hold hload, hrest⟩
  have hcases : ∀ {i : Nat} {load}, (s.start cache).loads[i]? = some load →
      s.loads[i]? = some load ∨ load = ⟨cache, s.generation, s.drops cache⟩ := by
    intro i load hload
    rw [hloads, List.getElem?_append] at hload
    split at hload
    · exact .inl hload
    · exact .inr (List.mem_singleton.mp (List.mem_of_getElem? hload))
  refine ⟨⟨⟨fun other i hi => hcurrent other i (h.fresh.1 other i hi), fun call hcall => ?_⟩,
    ?_, fun i load hload => ?_, fun i load hload hunsettled hsame => ?_⟩, hnew⟩
  · obtain ⟨load, hload, hrest⟩ := h.fresh.2 call hcall
    exact ⟨load, hold hload, hrest⟩
  · refine all_update (fun other i hi _ => hcurrent other i (h.pending other i hi)) fun i hi => ?_
    exact Option.some.inj hi ▸ hnew
  · rcases hcases hload with hload | rfl
    · exact h.generations i load hload
    · exact Nat.le_refl s.generation
  · rcases hcases hload with hload | rfl
    · exact h.started i load hload hunsettled hsame
    · rfl

theorem Inv.get (h : Inv s) : Inv (s.get cache) := by
  unfold StudioDatabase.get
  cases hknown : (s.cached cache).or (s.pending cache) with
  | some id =>
    apply h.answer
    rcases Option.or_eq_some_iff.mp hknown with hcached | ⟨-, hpending⟩
    · exact h.fresh.1 cache id hcached
    · exact h.pending cache id hpending
  | none => exact h.start.1.answer h.start.2

theorem Inv.settle (h : Inv s) : Inv (s.settle id) :=
  ⟨h.fresh, h.pending, h.generations, fun i load hload hi =>
    h.started i load hload fun hmem => hi (List.mem_cons_of_mem id hmem)⟩

/-- A load of this generation that was under way is current. -/
theorem Inv.succeed (h : Inv s) (hload : s.loads[id]? = some load) (hunsettled : id ∉ s.settled)
    (defined : Bool) : Inv (s.succeed id load defined) := by
  unfold StudioDatabase.succeed
  split
  · rename_i hgeneration
    refine ⟨⟨all_update (fun other i hi _ => h.fresh.1 other i hi) fun i hi => ?_, h.fresh.2⟩,
      h.pending, h.generations, h.started⟩
    rw [Option.ite_none_right_eq_some] at hi
    exact Option.some.inj hi.2 ▸ ⟨load, hload, rfl, h.started id load hload hunsettled hgeneration⟩
  · exact h

theorem Inv.finish (h : Inv s) : Inv (s.finish id load) := by
  unfold StudioDatabase.finish
  split
  · refine ⟨h.fresh, ?_, h.generations, h.started⟩
    exact all_update (fun other i hi _ => h.pending other i hi) nofun
  · exact h

theorem Inv.step (h : Inv s) {s' : StudioDatabase} {e : Event} (hquiet : Quiet s e)
    (hstep : step s e = some s') : Inv s' := by
  cases e with
  | get cache refresh =>
    obtain rfl := Option.some.inj hstep
    cases refresh with
    | false => exact h.get
    | true => exact (h.refresh hquiet).get
  | invalidateSchema =>
    obtain rfl := Option.some.inj hstep
    exact h.invalidate
  | succeed id defined =>
    obtain ⟨hunsettled, hstep⟩ := Option.ite_none_left_eq_some.mp hstep
    obtain ⟨load, hload, rfl⟩ := Option.map_eq_some_iff.mp hstep
    exact (h.succeed hload hunsettled defined).settle
  | fail id =>
    obtain ⟨-, hstep⟩ := Option.ite_none_left_eq_some.mp hstep
    obtain rfl := Option.some.inj hstep
    exact h.settle
  | finish id =>
    obtain ⟨-, hstep⟩ := Option.ite_none_right_eq_some.mp hstep
    obtain ⟨load, -, rfl⟩ := Option.map_eq_some_iff.mp hstep
    exact h.finish

/-- In every run that never refreshes the inspection while one is under way, nothing stale
    is cached or given to a call. -/
theorem introspection_fresh (s : StudioDatabase) (hrun : Run step Quiet .initial s) : Fresh s := by
  have hinv : Inv s := hrun.invariant inv_initial fun _ _ _ h hquiet hstep => h.step hquiet hstep
  exact hinv.fresh

/-- A refresh, and the schema that was under way before it comes late. -/
theorem introspection_fresh_refreshed : ∃ s, Run step Quiet .initial s ∧ Fresh s ∧
    s.cached .schema = some 1 := by
  have hquiet : Admits step Quiet .initial
      [.get .schema false, .get .schema true, .succeed 1 true, .succeed 0 true] := by
    refine ⟨nofun, fun _ h => ?_⟩
    cases h
    refine ⟨nofun, fun _ h => ?_⟩
    cases h
    refine ⟨nofun, fun _ h => ?_⟩
    cases h
    exact ⟨nofun, fun _ _ => trivial⟩
  have hrun := run_of_exec rfl hquiet
  exact ⟨_, hrun, introspection_fresh _ hrun, rfl⟩

/-- An inspection that was under way before a refresh ends after the new one, and is given
    to the next call. -/
theorem refreshed_inspection_overwritten : ∃ s, exec step .initial
    [.get .inspection false, .get .inspection true, .succeed 1 true, .succeed 0 true,
      .get .inspection false] = some s ∧ s.cached .inspection = some 0 ∧
    s.calls.head?.map Call.load = some 0 ∧ ¬ Fresh s := by
  refine ⟨_, rfl, rfl, rfl, fun hfresh => ?_⟩
  obtain ⟨load, hload, -, hdrops⟩ := hfresh.1 .inspection 0 rfl
  obtain rfl := Option.some.inj hload
  exact absurd hdrops (by decide)

end Cossack.Studio
