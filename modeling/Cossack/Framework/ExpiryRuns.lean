import Cossack.Framework.ExpiryLookup
import Cossack.Lib.Runs

/-! # Runs of the expiry index

    Whatever is added, removed and looked for, and whichever way the clock goes, the
    index holds what was added and not removed.  The cache adds an entry only before
    its deadline, and removes only what it has added. -/

namespace Cossack.Framework.MemoryCache

open LinkedLists RadixBuckets Runs

inductive IndexCall
  | add (entry : MemoryEntry) (now : Nat)
  | remove (entry : MemoryEntry)
  | clear
  | expired (now : Nat)

/-- The index, and the entries that were added and not removed. -/
abbrev IndexState := ExpiryIndex × List MemoryEntry

/-- `none` is a call that does not return. -/
def IndexState.step (s : IndexState) : IndexCall → Option IndexState
  | .add entry now => (s.1.add entry now).map fun x => (x, entry :: s.2)
  | .remove entry => some (s.1.remove entry, s.2.filter (· != entry))
  | .clear => some (s.1.clear, [])
  | .expired now => (ExpiryIndex.expired now expiryBuckets s.1).map fun r => (r.2, s.2)

/-- What the cache heeds in its calls. -/
def IndexState.Heeds (s : IndexState) : IndexCall → Prop
  | .add entry now => entry ∉ s.2 ∧ now < entry.deadline ∧ entry.deadline < 2 ^ 53
  | .remove entry => entry ∈ s.2
  | .clear => True
  | .expired _ => True

variable {x : ExpiryIndex} {E : List MemoryEntry}

theorem Holds.finds (h : Holds x E) (now : Nat) :
    ∃ found x', ExpiryIndex.expired now expiryBuckets x = some (found, x') ∧ Holds x' E ∧
      Finds E now found := by
  obtain ⟨contents, hindexed⟩ := h.indexed
  apply h.expired
  refine ⟨by decide, fun hne => ?_⟩
  obtain ⟨e, he⟩ := List.exists_mem_of_ne_nil E hne
  exact ⟨e, he, hindexed.bucket_lt he⟩

/-- A call returns, and the index holds what it should. -/
theorem Holds.step (h : Holds x E) {call : IndexCall} (hcall : IndexState.Heeds (x, E) call) :
    ∃ x' E', IndexState.step (x, E) call = some (x', E') ∧ Holds x' E' := by
  cases call with
  | add entry now =>
    obtain ⟨hnew, hlive, hsmall⟩ := hcall
    obtain ⟨x', hadd, hholds⟩ := h.add hnew hlive hsmall
    have hadd' : (x, E).1.add entry now = some x' := hadd
    exact ⟨x', entry :: E, by rw [IndexState.step, hadd', Option.map_some], hholds⟩
  | remove entry => exact ⟨_, _, rfl, h.remove hcall⟩
  | clear => exact ⟨_, _, rfl, holds_clear x⟩
  | expired now =>
    obtain ⟨found, x', hexpired, hholds, -⟩ := h.finds now
    have hexpired' : ExpiryIndex.expired now expiryBuckets (x, E).1 = some (found, x') := hexpired
    exact ⟨x', E, by rw [IndexState.step, hexpired', Option.map_some], hholds⟩

theorem run_holds {s : IndexState} (h : Run IndexState.step IndexState.Heeds (.empty, []) s) :
    Holds s.1 s.2 := by
  have hkeeps : ∀ (s t : IndexState) (call : IndexCall), Holds s.1 s.2 → s.Heeds call →
      s.step call = some t → Holds t.1 t.2 := by
    intro s t call hs hcall hstep
    obtain ⟨x', E', hstep', hholds⟩ := Holds.step hs hcall
    have hsame : t = (x', E') := Option.some.inj (hstep.symm.trans hstep')
    rw [hsame]
    exact hholds
  refine h.invariant ?_ hkeeps
  exact holds_empty

private def entryAt (id deadline : Nat) : MemoryEntry := ⟨id, "key", "1", some deadline, 4⟩

/-- The clock goes back between two entries, and the first of them is removed. -/
private def backwards : List IndexCall :=
  [.add (entryAt 1 200) 100, .expired 150, .add (entryAt 2 90) 50, .remove (entryAt 1 200)]

end Cossack.Framework.MemoryCache
