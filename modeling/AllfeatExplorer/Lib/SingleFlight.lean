import Mathlib.Logic.Function.Basic

/-!
# A cache in front of something that changes

A key is loaded once and then answered from its entry, which is neither
dropped nor looked at again. A load takes its value at one moment and
stores it at a later one, and the source may change in between and
afterwards; while a load of a key is under way there is no other.

What is known of the values a cache has (`Holds`) is kept by a store, by
a load that brings such a value, and by a change of the source that leaves
it true of the keys held.
-/

namespace AllfeatExplorer

/-- **A single-flight cache**: the entries, and the values that are loaded
but not stored yet. -/
structure SingleFlight (κ ν : Type*) where
  entries : κ → Option ν
  loading : κ → Option ν

namespace SingleFlight

variable {κ ν : Type*} {c : SingleFlight κ ν} {P Q : κ → ν → Prop} {k : κ} {v : ν}

/-- Nothing cached, nothing under way. -/
def empty : SingleFlight κ ν := ⟨fun _ => none, fun _ => none⟩

/-- Whether a load of the key may start. -/
def free (c : SingleFlight κ ν) (k : κ) : Bool := (c.entries k).isNone && (c.loading k).isNone

/-- The key has an entry, or is to get one. -/
def Held (c : SingleFlight κ ν) (k : κ) : Prop := ∃ v, c.entries k = some v ∨ c.loading k = some v

/-- **Every value satisfies `P`.** -/
structure Holds (P : κ → ν → Prop) (c : SingleFlight κ ν) : Prop where
  entries : ∀ k v, c.entries k = some v → P k v
  loading : ∀ k v, c.loading k = some v → P k v

/-- What is true of the keys held may be weakened there. -/
theorem Holds.imp (h : c.Holds P) (himp : ∀ k v, c.Held k → P k v → Q k v) : c.Holds Q where
  entries := fun k v hv => himp k v ⟨v, .inl hv⟩ (h.entries k v hv)
  loading := fun k v hv => himp k v ⟨v, .inr hv⟩ (h.loading k v hv)

variable [DecidableEq κ]

/-- The loader's value, not stored yet. -/
def load (c : SingleFlight κ ν) (k : κ) (v : ν) : SingleFlight κ ν :=
  { c with loading := Function.update c.loading k (some v) }

/-- The value becomes the entry. -/
def store (c : SingleFlight κ ν) (k : κ) : Option (SingleFlight κ ν) :=
  (c.loading k).map fun v =>
    { entries := Function.update c.entries k (some v)
      loading := Function.update c.loading k none }

/-- What a changed map has is what was put there, or what it had. -/
theorem of_update_eq_some {f : κ → Option ν} {o : Option ν} {k' : κ}
    (h : Function.update f k o k' = some v) : k' = k ∧ o = some v ∨ f k' = some v := by
  rcases eq_or_ne k' k with rfl | hne
  · rw [Function.update_self] at h
    exact .inl ⟨rfl, h⟩
  · rw [Function.update_of_ne hne] at h
    exact .inr h

theorem Holds.load (h : c.Holds P) (hv : P k v) : (c.load k v).Holds P where
  entries := h.entries
  loading := by
    intro k' v' hv'
    obtain ⟨rfl, hnew⟩ | hold := of_update_eq_some hv'
    · exact Option.some.inj hnew ▸ hv
    · exact h.loading k' v' hold

theorem Holds.store {c' : SingleFlight κ ν} (h : c.Holds P) (hstore : c.store k = some c') :
    c'.Holds P := by
  obtain ⟨v, hv, rfl⟩ := Option.map_eq_some_iff.mp hstore
  refine ⟨fun k' v' hv' => ?_, fun k' v' hv' => ?_⟩
  · obtain ⟨rfl, hnew⟩ | hold := of_update_eq_some hv'
    · exact Option.some.inj hnew ▸ h.loading k' v hv
    · exact h.entries k' v' hold
  · obtain ⟨-, hnone⟩ | hold := of_update_eq_some hv'
    · exact absurd hnone (Option.some_ne_none v').symm
    · exact h.loading k' v' hold

end SingleFlight

end AllfeatExplorer
