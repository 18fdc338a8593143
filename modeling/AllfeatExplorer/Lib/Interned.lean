import AllfeatExplorer.Lib.Table

/-!
# Interned keys

A table that gives each key an id, with the ids taken from an ascending
sequence. No two keys share an id (`Numbered.inj`), and a key keeps the
id it was given (`Extends`), so an id that was ever read for a key, and
kept in a cache (`Cached`), is the key's id for good. A sequence may lose
values on the way: two tables that number the same keys in the same order
differ by a strictly increasing renaming (`Renumbers`).
-/

namespace AllfeatExplorer

namespace Interned

variable {κ κ' : Type*} [LinearOrder κ] [LinearOrder κ'] {t t' t'' : Table κ ℕ} {k k' : κ}
  {id id' next next' : ℕ}

/-- **Ids from a sequence** that stands at `next`: all are below it, and
each has one key. -/
structure Numbered (t : Table κ ℕ) (next : ℕ) : Prop where
  lt_next : ∀ k id, t.find k = some id → id < next
  inj : ∀ k k' id, t.find k = some id → t.find k' = some id → k = k'

/-- **Keys keep their ids.** -/
def Extends (t t' : Table κ ℕ) : Prop :=
  ∀ k id, t.find k = some id → t'.find k = some id

/-- What a cache holds is in the table. -/
def Cached (t : Table κ ℕ) (cache : κ → Option ℕ) : Prop :=
  ∀ k id, cache k = some id → t.find k = some id

theorem Extends.refl (t : Table κ ℕ) : Extends t t := fun _ _ h => h

theorem Extends.trans (h : Extends t t') (h' : Extends t' t'') : Extends t t'' :=
  fun k id hid => h' k id (h k id hid)

/-- A key that is there keeps its id, and any other gets one. -/
theorem extends_insertNew : Extends t (t.insertNew k id) := by
  intro k' id' h
  rw [Table.find_insertNew]
  split
  · rename_i hk
    rw [← hk, h]
    rfl
  · exact h

theorem insertNew_of_find (h : t.find k = some id) : t.insertNew k id' = t := by
  refine Table.ext_find fun a => ?_
  rw [Table.find_insertNew]
  split
  · rename_i ha
    rw [ha, h]
    rfl
  · rfl

/-- An id of the table with a key offered is one from before, or the
key's new one. -/
theorem find_insertNew_cases (h : (t.insertNew k next).find k' = some id) :
    t.find k' = some id ∨ k' = k ∧ id = next := by
  rw [Table.find_insertNew] at h
  split at h
  · rename_i hk
    rcases hold : t.find k with - | old
    · rw [hold] at h
      exact .inr ⟨hk, (Option.some.inj h).symm⟩
    · rw [hold] at h
      rw [hk, hold]
      exact .inl h
  · exact .inl h

theorem Numbered.empty : Numbered (Table.empty : Table κ ℕ) next where
  lt_next := by
    intro k id h
    rw [Table.find_empty] at h
    cases h
  inj := by
    intro k k' id h
    rw [Table.find_empty] at h
    cases h

/-- A value of the sequence may be lost. -/
theorem Numbered.skip (h : Numbered t next) (hnext : next ≤ next') : Numbered t next' where
  lt_next := fun k id hid => lt_of_lt_of_le (h.lt_next k id hid) hnext
  inj := h.inj

/-- **The next id goes to a key** that has none; a key that has one keeps
it. -/
theorem Numbered.insertNew (h : Numbered t next) : Numbered (t.insertNew k next) (next + 1) where
  lt_next := by
    intro k' id hid
    rcases find_insertNew_cases hid with hold | ⟨-, rfl⟩
    · exact Nat.lt_succ_of_lt (h.lt_next k' id hold)
    · exact Nat.lt_succ_self id
  inj := by
    intro a b id ha hb
    rcases find_insertNew_cases ha with hold | ⟨hak, hid⟩ <;>
      rcases find_insertNew_cases hb with hold' | ⟨hbk, hid'⟩
    · exact h.inj a b id hold hold'
    · -- An id given before is below the sequence.
      have hlt := h.lt_next a id hold
      omega
    · have hlt := h.lt_next b id hold'
      omega
    · rw [hak, hbk]

/-- **Ids read at any two times** are the same just if their keys are. -/
theorem Numbered.eq_iff (h : Numbered t' next) (hext : Extends t t') (hid : t.find k = some id)
    (hid' : t'.find k' = some id') : k = k' ↔ id = id' := by
  have hlater := hext k id hid
  constructor
  · rintro rfl
    exact Option.some.inj (hlater.symm.trans hid')
  · rintro rfl
    exact h.inj k k' id hlater hid'

/-! ## Caches -/

theorem Cached.empty : Cached t fun _ => none := nofun

theorem Cached.mono {cache : κ → Option ℕ} (h : Cached t cache) (hext : Extends t t') :
    Cached t' cache :=
  fun k id hid => hext k id (h k id hid)

/-- An id read of the table may be cached. -/
theorem Cached.update [DecidableEq κ] {cache : κ → Option ℕ} (h : Cached t cache)
    (hid : t.find k = some id) :
    Cached t (Function.update cache k (some id)) := by
  intro k' id' hid'
  rw [Function.update_apply] at hid'
  split at hid'
  · rename_i hk
    rw [hk, hid, hid']
  · exact h k' id' hid'

/-! ## Lost values -/

/-- **The part `emb` of a table numbers its keys as `t'` does**, in the
same order and under other ids: `ρ` takes the ids of `t'` to those of the
table, and increases as far as ids were given. -/
structure Renumbers (t : Table κ ℕ) (next : ℕ) (emb : κ' → κ) (t' : Table κ' ℕ) (next' : ℕ)
    (ρ : ℕ → ℕ) : Prop where
  find : ∀ k, t.find (emb k) = (t'.find k).map ρ
  mono : ∀ i j, i < j → j < next' → ρ i < ρ j
  lt_next : ∀ i < next', ρ i < next

section Renumbers

variable {emb : κ' → κ} {s : Table κ' ℕ} {ρ : ℕ → ℕ} {a : κ'}

theorem Renumbers.empty (h : next' ≤ next) :
    Renumbers (Table.empty : Table κ ℕ) next emb Table.empty next' fun i => i where
  find := by
    intro a
    rw [Table.find_empty, Table.find_empty]
    rfl
  mono := fun _ _ hij _ => hij
  lt_next := fun _ hi => lt_of_lt_of_le hi h

theorem Renumbers.skip (h : Renumbers t next emb s id ρ) (hnext : next ≤ next') :
    Renumbers t next' emb s id ρ where
  find := h.find
  mono := h.mono
  lt_next := fun i hi => lt_of_lt_of_le (h.lt_next i hi) hnext

/-- A key outside the part changes nothing of it. -/
theorem Renumbers.other (h : Renumbers t next emb s id ρ) (hk : ∀ a, emb a ≠ k) :
    Renumbers (t.insertNew k id') next emb s id ρ where
  find := by
    intro a
    rw [Table.find_insertNew, if_neg (hk a), h.find]
  mono := h.mono
  lt_next := h.lt_next

/-- **A new key of the part** takes the next id of either. -/
theorem Renumbers.insertNew (h : Renumbers t next emb s id ρ) (hs : Numbered s id)
    (hemb : Function.Injective emb) (hfree : s.find a = none) :
    Renumbers (t.insertNew (emb a) next) (next + 1) emb (s.insertNew a id) (id + 1)
      (Function.update ρ id next) where
  find := by
    intro b
    rw [Table.find_insertNew, Table.find_insertNew, h.find a, hfree]
    by_cases hb : b = a
    · rw [if_pos (by rw [hb]), if_pos hb]
      simp
    · rw [if_neg fun heq => hb (hemb heq), if_neg hb, h.find b]
      rcases hold : s.find b with - | old
      · rfl
      · have hlt := hs.lt_next b old hold
        simp [Function.update_of_ne (show old ≠ id by omega)]
  mono := by
    intro i j hij hj
    rw [Function.update_of_ne (by omega : i ≠ id)]
    by_cases hjid : j = id
    · rw [hjid, Function.update_self]
      exact h.lt_next i (by omega)
    · rw [Function.update_of_ne hjid]
      exact h.mono i j hij (by omega)
  lt_next := by
    intro i hi
    by_cases hid : i = id
    · rw [hid, Function.update_self]
      exact Nat.lt_succ_self next
    · rw [Function.update_of_ne hid]
      exact Nat.lt_succ_of_lt (h.lt_next i (by omega))

end Renumbers

end Interned

end AllfeatExplorer
