import AllfeatExplorer.Lib.Table
import Mathlib.Data.Set.Insert

/-!
# Summary tables

A table that keeps, under each key, one row for everything that was
offered under it. The row is not a log: an offer is merged into it, and
what it says of a set of offers is a relation (`Summary.Sums`). Where
that relation is kept by a merge, the table says it of exactly what was
offered (`Summary.reflects_absorbAll`); where it also determines the row,
neither the order of the offers nor a repetition is seen
(`Summary.Reflects.unique`).
-/

namespace AllfeatExplorer

/-- **How a row sums up offers**: the row of a first offer, the merge of a
further one, and what a row says of the set of offers it has seen. -/
structure Summary (κ ι ρ : Type*) where
  /-- The row an offer under a fresh key makes. -/
  offer : κ → ι → ρ
  /-- An offered row, merged into the row that is there. -/
  merge : ρ → ρ → ρ
  /-- The row says this of the offers under the key. -/
  Sums : κ → Set ι → ρ → Prop
  sums_singleton : ∀ k i, Sums k {i} (offer k i)
  sums_insert : ∀ k i S r, Sums k S r → Sums k (insert i S) (merge (offer k i) r)

namespace Summary

variable {κ ι ρ : Type*} [LinearOrder κ] (D : Summary κ ι ρ)

/-- One offer: `INSERT … ON CONFLICT DO UPDATE`. -/
def absorb (t : Table κ ρ) (o : κ × ι) : Table κ ρ :=
  t.upsert o.1 (D.offer o.1 o.2) (D.merge (D.offer o.1 o.2))

/-- The offers, in order. -/
def absorbAll (t : Table κ ρ) (os : List (κ × ι)) : Table κ ρ :=
  os.foldl D.absorb t

/-- The items offered under a key. -/
def offered (O : Set (κ × ι)) (k : κ) : Set ι := {i | (k, i) ∈ O}

/-- **The table reflects the offers**: a key has a row just if something
was offered under it, and the row sums that up. -/
structure Reflects (t : Table κ ρ) (O : Set (κ × ι)) : Prop where
  row : ∀ k r, t.find k = some r → D.Sums k (offered O k) r
  fresh : ∀ k, t.find k = none ↔ offered O k = ∅

variable {D} {t t' : Table κ ρ} {O O' : Set (κ × ι)} {k : κ}

theorem offered_insert (o : κ × ι) :
    offered (insert o O) k = if k = o.1 then insert o.2 (offered O k) else offered O k := by
  obtain ⟨k', i⟩ := o
  ext j
  by_cases hk : k = k'
  · simp [offered, hk]
  · simp [offered, hk]

theorem reflects_empty : D.Reflects .empty ∅ where
  row := by
    intro k r h
    cases h
  fresh := by
    intro k
    simp [offered]

/-- **One offer keeps the reflection.** -/
theorem Reflects.absorb (h : D.Reflects t O) (o : κ × ι) :
    D.Reflects (D.absorb t o) (insert o O) := by
  have hfind : ∀ k, (D.absorb t o).find k =
      if k = o.1 then some ((t.find o.1).elim (D.offer o.1 o.2) (D.merge (D.offer o.1 o.2)))
      else t.find k := fun k => Table.find_upsert
  constructor
  · intro k r hr
    rw [hfind] at hr
    rw [offered_insert]
    by_cases hk : k = o.1
    · rw [if_pos hk] at hr ⊢
      obtain rfl := Option.some.inj hr
      subst hk
      cases ht : t.find o.1 with
      | none =>
        rw [(h.fresh _).mp ht, insert_empty_eq]
        exact D.sums_singleton _ _
      | some old => exact D.sums_insert _ _ _ _ (h.row _ _ ht)
    · rw [if_neg hk] at hr ⊢
      exact h.row k r hr
  · intro k
    rw [hfind, offered_insert]
    by_cases hk : k = o.1
    · rw [if_pos hk, if_pos hk]
      exact ⟨nofun, fun hempty => absurd hempty (Set.insert_nonempty _ _).ne_empty⟩
    · rw [if_neg hk, if_neg hk]
      exact h.fresh k

/-- **A table reflects all that was offered**, whatever the order. -/
theorem Reflects.absorbAll (h : D.Reflects t O) (os : List (κ × ι)) :
    D.Reflects (D.absorbAll t os) (O ∪ {o | o ∈ os}) := by
  induction os generalizing t O with
  | nil => simpa [Summary.absorbAll] using h
  | cons o os ih =>
    have hset : O ∪ {o' | o' ∈ o :: os} = insert o O ∪ {o' | o' ∈ os} := by
      ext x
      simp only [List.mem_cons, Set.mem_union, Set.mem_ofPred_eq, Set.mem_insert_iff]
      tauto
    rw [hset]
    exact ih (h.absorb o)

/-- **Confluence.** Where the offers determine the row, two tables that
reflect the same offers are equal. -/
theorem Reflects.unique (h : D.Reflects t O) (h' : D.Reflects t' O)
    (hdet : ∀ k r r', D.Sums k (offered O k) r → D.Sums k (offered O k) r' → r = r') : t = t' := by
  refine Table.ext_find fun k => ?_
  cases ht : t.find k with
  | none => rw [(h'.fresh k).mpr ((h.fresh k).mp ht)]
  | some r =>
    cases ht' : t'.find k with
    | none =>
      have hnone := (h.fresh k).mpr ((h'.fresh k).mp ht')
      rw [ht] at hnone
      cases hnone
    | some r' => rw [hdet k r r' (h.row k r ht) (h'.row k r' ht')]

end Summary

end AllfeatExplorer
