import AllfeatExplorer.Lib.Table
import Mathlib.Data.List.Sort

/-!
# A column of a table

A table with one value in place of each row, and the values of a column
in descending order: what `ORDER BY value DESC` returns is the same for
any order the rows are met in.
-/

namespace AllfeatExplorer

namespace Table

variable {κ ρ σ : Type*} [LinearOrder κ] {k : κ}

/-- Each row replaced by what `f` makes of it. -/
def mapRows (t : Table κ ρ) (f : ρ → σ) : Table κ σ :=
  ⟨t.rows.map fun r => (r.1, f r.2), List.pairwise_map.mpr t.sorted⟩

@[simp] theorem find_mapRows {t : Table κ ρ} {f : ρ → σ} :
    (t.mapRows f).find k = (t.find k).map f := by
  unfold find mapRows
  simp only [List.find?_map, Option.map_map, Function.comp_def]

/-- The values of a column, in key order. -/
def column (t : Table κ ρ) (f : ρ → σ) : List σ := t.rows.map fun r => f r.2

/-- **Two columns are the same** where each key has the same value in
both. -/
theorem column_eq {ρ' : Type*} {t : Table κ ρ} {t' : Table κ ρ'} {f : ρ → σ} {g : ρ' → σ}
    (h : ∀ k, (t.find k).map f = (t'.find k).map g) : t.column f = t'.column g := by
  have htables : t.mapRows f = t'.mapRows g := by
    refine ext_find fun k => ?_
    rw [find_mapRows, find_mapRows, h]
  have hvalues := congrArg (fun u : Table κ σ => u.rows.map Prod.snd) htables
  simpa [mapRows, column, Function.comp_def] using hvalues

/-- A column is made up of the rows that meet a condition and the
others. -/
theorem column_perm_filter {t : Table κ ρ} (p : κ → ρ → Bool) {f : ρ → σ} :
    (t.column f).Perm ((t.filter p).column f ++ (t.filter fun k r => !p k r).column f) := by
  unfold column
  rw [← List.map_append]
  exact ((List.filter_append_perm (fun r : κ × ρ => p r.1 r.2) t.rows).symm).map _

end Table

/-! ## In descending order -/

section Descending

variable {α : Type*} {key : α → ℕ} {l : List α} {ns : List ℕ}

/-- **The keys of a sorted list** are the only descending arrangement of
its keys. -/
theorem map_eq_of_descending (hsorted : l.Pairwise fun a b => key b ≤ key a)
    (hns : ns.Pairwise fun m n => n ≤ m) (hperm : (l.map key).Perm ns) : l.map key = ns :=
  List.Perm.eq_of_pairwise (fun _ _ _ _ h h' => le_antisymm h' h)
    (List.pairwise_map.mpr hsorted) hns hperm

/-- Zeros come last. -/
theorem descending_append_zeros (hns : ns.Pairwise fun m n => n ≤ m) (k : ℕ) :
    (ns ++ List.replicate k 0).Pairwise fun m n => n ≤ m := by
  refine List.pairwise_append.mpr ⟨hns, ?_, fun m _ n hn => ?_⟩
  · exact List.pairwise_replicate.mpr (.inr le_rfl)
  · rw [List.eq_of_mem_replicate hn]
    exact Nat.zero_le m

end Descending

end AllfeatExplorer
