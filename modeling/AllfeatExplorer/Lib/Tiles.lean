import Mathlib.Data.Set.BooleanAlgebra
import Mathlib.Order.CompletePartialOrder
import Mathlib.Order.Interval.Set.Basic

/-!
# Ranges that tile a set

A list of inclusive ranges over a linear order tiles a set when the
ranges ascend, none is empty or wider than asked, and their union is the
set. Two tilings append where the one set is below the other, which is
how a loop that pushes its ranges from left to right is followed.
-/

namespace AllfeatExplorer

variable {α : Type*} [LinearOrder α]

/-- **`l` tiles `s`** by ranges that satisfy `fits`. -/
structure Tiles (fits : α × α → Prop) (l : List (α × α)) (s : Set α) : Prop where
  ascending : l.Pairwise fun c d => c.2 < d.1
  nonempty : ∀ c ∈ l, c.1 ≤ c.2
  fits : ∀ c ∈ l, fits c
  union : ∀ n, (∃ c ∈ l, n ∈ Set.Icc c.1 c.2) ↔ n ∈ s

namespace Tiles

variable {fits : α × α → Prop} {l m : List (α × α)} {s t : Set α} {a b : α}

theorem nil : Tiles fits [] ∅ where
  ascending := List.Pairwise.nil
  nonempty := fun c hc => by cases hc
  fits := fun c hc => by cases hc
  union := fun n => by simp

theorem singleton (hab : a ≤ b) (hfits : fits (a, b)) : Tiles fits [(a, b)] (Set.Icc a b) where
  ascending := List.pairwise_singleton _ _
  nonempty := by
    intro c hc
    obtain rfl := List.mem_singleton.mp hc
    exact hab
  fits := by
    intro c hc
    obtain rfl := List.mem_singleton.mp hc
    exact hfits
  union := fun n => by simp only [List.mem_singleton, exists_eq_left]

theorem left_mem (h : Tiles fits l s) {c : α × α} (hc : c ∈ l) : c.1 ∈ s :=
  (h.union c.1).mp ⟨c, hc, Set.left_mem_Icc.mpr (h.nonempty c hc)⟩

theorem right_mem (h : Tiles fits l s) {c : α × α} (hc : c ∈ l) : c.2 ∈ s :=
  (h.union c.2).mp ⟨c, hc, Set.right_mem_Icc.mpr (h.nonempty c hc)⟩

/-- **Tilings append** where the one set is below the other. -/
theorem append (h : Tiles fits l s) (h' : Tiles fits m t) (hlt : ∀ a ∈ s, ∀ b ∈ t, a < b) :
    Tiles fits (l ++ m) (s ∪ t) where
  ascending := by
    refine List.pairwise_append.mpr ⟨h.ascending, h'.ascending, ?_⟩
    intro c hc d hd
    exact hlt c.2 (h.right_mem hc) d.1 (h'.left_mem hd)
  nonempty := by
    intro c hc
    rcases List.mem_append.mp hc with hc | hc
    · exact h.nonempty c hc
    · exact h'.nonempty c hc
  fits := by
    intro c hc
    rcases List.mem_append.mp hc with hc | hc
    · exact h.fits c hc
    · exact h'.fits c hc
  union := by
    intro n
    rw [Set.mem_union, ← h.union n, ← h'.union n]
    simp only [List.mem_append, or_and_right, exists_or]

theorem congr (h : Tiles fits l s) (hst : ∀ n, n ∈ s ↔ n ∈ t) : Tiles fits l t := by
  have heq : s = t := Set.ext hst
  exact heq ▸ h

/-- **The ranges are disjoint.** -/
theorem disjoint (h : Tiles fits l s) :
    l.Pairwise fun c d => Disjoint (Set.Icc c.1 c.2) (Set.Icc d.1 d.2) := by
  refine h.ascending.imp ?_
  intro c d hcd
  refine Set.disjoint_left.mpr fun n hn hn' => ?_
  exact absurd (hn.2.trans_lt hcd) hn'.1.not_gt

end Tiles

end AllfeatExplorer
