import Mathlib.Data.Finset.Lattice.Lemmas
import Mathlib.Data.Finset.Dedup
import Mathlib.Algebra.BigOperators.Group.List.Basic
import Mathlib.Algebra.GroupWithZero.Nat

/-!
# Aggregates of a scan

A scan keeps a counter for each figure it reports. What such a counter
ends at is a figure of the list that was scanned: a saturating sum is the
sum, clamped once; a wrapping count is the count, reduced once; a set
inserted into is the set of what was seen; and the earliest of a list
that is scanned from its latest element on is its head.

`perm_flatMap_filter` takes a list apart by a key: what a scan sees group
by group is what a query sees row by row.
-/

namespace AllfeatExplorer

namespace Aggregate

variable {α κ : Type*} {l : List α} {f : α → ℕ} {p : α → Bool} {a b bound : ℕ}

/-! ## Counters -/

/-- **Saturating on the way is one clamp at the end.** -/
theorem foldl_saturating (h : a ≤ bound) :
    l.foldl (fun n x => min (n + f x) bound) a = min (a + (l.map f).sum) bound := by
  induction l generalizing a with
  | nil => rw [List.foldl_nil, List.map_nil, List.sum_nil, Nat.add_zero, min_eq_left h]
  | cons x l ih =>
    rw [List.foldl_cons, ih (min_le_right _ _), List.map_cons, List.sum_cons]
    omega

/-- **Wrapping on the way is one reduction at the end.** -/
theorem foldl_wrapping (h : a < bound) :
    l.foldl (fun n x => if p x then (n + 1) % bound else n) a = (a + l.countP p) % bound := by
  induction l generalizing a with
  | nil => rw [List.foldl_nil, List.countP_nil, Nat.add_zero, Nat.mod_eq_of_lt h]
  | cons x l ih =>
    rw [List.foldl_cons, List.countP_cons]
    by_cases hx : p x = true
    · rw [if_pos hx, if_pos hx, ih (Nat.mod_lt _ (Nat.zero_lt_of_lt h)), Nat.mod_add_mod]
      congr 1
      omega
    · rw [if_neg hx, if_neg hx, ih h, Nat.add_zero]

/-- A set inserted into is the set of what was seen. -/
theorem foldl_insert [DecidableEq κ] {key : α → κ} {s : Finset κ} :
    l.foldl (fun s x => insert (key x) s) s = s ∪ (l.map key).toFinset := by
  induction l generalizing s with
  | nil => rw [List.foldl_nil, List.map_nil, List.toFinset_nil, Finset.union_empty]
  | cons x l ih =>
    rw [List.foldl_cons, ih, List.map_cons, List.toFinset_cons, Finset.union_insert,
      Finset.insert_union]

/-! ## The earliest -/

/-- The earlier of two, where one at the time 0 counts as none. -/
def keepEarlier (first x : ℤ × κ) : ℤ × κ :=
  if first.1 = 0 ∨ x.1 < first.1 then x else first

/-- **Scanned from its latest element on**, a list has its head as the
earliest: one at the time 0 is overwritten by none but those before it. -/
theorem foldl_keepEarlier {l : List (ℤ × κ)} {none : κ}
    (h : l.Pairwise fun x y => x.1 < y.1 ∨ x = y) :
    l.reverse.foldl keepEarlier (0, none) = l.head?.getD (0, none) := by
  induction l with
  | nil => rfl
  | cons x l ih =>
    obtain ⟨hx, hl⟩ := List.pairwise_cons.mp h
    rw [List.reverse_cons, List.foldl_append, ih hl, List.foldl_cons, List.foldl_nil,
      List.head?_cons, Option.getD_some]
    cases l with
    | nil => exact if_pos (.inl rfl)
    | cons y l =>
      rw [List.head?_cons, Option.getD_some]
      rcases hx y List.mem_cons_self with hlt | rfl
      · exact if_pos (.inr hlt)
      · exact ite_self _

/-! ## Group by group -/

/-- **A list taken apart by a key**, the keys in any order. -/
theorem perm_flatMap_filter [DecidableEq κ] {key : α → κ} {ks : List κ} (hnodup : ks.Nodup)
    (h : ∀ x ∈ l, key x ∈ ks) :
    List.Perm l (ks.flatMap fun k => l.filter fun x => decide (key x = k)) := by
  induction ks generalizing l with
  | nil =>
    have hnil : l = [] := List.eq_nil_iff_forall_not_mem.mpr fun x hx =>
      List.not_mem_nil (h x hx)
    rw [hnil, List.flatMap_nil]
  | cons k ks ih =>
    obtain ⟨hk, hks⟩ := List.nodup_cons.mp hnodup
    -- The rows of the other keys are taken apart by those.
    have hrest : ∀ x ∈ l.filter (fun x => !decide (key x = k)), key x ∈ ks := by
      intro x hx
      obtain ⟨hmem, hne⟩ := List.mem_filter.mp hx
      rcases List.mem_cons.mp (h x hmem) with heq | hlater
      · simp [heq] at hne
      · exact hlater
    have hsame : ∀ k' ∈ ks, (l.filter fun x => !decide (key x = k)).filter
        (fun x => decide (key x = k')) = l.filter fun x => decide (key x = k') := by
      intro k' hk'
      rw [List.filter_filter]
      refine List.filter_congr fun x _ => ?_
      by_cases heq : key x = k'
      · have hne : key x ≠ k := fun hkey => hk (hkey ▸ heq ▸ hk')
        simp [heq, heq ▸ hne]
      · simp [heq]
    refine (List.filter_append_perm (fun x => decide (key x = k)) l).symm.trans ?_
    rw [List.flatMap_cons]
    refine List.Perm.append_left _ ((ih hks hrest).trans ?_)
    exact List.Perm.of_eq (List.flatMap_congr hsame)

/-- Those from a bound on are those past it and those at it. -/
theorem countP_le_eq (time : α → ℤ) {edge : ℤ} :
    l.countP (fun x => decide (edge ≤ time x)) =
      l.countP (fun x => decide (edge < time x)) + l.countP fun x => decide (time x = edge) := by
  induction l with
  | nil => rfl
  | cons x l ih =>
    rw [List.countP_cons, List.countP_cons, List.countP_cons, ih]
    simp only [decide_eq_true_eq]
    split <;> split <;> split <;> omega

end Aggregate

end AllfeatExplorer
