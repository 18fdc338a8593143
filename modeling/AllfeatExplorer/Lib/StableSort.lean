import Mathlib.Data.List.Nodup
import Mathlib.Order.Lattice

/-!
# A stable sort

A stable sort of a list that is in some order already puts it in the
lexicographic order of the two: what the sort does not tell apart stays
as it was.

Most sorts go by a key, up or down. These are in the order of their keys,
strictly where no two entries share one, and as they leave the entries of
one key as they were, they may as well come after a selection as before
it.
-/

namespace AllfeatExplorer

open scoped List

variable {α : Type*} {l : List α} {a b : α} {R : α → α → Prop}

/-- Two members of a list come in one order or the other. -/
theorem pair_sublist_or (ha : a ∈ l) (hb : b ∈ l) (hne : a ≠ b) : [a, b] <+ l ∨ [b, a] <+ l := by
  induction l with
  | nil => cases ha
  | cons x l ih =>
    rcases List.mem_cons.mp ha with rfl | ha'
    · have hmem : b ∈ l := (List.mem_cons.mp hb).resolve_left (Ne.symm hne)
      exact .inl ((List.singleton_sublist.mpr hmem).cons_cons a)
    · rcases List.mem_cons.mp hb with rfl | hb'
      · exact .inr ((List.singleton_sublist.mpr ha').cons_cons b)
      · exact (ih ha' hb').imp (List.Sublist.cons x) (List.Sublist.cons x)

/-- Without repetition they come in one order only. -/
theorem not_pair_sublist_both (hl : l.Nodup) (hab : [a, b] <+ l) (hba : [b, a] <+ l) : False := by
  induction l with
  | nil => cases hab
  | cons x l ih =>
    obtain ⟨hx, hl⟩ := List.nodup_cons.mp hl
    have hmem : ∀ {c d : α}, [c, d] <+ l → c ∈ l ∧ d ∈ l := fun h =>
      ⟨h.subset List.mem_cons_self, h.subset (List.mem_cons_of_mem _ List.mem_cons_self)⟩
    cases hab with
    | cons _ hab =>
      cases hba with
      | cons _ hba => exact ih hl hab hba
      | cons_cons _ hba => exact hx (hmem hab).2
    | cons_cons _ hab =>
      have hb : b ∈ l := List.singleton_sublist.mp hab
      cases hba with
      | cons _ hba => exact hx (hmem hba).2
      | cons_cons _ hba => exact hx hb

/-- **A stable sort keeps the order of what it does not tell apart.** -/
theorem pairwise_mergeSort_stable (le : α → α → Bool) (htrans : ∀ a b c, le a b → le b c → le a c)
    (htotal : ∀ a b, le a b || le b a) (hR : l.Pairwise R) (hl : l.Nodup) :
    (l.mergeSort le).Pairwise fun a b => le a b = true ∧ (le b a = true → R a b) := by
  have hsorted := List.pairwise_mergeSort htrans htotal l
  have hperm := List.mergeSort_perm l le
  have hnodup : (l.mergeSort le).Nodup := hperm.nodup_iff.mpr hl
  refine List.pairwise_iff_forall_sublist.mpr fun {a b} hab => ?_
  refine ⟨List.pairwise_iff_forall_sublist.mp hsorted hab, fun hba => ?_⟩
  have ha : a ∈ l := hperm.mem_iff.mp (hab.subset List.mem_cons_self)
  have hb : b ∈ l := hperm.mem_iff.mp (hab.subset (List.mem_cons_of_mem _ List.mem_cons_self))
  have hne : a ≠ b := List.pairwise_iff_forall_sublist.mp hnodup hab
  rcases pair_sublist_or ha hb hne with horder | horder
  · exact List.pairwise_iff_forall_sublist.mp hR horder
  · -- The other order would have been kept.
    have hkept := List.pair_sublist_mergeSort htrans htotal hba horder
    exact absurd (not_pair_sublist_both hnodup hab hkept) id

/-- **What a stable sort does not tell apart, it leaves in order.** -/
theorem filter_mergeSort (le : α → α → Bool) (htrans : ∀ a b c, le a b → le b c → le a c)
    (htotal : ∀ a b, le a b || le b a) {p : α → Bool}
    (hsame : ∀ a ∈ l, ∀ b ∈ l, p a = true → p b = true → le a b = true) :
    (l.mergeSort le).filter p = l.filter p := by
  have hsorted : (l.filter p).Pairwise fun a b => le a b = true := by
    refine List.pairwise_of_forall_mem_list fun a ha b hb => ?_
    obtain ⟨ha, hpa⟩ := List.mem_filter.mp ha
    obtain ⟨hb, hpb⟩ := List.mem_filter.mp hb
    exact hsame a ha b hb hpa hpb
  have hkept : l.filter p <+ l.mergeSort le :=
    List.sublist_mergeSort htrans htotal hsorted List.filter_sublist
  have hsub : l.filter p <+ (l.mergeSort le).filter p := by
    have := hkept.filter p
    rwa [List.filter_filter, List.filter_congr (q := p) fun a _ => Bool.and_self _] at this
  exact (hsub.eq_of_length ((List.mergeSort_perm l le).filter p).length_eq.symm).symm

/-! ## Sorts by a key -/

section ByKey

variable {κ : Type*} [LinearOrder κ] {key : α → κ}

theorem desc_trans (key : α → κ) (a b c : α) (hab : decide (key b ≤ key a) = true)
    (hbc : decide (key c ≤ key b) = true) : decide (key c ≤ key a) = true := by
  rw [decide_eq_true_eq] at *
  exact le_trans hbc hab

theorem desc_total (key : α → κ) (a b : α) :
    (decide (key b ≤ key a) || decide (key a ≤ key b)) = true := by
  rw [Bool.or_eq_true, decide_eq_true_eq, decide_eq_true_eq]
  exact le_total _ _

/-- **A sort by a key, greatest first**, descends. -/
theorem pairwise_mergeSort_desc (key : α → κ) (l : List α) :
    (l.mergeSort fun a b => decide (key b ≤ key a)).Pairwise fun a b => key b ≤ key a :=
  (List.pairwise_mergeSort (desc_trans key) (desc_total key) l).imp of_decide_eq_true

/-- It descends strictly where no two entries have one key. -/
theorem pairwise_lt_mergeSort_desc (hl : (l.map key).Nodup) :
    (l.mergeSort fun a b => decide (key b ≤ key a)).Pairwise fun a b => key b < key a := by
  have hne : (l.mergeSort fun a b => decide (key b ≤ key a)).Pairwise fun a b => key a ≠ key b :=
    List.pairwise_map.mp (((List.mergeSort_perm _ _).map key).nodup_iff.mpr hl)
  exact (pairwise_mergeSort_desc key l).imp₂ (fun _ _ hle hne => lt_of_le_of_ne hle hne.symm) hne

/-- **A sort by a key, least first**, ascends. -/
theorem pairwise_mergeSort_asc (key : α → κ) (l : List α) :
    (l.mergeSort fun a b => decide (key a ≤ key b)).Pairwise fun a b => key a ≤ key b :=
  pairwise_mergeSort_desc (fun a => OrderDual.toDual (key a)) l

/-- It ascends strictly where no two entries have one key. -/
theorem pairwise_lt_mergeSort_asc (hl : (l.map key).Nodup) :
    (l.mergeSort fun a b => decide (key a ≤ key b)).Pairwise fun a b => key a < key b := by
  have hne : (l.mergeSort fun a b => decide (key a ≤ key b)).Pairwise fun a b => key a ≠ key b :=
    List.pairwise_map.mp (((List.mergeSort_perm _ _).map key).nodup_iff.mpr hl)
  exact (pairwise_mergeSort_asc key l).imp₂ (fun _ _ hle hne => lt_of_le_of_ne hle hne) hne

/-- Lists with the same entries of each key have the same entries. -/
theorem mem_of_filter_key {l l' : List α}
    (hkeys : ∀ k, (l.filter fun a => decide (key a = k)) = l'.filter fun a => decide (key a = k))
    (ha : a ∈ l) : a ∈ l' := by
  have hmem : a ∈ l.filter fun b => decide (key b = key a) :=
    List.mem_filter.mpr ⟨ha, decide_eq_true rfl⟩
  rw [hkeys] at hmem
  exact List.mem_of_mem_filter hmem

/-- **A descending list is determined** by its entries of each key. -/
theorem eq_of_filter_key {l l' : List α} (hl : l.Pairwise fun a b => key b ≤ key a)
    (hl' : l'.Pairwise fun a b => key b ≤ key a)
    (hkeys : ∀ k, (l.filter fun a => decide (key a = k)) = l'.filter fun a => decide (key a = k)) :
    l = l' := by
  induction l generalizing l' with
  | nil =>
    refine (List.eq_nil_iff_forall_not_mem.mpr fun a ha => ?_).symm
    cases mem_of_filter_key (fun k => (hkeys k).symm) ha
  | cons a l ih =>
    have hmem : a ∈ l' := mem_of_filter_key hkeys List.mem_cons_self
    cases l' with
    | nil => cases hmem
    | cons a' l' =>
      obtain ⟨hfirst, hrest⟩ := List.pairwise_cons.mp hl
      obtain ⟨hfirst', hrest'⟩ := List.pairwise_cons.mp hl'
      have hmem' : a' ∈ a :: l :=
        mem_of_filter_key (fun k => (hkeys k).symm) List.mem_cons_self
      -- Both lists start with their greatest key, which is one.
      have hle : key a ≤ key a' := by
        rcases List.mem_cons.mp hmem with rfl | hlater
        · exact le_rfl
        · exact hfirst' a hlater
      have hle' : key a' ≤ key a := by
        rcases List.mem_cons.mp hmem' with rfl | hlater
        · exact le_rfl
        · exact hfirst a' hlater
      have hsame := hkeys (key a)
      rw [List.filter_cons, if_pos (decide_eq_true rfl), List.filter_cons,
        if_pos (decide_eq_true (le_antisymm hle' hle))] at hsame
      obtain ⟨rfl, -⟩ := List.cons.inj hsame
      refine congrArg (List.cons a) (ih hrest hrest' fun k => ?_)
      have hk := hkeys k
      rw [List.filter_cons, List.filter_cons] at hk
      split at hk
      · exact (List.cons.inj hk).2
      · exact hk

/-- **Entries may be selected before the sort or after it.** -/
theorem mergeSort_filter_desc (key : α → κ) (p : α → Bool) (l : List α) :
    (l.filter p).mergeSort (fun a b => decide (key b ≤ key a)) =
      (l.mergeSort fun a b => decide (key b ≤ key a)).filter p := by
  refine eq_of_filter_key (pairwise_mergeSort_desc key _)
    ((pairwise_mergeSort_desc key l).filter p) fun k => ?_
  -- Neither sort moves the entries of one key.
  have hkept : ∀ l : List α, ((l.mergeSort fun a b => decide (key b ≤ key a)).filter
      fun a => decide (key a = k)) = l.filter fun a => decide (key a = k) := fun l =>
    filter_mergeSort _ (desc_trans key) (desc_total key) fun a _ b _ ha hb =>
      decide_eq_true ((of_decide_eq_true hb).trans (of_decide_eq_true ha).symm).le
  calc (((l.filter p).mergeSort fun a b => decide (key b ≤ key a)).filter
          fun a => decide (key a = k))
    _ = (l.filter p).filter fun a => decide (key a = k) := hkept _
    _ = (l.filter fun a => decide (key a = k)).filter p := List.filter_comm _ _ _
    _ = ((l.mergeSort fun a b => decide (key b ≤ key a)).filter
          fun a => decide (key a = k)).filter p := by rw [hkept]
    _ = _ := List.filter_comm _ _ _

end ByKey

end AllfeatExplorer
