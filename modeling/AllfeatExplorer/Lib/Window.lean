import Mathlib.Data.List.Induction
import Mathlib.Data.List.Nodup
import Mathlib.Data.List.Perm.Subperm
import Mathlib.Order.Nat
import AllfeatExplorer.Lib.StableSort

/-!
# A window of entries under keys

A list that shows at most `cap` entries, the greatest keys first. An
entry that comes in takes the place of the one under its key, so what is
shown under a key is what came in under it last, and what holds of each
later entry of a key as soon as it held of one holds of the one shown.

`IsTop` is what the list shows of the keys that came in: the greatest of
them, in descending order. A key that fell off stays off unless it comes
in again, and then it falls off again.
-/

namespace AllfeatExplorer

variable {α : Type*} {key : α → ℕ} {cap : ℕ} {l entries : List α} {a b : α}

/-- **One entry in**: the entry of its key goes, and the last of the
sorted list where it is too long. -/
def upsert (key : α → ℕ) (cap : ℕ) (l : List α) (a : α) : List α :=
  (((l.filter fun b => decide (key b ≠ key a)) ++ [a]).mergeSort
    fun b b' => decide (key b' ≤ key b)).take cap

/-- What is shown after an entry is it, or was there under another key. -/
theorem mem_upsert (h : b ∈ upsert key cap l a) : b = a ∨ b ∈ l ∧ key b ≠ key a := by
  have hmem := (List.mergeSort_perm _ _).mem_iff.mp (List.mem_of_mem_take h)
  rcases List.mem_append.mp hmem with hold | hnew
  · obtain ⟨hl, hne⟩ := List.mem_filter.mp hold
    exact .inr ⟨hl, of_decide_eq_true hne⟩
  · exact .inl (List.mem_singleton.mp hnew)

/-- The window after some entries. -/
def window (key : α → ℕ) (cap : ℕ) (entries : List α) : List α :=
  entries.foldl (upsert key cap) []

theorem window_concat :
    window key cap (entries ++ [a]) = upsert key cap (window key cap entries) a := by
  rw [window, List.foldl_append]
  rfl

/-- What is shown came in. -/
theorem mem_of_mem_window (h : b ∈ window key cap entries) : b ∈ entries := by
  induction entries using List.reverseRecOn with
  | nil => exact absurd h List.not_mem_nil
  | append_singleton entries a ih =>
    rw [window_concat] at h
    rcases mem_upsert h with rfl | ⟨hold, -⟩
    · exact List.mem_append_right _ (List.mem_singleton_self _)
    · exact List.mem_append_left _ (ih hold)

/-- **What is shown under a key came in last**: it is `b`, or came after
it. -/
theorem window_latest (p : α → Prop)
    (hkeeps : entries.Pairwise fun a b => key a = key b → p a → p b)
    (ha : a ∈ window key cap entries) (hb : b ∈ entries) (hkey : key b = key a) (hp : p b) :
    p a := by
  induction entries using List.reverseRecOn with
  | nil => exact absurd hb List.not_mem_nil
  | append_singleton entries e ih =>
    rw [List.pairwise_append] at hkeeps
    obtain ⟨hearlier, -, hlast⟩ := hkeeps
    rw [window_concat] at ha
    rcases mem_upsert ha with rfl | ⟨hold, hne⟩
    · -- The entry came in last of all.
      rcases List.mem_append.mp hb with hb | hb
      · exact hlast b hb a (List.mem_singleton_self a) hkey hp
      · rwa [← List.mem_singleton.mp hb]
    · rcases List.mem_append.mp hb with hb | hb
      · exact ih hearlier hold hb
      · rw [List.mem_singleton.mp hb] at hkey
        exact absurd hkey.symm hne

/-! ## The greatest keys -/

/-- **The greatest `cap` of the keys seen**, in descending order: a key
that is not shown is below all that are, and then there is no room. -/
structure IsTop (cap : ℕ) (seen : ℕ → Prop) (shown : List ℕ) : Prop where
  descending : shown.Pairwise (· > ·)
  came : ∀ k ∈ shown, seen k
  length_le : shown.length ≤ cap
  complete : ∀ k, seen k → k ∈ shown ∨ shown.length = cap ∧ ∀ x ∈ shown, k < x

variable {seen seen' : ℕ → Prop} {shown keys : List ℕ} {k : ℕ}

theorem IsTop.congr (h : IsTop cap seen shown) (hseen : ∀ k, seen k ↔ seen' k) :
    IsTop cap seen' shown where
  descending := h.descending
  came := fun k hk => (hseen k).mp (h.came k hk)
  length_le := h.length_le
  complete := fun k hk => h.complete k ((hseen k).mpr hk)

/-- The keys of a descending list, cut off. -/
theorem mem_take_or_lt (hkeys : keys.Pairwise (· > ·)) (hk : k ∈ keys) :
    k ∈ keys.take cap ∨ (keys.take cap).length = cap ∧ ∀ x ∈ keys.take cap, k < x := by
  have hsplit := List.take_append_drop cap keys
  rw [← hsplit, List.pairwise_append] at hkeys
  rw [← hsplit] at hk
  rcases List.mem_append.mp hk with htake | hdrop
  · exact .inl htake
  · refine .inr ⟨?_, fun x hx => hkeys.2.2 x hx k hdrop⟩
    have hlen := List.length_pos_of_mem hdrop
    rw [List.length_drop] at hlen
    rw [List.length_take]
    omega

theorem IsTop.take (hkeys : keys.Pairwise (· > ·)) : IsTop cap (· ∈ keys) (keys.take cap) where
  descending := hkeys.sublist (List.take_sublist _ _)
  came := fun _ hk => List.mem_of_mem_take hk
  length_le := List.length_take_le _ _
  complete := fun _ hk => mem_take_or_lt hkeys hk

/-- A new key has no place among `cap` greater ones. -/
theorem not_mem_take_of_lt (hkeys : keys.Pairwise (· > ·)) (hshown : shown.Nodup)
    (hlen : shown.length = cap) (hsub : ∀ x ∈ shown, x ∈ keys ∧ k < x) : k ∉ keys.take cap := by
  intro hk
  have hsplit := List.take_append_drop cap keys
  have hall : k :: shown ⊆ keys.take cap := by
    intro x hx
    rcases List.mem_cons.mp hx with rfl | hx
    · exact hk
    · obtain ⟨hmem, hlt⟩ := hsub x hx
      rw [← hsplit] at hmem hkeys
      rcases List.mem_append.mp hmem with htake | hdrop
      · exact htake
      · have hgt := (List.pairwise_append.mp hkeys).2.2 k hk x hdrop
        omega
  have hnodup : (k :: shown).Nodup :=
    List.nodup_cons.mpr ⟨fun h => Nat.lt_irrefl k (hsub k h).2, hshown⟩
  have hle := (List.subperm_of_subset hnodup hall).length_le
  have := List.length_take_le cap keys
  rw [List.length_cons] at hle
  omega

/-- The sorted list an entry is put into. -/
theorem pairwise_sorted_keys (hl : (l.map key).Nodup) :
    ((((l.filter fun b => decide (key b ≠ key a)) ++ [a]).mergeSort
      fun b b' => decide (key b' ≤ key b)).map key).Pairwise (· > ·) := by
  have hnodup : (((l.filter fun b => decide (key b ≠ key a)) ++ [a]).map key).Nodup := by
    rw [List.map_append, List.map_singleton, List.nodup_append]
    refine ⟨hl.sublist (List.filter_sublist.map key), List.nodup_singleton _, ?_⟩
    intro x hx y hy
    obtain ⟨b, hb, rfl⟩ := List.mem_map.mp hx
    rw [List.mem_singleton.mp hy]
    exact of_decide_eq_true (List.mem_filter.mp hb).2
  exact List.pairwise_map.mpr (pairwise_lt_mergeSort_desc hnodup)

/-- **One entry in, and the window shows the greatest keys again.** -/
theorem IsTop.upsert (h : IsTop cap seen (l.map key)) :
    IsTop cap (fun k => k = key a ∨ seen k) ((upsert key cap l a).map key) := by
  have hnodup : (l.map key).Nodup := h.descending.imp fun hgt => Nat.ne_of_gt hgt
  have hsorted := pairwise_sorted_keys (a := a) hnodup
  have hmem : ∀ k, k ∈ (((l.filter fun b => decide (key b ≠ key a)) ++ [a]).mergeSort
      fun b b' => decide (key b' ≤ key b)).map key ↔ k = key a ∨ k ∈ l.map key := by
    intro k
    rw [((List.mergeSort_perm _ _).map key).mem_iff, List.map_append, List.mem_append,
      List.map_singleton, List.mem_singleton]
    constructor
    · rintro (hold | rfl)
      · exact .inr ((List.filter_sublist.map key).subset hold)
      · exact .inl rfl
    · rintro (rfl | hold)
      · exact .inr rfl
      · obtain ⟨b, hb, rfl⟩ := List.mem_map.mp hold
        by_cases heq : key b = key a
        · exact .inr heq
        · exact .inl (List.mem_map_of_mem (List.mem_filter.mpr ⟨hb, decide_eq_true heq⟩))
  rw [AllfeatExplorer.upsert, List.map_take]
  generalize (((l.filter fun b => decide (key b ≠ key a)) ++ [a]).mergeSort
    fun b b' => decide (key b' ≤ key b)).map key = keys at hsorted hmem ⊢
  refine ⟨hsorted.sublist (List.take_sublist _ _), fun k hk => ?_, List.length_take_le _ _,
    fun k hk => ?_⟩
  · rcases (hmem k).mp (List.mem_of_mem_take hk) with rfl | hold
    · exact .inl rfl
    · exact .inr (h.came k hold)
  · by_cases hin : k ∈ keys
    · exact mem_take_or_lt hsorted hin
    -- The key fell off before: `cap` greater ones were shown, and are still in the list.
    rw [hmem, not_or] at hin
    have hseen := hk.resolve_left hin.1
    obtain ⟨hfull, habove⟩ := (h.complete k hseen).resolve_left hin.2
    have hall : l.map key ⊆ keys := fun x hx => (hmem x).mpr (.inr hx)
    have hlen := (List.subperm_of_subset hnodup hall).length_le
    refine .inr ⟨by rw [List.length_take]; omega, fun x hx => ?_⟩
    rcases (hmem x).mp (List.mem_of_mem_take hx) with rfl | hold
    · by_contra hle
      refine not_mem_take_of_lt hsorted hnodup hfull (fun y hy => ⟨hall hy, ?_⟩) hx
      have := habove y hy
      omega
    · exact habove x hold

/-! ## The entry under a key -/

/-- **The entry of a key**: the last that came in under it, or else the
first it started with. -/
def latest (key : α → ℕ) (seed entries : List α) (k : ℕ) : Option α :=
  (entries.reverse.find? fun b => key b = k).or (seed.find? fun b => key b = k)

theorem latest_concat {seed : List α} :
    latest key seed (entries ++ [a]) k =
      if key a = k then some a else latest key seed entries k := by
  rw [latest, List.reverse_append, List.reverse_singleton, List.singleton_append, List.find?_cons]
  by_cases heq : key a = k
  · rw [decide_eq_true heq, if_pos heq, Option.some_or]
  · rw [decide_eq_false heq, if_neg heq]
    rfl

/-- **A window that starts from the greatest of a seed** shows the greatest
keys of the seed and of what came in, each with its entry. -/
theorem foldl_upsert_isTop {seed start : List α}
    (htop : IsTop cap (· ∈ seed.map key) (start.map key))
    (hfirst : ∀ b ∈ start, seed.find? (fun c => key c = key b) = some b) :
    IsTop cap (· ∈ (seed ++ entries).map key) ((entries.foldl (upsert key cap) start).map key) ∧
      ∀ b ∈ entries.foldl (upsert key cap) start, latest key seed entries (key b) = some b := by
  induction entries using List.reverseRecOn with
  | nil =>
    rw [List.append_nil]
    refine ⟨htop, fun b hb => ?_⟩
    rw [latest, List.reverse_nil, List.find?_nil, Option.none_or]
    exact hfirst b hb
  | append_singleton entries a ih =>
    rw [List.foldl_append, List.foldl_cons, List.foldl_nil]
    refine ⟨ih.1.upsert.congr fun k => ?_, fun b hb => ?_⟩
    · simp only [List.map_append, List.map_singleton, List.mem_append, List.mem_singleton]
      tauto
    · rw [latest_concat]
      rcases mem_upsert hb with rfl | ⟨hold, hne⟩
      · rw [if_pos rfl]
      · rw [if_neg (Ne.symm hne)]
        exact ih.2 b hold

end AllfeatExplorer
