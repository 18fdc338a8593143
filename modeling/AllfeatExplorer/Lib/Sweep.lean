import Mathlib.Data.List.Pairwise
import Mathlib.Data.List.Nodup
import Mathlib.Order.Lattice

/-!
# Keyset sweeps

The keys of a table in ascending order, a batch of at most `n` of them
after a cursor, the last key of a batch as the next cursor, until a batch
is not full. Keys may be added between two batches. What a sweep has come
through is ascending, ends at the cursor, and leaves out none of the keys
it set out with up to there.
-/

namespace AllfeatExplorer

variable {K : Type*} [LinearOrder K]

/-- Whether the key comes after the cursor. -/
def after (c : Option K) (k : K) : Bool := c.all fun x => decide (x < k)

/-- **One batch**: the first `n` keys after the cursor. -/
def sweepBatch (n : ℕ) (ks : List K) (c : Option K) : List K := (ks.filter (after c)).take n

variable {n : ℕ} {ks init done : List K} {c : Option K} {k x : K}

@[simp] theorem after_none : after (none : Option K) k = true := rfl

@[simp] theorem after_some : after (some x) k = true ↔ x < k := by
  simp [after]

/-- A key of the batch is one of the table, after the cursor. -/
theorem mem_of_mem_sweepBatch (h : k ∈ sweepBatch n ks c) : k ∈ ks ∧ after c k = true :=
  List.mem_filter.mp (List.mem_of_mem_take h)

theorem sorted_sweepBatch (hks : ks.Pairwise (· < ·)) : (sweepBatch n ks c).Pairwise (· < ·) :=
  (hks.filter _).take

/-- **A batch that is not full has every key after the cursor.** -/
theorem sweepBatch_of_short (h : (sweepBatch n ks c).length < n) :
    sweepBatch n ks c = ks.filter (after c) := by
  unfold sweepBatch at h ⊢
  rw [List.length_take] at h
  exact List.take_of_length_le (by omega)

/-- **A batch skips no key up to its last.** -/
theorem mem_sweepBatch_of_le (hks : ks.Pairwise (· < ·)) (hlast : x ∈ (sweepBatch n ks c).getLast?)
    (hk : k ∈ ks) (hafter : after c k = true) (hle : k ≤ x) : k ∈ sweepBatch n ks c := by
  have hmem : k ∈ ks.filter (after c) := List.mem_filter.mpr ⟨hk, hafter⟩
  have hsorted : (ks.filter (after c)).Pairwise (· < ·) := hks.filter _
  rw [← List.take_append_drop n (ks.filter (after c))] at hmem hsorted
  rcases List.mem_append.mp hmem with hin | hout
  · exact hin
  · -- What the batch leaves is above its last.
    have hlt : x < k := (List.pairwise_append.mp hsorted).2.2 x (List.mem_of_getLast? hlast) k hout
    exact absurd hle (not_le.mpr hlt)

/-- A key is after an ascending list's last if it is after none of the list. -/
theorem le_getLast (hl : ks.Pairwise (· < ·)) (hlast : x ∈ ks.getLast?) (hk : k ∈ ks) : k ≤ x := by
  obtain ⟨front, rfl⟩ := List.getLast?_eq_some_iff.mp (Option.mem_def.mp hlast)
  rcases List.mem_append.mp hk with hfront | hk
  · exact le_of_lt ((List.pairwise_append.mp hl).2.2 k hfront x List.mem_cons_self)
  · exact le_of_eq (List.mem_singleton.mp hk)

/-- **What a sweep has come through** when it stands at a cursor. -/
structure Swept (init : List K) (c : Option K) (done : List K) : Prop where
  sorted : done.Pairwise (· < ·)
  upTo : ∀ k ∈ done, after c k = false
  covered : ∀ k ∈ init, after c k = false → k ∈ done

namespace Swept

/-- Before the first batch. -/
theorem start : Swept init none [] where
  sorted := List.Pairwise.nil
  upTo := fun _ h => absurd h List.not_mem_nil
  covered := fun _ _ h => absurd h (by simp)

/-- What is done lies below the batch. -/
theorem lt_batch (h : Swept init c done) (hk : k ∈ done) (hx : x ∈ sweepBatch n ks c) : k < x := by
  have hnot := h.upTo k hk
  have hafter := (mem_of_mem_sweepBatch hx).2
  rcases c with - | y
  · simp at hnot
  · rw [after_some] at hafter
    rw [Bool.eq_false_iff, Ne, after_some, not_lt] at hnot
    exact lt_of_le_of_lt hnot hafter

/-- Done and batch ascend together. -/
theorem sorted_append (h : Swept init c done) (hks : ks.Pairwise (· < ·)) :
    (done ++ sweepBatch n ks c).Pairwise (· < ·) :=
  List.pairwise_append.mpr ⟨h.sorted, sorted_sweepBatch hks, fun _ hk _ hx => h.lt_batch hk hx⟩

/-- **One batch further**: no key the sweep set out with is skipped. -/
theorem batch (h : Swept init c done) (hks : ks.Pairwise (· < ·)) (hinit : ∀ k ∈ init, k ∈ ks)
    (hne : sweepBatch n ks c ≠ []) :
    Swept init (sweepBatch n ks c).getLast? (done ++ sweepBatch n ks c) := by
  obtain ⟨x, hlast⟩ := Option.ne_none_iff_exists'.mp (mt List.getLast?_eq_none_iff.mp hne)
  have hsorted := h.sorted_append (n := n) hks
  have hx : x ∈ sweepBatch n ks c := List.mem_of_getLast? hlast
  refine ⟨hsorted, fun k hk => ?_, fun k hk hnot => ?_⟩
  · rw [hlast, Bool.eq_false_iff, Ne, after_some, not_lt]
    rcases List.mem_append.mp hk with hdone | hbatch
    · exact le_of_lt (h.lt_batch hdone hx)
    · exact le_getLast (sorted_sweepBatch hks) hlast hbatch
  · rw [hlast, Bool.eq_false_iff, Ne, after_some, not_lt] at hnot
    by_cases hafter : after c k = true
    · exact List.mem_append_right _ (mem_sweepBatch_of_le hks hlast (hinit k hk) hafter hnot)
    · exact List.mem_append_left _ (h.covered k hk (Bool.eq_false_iff.mpr hafter))

/-- **After a batch that is not full** every key the sweep set out with is
done. -/
theorem all_of_short (h : Swept init c done) (hinit : ∀ k ∈ init, k ∈ ks)
    (hshort : (sweepBatch n ks c).length < n) : ∀ k ∈ init, k ∈ done ++ sweepBatch n ks c := by
  intro k hk
  by_cases hafter : after c k = true
  · refine List.mem_append_right _ ?_
    rw [sweepBatch_of_short hshort]
    exact List.mem_filter.mpr ⟨hinit k hk, hafter⟩
  · exact List.mem_append_left _ (h.covered k hk (Bool.eq_false_iff.mpr hafter))

end Swept

end AllfeatExplorer
