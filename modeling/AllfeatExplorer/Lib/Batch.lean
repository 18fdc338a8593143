import Mathlib.Data.List.Basic

/-!
# Statements in batches

A statement takes so many rows at once, and a longer list goes in several
statements. Where a statement that succeeds does what folding a row
action over its rows does, so does the whole list (`inBatches_foldl`).
-/

namespace AllfeatExplorer

variable {α τ ε : Type*}

/-- `chunks`, with `fuel` bounding the number of chunks. -/
def chunksFuel (size : ℕ) : ℕ → List α → List (List α)
  | 0, _ => []
  | _ + 1, [] => []
  | fuel + 1, x :: xs => (x :: xs).take size :: chunksFuel size fuel ((x :: xs).drop size)

/-- `rows.chunks(size)`: consecutive slices of `size` rows, the last one
possibly shorter. -/
def chunks (size : ℕ) (rows : List α) : List (List α) :=
  chunksFuel size rows.length rows

/-- One statement a chunk, until one fails. -/
def inBatches (size : ℕ) (stmt : τ → List α → Except ε τ) (t : τ) (rows : List α) :
    Except ε τ :=
  (chunks size rows).foldlM stmt t

theorem flatten_chunksFuel {size : ℕ} (hsize : 0 < size) {fuel : ℕ} {rows : List α}
    (h : rows.length ≤ fuel) : (chunksFuel size fuel rows).flatten = rows := by
  induction fuel generalizing rows with
  | zero =>
    obtain rfl : rows = [] := List.length_eq_zero_iff.mp (by omega)
    rfl
  | succ fuel ih =>
    cases rows with
    | nil => rfl
    | cons x xs =>
      have hdrop : ((x :: xs).drop size).length ≤ fuel := by
        rw [List.length_drop]
        omega
      rw [chunksFuel, List.flatten_cons, ih hdrop, List.take_append_drop]

/-- **Chunking loses no row and keeps the order.** -/
theorem flatten_chunks {size : ℕ} (hsize : 0 < size) (rows : List α) :
    (chunks size rows).flatten = rows :=
  flatten_chunksFuel hsize (Nat.le_refl _)

theorem foldlM_ok_foldl {stmt : τ → List α → Except ε τ} {f : τ → α → τ}
    (hstmt : ∀ t c t', stmt t c = .ok t' → t' = c.foldl f t) {cs : List (List α)} {t t' : τ}
    (h : cs.foldlM stmt t = .ok t') : t' = cs.flatten.foldl f t := by
  induction cs generalizing t with
  | nil =>
    cases h
    rfl
  | cons c cs ih =>
    rw [List.foldlM_cons] at h
    cases hc : stmt t c with
    | error e => rw [hc] at h; cases h
    | ok u =>
      rw [hc] at h
      rw [List.flatten_cons, List.foldl_append, ← hstmt t c u hc]
      exact ih h

/-- A list that went through, and one element more. -/
theorem foldlM_snoc {f : τ → α → Except ε τ} {l : List α} {s t : τ} (h : l.foldlM f s = .ok t)
    (a : α) : (l ++ [a]).foldlM f s = f t a := by
  rw [List.foldlM_append, h]
  change [a].foldlM f t = f t a
  rw [List.foldlM_cons]
  cases f t a <;> rfl

/-- **A batched write is the row action folded over the rows.** -/
theorem inBatches_foldl {size : ℕ} (hsize : 0 < size) {stmt : τ → List α → Except ε τ}
    {f : τ → α → τ} (hstmt : ∀ t c t', stmt t c = .ok t' → t' = c.foldl f t) {rows : List α}
    {t t' : τ} (h : inBatches size stmt t rows = .ok t') : t' = rows.foldl f t := by
  rw [← flatten_chunks hsize rows]
  exact foldlM_ok_foldl hstmt h

/-- A chunk is a stretch of the rows. -/
theorem sublist_of_mem_chunksFuel {size fuel : ℕ} {rows c : List α}
    (h : c ∈ chunksFuel size fuel rows) : c.Sublist rows := by
  induction fuel generalizing rows with
  | zero => cases h
  | succ fuel ih =>
    cases rows with
    | nil => cases h
    | cons x xs =>
      rcases List.mem_cons.mp h with rfl | h
      · exact List.take_sublist _ _
      · exact (ih h).trans (List.drop_sublist _ _)

/-- **No chunk fails, no batch fails.** -/
theorem inBatches_isOk {size : ℕ} {stmt : τ → List α → Except ε τ} {rows : List α} {t : τ}
    (hstmt : ∀ t c, c.Sublist rows → ∃ t', stmt t c = .ok t') :
    ∃ t', inBatches size stmt t rows = .ok t' := by
  have hfold : ∀ (cs : List (List α)) (t : τ), (∀ c ∈ cs, c.Sublist rows) →
      ∃ t', cs.foldlM stmt t = .ok t' := by
    intro cs
    induction cs with
    | nil => exact fun t _ => ⟨t, rfl⟩
    | cons c cs ih =>
      intro t hcs
      obtain ⟨u, hu⟩ := hstmt t c (hcs c List.mem_cons_self)
      obtain ⟨t', ht'⟩ := ih u fun c hc => hcs c (List.mem_cons_of_mem _ hc)
      refine ⟨t', ?_⟩
      rw [List.foldlM_cons, hu]
      exact ht'
  exact hfold _ t fun c hc => sublist_of_mem_chunksFuel hc

end AllfeatExplorer
