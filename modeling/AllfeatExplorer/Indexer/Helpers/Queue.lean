import AllfeatExplorer.Indexer.Model.Backfill

/-!
# The queue — gaps covered, rows kept

`split_gaps_into_chunks` leaves no block out: each number up to the head
is among the blocks present or inside a chunk. A statement on
`backfill_chunks` never drops a row and never moves its range; an insert
leaves a row for its range whether or not it conflicted.
-/

namespace AllfeatExplorer

namespace Backfill

/-! ## The gaps -/

/-- Some range of the list holds `n`. -/
def Covers (chunks : List (ℕ × ℕ)) (n : ℕ) : Prop :=
  ∃ c ∈ chunks, c.1 ≤ n ∧ n ≤ c.2

variable {chunks out : List (ℕ × ℕ)} {head chunkSize n : ℕ} {existing : List ℕ}

theorem Covers.append_left (h : Covers chunks n) : Covers (chunks ++ out) n := by
  obtain ⟨c, hc, hn⟩ := h
  exact ⟨c, List.mem_append_left _ hc, hn⟩

/-- `push_chunked` keeps what is there, covers its range, and stays
below its end. -/
theorem pushChunkedLoop_spec (out : List (ℕ × ℕ)) (f : ℕ) {to' fuel : ℕ}
    (hto : to' ≤ u64Max) (hf : f ≤ to') (hfuel : to' - f < fuel) :
    (∀ n, Covers out n → Covers (pushChunkedLoop to' chunkSize fuel f out) n) ∧
    (∀ n, f ≤ n → n ≤ to' → Covers (pushChunkedLoop to' chunkSize fuel f out) n) ∧
    (∀ c ∈ pushChunkedLoop to' chunkSize fuel f out, c ∈ out ∨ (c.1 ≤ to' ∧ c.2 ≤ to')) := by
  induction fuel generalizing f out with
  | zero => omega
  | succ fuel ih =>
    simp only [pushChunkedLoop]
    -- One turn pushes `[f, last]`, and `last` is past `f` unless it is the end.
    have hlast : f ≤ min (satAddU64 f (chunkSize - 1)) to' := by
      simp only [satAddU64]
      omega
    generalize hl : min (satAddU64 f (chunkSize - 1)) to' = last at hlast
    have hle : last ≤ to' := hl ▸ min_le_right _ _
    have hpushed : ∀ n, f ≤ n → n ≤ last → Covers (out ++ [(f, last)]) n := by
      intro n h₁ h₂
      exact ⟨(f, last), by simp, h₁, h₂⟩
    have hrange : ∀ c ∈ out ++ [(f, last)], c ∈ out ∨ (c.1 ≤ to' ∧ c.2 ≤ to') := by
      intro c hc
      rcases List.mem_append.mp hc with hc | hc
      · exact .inl hc
      · obtain rfl := List.mem_singleton.mp hc
        exact .inr ⟨hf, hle⟩
    split
    · rename_i heq
      subst heq
      exact ⟨fun n hn => hn.append_left, hpushed, hrange⟩
    · rename_i hne
      -- `last` is below the end, so the next turn starts past it with less fuel to need.
      obtain ⟨hkeep, hcover, hbound⟩ :=
        ih (out ++ [(f, last)]) (last + 1) (by omega) (by omega)
      refine ⟨fun n hn => hkeep n hn.append_left, ?_, ?_⟩
      · intro n h₁ h₂
        rcases Nat.lt_or_ge last n with hlt | hge
        · exact hcover n hlt h₂
        · exact hkeep n (hpushed n h₁ hge)
      · intro c hc
        rcases hbound c hc with hc | hc
        · exact hrange c hc
        · exact .inr hc

theorem pushChunked_spec (out : List (ℕ × ℕ)) {from' to' : ℕ} (hto : to' ≤ u64Max)
    (hf : from' ≤ to') :
    (∀ n, Covers out n → Covers (pushChunked out from' to' chunkSize) n) ∧
    (∀ n, from' ≤ n → n ≤ to' → Covers (pushChunked out from' to' chunkSize) n) ∧
    (∀ c ∈ pushChunked out from' to' chunkSize, c ∈ out ∨ (c.1 ≤ to' ∧ c.2 ≤ to')) :=
  pushChunkedLoop_spec out from' hto hf (Nat.lt_succ_self _)

/-- **The loop over the blocks present**, up to its cursor: each number
below it is present or covered, and no chunk passes the head. -/
structure GapInv (head : ℕ) (seen : List ℕ) (st : List (ℕ × ℕ) × ℕ) : Prop where
  below : ∀ n < st.2, n ≤ head → n ∈ seen ∨ Covers st.1 n
  bound : ∀ c ∈ st.1, c.1 ≤ head ∧ c.2 ≤ head

theorem GapInv.below_append {seen : List ℕ} {st : List (ℕ × ℕ) × ℕ} (h : GapInv head seen st)
    (more : List ℕ) (hn : n < st.2) (hle : n ≤ head) : n ∈ seen ++ more ∨ Covers st.1 n :=
  (h.below n hn hle).imp_left (List.mem_append_left more)

theorem GapInv.step {seen : List ℕ} {st : List (ℕ × ℕ) × ℕ} {present : ℕ}
    (hhead : head ≤ u64Max) (h : GapInv head seen st) :
    GapInv head (seen ++ [present]) (gapStep head chunkSize st present) := by
  obtain ⟨chunks, cursor⟩ := st
  simp only [gapStep]
  split
  -- A block outside `cursor..=head` is skipped.
  · exact ⟨fun n hn hle => h.below_append [present] hn hle, h.bound⟩
  · rename_i hin
    have hple : present ≤ head := by omega
    have hcur : cursor ≤ present := by omega
    -- The new cursor may saturate, but it never passes `present + 1`.
    have hnext : ∀ n, n < satAddU64 present 1 → n ≤ present := by
      intro n hn
      simp only [satAddU64] at hn
      omega
    split
    · rename_i hgap
      obtain ⟨hkeep, hcover, hbound⟩ := pushChunked_spec chunks
        (show present - 1 ≤ u64Max by omega) (show cursor ≤ present - 1 by omega)
      refine ⟨fun n hn hle => ?_, fun c hc => ?_⟩
      · rcases Nat.lt_or_ge n cursor with hlt | hge
        · exact (h.below_append [present] hlt hle).imp_right (hkeep n)
        · rcases Nat.lt_or_ge n present with hlt' | hge'
          · exact .inr (hcover n hge (by omega))
          · obtain rfl : n = present := le_antisymm (hnext n hn) hge'
            exact .inl (by simp)
      · rcases hbound c hc with hc | hc
        · exact h.bound c hc
        · omega
    · rename_i hgap
      refine ⟨fun n hn hle => ?_, h.bound⟩
      rcases Nat.lt_or_ge n cursor with hlt | hge
      · exact h.below_append [present] hlt hle
      · obtain rfl : n = present := le_antisymm (hnext n hn) (by omega)
        exact .inl (by simp)

theorem GapInv.foldl {seen : List ℕ} {st : List (ℕ × ℕ) × ℕ} (hhead : head ≤ u64Max)
    (h : GapInv head seen st) :
    GapInv head (seen ++ existing) (existing.foldl (gapStep head chunkSize) st) := by
  induction existing generalizing seen st with
  | nil => simpa using h
  | cons present rest ih =>
    have hstep : GapInv head (seen ++ [present]) (gapStep head chunkSize st present) :=
      h.step hhead
    have hrest := ih hstep
    rwa [List.append_assoc, List.singleton_append] at hrest

/-- **No block is left out**, whatever list of blocks is passed as
present, and no chunk passes the head. -/
theorem splitGaps_spec (hhead : head ≤ u64Max)
    (h : splitGapsIntoChunks head existing chunkSize = some chunks) :
    (∀ n ≤ head, n ∈ existing ∨ Covers chunks n) ∧ ∀ c ∈ chunks, c.1 ≤ head ∧ c.2 ≤ head := by
  simp only [splitGapsIntoChunks] at h
  split at h
  · cases h
  · have hinv : GapInv head existing (existing.foldl (gapStep head chunkSize) ([], 0)) := by
      have hstart : GapInv head [] ([], 0) := ⟨fun n hn => by omega, fun c hc => by cases hc⟩
      have hall : GapInv head ([] ++ existing)
          (existing.foldl (gapStep head chunkSize) ([], 0)) := hstart.foldl hhead
      rwa [List.nil_append] at hall
    generalize existing.foldl (gapStep head chunkSize) ([], 0) = st at h hinv
    obtain ⟨chunks', cursor⟩ := st
    simp only at h
    split at h
    -- What is left between the last block present and the head.
    · rename_i hle
      obtain rfl := Option.some.inj h
      obtain ⟨hkeep, hcover, hbound⟩ := pushChunked_spec chunks' hhead hle
      refine ⟨fun n hn => ?_, fun c hc => ?_⟩
      · rcases Nat.lt_or_ge n cursor with hlt | hge
        · exact (hinv.below n hlt hn).imp_right (hkeep n)
        · exact .inr (hcover n hge hn)
      · exact (hbound c hc).elim (hinv.bound c) id
    · rename_i hle
      obtain rfl := Option.some.inj h
      exact ⟨fun n hn => hinv.below n (by omega) hn, hinv.bound⟩

/-! ## Rows -/

/-- `from_block..=to_block`, as a claim reads them. -/
def ChunkRow.Holds (row : ChunkRow) (n : ℕ) : Prop :=
  asU64 row.fromBlock ≤ n ∧ n ≤ asU64 row.toBlock

/-- Two rows over one range. -/
def ChunkRow.SameRange (row row' : ChunkRow) : Prop :=
  row'.fromBlock = row.fromBlock ∧ row'.toBlock = row.toBlock

theorem ChunkRow.SameRange.holds {row row' : ChunkRow} (h : row.SameRange row') {n : ℕ} :
    row'.Holds n ↔ row.Holds n := by
  unfold ChunkRow.Holds
  rw [h.1, h.2]

variable {q : Queue} {id id' : ℕ} {row : ChunkRow} {f : ChunkRow → ChunkRow} {range : ℕ × ℕ}

@[simp] theorem Queue.find_set :
    (q.set id f).rows.find id' = if id' = id then (q.rows.find id).map f else q.rows.find id' :=
  Table.find_update

theorem Queue.find_nextId : q.rows.find q.nextId = none := by
  rw [← Table.contains_eq_false_iff]
  cases h : q.rows.contains q.nextId with
  | false => rfl
  | true => exact absurd (q.fresh _ h) (Nat.lt_irrefl _)

/-- The row an insert adds. -/
def pendingRow (range : ℕ × ℕ) : ChunkRow :=
  { fromBlock := asI64 range.1
    toBlock := asI64 range.2
    status := .pending
    leaseUntil := none
    lastError := none }

/-- **An insert keeps every row**, and adds at most the pending one. -/
theorem Queue.find_insert (h : (q.insert range).rows.find id = some row) :
    q.rows.find id = some row ∨ row = pendingRow range := by
  unfold Queue.insert at h
  split at h
  · exact .inl h
  · simp only [Table.find_insertNew, Queue.find_nextId] at h
    split at h
    · exact .inr (Option.some.inj h).symm
    · exact .inl h

theorem Queue.find_insert_of_find (h : q.rows.find id = some row) :
    (q.insert range).rows.find id = some row := by
  unfold Queue.insert
  split
  · exact h
  · have hne : id ≠ q.nextId := by
      rintro rfl
      rw [Queue.find_nextId] at h
      cases h
    simp only [Table.find_insertNew, if_neg hne]
    exact h

/-- A range that was inserted has a row: the new one, or the one it
conflicted with. -/
theorem Queue.exists_insert :
    ∃ id row, (q.insert range).rows.find id = some row ∧ (pendingRow range).SameRange row := by
  unfold Queue.insert
  split
  · rename_i htaken
    obtain ⟨⟨id, row⟩, hmem, hrange⟩ := List.any_eq_true.mp htaken
    simp only [Bool.and_eq_true, decide_eq_true_eq] at hrange
    exact ⟨id, row, Table.find_eq_some_iff.mpr hmem, hrange⟩
  · refine ⟨q.nextId, pendingRow range, ?_, rfl, rfl⟩
    simp only [Table.find_insertNew, Queue.find_nextId]
    rfl

theorem Queue.find_insertAll {ranges : List (ℕ × ℕ)}
    (h : (q.insertAll ranges).rows.find id = some row) :
    q.rows.find id = some row ∨ ∃ range ∈ ranges, row = pendingRow range := by
  induction ranges generalizing q with
  | nil => exact .inl h
  | cons r ranges ih =>
    rcases ih h with hold | ⟨r', hr', hrow⟩
    · rcases Queue.find_insert hold with hold | hrow
      · exact .inl hold
      · exact .inr ⟨r, List.mem_cons_self, hrow⟩
    · exact .inr ⟨r', List.mem_cons_of_mem _ hr', hrow⟩

theorem Queue.find_insertAll_of_find {ranges : List (ℕ × ℕ)} (h : q.rows.find id = some row) :
    (q.insertAll ranges).rows.find id = some row := by
  induction ranges generalizing q with
  | nil => exact h
  | cons r ranges ih => exact ih (Queue.find_insert_of_find h)

/-- **Each range inserted has a row afterwards.** -/
theorem Queue.exists_insertAll {ranges : List (ℕ × ℕ)} (h : range ∈ ranges) :
    ∃ id row, (q.insertAll ranges).rows.find id = some row ∧ (pendingRow range).SameRange row := by
  induction ranges generalizing q with
  | nil => cases h
  | cons r ranges ih =>
    rcases List.mem_cons.mp h with rfl | h
    · obtain ⟨id, row, hrow, hrange⟩ : ∃ id row, (q.insert range).rows.find id = some row ∧
          (pendingRow range).SameRange row := Queue.exists_insert
      have hkept : ((q.insert range).insertAll ranges).rows.find id = some row :=
        Queue.find_insertAll_of_find hrow
      exact ⟨id, row, hkept, hrange⟩
    · exact ih h

/-- What a claim picked: a row not locked, that was claimable. -/
theorem Queue.next_eq_some {now : ℤ} {locked : List ℕ} (h : q.next now locked = some (id, row)) :
    q.rows.find id = some row ∧ id ∉ locked ∧ row.claimable now = true := by
  have hmem := List.mem_of_find?_eq_some h
  have hp := List.find?_some h
  simp only [Bool.and_eq_true, decide_eq_true_eq] at hp
  exact ⟨Table.find_eq_some_iff.mpr hmem, hp.1, hp.2⟩

theorem ChunkRow.claimable_not_done {now : ℤ} (h : row.claimable now = true) :
    row.status ≠ .done := by
  intro hdone
  rw [ChunkRow.claimable, hdone] at h
  cases h

end Backfill

end AllfeatExplorer
