import AllfeatExplorer.Indexer.Helpers.Coverage

/-!
# The order of the queue

Chunks are claimed by the lowest id. A plan's chunks ascend, and each row
it adds has an id above all that were there, so a row never stands before
one that holds a block below its own.
-/

namespace AllfeatExplorer

open Backfill

variable {chain : Chain} {chunkSize : ℕ} {s s' : Sys} {w i n : ℕ} {db db' : Db}

namespace Backfill

/-! ## Plans ascend -/

/-- The chunks start one after the other. -/
def Ascending (chunks : List (ℕ × ℕ)) : Prop :=
  chunks.Pairwise fun a b => a.1 ≤ b.1

variable {chunks out : List (ℕ × ℕ)} {head cursor : ℕ} {existing : List ℕ}

/-- A chunk behind the others. -/
theorem Ascending.concat {c : ℕ × ℕ} (h : Ascending out) (hc : ∀ d ∈ out, d.1 ≤ c.1) :
    Ascending (out ++ [c]) := by
  refine List.pairwise_append.mpr ⟨h, List.pairwise_singleton _ _, ?_⟩
  intro d hd e he
  rw [List.mem_singleton.mp he]
  exact hc d hd

theorem pushChunkedLoop_ascending (chunkSize fuel f : ℕ) {to' : ℕ} (hto : to' ≤ u64Max)
    (hf : f ≤ to') (h : Ascending out) (hout : ∀ c ∈ out, c.1 ≤ f) :
    Ascending (pushChunkedLoop to' chunkSize fuel f out) ∧
      ∀ c ∈ pushChunkedLoop to' chunkSize fuel f out, c.1 ≤ to' := by
  induction fuel generalizing f out with
  | zero => exact ⟨h, fun c hc => (hout c hc).trans hf⟩
  | succ fuel ih =>
    simp only [pushChunkedLoop]
    have hlast : f ≤ min (satAddU64 f (chunkSize - 1)) to' := by
      simp only [satAddU64]
      omega
    generalize hl : min (satAddU64 f (chunkSize - 1)) to' = last at hlast
    have hle : last ≤ to' := hl ▸ min_le_right _ _
    have hpushed : Ascending (out ++ [(f, last)]) := h.concat hout
    have hall : ∀ c ∈ out ++ [(f, last)], c.1 ≤ f := by
      intro c hc
      rcases List.mem_append.mp hc with hold | hnew
      · exact hout c hold
      · rw [List.mem_singleton.mp hnew]
    split
    · exact ⟨hpushed, fun c hc => (hall c hc).trans hf⟩
    · rename_i hne
      refine ih (last + 1) (by omega) hpushed fun c hc => ?_
      have hstart := hall c hc
      omega

/-- The loop over the blocks present keeps its chunks ascending, and
starts none above its cursor. -/
theorem gapStep_ascending (chunkSize present : ℕ) {st : List (ℕ × ℕ) × ℕ} (hhead : head ≤ u64Max)
    (h : Ascending st.1) (hcursor : ∀ c ∈ st.1, c.1 ≤ st.2) :
    Ascending (gapStep head chunkSize st present).1 ∧
      ∀ c ∈ (gapStep head chunkSize st present).1,
        c.1 ≤ (gapStep head chunkSize st present).2 := by
  obtain ⟨chunks, cursor⟩ := st
  simp only [gapStep]
  split
  · exact ⟨h, hcursor⟩
  · rename_i hin
    have hnext : present ≤ satAddU64 present 1 := by
      simp only [satAddU64]
      omega
    split
    · obtain ⟨hasc, hstart⟩ := pushChunkedLoop_ascending chunkSize (present - 1 - cursor + 1)
        cursor (show present - 1 ≤ u64Max by omega) (by omega) h hcursor
      refine ⟨hasc, fun c hc => ?_⟩
      have hle := hstart c hc
      simp only
      omega
    · refine ⟨h, fun c hc => ?_⟩
      have hle := hcursor c hc
      simp only at hle ⊢
      omega

theorem foldl_gapStep_ascending (chunkSize : ℕ) (existing : List ℕ)
    {st : List (ℕ × ℕ) × ℕ} (hhead : head ≤ u64Max) (h : Ascending st.1)
    (hcursor : ∀ c ∈ st.1, c.1 ≤ st.2) :
    Ascending (existing.foldl (gapStep head chunkSize) st).1 ∧
      ∀ c ∈ (existing.foldl (gapStep head chunkSize) st).1,
        c.1 ≤ (existing.foldl (gapStep head chunkSize) st).2 := by
  induction existing generalizing st with
  | nil => exact ⟨h, hcursor⟩
  | cons present rest ih =>
    obtain ⟨hasc, hstart⟩ := gapStep_ascending chunkSize present hhead h hcursor
    exact ih hasc hstart

/-- **A plan ascends.** -/
theorem splitGaps_ascending (hhead : head ≤ u64Max)
    (h : splitGapsIntoChunks head existing chunkSize = some chunks) : Ascending chunks := by
  simp only [splitGapsIntoChunks] at h
  split at h
  · cases h
  · obtain ⟨hasc, hstart⟩ := foldl_gapStep_ascending chunkSize existing hhead
      (show Ascending (([], 0) : List (ℕ × ℕ) × ℕ).1 from List.Pairwise.nil)
      fun c hc => absurd hc List.not_mem_nil
    generalize existing.foldl (gapStep head chunkSize) ([], 0) = st at h hasc hstart
    obtain ⟨chunks', cursor⟩ := st
    simp only at h
    split at h
    · rename_i hle
      obtain rfl := Option.some.inj h
      exact (pushChunkedLoop_ascending chunkSize (head - cursor + 1) cursor hhead hle hasc hstart).1
    · obtain rfl := Option.some.inj h
      exact hasc

/-! ## The insert keeps to the order -/

variable {q : Queue} {id : ℕ} {row : ChunkRow}

/-- **The rows an insert adds**, each above one for every range before
its own. -/
theorem Queue.find_insertAll_order {ranges : List (ℕ × ℕ)}
    (h : (q.insertAll ranges).rows.find id = some row) :
    q.rows.find id = some row ∨ ∃ pre c post, ranges = pre ++ c :: post ∧ row = pendingRow c ∧
      ∀ c' ∈ pre, ∃ id' < id, ∃ row', (q.insertAll ranges).rows.find id' = some row' ∧
        (pendingRow c').SameRange row' := by
  induction ranges using List.reverseRecOn with
  | nil => exact .inl h
  | append_singleton ranges c ih =>
    have happend : q.insertAll (ranges ++ [c]) = (q.insertAll ranges).insert c := by
      unfold Queue.insertAll
      rw [List.foldl_append]
      rfl
    rw [happend] at h ⊢
    -- A row of the list before is there still; the last one has the next id.
    have hkeep : ∀ {id' : ℕ} {row' : ChunkRow},
        (q.insertAll ranges).rows.find id' = some row' →
          ((q.insertAll ranges).insert c).rows.find id' = some row' :=
      fun hfind => Queue.find_insert_of_find hfind
    by_cases hold : (q.insertAll ranges).rows.find id = some row
    · rcases ih hold with hthere | ⟨pre, d, post, rfl, hrow, hbefore⟩
      · exact .inl hthere
      · refine .inr ⟨pre, d, post ++ [c], by simp, hrow, fun c' hc' => ?_⟩
        obtain ⟨id', hlt, row', hfind, hrange⟩ := hbefore c' hc'
        exact ⟨id', hlt, row', hkeep hfind, hrange⟩
    · obtain ⟨hid, hrow⟩ : id = (q.insertAll ranges).nextId ∧ row = pendingRow c := by
        unfold Queue.insert at h
        split at h
        · exact absurd h hold
        · simp only [Table.find_insertNew, Queue.find_nextId] at h
          split at h
          · rename_i hid
            exact ⟨hid, (Option.some.inj h).symm⟩
          · exact absurd h hold
      refine .inr ⟨ranges, c, [], rfl, hrow, fun c' hc' => ?_⟩
      obtain ⟨id', row', hfind, hrange⟩ := Queue.exists_insertAll (q := q) hc'
      refine ⟨id', ?_, row', hkeep hfind, hrange⟩
      rw [hid]
      exact (q.insertAll ranges).fresh id' (Table.contains_eq_true_iff.mpr ⟨row', hfind⟩)

end Backfill

/-! ## What a step does to the queue -/

/-- Blocks only arrive, and the rows stay what they were, each over its
range. -/
structure Db.KeepsRows (db db' : Db) : Prop where
  grows : db.Grows db'
  back : ∀ id row', db'.backfillChunks.rows.find id = some row' →
    ∃ row, db.backfillChunks.rows.find id = some row ∧ row.SameRange row'

theorem Db.KeepsRows.of_queue (hgrows : db.Grows db')
    (hq : db'.backfillChunks = db.backfillChunks) : db.KeepsRows db' where
  grows := hgrows
  back := by
    intro id row' hrow
    rw [hq] at hrow
    exact ⟨row', hrow, rfl, rfl⟩

theorem Db.KeepsRows.refl (db : Db) : db.KeepsRows db :=
  .of_queue ⟨fun _ hk => hk, fun _ row hrow => ⟨row, hrow, rfl, rfl⟩⟩ rfl

/-- A row rewritten over its range. -/
theorem Db.KeepsRows.set (db : Db) (id : ℕ) {f : ChunkRow → ChunkRow}
    (hf : ∀ row : ChunkRow, row.SameRange (f row)) :
    db.KeepsRows { db with backfillChunks := db.backfillChunks.set id f } where
  grows := by
    refine ⟨fun _ hk => hk, fun id' row hrow => ?_⟩
    simp only [Queue.find_set]
    split
    · rename_i hid
      rw [← hid, hrow]
      exact ⟨f row, rfl, hf row⟩
    · exact ⟨row, hrow, rfl, rfl⟩
  back := by
    intro id' row' hrow
    simp only [Queue.find_set] at hrow
    split at hrow
    · rename_i hid
      obtain ⟨row, hold, rfl⟩ := Option.map_eq_some_iff.mp hrow
      exact ⟨row, hid ▸ hold, hf row⟩
    · exact ⟨row', hrow, rfl, rfl⟩

/-- **Every step keeps the rows, or is a seed's insert.** -/
theorem Sys.step_queue {a : Action} (h : Sys.step chain chunkSize s a = some s') :
    s.db.KeepsRows s'.db ∨ ∃ i head chunks, s.seeds i = .planned head chunks ∧
      s'.db = { s.db with backfillChunks := s.db.backfillChunks.insertAll chunks } := by
  cases a with
  | tick dt | publish head =>
    obtain rfl := Option.some.inj h
    exact .inl (.refl s.db)
  | seed i a =>
    cases Sys.seedStep_cases (show Sys.seedStep chunkSize s i a = some s' from h) with
    | readHead | plan | stop => exact .inl (.refl s.db)
    | insert hseed hend => exact .inr ⟨i, _, _, hseed, rfl⟩
  | worker w a =>
    left
    cases Sys.workerStep_cases (show Sys.workerStep chain s w a = some s' from h) with
    | drained | crash => exact .refl s.db
    | claim halive htask hnext => exact .set s.db _ fun row => ⟨rfl, rfl⟩
    | indexed halive htask hnext hdb hstage => exact .of_queue hdb.grows hdb.queue
    | notIndexed halive htask hdb => exact .of_queue hdb.grows hdb.queue_eq
    | markDone | markFailed => exact .set s.db _ fun row => ⟨rfl, rfl⟩
  | live a =>
    left
    cases Sys.liveStep_cases (show Sys.liveStep chain s a = some s' from h) with
    | start | noHead | observe | crash => exact .refl s.db
    | indexed hlive hthrough hdb hnext => exact .of_queue hdb.grows hdb.queue
    | notIndexed hlive hdb => exact .of_queue hdb.grows hdb.queue_eq

/-- **A plan in a state was there, or is new** and comes from
`split_gaps_into_chunks`. -/
theorem Sys.step_planned {a : Action} {head : UInt64} {chunks : List (ℕ × ℕ)}
    (h : Sys.step chain chunkSize s a = some s') (hseed : s'.seeds i = .planned head chunks) :
    s.seeds i = .planned head chunks ∨
      splitGapsIntoChunks head.toNat (Sys.existing s.db head) chunkSize = some chunks := by
  cases a with
  | tick dt | publish head =>
    obtain rfl := Option.some.inj h
    exact .inl hseed
  | seed j a =>
    have hother : ∀ x, (s.setSeed j x).seeds i = .planned head chunks →
        s.seeds i = .planned head chunks ∨ x = .planned head chunks := by
      intro x hx
      simp only [Sys.setSeed, Function.update_apply] at hx
      split at hx
      · exact .inr hx
      · exact .inl hx
    cases Sys.seedStep_cases (show Sys.seedStep chunkSize s j a = some s' from h) with
    | readHead | stop => exact .inl ((hother _ hseed).resolve_right (by simp))
    | plan hj hplan =>
      refine (hother _ hseed).imp_right fun hx => ?_
      obtain ⟨rfl, rfl⟩ := Seed.planned.inj hx
      exact hplan
    | insert hj hend =>
      refine .inl ((hother _ hseed).resolve_right ?_)
      rcases hend with ⟨rfl, -⟩ | ⟨rfl, -⟩ <;> simp
  | worker w a =>
    cases Sys.workerStep_cases (show Sys.workerStep chain s w a = some s' from h) <;>
      exact .inl hseed
  | live a =>
    cases Sys.liveStep_cases (show Sys.liveStep chain s a = some s' from h) <;>
      exact .inl hseed

/-! ## The order -/

/-- A row with an id below `id` holds block `n`. -/
def Db.HeldBefore (db : Db) (id n : ℕ) : Prop :=
  ∃ id' < id, ∃ row, db.backfillChunks.rows.find id' = some row ∧ row.Holds n

theorem Db.Grows.heldBefore {id : ℕ} (hg : db.Grows db') (h : db.HeldBefore id n) :
    db'.HeldBefore id n := by
  obtain ⟨id', hlt, row, hrow, hholds⟩ := h
  obtain ⟨row', hrow', hrange⟩ := hg.rows id' row hrow
  exact ⟨id', hlt, row', hrow', hrange.holds.mpr hholds⟩

/-- **The queue is in the order of the blocks.** -/
structure ChunkOrder (s : Sys) : Prop where
  /-- A plan ascends. -/
  planned : ∀ i head chunks, s.seeds i = .planned head chunks → Ascending chunks
  /-- A block below a row's own is there, or a row before it holds it. -/
  rows : ∀ id row, s.db.backfillChunks.rows.find id = some row →
    ∀ n < asU64 row.fromBlock, s.db.hasBlock n ∨ s.db.HeldBefore id n

/-- **A plan's insert keeps the order**: a block below one of its chunks
was there when it was made, or in a chunk before it. -/
theorem ChunkOrder.inserted {head : UInt64} {chunks : List (ℕ × ℕ)} (h : ChunkOrder s)
    (hcov : Coverage s) (hseed : s.seeds i = .planned head chunks) {id : ℕ} {row : ChunkRow}
    (hrow : (s.db.backfillChunks.insertAll chunks).rows.find id = some row)
    (hn : n < asU64 row.fromBlock) :
    s.db.hasBlock n ∨
      { s.db with backfillChunks := s.db.backfillChunks.insertAll chunks }.HeldBefore id n := by
  have hgrows :
      s.db.Grows { s.db with backfillChunks := s.db.backfillChunks.insertAll chunks } :=
    ⟨fun _ hk => hk, fun _ row hold => ⟨row, Queue.find_insertAll_of_find hold, rfl, rfl⟩⟩
  obtain ⟨hall, hbound⟩ := hcov.planned i head chunks hseed
  have hmax := toNat_le_u64Max head
  rcases Queue.find_insertAll_order hrow with hold | ⟨pre, c, post, rfl, rfl, hbefore⟩
  · exact (h.rows id row hold n hn).imp_right hgrows.heldBefore
  · have hc : c ∈ pre ++ c :: post := List.mem_append_right pre List.mem_cons_self
    have hstart : asU64 (pendingRow c).fromBlock = c.1 :=
      asU64_asI64 ((hbound c hc).1.trans hmax)
    rw [hstart] at hn
    rcases hall n (by have hle := (hbound c hc).1; omega) with hthere | ⟨d, hd, hlo, hhi⟩
    · exact .inl hthere
    · -- `d` starts below `c`, so in an ascending plan it stands before it.
      have hfirst : d ∈ pre := by
        rcases List.mem_append.mp hd with hpre | hpost
        · exact hpre
        · have htail := (List.pairwise_append.mp (h.planned i head _ hseed)).2.1
          rcases List.mem_cons.mp hpost with rfl | hpost
          · omega
          · have hle := (List.pairwise_cons.mp htail).1 d hpost
            omega
      obtain ⟨id', hlt, row', hfind, hrange⟩ := hbefore d hfirst
      refine .inr ⟨id', hlt, row', hfind, hrange.holds.mpr ?_⟩
      unfold ChunkRow.Holds pendingRow
      simp only
      rw [asU64_asI64 ((hbound d hd).1.trans hmax), asU64_asI64 ((hbound d hd).2.trans hmax)]
      exact ⟨hlo, hhi⟩

theorem ChunkOrder.of_step {a : Action} (h : ChunkOrder s) (hcov : Coverage s)
    (hstep : Sys.step chain chunkSize s a = some s') : ChunkOrder s' where
  planned := by
    intro i head chunks hseed
    rcases Sys.step_planned hstep hseed with hold | hplan
    · exact h.planned i head chunks hold
    · exact splitGaps_ascending (toNat_le_u64Max head) hplan
  rows := by
    intro id row hrow n hn
    rcases Sys.step_queue hstep with hkeeps | ⟨i, head, chunks, hseed, hdb⟩
    · obtain ⟨row₀, hold, hrange⟩ := hkeeps.back id row hrow
      rw [hrange.1] at hn
      rcases h.rows id row₀ hold n hn with hthere | hheld
      · exact .inl (hkeeps.grows.blocks _ hthere)
      · exact .inr (hkeeps.grows.heldBefore hheld)
    · rw [hdb] at hrow ⊢
      exact h.inserted hcov hseed hrow hn

theorem ChunkOrder.start : ChunkOrder (Sys.start Db.empty) where
  planned := fun _ _ _ hseed => nomatch hseed
  rows := fun _ _ hrow => nomatch hrow

end AllfeatExplorer
