import AllfeatExplorer.Indexer.Helpers.Steps
import AllfeatExplorer.Indexer.Helpers.Queue

/-!
# The coverage invariant

What a chunk, a worker and a seed task know of the blocks. `Coverage` is
one clause for each: a retired chunk is all there, a worker has indexed
what lies behind it, a planned seed accounts for every block up to its
head. Blocks and chunk rows only ever arrive (`Sys.Grows`), so a clause
once true stays true of what it was said of.
-/

namespace AllfeatExplorer

open Backfill

variable {chain : Chain} {chunkSize : ℕ} {s s' u : Sys} {w i n : ℕ} {db : Db}

/-- **Some open chunk holds block `n`.** -/
def Db.Queued (db : Db) (n : ℕ) : Prop :=
  ∃ id row, db.backfillChunks.rows.find id = some row ∧
    (row.status = .pending ∨ row.status = .running) ∧ row.Holds n

/-- Every block of the row is there. -/
def Db.HasRange (db : Db) (row : ChunkRow) : Prop :=
  ∀ n, row.Holds n → db.hasBlock n

/-- **The indexer's coverage invariant.** -/
structure Coverage (s : Sys) : Prop where
  /-- A block's key is a stored block number. -/
  keys : ∀ k, s.db.blocks.contains k = true → ∃ m, k = asI64 m
  /-- A chunk that is done has all its blocks. -/
  done : ∀ id row, s.db.backfillChunks.rows.find id = some row → row.status = .done →
    s.db.HasRange row
  /-- A worker's chunk is a row, read back. -/
  claimed : ∀ w task, (s.workers w).task = some task →
    ∃ row, s.db.backfillChunks.rows.find task.chunk.id = some row ∧
      task.chunk.fromBlock = asU64 row.fromBlock ∧ task.chunk.toBlock = asU64 row.toBlock
  /-- A worker has indexed every block of its chunk before the one it is at. -/
  behind : ∀ w chunk next lease, (s.workers w).task = some ⟨chunk, .indexing next, lease⟩ →
    ∀ n, chunk.fromBlock ≤ n → n < next → s.db.hasBlock n
  /-- A plan accounts for every block up to the head. -/
  planned : ∀ i head chunks, s.seeds i = .planned head chunks →
    (∀ n ≤ head.toNat, s.db.hasBlock n ∨ Covers chunks n) ∧
      ∀ c ∈ chunks, c.1 ≤ head.toNat ∧ c.2 ≤ head.toNat
  /-- A seed that completed left every block up to its head there or queued. -/
  completed : ∀ i head, s.seeds i = .completed head →
    ∀ n ≤ head.toNat, s.db.hasBlock n ∨ s.db.Queued n

/-- Blocks and chunk rows that were there are there, the rows over the
range they had. -/
structure Db.Grows (db db' : Db) : Prop where
  blocks : ∀ k, db.blocks.contains k = true → db'.blocks.contains k = true
  rows : ∀ id row, db.backfillChunks.rows.find id = some row →
    ∃ row', db'.backfillChunks.rows.find id = some row' ∧ row.SameRange row'

theorem Db.AuthorsOnly.blocks_eq {db' : Db} (h : db.AuthorsOnly db') : db'.blocks = db.blocks :=
  h.keeps.blocks

theorem Db.AuthorsOnly.queue_eq {db' : Db} (h : db.AuthorsOnly db') :
    db'.backfillChunks = db.backfillChunks :=
  h.keeps.queue

theorem Db.Indexed.hasBlock {db' : Db} {cursor : Option ℤ} (h : db.Indexed chain n cursor db') :
    db'.hasBlock n :=
  h.there

theorem Db.Indexed.grows {db' : Db} {cursor : Option ℤ} (h : db.Indexed chain n cursor db') :
    db.Grows db' := by
  constructor
  · exact fun _ hk => h.kept hk
  · intro id row hrow
    rw [h.queue]
    exact ⟨row, hrow, rfl, rfl⟩

theorem Db.AuthorsOnly.grows {db' : Db} (h : db.AuthorsOnly db') : db.Grows db' := by
  constructor
  · intro k hk
    rwa [h.blocks_eq]
  · intro id row hrow
    rw [h.queue_eq]
    exact ⟨row, hrow, rfl, rfl⟩

/-! ## The clauses, one by one

Each clause is carried over from the state before: through a step that
writes blocks, through one that rewrites a chunk row, and through the
seed's insert. -/

/-- A step that leaves every row of the queue, and only adds blocks,
keeps the clauses about the database. -/
theorem Coverage.of_index {db' : Db} {workers : ℕ → Worker} {live : LiveWorker}
    (h : Coverage s) (hq : db'.backfillChunks = s.db.backfillChunks)
    (hblocks : ∀ k, s.db.blocks.contains k = true → db'.blocks.contains k = true)
    (hkeys : ∀ k, db'.blocks.contains k = true → ∃ m, k = asI64 m)
    (hclaimed : ∀ w task, (workers w).task = some task →
      ∃ task₀, (s.workers w).task = some task₀ ∧ task.chunk = task₀.chunk)
    (hbehind : ∀ w chunk next lease, (workers w).task = some ⟨chunk, .indexing next, lease⟩ →
      ∀ n, chunk.fromBlock ≤ n → n < next → db'.hasBlock n) :
    Coverage { s with db := db', workers := workers, live := live } where
  keys := hkeys
  done := by
    intro id row hrow hdone n hn
    rw [hq] at hrow
    exact hblocks _ (h.done id row hrow hdone n hn)
  claimed := by
    intro w task htask
    obtain ⟨task₀, htask₀, hchunk⟩ := hclaimed w task htask
    rw [hchunk, hq]
    exact h.claimed w task₀ htask₀
  behind := hbehind
  planned := by
    intro i head chunks hseed
    obtain ⟨hall, hbound⟩ := h.planned i head chunks hseed
    exact ⟨fun n hn => (hall n hn).imp_left (hblocks _), hbound⟩
  completed := by
    intro i head hseed n hn
    rcases h.completed i head hseed n hn with hthere | ⟨id, row, hrow, hopen, hholds⟩
    · exact .inl (hblocks _ hthere)
    · exact .inr ⟨id, row, hq ▸ hrow, hopen, hholds⟩

/-- Rewriting the status of a chunk row: a row may become done only with
all its blocks there. -/
theorem Coverage.of_set {id : ℕ} {f : ChunkRow → ChunkRow} {workers : ℕ → Worker}
    (h : Coverage s) (hrange : ∀ row : ChunkRow, row.SameRange (f row))
    (hdone : ∀ row, s.db.backfillChunks.rows.find id = some row → (f row).status = .done →
      s.db.HasRange row)
    (hclaimed : ∀ w task, (workers w).task = some task →
      ∃ row, s.db.backfillChunks.rows.find task.chunk.id = some row ∧
        task.chunk.fromBlock = asU64 row.fromBlock ∧ task.chunk.toBlock = asU64 row.toBlock)
    (hbehind : ∀ w chunk next lease, (workers w).task = some ⟨chunk, .indexing next, lease⟩ →
      ∀ n, chunk.fromBlock ≤ n → n < next → s.db.hasBlock n) :
    Coverage { s.withQueue (s.db.backfillChunks.set id f) with workers := workers } where
  keys := h.keys
  done := by
    intro id' row hrow hst n hn
    simp only [Sys.withQueue, Queue.find_set] at hrow
    split at hrow
    · obtain ⟨row₀, hrow₀, rfl⟩ := Option.map_eq_some_iff.mp hrow
      exact hdone row₀ hrow₀ hst n ((hrange row₀).holds.mp hn)
    · exact h.done id' row hrow hst n hn
  claimed := by
    intro w task htask
    obtain ⟨row, hrow, hfrom, hto⟩ := hclaimed w task htask
    simp only [Sys.withQueue, Queue.find_set]
    split
    -- The worker's own chunk is the one rewritten, over the range it had.
    · rename_i heq
      rw [heq] at hrow
      rw [hrow]
      exact ⟨f row, rfl, by rw [(hrange row).1]; exact hfrom, by rw [(hrange row).2]; exact hto⟩
    · exact ⟨row, hrow, hfrom, hto⟩
  behind := hbehind
  planned := h.planned
  completed := by
    intro i head hseed n hn
    rcases h.completed i head hseed n hn with hthere | ⟨id', row, hrow, hopen, hholds⟩
    · exact .inl hthere
    · by_cases hid : id' = id
      · subst hid
        -- The row may be the one rewritten: open still, or done and all there.
        have hfind : (s.db.backfillChunks.set id' f).rows.find id' = some (f row) := by
          rw [Queue.find_set, if_pos rfl, hrow]
          rfl
        cases hst : (f row).status with
        | done => exact .inl (hdone row hrow hst n hholds)
        | pending => exact .inr ⟨id', f row, hfind, .inl hst, (hrange row).holds.mpr hholds⟩
        | running => exact .inr ⟨id', f row, hfind, .inr hst, (hrange row).holds.mpr hholds⟩
      · refine .inr ⟨id', row, ?_, hopen, hholds⟩
        simp only [Sys.withQueue, Queue.find_set, if_neg hid]
        exact hrow

/-- What a plan covers has a row once the plan is inserted, there or
queued: a row it conflicted with is open, or done and all there. -/
theorem Coverage.inserted {head : UInt64} {chunks : List (ℕ × ℕ)} (h : Coverage s)
    (hseed : s.seeds i = .planned head chunks) (hn : n ≤ head.toNat) :
    s.db.hasBlock n ∨ (s.withQueue (s.db.backfillChunks.insertAll chunks)).db.Queued n := by
  obtain ⟨hall, hbound⟩ := h.planned i head chunks hseed
  rcases hall n hn with hthere | ⟨c, hc, hlo, hhi⟩
  · exact .inl hthere
  · obtain ⟨id, row, hrow, hrange⟩ := Queue.exists_insertAll (q := s.db.backfillChunks) hc
    have hmax := toNat_le_u64Max head
    -- The bounds of a plan are below the head, so the casts to and from `BIGINT` cancel.
    have hholds : row.Holds n := by
      rw [hrange.holds]
      unfold ChunkRow.Holds pendingRow
      simp only
      rw [asU64_asI64 ((hbound c hc).1.trans hmax), asU64_asI64 ((hbound c hc).2.trans hmax)]
      exact ⟨hlo, hhi⟩
    cases hst : row.status with
    | pending => exact .inr ⟨id, row, hrow, .inl hst, hholds⟩
    | running => exact .inr ⟨id, row, hrow, .inr hst, hholds⟩
    | done =>
      -- A done row is not one the insert added, so the invariant knows it.
      rcases Queue.find_insertAll hrow with hold | ⟨c', -, hpending⟩
      · exact .inl (h.done id row hold hst n hholds)
      · rw [hpending] at hst
        cases hst

/-- The seed's insert, whatever becomes of the seed. -/
theorem Coverage.of_insert {head : UInt64} {chunks : List (ℕ × ℕ)} {seed : Seed}
    (h : Coverage s) (hseed : s.seeds i = .planned head chunks)
    (hend : seed = .completed head ∨ seed = .crashed) :
    Coverage ((s.withQueue (s.db.backfillChunks.insertAll chunks)).setSeed i seed) where
  keys := h.keys
  done := by
    intro id row hrow hst
    rcases Queue.find_insertAll hrow with hold | ⟨c, -, hpending⟩
    · exact h.done id row hold hst
    · rw [hpending] at hst
      cases hst
  claimed := by
    intro w task htask
    obtain ⟨row, hrow, hfrom, hto⟩ := h.claimed w task htask
    exact ⟨row, Queue.find_insertAll_of_find hrow, hfrom, hto⟩
  behind := h.behind
  planned := by
    intro j head' chunks' hj
    simp only [Sys.setSeed, Function.update_apply] at hj
    split at hj
    · rcases hend with rfl | rfl <;> cases hj
    · exact h.planned j head' chunks' hj
  completed := by
    intro j head' hj n hn
    simp only [Sys.setSeed, Function.update_apply] at hj
    split at hj
    · rcases hend with rfl | rfl
      · obtain rfl := Seed.completed.inj hj
        exact h.inserted hseed hn
      · cases hj
    · rcases h.completed j head' hj n hn with hthere | ⟨id, row, hrow, hopen, hholds⟩
      · exact .inl hthere
      · exact .inr ⟨id, row, Queue.find_insertAll_of_find hrow, hopen, hholds⟩

/-! ## The step -/

/-- A seed task that moves on its own: what it plans must account for
its blocks, and it does not complete. -/
theorem Coverage.setSeed {x : Seed} (h : Coverage s)
    (hplan : ∀ head chunks, x = .planned head chunks →
      (∀ n ≤ head.toNat, s.db.hasBlock n ∨ Covers chunks n) ∧
        ∀ c ∈ chunks, c.1 ≤ head.toNat ∧ c.2 ≤ head.toNat)
    (hdone : ∀ head, x ≠ .completed head) : Coverage (s.setSeed i x) := by
  refine ⟨h.keys, h.done, h.claimed, h.behind, ?_, ?_⟩
  · intro j head chunks hj
    simp only [Sys.setSeed, Function.update_apply] at hj
    split at hj
    · exact hplan head chunks hj
    · exact h.planned j head chunks hj
  · intro j head hj
    simp only [Sys.setSeed, Function.update_apply] at hj
    split at hj
    · exact absurd hj (hdone head)
    · exact h.completed j head hj

/-- A number the seed reads as present is the key of a row, read back. -/
theorem Coverage.hasBlock_of_mem_existing {head : UInt64} (h : Coverage s)
    (hmem : n ∈ Sys.existing s.db head) : s.db.hasBlock n := by
  obtain ⟨k, hk, rfl⟩ := List.mem_map.mp hmem
  have hkey : s.db.blocks.contains k = true := Table.mem_keys_iff.mp (List.mem_filter.mp hk).1
  obtain ⟨m, rfl⟩ := h.keys k hkey
  unfold Db.hasBlock
  rw [asI64_asU64_asI64]
  exact hkey

theorem Coverage.of_seedStep {a : SeedAction} (h : Coverage s)
    (hstep : Sys.SeedStep chunkSize s i a s') : Coverage s' := by
  cases hstep with
  | readHead hseed hhead => exact h.setSeed (fun _ _ hx => nomatch hx) (fun _ hx => nomatch hx)
  | @plan head chunks hseed hplan =>
    refine h.setSeed ?_ (fun _ hx => nomatch hx)
    intro head' chunks' hx
    obtain ⟨rfl, rfl⟩ := Seed.planned.inj hx
    obtain ⟨hall, hbound⟩ := splitGaps_spec (toNat_le_u64Max head) hplan
    exact ⟨fun n hn => (hall n hn).imp_left h.hasBlock_of_mem_existing, hbound⟩
  | insert hseed hend => exact h.of_insert hseed (hend.imp And.left And.left)
  | stop => exact h.setSeed (fun _ _ hx => nomatch hx) (fun _ hx => nomatch hx)

/-- What a worker holds, where worker `w` is given what it held or less. -/
theorem claimed_setWorker {x : Worker}
    (hx : ∀ task, x.task = some task → ∃ task₀, (s.workers w).task = some task₀ ∧
      task.chunk = task₀.chunk) (v : ℕ) (task : Task)
    (htask : ((s.setWorker w x).workers v).task = some task) :
    ∃ task₀, (s.workers v).task = some task₀ ∧ task.chunk = task₀.chunk := by
  simp only [Sys.setWorker, Function.update_apply] at htask
  split at htask
  · rename_i hv
    rw [hv]
    exact hx task htask
  · exact ⟨task, htask, rfl⟩

theorem Coverage.claimed_of_setWorker {x : Worker} (h : Coverage s)
    (hx : ∀ task, x.task = some task → ∃ task₀, (s.workers w).task = some task₀ ∧
      task.chunk = task₀.chunk) (v : ℕ) (task : Task)
    (htask : ((s.setWorker w x).workers v).task = some task) :
    ∃ row, s.db.backfillChunks.rows.find task.chunk.id = some row ∧
      task.chunk.fromBlock = asU64 row.fromBlock ∧ task.chunk.toBlock = asU64 row.toBlock := by
  obtain ⟨task₀, htask₀, hchunk⟩ := claimed_setWorker hx v task htask
  rw [hchunk]
  exact h.claimed v task₀ htask₀

theorem Coverage.behind_setWorker {x : Worker} {db' : Db} (h : Coverage s)
    (hblocks : ∀ k, s.db.blocks.contains k = true → db'.blocks.contains k = true)
    (hx : ∀ chunk next lease, x.task = some ⟨chunk, .indexing next, lease⟩ →
      ∀ n, chunk.fromBlock ≤ n → n < next → db'.hasBlock n) (v : ℕ) (chunk : ClaimedChunk)
    (next : ℕ) (lease : ℤ)
    (htask : ((s.setWorker w x).workers v).task = some ⟨chunk, .indexing next, lease⟩) :
    ∀ n, chunk.fromBlock ≤ n → n < next → db'.hasBlock n := by
  simp only [Sys.setWorker, Function.update_apply] at htask
  split at htask
  · exact hx chunk next lease htask
  · exact fun n hlo hhi => hblocks _ (h.behind v chunk next lease htask n hlo hhi)

/-- A database with one block more has stored block numbers for keys. -/
theorem Coverage.keys_of_indexed {db' : Db} {cursor : Option ℤ} (h : Coverage s)
    (hdb : s.db.Indexed chain n cursor db') (k : ℤ) (hk : db'.blocks.contains k = true) :
    ∃ m, k = asI64 m := by
  rw [hdb.blocks, Bool.or_eq_true, decide_eq_true_eq] at hk
  rcases hk with rfl | hk
  · exact ⟨n, rfl⟩
  · exact h.keys k hk

/-- **A worker's step keeps the invariant.** A chunk is retired with all
its blocks behind the worker; a release and a lapsed lease reopen it,
which asks for nothing. -/
theorem Coverage.of_workerStep {a : WorkerAction} (h : Coverage s)
    (hstep : Sys.WorkerStep chain s w a s') : Coverage s' := by
  cases hstep with
  | drained halive htask =>
    refine h.of_index rfl (fun _ hk => hk) h.keys (claimed_setWorker fun _ hx => nomatch hx) ?_
    exact h.behind_setWorker (fun _ hk => hk) (fun _ _ _ hx => nomatch hx)
  | @claim locked id row halive htask hnext =>
    obtain ⟨hrow, -, hclaimable⟩ := Queue.next_eq_some hnext
    refine h.of_set (fun _ => ⟨rfl, rfl⟩) (fun _ _ hst => nomatch hst) ?_ ?_
    · intro v task htask
      simp only [Function.update_apply] at htask
      split at htask
      · obtain rfl := Option.some.inj htask
        exact ⟨row, hrow, rfl, rfl⟩
      · exact h.claimed v task htask
    · refine h.behind_setWorker (fun _ hk => hk) ?_
      intro chunk next lease hx n hlo hhi
      -- The worker is at the first block of its chunk.
      simp only [Sys.claimedTask, Option.some.injEq, Task.mk.injEq, Stage.indexing.injEq] at hx
      obtain ⟨rfl, rfl, -⟩ := hx
      simp only at hlo
      omega
  | @indexed chunk next lease faults db stage halive htask hnext hdb hstage =>
    refine h.of_index hdb.queue hdb.grows.blocks (h.keys_of_indexed hdb) ?_ ?_
    · refine claimed_setWorker fun task hx => ?_
      obtain rfl := Option.some.inj hx
      exact ⟨_, htask, rfl⟩
    · refine h.behind_setWorker hdb.grows.blocks ?_
      intro chunk' next' lease' hx n hlo hhi
      simp only [Option.some.injEq, Task.mk.injEq] at hx
      obtain ⟨rfl, hst, -⟩ := hx
      rcases hstage with rfl | rfl
      -- Behind the worker is what was, and the block just written.
      · obtain rfl := Stage.indexing.inj hst
        rcases Nat.lt_or_ge n next with hlt | hge
        · exact hdb.grows.blocks _ (h.behind w chunk next lease htask n hlo hlt)
        · obtain rfl : n = next := by omega
          exact hdb.hasBlock
      · cases hst
  | @notIndexed chunk next lease faults db halive htask hdb =>
    refine h.of_index hdb.queue_eq hdb.grows.blocks ?_ ?_ ?_
    · rw [hdb.blocks_eq]
      exact h.keys
    · refine claimed_setWorker fun task hx => ?_
      obtain rfl := Option.some.inj hx
      exact ⟨_, htask, rfl⟩
    · exact h.behind_setWorker hdb.grows.blocks fun _ _ _ hx => nomatch hx
  | @markDone chunk next lease halive htask hnext =>
    refine h.of_set (fun _ => ⟨rfl, rfl⟩) ?_ (h.claimed_of_setWorker fun _ hx => nomatch hx)
      (h.behind_setWorker (fun _ hk => hk) fun _ _ _ hx => nomatch hx)
    intro row hrow _ n hn
    -- The row's range is the worker's, and the worker is past its end.
    obtain ⟨row', hrow', hfrom, hto⟩ := h.claimed w _ htask
    obtain rfl : row = row' := Option.some.inj (hrow.symm.trans hrow')
    refine h.behind w chunk next lease htask n ?_ ?_
    · rw [hfrom]
      exact hn.1
    · exact lt_of_le_of_lt (hn.2.trans_eq hto.symm) hnext
  | @markFailed chunk lease err halive htask =>
    exact h.of_set (fun _ => ⟨rfl, rfl⟩) (fun _ _ hst => nomatch hst)
      (h.claimed_of_setWorker fun _ hx => nomatch hx)
      (h.behind_setWorker (fun _ hk => hk) fun _ _ _ hx => nomatch hx)
  | crash =>
    refine h.of_index rfl (fun _ hk => hk) h.keys
      (claimed_setWorker fun task hx => ⟨task, hx, rfl⟩) ?_
    exact h.behind_setWorker (fun _ hk => hk) fun chunk next lease hx =>
      h.behind w chunk next lease hx

/-- **A live worker's step keeps the invariant**: blocks arrive, the queue stays. -/
theorem Coverage.of_liveStep {a : LiveAction} (h : Coverage s)
    (hstep : Sys.LiveStep chain s a s') : Coverage s' := by
  cases hstep with
  | start | noHead | observe | crash =>
    exact ⟨h.keys, h.done, h.claimed, h.behind, h.planned, h.completed⟩
  | indexed hlive hthrough hdb hnext =>
    exact h.of_index hdb.queue hdb.grows.blocks (h.keys_of_indexed hdb)
      (fun v task htask => ⟨task, htask, rfl⟩)
      (fun v chunk next lease htask n hlo hhi =>
        hdb.grows.blocks _ (h.behind v chunk next lease htask n hlo hhi))
  | notIndexed hlive hdb =>
    refine h.of_index hdb.queue_eq hdb.grows.blocks ?_ (fun v task htask => ⟨task, htask, rfl⟩) ?_
    · rw [hdb.blocks_eq]
      exact h.keys
    · exact fun v chunk next lease htask n hlo hhi =>
        hdb.grows.blocks _ (h.behind v chunk next lease htask n hlo hhi)

/-- **Every step keeps the coverage invariant.** -/
theorem Coverage.of_step {a : Action} (h : Coverage s)
    (hstep : Sys.step chain chunkSize s a = some s') : Coverage s' := by
  cases a with
  | tick dt =>
    obtain rfl := Option.some.inj hstep
    exact ⟨h.keys, h.done, h.claimed, h.behind, h.planned, h.completed⟩
  | publish head =>
    obtain rfl := Option.some.inj hstep
    exact ⟨h.keys, h.done, h.claimed, h.behind, h.planned, h.completed⟩
  | seed i a => exact h.of_seedStep (Sys.seedStep_cases hstep)
  | worker w a => exact h.of_workerStep (Sys.workerStep_cases hstep)
  | live a => exact h.of_liveStep (Sys.liveStep_cases hstep)

/-- A fresh database has nothing to cover. -/
theorem Coverage.start : Coverage (Sys.start Db.empty) where
  keys := fun _ hk => nomatch hk
  done := fun _ _ hrow => nomatch hrow
  claimed := fun _ _ htask => nomatch htask
  behind := fun _ _ _ _ htask => nomatch htask
  planned := fun _ _ _ hseed => nomatch hseed
  completed := fun _ _ hseed => nomatch hseed

end AllfeatExplorer
