import AllfeatExplorer.Indexer.Helpers.Coverage

/-!
# Backfill loses no block

Over any schedule of seeds, workers, the live worker, lapsing leases and
crashes: a chunk is retired with all its blocks there, and once a seed at
head `H` has completed, a block up to `H` is there or in an open chunk.
So a queue that has drained leaves no hole below a head it was seeded
at.
-/

namespace AllfeatExplorer

open Backfill

variable {chain : Chain} {chunkSize : ℕ} {as : List Action} {s : Sys}

/-- The coverage invariant holds along every run from a fresh database. -/
theorem coverage_run (h : run (Sys.step chain chunkSize) (Sys.start Db.empty) as = some s) :
    Coverage s :=
  inv_run (fun _ _ _ hu hstep => hu.of_step hstep) Coverage.start h

/-- **Backfill never loses a block.** -/
theorem backfill_loses_no_block
    (h : run (Sys.step chain chunkSize) (Sys.start Db.empty) as = some s) :
    (∀ id row, s.db.backfillChunks.rows.find id = some row → row.status = .done →
      ∀ n, row.Holds n → s.db.hasBlock n) ∧
    (∀ i head, s.seeds i = .completed head → ∀ n ≤ head.toNat,
      s.db.hasBlock n ∨ ∃ id row, s.db.backfillChunks.rows.find id = some row ∧
        (row.status = .pending ∨ row.status = .running) ∧ row.Holds n) ∧
    (∀ i head, s.seeds i = .completed head →
      (∀ id row, s.db.backfillChunks.rows.find id = some row → row.status = .done) →
      ∀ n ≤ head.toNat, s.db.hasBlock n) := by
  have hcov := coverage_run h
  refine ⟨hcov.done, hcov.completed, ?_⟩
  intro i head hseed hdrained n hn
  rcases hcov.completed i head hseed n hn with hthere | ⟨id, row, hrow, hopen, -⟩
  · exact hthere
  · have hdone := hdrained id row hrow
    rcases hopen with hst | hst <;> rw [hst] at hdone <;> cases hdone

/-- A seed at head 1 in chunks of one block, and a worker that retires
the first: block 1 is still queued. -/
theorem backfill_loses_no_block_of_one_retired :
    ∃ s, run (Sys.step bareChain 1) (Sys.start Db.empty)
        [.publish 1, .seed 0 .readHead, .seed 0 .readExisting, .seed 0 (.insert .acked),
          .worker 0 (.claim []), .worker 0 (.index {}), .worker 0 .markDone] = some s ∧
      s.db.hasBlock 0 ∧ ∀ n ≤ 1, s.db.hasBlock n ∨ s.db.Queued n := by
  have hrun : (run (Sys.step bareChain 1) (Sys.start Db.empty)
      [.publish 1, .seed 0 .readHead, .seed 0 .readExisting, .seed 0 (.insert .acked),
        .worker 0 (.claim []), .worker 0 (.index {}), .worker 0 .markDone]).map
      (fun s => (s.seeds 0, decide (s.db.hasBlock 0))) = some (.completed 1, true) := by
    decide
  obtain ⟨s, hs, hend⟩ := Option.map_eq_some_iff.mp hrun
  obtain ⟨hseed, hblock⟩ := Prod.mk.inj hend
  exact ⟨s, hs, of_decide_eq_true hblock, (backfill_loses_no_block hs).2.1 0 1 hseed⟩

end AllfeatExplorer
