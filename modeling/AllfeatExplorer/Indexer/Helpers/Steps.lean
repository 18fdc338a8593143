import AllfeatExplorer.Indexer.Model.System
import AllfeatExplorer.Indexer.Helpers.Frame

/-!
# What each step can do

One inversion for each kind of process: the steps it can take, with what
its guard saw and the state it leaves. The invariants are proved by cases
on these and never unfold the step function.
-/

namespace AllfeatExplorer

open Backfill

variable {chain : Chain} {chunkSize : ℕ} {s s' : Sys} {i w : ℕ}

namespace Sys

/-- The queue replaced. -/
def withQueue (s : Sys) (q : Queue) : Sys :=
  { s with db := { s.db with backfillChunks := q } }

/-- A seed task replaced. -/
def setSeed (s : Sys) (i : ℕ) (x : Seed) : Sys :=
  { s with seeds := Function.update s.seeds i x }

/-- **The steps of seed task `i`.** -/
inductive SeedStep (chunkSize : ℕ) (s : Sys) (i : ℕ) : SeedAction → Sys → Prop where
  | readHead {head : UInt64} (hseed : s.seeds i = .idle) (hhead : s.published = some head) :
      SeedStep chunkSize s i .readHead (s.setSeed i (.headRead head))
  | plan {head : UInt64} {chunks : List (ℕ × ℕ)} (hseed : s.seeds i = .headRead head)
      (hplan : splitGapsIntoChunks head.toNat (existing s.db head) chunkSize = some chunks) :
      SeedStep chunkSize s i .readExisting (s.setSeed i (.planned head chunks))
  | insert {head : UInt64} {chunks : List (ℕ × ℕ)} {outcome : Outcome} {seed : Seed}
      (hseed : s.seeds i = .planned head chunks)
      (hend : seed = .completed head ∧ outcome = .acked ∨
        seed = .crashed ∧ outcome = .unacked) :
      SeedStep chunkSize s i (.insert outcome)
        ((s.withQueue (s.db.backfillChunks.insertAll chunks)).setSeed i seed)
  | stop {a : SeedAction} : SeedStep chunkSize s i a (s.setSeed i .crashed)

theorem seedStep_cases {a : SeedAction} (h : seedStep chunkSize s i a = some s') :
    SeedStep chunkSize s i a s' := by
  rcases a with - | - | outcome | -
  · rcases hseed : s.seeds i with - | head | ⟨head, chunks⟩ | head | - <;>
      simp only [seedStep, hseed, reduceCtorEq] at h
    obtain ⟨head, hhead, rfl⟩ := Option.map_eq_some_iff.mp h
    exact .readHead hseed hhead
  · rcases hseed : s.seeds i with - | head | ⟨head, chunks⟩ | head | - <;>
      simp only [seedStep, hseed, reduceCtorEq] at h
    rcases hplan : splitGapsIntoChunks head.toNat (existing s.db head) chunkSize with - | chunks <;>
      rw [hplan] at h
    -- The split underflowed: the task is gone.
    · obtain rfl := Option.some.inj h
      exact .stop
    · obtain rfl := Option.some.inj h
      exact .plan hseed hplan
  · rcases hseed : s.seeds i with - | head | ⟨head, chunks⟩ | head | - <;>
      simp only [seedStep, hseed, reduceCtorEq] at h
    -- The one insert is acknowledged, lost, or done with its answer lost.
    rcases outcome with - | - | - <;> obtain rfl := Option.some.inj h
    · exact .insert hseed (.inl ⟨rfl, rfl⟩)
    · exact .stop
    · exact .insert hseed (.inr ⟨rfl, rfl⟩)
  · rcases hseed : s.seeds i with - | head | ⟨head, chunks⟩ | head | - <;>
      simp only [seedStep, hseed, reduceCtorEq] at h
    all_goals
      obtain rfl := Option.some.inj h
      exact .stop

/-- The row as a claim leaves it. -/
def leaseRow (now : ℤ) (row : ChunkRow) : ChunkRow :=
  { row with status := .running, leaseUntil := some (now + leaseDuration) }

/-- The task a claim of `row` starts. -/
def claimedTask (now : ℤ) (id : ℕ) (row : ChunkRow) : Task where
  chunk := { id, fromBlock := asU64 row.fromBlock, toBlock := asU64 row.toBlock }
  stage := .indexing (asU64 row.fromBlock)
  lease := now + leaseDuration

/-- **The steps of worker `w`.** -/
inductive WorkerStep (chain : Chain) (s : Sys) (w : ℕ) : WorkerAction → Sys → Prop where
  | drained {locked : List ℕ} (halive : (s.workers w).alive = true)
      (htask : (s.workers w).task = none) :
      WorkerStep chain s w (.claim locked) (s.setWorker w {})
  | claim {locked : List ℕ} {id : ℕ} {row : ChunkRow} (halive : (s.workers w).alive = true)
      (htask : (s.workers w).task = none)
      (hnext : s.db.backfillChunks.next s.now locked = some (id, row)) :
      WorkerStep chain s w (.claim locked)
        ((s.withQueue (s.db.backfillChunks.set id (leaseRow s.now))).setWorker w
          { task := some (claimedTask s.now id row) })
  | indexed {chunk : ClaimedChunk} {next : ℕ} {lease : ℤ} {faults : Faults} {db : Db}
      {stage : Stage} (halive : (s.workers w).alive = true)
      (htask : (s.workers w).task = some ⟨chunk, .indexing next, lease⟩)
      (hnext : next ≤ chunk.toBlock) (hdb : s.db.Indexed chain next s.db.indexerCursor db)
      (hstage : stage = .indexing (next + 1) ∨ stage = .failing) :
      WorkerStep chain s w (.index faults)
        ({ s with db }.setWorker w { task := some ⟨chunk, stage, lease⟩ })
  | notIndexed {chunk : ClaimedChunk} {next : ℕ} {lease : ℤ} {faults : Faults} {db : Db}
      (halive : (s.workers w).alive = true)
      (htask : (s.workers w).task = some ⟨chunk, .indexing next, lease⟩)
      (hdb : s.db.AuthorsOnly db) :
      WorkerStep chain s w (.index faults)
        ({ s with db }.setWorker w { task := some ⟨chunk, .failing, lease⟩ })
  | markDone {chunk : ClaimedChunk} {next : ℕ} {lease : ℤ}
      (halive : (s.workers w).alive = true)
      (htask : (s.workers w).task = some ⟨chunk, .indexing next, lease⟩)
      (hnext : chunk.toBlock < next) :
      WorkerStep chain s w .markDone
        ((s.withQueue (markChunkDone s.db.backfillChunks chunk.id)).setWorker w {})
  | markFailed {chunk : ClaimedChunk} {lease : ℤ} {err : String}
      (halive : (s.workers w).alive = true)
      (htask : (s.workers w).task = some ⟨chunk, .failing, lease⟩) :
      WorkerStep chain s w (.markFailed err)
        ((s.withQueue (markChunkFailed s.db.backfillChunks chunk.id err)).setWorker w {})
  | crash : WorkerStep chain s w .crash
      (s.setWorker w { task := (s.workers w).task, alive := false })

theorem workerStep_cases {a : WorkerAction} (h : workerStep chain s w a = some s') :
    WorkerStep chain s w a s' := by
  unfold workerStep at h
  split at h
  · rename_i locked halive htask
    cases hnext : s.db.backfillChunks.next s.now locked with
    | none =>
      simp only [claimChunk, hnext] at h
      obtain rfl := Option.some.inj h
      exact .drained halive htask
    | some r =>
      obtain ⟨id, row⟩ := r
      simp only [claimChunk, hnext] at h
      obtain rfl := Option.some.inj h
      exact .claim halive htask hnext
  · rename_i chunk next lease faults halive htask
    split at h
    · rename_i hle
      split at h
      · rename_i db hindex
        obtain rfl := Option.some.inj h
        -- An answer of success rules the failed end out.
        rcases Backfill.indexBlock_cases hindex with ⟨⟨e, he⟩, -⟩ | hdb
        · cases he
        · exact .indexed halive htask hle hdb (.inl rfl)
      · rename_i db e hindex
        obtain rfl := Option.some.inj h
        -- An error does not: the commit may have taken effect all the same.
        rcases Backfill.indexBlock_cases hindex with ⟨-, hdb⟩ | hdb
        · exact .notIndexed halive htask hdb
        · exact .indexed halive htask hle hdb (.inr rfl)
    · cases h
  · rename_i chunk next lease halive htask
    split at h
    · rename_i hlt
      obtain rfl := Option.some.inj h
      exact .markDone halive htask hlt
    · cases h
  · rename_i chunk lease err halive htask
    obtain rfl := Option.some.inj h
    exact .markFailed halive htask
  · obtain rfl := Option.some.inj h
    exact .crash
  · cases h

/-- **The steps of the live worker.** -/
inductive LiveStep (chain : Chain) (s : Sys) : LiveAction → Sys → Prop where
  | start (hlive : s.live = .off) :
      LiveStep chain s .start { s with live := .waiting (Sink.loadCursor s.db.indexerCursor) }
  | noHead {last : Option ℕ} (hlive : s.live = .waiting last) (hhead : s.published = none) :
      LiveStep chain s .observe s
  | observe {last : Option ℕ} {head : UInt64} (hlive : s.live = .waiting last)
      (hhead : s.published = some head) :
      LiveStep chain s .observe
        { s with live := catchUp last (startBlock last head.toNat) head.toNat }
  | indexed {last : Option ℕ} {num head : ℕ} {faults : Faults} {db : Db} {live : LiveWorker}
      (hlive : s.live = .indexing last num head) (hthrough : faults.Through)
      (hdb : s.db.Indexed chain num (Sink.bumpCursor s.db.indexerCursor num) db)
      (hnext : live = catchUp (some num) (num + 1) head ∨ live = .waiting last) :
      LiveStep chain s (.index faults) { s with db, live }
  | notIndexed {last : Option ℕ} {num head : ℕ} {faults : Faults} {db : Db}
      (hlive : s.live = .indexing last num head) (hdb : s.db.AuthorsOnly db) :
      LiveStep chain s (.index faults) { s with db, live := .waiting last }
  | crash : LiveStep chain s .crash { s with live := .off }

theorem liveStep_cases {a : LiveAction} (h : liveStep chain s a = some s') :
    LiveStep chain s a s' := by
  unfold liveStep at h
  split at h
  · rename_i hlive
    obtain rfl := Option.some.inj h
    exact .start hlive
  · rename_i last hlive
    split at h
    · rename_i hhead
      obtain rfl := Option.some.inj h
      exact .noHead hlive hhead
    · rename_i head hhead
      obtain rfl := Option.some.inj h
      exact .observe hlive hhead
  · rename_i last num head faults hlive
    split at h
    · rename_i db hindex
      obtain rfl := Option.some.inj h
      rcases Live.indexBlock_cases hindex with ⟨⟨e, he⟩, -⟩ | ⟨hthrough, hdb⟩
      · cases he
      · exact .indexed hlive hthrough hdb (.inl rfl)
    · rename_i db e hindex
      obtain rfl := Option.some.inj h
      rcases Live.indexBlock_cases hindex with ⟨-, hdb⟩ | ⟨hthrough, hdb⟩
      · exact .notIndexed hlive hdb
      · exact .indexed hlive hthrough hdb (.inr rfl)
  · obtain rfl := Option.some.inj h
    exact .crash
  · cases h

end Sys

end AllfeatExplorer
