import AllfeatExplorer.Indexer.Model.Worker
import AllfeatExplorer.Lib.Run

/-!
# The indexer as a system

One network's indexer: its database, the clock, the finalized head the
node watch publishes, any number of seed tasks and backfill workers, and
the live worker. A step is one database statement or transaction, one
read, or a process giving up; a schedule of steps is a run.

A process that crashes is gone; a restart is another index, or for the
live worker another start. The processes keep only what is on their
stack.
-/

namespace AllfeatExplorer

open Backfill

/-- A `seed_from_head` task. -/
inductive Seed where
  /-- Waiting for the watch to have a head. -/
  | idle
  /-- The head is read. -/
  | headRead (head : UInt64)
  /-- The blocks present were read and the chunks computed. -/
  | planned (head : UInt64) (chunks : List (ℕ × ℕ))
  /-- `seed_chunks` returned. -/
  | completed (head : UInt64)
  | crashed
deriving DecidableEq

/-- What a backfill worker does with the chunk it claimed. -/
inductive Stage where
  /-- In `index_chunk`; `next` is the block it is at. -/
  | indexing (next : ℕ)
  /-- `index_chunk` returned an error. -/
  | failing
deriving DecidableEq

/-- A chunk a worker has claimed and not retired. `lease` is the
`lease_until` its claim wrote, which the worker itself does not keep. -/
structure Task where
  chunk : ClaimedChunk
  stage : Stage
  lease : ℤ
deriving DecidableEq

/-- A backfill worker. One that has crashed takes no more steps. -/
structure Worker where
  task : Option Task := none
  alive : Bool := true
deriving DecidableEq

/-- The live worker; `last` is its in-memory cursor. -/
inductive LiveWorker where
  /-- Not running. -/
  | off
  /-- At the watch. -/
  | waiting (last : Option ℕ)
  /-- In the catch-up loop, at block `num`. -/
  | indexing (last : Option ℕ) (num head : ℕ)
deriving DecidableEq

/-- **The state of the indexer.** -/
structure Sys where
  db : Db
  now : ℤ
  /-- The finalized head the watch holds. -/
  published : Option UInt64
  seeds : ℕ → Seed
  workers : ℕ → Worker
  live : LiveWorker

/-- The indexer before its first step, over a database. -/
def Sys.start (db : Db) : Sys where
  db := db
  now := 0
  published := none
  seeds := fun _ => .idle
  workers := fun _ => {}
  live := .off

/-- The steps of a seed task. -/
inductive SeedAction where
  | readHead
  | readExisting
  | insert (outcome : Outcome)
  | crash
deriving DecidableEq

/-- The steps of a backfill worker. `locked` are the rows concurrent
transactions hold at the moment of the claim. -/
inductive WorkerAction where
  | claim (locked : List ℕ)
  | index (faults : Faults)
  | markDone
  | markFailed (err : String)
  | crash
deriving DecidableEq

/-- The steps of the live worker. -/
inductive LiveAction where
  | start
  | observe
  | index (faults : Faults)
  | crash
deriving DecidableEq

/-- **One step of the indexer.** -/
inductive Action where
  /-- Time passes. -/
  | tick (by' : ℕ)
  /-- The node watch publishes a head. -/
  | publish (head : UInt64)
  | seed (i : ℕ) (action : SeedAction)
  | worker (w : ℕ) (action : WorkerAction)
  | live (action : LiveAction)
deriving DecidableEq

namespace Sys

/-- The numbers `seed_chunks` reads: `num <= head ORDER BY num`. -/
def existing (db : Db) (head : UInt64) : List ℕ :=
  (db.blocks.keys.filter fun num => num ≤ asI64 head.toNat).map asU64

/-- A seed task moves. -/
def seedStep (chunkSize : ℕ) (s : Sys) (i : ℕ) (a : SeedAction) : Option Sys :=
  match a with
  | .readHead =>
    match s.seeds i with
    | .idle =>
      s.published.map fun head => { s with seeds := Function.update s.seeds i (.headRead head) }
    | _ => none
  | .readExisting =>
    match s.seeds i with
    | .headRead head =>
      match splitGapsIntoChunks head.toNat (existing s.db head) chunkSize with
      | some chunks => some { s with seeds := Function.update s.seeds i (.planned head chunks) }
      | none => some { s with seeds := Function.update s.seeds i .crashed }
    | _ => none
  | .insert outcome =>
    match s.seeds i with
    | .planned head chunks =>
      let db := { s.db with backfillChunks := s.db.backfillChunks.insertAll chunks }
      match outcome with
      | .acked => some { s with db, seeds := Function.update s.seeds i (.completed head) }
      | .lost => some { s with seeds := Function.update s.seeds i .crashed }
      | .unacked => some { s with db, seeds := Function.update s.seeds i .crashed }
    | _ => none
  | .crash =>
    match s.seeds i with
    | .completed _ => none
    | _ => some { s with seeds := Function.update s.seeds i .crashed }

/-- A worker's row rewritten. -/
def setWorker (s : Sys) (w : ℕ) (x : Worker) : Sys :=
  { s with workers := Function.update s.workers w x }

/-- A backfill worker moves: `BackfillWorker::run`. -/
def workerStep (chain : Chain) (s : Sys) (w : ℕ) (a : WorkerAction) : Option Sys :=
  match (s.workers w).alive, (s.workers w).task, a with
  | true, none, .claim locked =>
    let (q, claimed) := claimChunk s.db.backfillChunks s.now locked
    let s := { s with db := { s.db with backfillChunks := q } }
    some <| s.setWorker w
      { task := claimed.map fun chunk =>
          { chunk, stage := .indexing chunk.fromBlock, lease := s.now + leaseDuration } }
  | true, some ⟨chunk, .indexing next, lease⟩, .index faults =>
    if next ≤ chunk.toBlock then
      match Backfill.indexBlock chain next faults s.db with
      | (db, .ok ()) =>
        some <| { s with db }.setWorker w
          { task := some { chunk, stage := .indexing (next + 1), lease } }
      | (db, .error _) =>
        some <| { s with db }.setWorker w { task := some { chunk, stage := .failing, lease } }
    else none
  | true, some ⟨chunk, .indexing next, _⟩, .markDone =>
    if chunk.toBlock < next then
      let q := markChunkDone s.db.backfillChunks chunk.id
      some <| { s with db := { s.db with backfillChunks := q } }.setWorker w {}
    else none
  | true, some ⟨chunk, .failing, _⟩, .markFailed err =>
    let q := markChunkFailed s.db.backfillChunks chunk.id err
    some <| { s with db := { s.db with backfillChunks := q } }.setWorker w {}
  | true, task, .crash => some <| s.setWorker w { task, alive := false }
  | _, _, _ => none

/-- The block the live worker starts at: the one after its cursor, or
the head itself on a fresh cursor. -/
def startBlock (last : Option ℕ) (head : ℕ) : ℕ :=
  match last with
  | some x => satAddU64 x 1
  | none => head

/-- The live worker at block `num` of the range up to `head`, or back at
the watch where the range is over. -/
def catchUp (last : Option ℕ) (num head : ℕ) : LiveWorker :=
  if num ≤ head then .indexing last num head else .waiting last

/-- The live worker moves: `LiveWorker::run`. -/
def liveStep (chain : Chain) (s : Sys) (a : LiveAction) : Option Sys :=
  match s.live, a with
  | .off, .start => some { s with live := .waiting (Sink.loadCursor s.db.indexerCursor) }
  | .waiting last, .observe =>
    match s.published with
    | none => some s
    | some head =>
      some { s with live := catchUp last (startBlock last head.toNat) head.toNat }
  | .indexing last num head, .index faults =>
    match Live.indexBlock chain num faults s.db with
    | (db, .ok ()) => some { s with db, live := catchUp (some num) (num + 1) head }
    | (db, .error _) => some { s with db, live := .waiting last }
  | _, .crash => some { s with live := .off }
  | _, _ => none

/-- **The step function of the indexer.** -/
def step (chain : Chain) (chunkSize : ℕ) (s : Sys) : Action → Option Sys
  | .tick dt => some { s with now := s.now + dt }
  | .publish head => some { s with published := some head }
  | .seed i a => seedStep chunkSize s i a
  | .worker w a => workerStep chain s w a
  | .live a => liveStep chain s a

end Sys

end AllfeatExplorer
