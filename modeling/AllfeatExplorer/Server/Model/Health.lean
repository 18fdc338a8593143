import AllfeatExplorer.Indexer.Model.Worker
import Mathlib.Data.Rat.Defs
import Mathlib.Algebra.Order.Field.Rat

/-!
# The status of the indexer

`src/server/health.rs`: the banner state of one network, computed from
the finalized head and three readings of the database. A percentage is a
rational here, where the code rounds it to `f32`.
-/

namespace AllfeatExplorer

namespace Health

/-- `IndexerState`, from best to worst. -/
inductive IndexerState
  | healthy
  | catchingUp
  | backfilling
  | offline
deriving DecidableEq

/-- `IndexerStatus`. -/
structure IndexerStatus where
  networkId : String
  state : IndexerState
  finalizedHead : Option ℕ
  indexerHead : Option ℕ
  liveLagBlocks : Option ℕ
  backfillDone : ℕ
  backfillTotal : ℕ
  backfillPct : ℚ

/-- `HEALTHY_LAG_BLOCKS`. -/
def healthyLagBlocks : ℕ := 2

/-- `OFFLINE_CURSOR_AGE_SECONDS`. -/
def offlineCursorAgeSeconds : ℤ := 60

/-- **`derive_state`**: a stale cursor first, then the backfill, then the
lag. -/
def deriveState (liveLagBlocks : Option ℕ) (cursorAgeSeconds : Option ℤ) (backfillPct : ℚ) :
    IndexerState :=
  if cursorAgeSeconds.any fun age => decide (offlineCursorAgeSeconds < age) then .offline
  else if backfillPct < 100 then .backfilling
  else if liveLagBlocks.any fun lag => decide (healthyLagBlocks < lag) then .catchingUp
  else .healthy

/-- The percentage of `compute_status`, clamped to `[0, 100]`. -/
def backfillPct (done total : ℕ) : ℚ :=
  if total = 0 then 100 else max 0 (min 100 (done / total * 100))

/-- **`compute_status`.** -/
def computeStatus (networkId : String) (finalizedHead indexerHead : Option ℕ)
    (cursorAgeSeconds : Option ℤ) (backfillDone backfillTotal : ℕ) : IndexerStatus :=
  let liveLagBlocks :=
    match finalizedHead, indexerHead with
    | some f, some i => some (f - i)
    | _, _ => none
  let pct := backfillPct backfillDone backfillTotal
  { networkId := networkId
    state := deriveState liveLagBlocks cursorAgeSeconds pct
    finalizedHead := finalizedHead
    indexerHead := indexerHead
    liveLagBlocks := liveLagBlocks
    backfillDone := backfillDone
    backfillTotal := backfillTotal
    backfillPct := pct }

/-- What the database answers: each of the three queries may fail. -/
structure Readings where
  loadCursor : Option (Option ℕ)
  cursorAgeSeconds : Option (Option ℤ)
  countIndexedBlocks : Option ℕ

/-- **`collect_status_from`**: a query that failed reads as nothing. -/
def collectStatusFrom (networkId : String) (finalizedHead : Option ℕ) (pool : Option Readings) :
    IndexerStatus :=
  let (indexerHead, cursorAge, backfillDone) :=
    match pool with
    | some pool =>
      (pool.loadCursor.join, pool.cursorAgeSeconds.join, pool.countIndexedBlocks.getD 0)
    | none => (none, none, 0)
  let backfillTotal := (finalizedHead.map fun h => satAddU64 h 1).getD 0
  computeStatus networkId finalizedHead indexerHead cursorAge backfillDone backfillTotal

end Health

/-- The answers of a database whose cursor row, if it has one, was updated
`age` seconds ago. -/
def Db.readings (db : Db) (age : ℤ) : Health.Readings where
  loadCursor := some (Sink.loadCursor db.indexerCursor)
  cursorAgeSeconds := some (db.indexerCursor.map fun _ => age)
  countIndexedBlocks := some db.blocks.rows.length

end AllfeatExplorer
