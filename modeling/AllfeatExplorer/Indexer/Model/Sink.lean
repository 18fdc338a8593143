import AllfeatExplorer.Lib.Linked
import AllfeatExplorer.Lib.Batch
import AllfeatExplorer.Indexer.Model.Projections

/-!
# The sink

The tables of one network and the statements that write them. A sink
function takes the tables its statement reads or writes and returns them
written, or the error Postgres gives; the transaction around it is the
caller's.

Every row of a deployment carries its network's id and every statement
binds it, so one network's rows are a database of their own.
-/

namespace AllfeatExplorer

open Projections

/-! ## The rows -/

/-- A row of `blocks`, under `num`. -/
structure StoredBlock where
  hash : Bytes32
  parentHash : Bytes32
  stateRoot : Bytes32
  extrinsicsRoot : Bytes32
  authorId : Option ℕ
  timestampMs : ℤ
  specVersion : ℤ
  extrinsicCount : ℤ
  eventCount : ℤ
  refTime : ℤ
  proofSize : ℤ
  refTimePct : ℤ
  sizeBytes : ℤ
deriving DecidableEq

/-- A row of `extrinsics`, under `(block_num, idx)`. -/
structure StoredExtrinsic where
  hash : Bytes32
  pallet : String
  call : String
  signer : Option AccountId
  tip : Option ℕ
  fee : ℕ
  nonce : Option ℤ
  success : Bool
  argsScale : List Byte
  timestampMs : ℤ
deriving DecidableEq

/-- A row of `events`, under `(block_num, idx)`. -/
structure StoredEvent where
  phaseKind : ℤ
  phaseIdx : Option ℤ
  pallet : String
  variant : String
  dataScale : List Byte
  timestampMs : ℤ
deriving DecidableEq

/-- A row of `balance_movements`, under `(block_num, event_idx, account)`. -/
structure StoredMovement where
  kind : ℤ
  delta : ℤ
  counterparty : Option AccountId
deriving DecidableEq

/-- A row of `account_balances`, under `account`. -/
structure AccountBalance where
  free : ℕ
  reserved : ℕ
  frozen : ℕ
  nonce : ℤ
  firstSeenBlock : ℤ
  lastActivityBlock : ℤ
  firstSeenMs : ℤ
  lastActivityMs : ℤ
deriving DecidableEq

/-- A row of `ats_registry`, under `id`. -/
structure AtsRegistryEntry where
  owner : AccountId
  createdBlock : ℤ
  createdExtIdx : ℤ
  versionCount : ℤ
deriving DecidableEq

/-- A row of `ats_versions`, under `(ats_id, version)`. -/
structure AtsVersionEntry where
  blockNum : ℤ
  extIdx : ℤ
  commitment : Bytes32
  protocolVersion : ℤ
deriving DecidableEq

/-- **`ats_registry` and `ats_versions`**, under the foreign key from a
version to its registry row. -/
abbrev AtsTables :=
  Linked (fun k : ℤ ×ₗ ℤ => (ofLex k).1) AtsRegistryEntry AtsVersionEntry

/-- `account_balances`. -/
abbrev AccountTable := Table AccountId AccountBalance

/-! ## Errors -/

/-- What Postgres answers a statement it does not carry out. -/
inductive PgError where
  /-- The connection, or the server, gave up on it. -/
  | fault
  /-- `blocks_hash_idx`: another number has the hash. -/
  | blocksHash
  /-- `blocks.author_id` names no author. -/
  | blocksAuthor
  /-- A row's block is not there. -/
  | blockMissing
  /-- `ats_versions`: a version whose registry row is not there. -/
  | atsMissing
  /-- `ON CONFLICT DO UPDATE` offered one key twice in a statement. -/
  | rowTwice
deriving DecidableEq

/-- Where an error was raised, as the error's text names it. -/
inductive Site where
  | node | authorsResolve | insertBlock | insertExtrinsics | insertEvents
  | insertBalanceMovements | applyAccountSnapshots | insertAtsVersion | bumpCursor | commitTx
deriving DecidableEq

/-- `DataError::Rpc`: the site and the cause its text is put together
from. -/
structure DataError where
  site : Site
  cause : PgError
deriving DecidableEq

/-! ## `sink` -/

namespace Sink

/-- `MAX_BINDS_PER_QUERY`. -/
def maxBindsPerQuery : ℕ := 65000

/-- The row `insert_block` binds. -/
def blockRow (row : BlockRow) (authorId : Option ℕ) : StoredBlock :=
  { hash := row.hash
    parentHash := row.parentHash
    stateRoot := row.stateRoot
    extrinsicsRoot := row.extrinsicsRoot
    authorId := authorId
    timestampMs := row.timestampMs
    specVersion := asI32 row.specVersion
    extrinsicCount := asI32 row.extrinsicCount
    eventCount := asI32 row.eventCount
    refTime := asI64 row.refTime
    proofSize := asI64 row.proofSize
    refTimePct := row.refTimePct
    sizeBytes := asI32 row.sizeBytes }

/-- `insert_block`: the flag says whether the row is new. -/
def insertBlock (blocks : Table ℤ StoredBlock) (authorIds : List ℕ) (row : BlockRow)
    (authorId : Option ℕ) : Except DataError (Table ℤ StoredBlock × Bool) :=
  let num := asI64 row.num
  if blocks.contains num then .ok (blocks, false)
  else if blocks.rows.any fun r => r.2.hash = row.hash then .error ⟨.insertBlock, .blocksHash⟩
  else if authorId.any fun id => id ∉ authorIds then .error ⟨.insertBlock, .blocksAuthor⟩
  else .ok (blocks.insertNew num (blockRow row authorId), true)

/-- The multi-row `INSERT … ON CONFLICT DO NOTHING` of a table that
references `blocks`, `cols` binds a row: a row that would land needs its
block. -/
def insertOfBlock {κ ρ : Type*} [LinearOrder κ] (site : Site) (cols : ℕ)
    (blocks : Table ℤ StoredBlock) (ref : κ → ℤ) (t : Table κ ρ) (rows : List (κ × ρ)) :
    Except DataError (Table κ ρ) :=
  inBatches (maxBindsPerQuery / cols) (fun t chunk =>
    if chunk.all fun r => t.contains r.1 || blocks.contains (ref r.1) then
      .ok (t.insertAll chunk)
    else .error ⟨site, .blockMissing⟩) t rows

/-- The row `insert_extrinsics` binds, with its key. -/
def extrinsicRow (blockTimestampMs : ℤ) (row : ExtrinsicRow) : (ℤ ×ₗ ℤ) × StoredExtrinsic :=
  (toLex (asI64 row.blockNum, asI32 row.idx),
    { hash := row.hash
      pallet := row.pallet
      call := row.call
      signer := row.signer
      tip := row.tip
      fee := row.fee
      nonce := row.nonce.map asI64
      success := row.success
      argsScale := row.argsScale
      timestampMs := blockTimestampMs })

/-- `insert_extrinsics`. -/
def insertExtrinsics (blocks : Table ℤ StoredBlock) (t : Table (ℤ ×ₗ ℤ) StoredExtrinsic)
    (blockTimestampMs : ℤ) (rows : List ExtrinsicRow) :
    Except DataError (Table (ℤ ×ₗ ℤ) StoredExtrinsic) :=
  insertOfBlock .insertExtrinsics 13 blocks (fun k => (ofLex k).1) t
    (rows.map (extrinsicRow blockTimestampMs))

/-- The row `insert_events` binds, with its key. -/
def eventRow (blockTimestampMs : ℤ) (row : EventRow) : (ℤ ×ₗ ℤ) × StoredEvent :=
  (toLex (asI64 row.blockNum, asI32 row.idx),
    { phaseKind := row.phaseKind
      phaseIdx := row.phaseIdx.map asI32
      pallet := row.pallet
      variant := row.variant
      dataScale := row.dataScale
      timestampMs := blockTimestampMs })

/-- `insert_events`. -/
def insertEvents (blocks : Table ℤ StoredBlock) (t : Table (ℤ ×ₗ ℤ) StoredEvent)
    (blockTimestampMs : ℤ) (rows : List EventRow) :
    Except DataError (Table (ℤ ×ₗ ℤ) StoredEvent) :=
  insertOfBlock .insertEvents 9 blocks (fun k => (ofLex k).1) t
    (rows.map (eventRow blockTimestampMs))

/-- `insert_balance_movements`. -/
def insertBalanceMovements (blocks : Table ℤ StoredBlock)
    (t : Table (ℤ ×ₗ ℤ ×ₗ AccountId) StoredMovement) (rows : List BalanceMovementRow) :
    Except DataError (Table (ℤ ×ₗ ℤ ×ₗ AccountId) StoredMovement) :=
  insertOfBlock .insertBalanceMovements 7 blocks (fun k => (ofLex k).1) t <|
    rows.map fun row =>
      (toLex (asI64 row.blockNum, toLex (asI32 row.eventIdx, row.account)),
        { kind := row.kind.asI16
          delta := row.delta
          counterparty := row.counterparty })

/-- The row `apply_account_snapshots` offers for one account. -/
def snapshotRow (blockNum : ℕ) (blockTimestampMs : ℤ) (snap : AccountSnapshot) :
    AccountBalance :=
  { free := snap.free
    reserved := snap.reserved
    frozen := snap.frozen
    nonce := snap.nonce
    firstSeenBlock := asI64 blockNum
    lastActivityBlock := asI64 blockNum
    firstSeenMs := blockTimestampMs
    lastActivityMs := blockTimestampMs }

/-- Its `ON CONFLICT … DO UPDATE SET`. -/
def mergeSnapshot (excluded old : AccountBalance) : AccountBalance :=
  { free :=
      if excluded.lastActivityBlock ≥ old.lastActivityBlock then excluded.free else old.free
    reserved :=
      if excluded.lastActivityBlock ≥ old.lastActivityBlock then excluded.reserved
      else old.reserved
    frozen :=
      if excluded.lastActivityBlock ≥ old.lastActivityBlock then excluded.frozen
      else old.frozen
    nonce := max old.nonce excluded.nonce
    firstSeenBlock := min old.firstSeenBlock excluded.firstSeenBlock
    lastActivityBlock := max old.lastActivityBlock excluded.lastActivityBlock
    firstSeenMs := min old.firstSeenMs excluded.firstSeenMs
    lastActivityMs := max old.lastActivityMs excluded.lastActivityMs }

/-- One account's upsert. -/
def upsertSnapshot (blockNum : ℕ) (blockTimestampMs : ℤ) (t : AccountTable)
    (s : AccountId × AccountSnapshot) : AccountTable :=
  let row := snapshotRow blockNum blockTimestampMs s.2
  t.upsert s.1 row (mergeSnapshot row)

/-- `apply_account_snapshots`: a statement takes 6500 rows, and an
account twice in one statement is refused. -/
def applyAccountSnapshots (t : AccountTable) (blockNum : ℕ) (blockTimestampMs : ℤ)
    (snapshots : List (AccountId × AccountSnapshot)) : Except DataError AccountTable :=
  inBatches (maxBindsPerQuery / 10) (fun t chunk =>
    if (chunk.map Prod.fst).Nodup then
      .ok (chunk.foldl (upsertSnapshot blockNum blockTimestampMs) t)
    else .error ⟨.applyAccountSnapshots, .rowTwice⟩) t snapshots

/-- The row `apply_ats` inserts into `ats_registry`. -/
def registryRow (row : AtsRegistryRow) : ℤ × AtsRegistryEntry :=
  (asI64 row.id.toNat,
    { owner := row.owner
      createdBlock := asI64 row.createdBlock
      createdExtIdx := asI32 row.createdExtIdx
      versionCount := asI32 row.versionCount })

/-- The row `apply_ats` inserts into `ats_versions`. -/
def versionRow (row : AtsVersionRow) : (ℤ ×ₗ ℤ) × AtsVersionEntry :=
  (toLex (asI64 row.atsId.toNat, asI32 row.version.toNat),
    { blockNum := asI64 row.blockNum
      extIdx := asI32 row.extIdx
      commitment := row.commitment
      protocolVersion := row.protocolVersion })

/-- `UPDATE ats_registry SET version_count = GREATEST(…)`. -/
def bumpVersionCount (t : AtsTables) (bump : AtsVersionCountBump) : AtsTables :=
  t.updateParent (asI64 bump.atsId.toNat) fun row =>
    { row with versionCount := max row.versionCount (asI32 bump.versionCount) }

/-- `DELETE FROM ats_registry`, and by cascade from `ats_versions`. -/
def revokeAts (t : AtsTables) (id : UInt64) : AtsTables :=
  t.deleteParent (asI64 id.toNat)

/-- **`apply_ats`**: registry inserts, version inserts, bumps, revokes. -/
def applyAts (t : AtsTables) (ops : AtsOps) : Except DataError AtsTables :=
  match (t.insertParents (ops.registryInserts.map registryRow)).insertChildren
      (ops.versionInserts.map versionRow) with
  | none => .error ⟨.insertAtsVersion, .atsMissing⟩
  | some t =>
    let t := ops.versionCountBumps.foldl bumpVersionCount t
    .ok (ops.revocations.foldl revokeAts t)

/-- `bump_cursor` on the cursor row: a lower value is ignored. -/
def bumpCursor (cursor : Option ℤ) (last : ℕ) : Option ℤ :=
  match cursor with
  | none => some (asI64 last)
  | some stored => if stored < asI64 last then some (asI64 last) else some stored

/-- `load_cursor`. -/
def loadCursor (cursor : Option ℤ) : Option ℕ :=
  cursor.map asU64

end Sink

end AllfeatExplorer
