import AllfeatExplorer.Lib.Buckets
import AllfeatExplorer.Indexer.Model.Worker
import AllfeatExplorer.Data.Model.Domain

/-!
# The database reads

`queries::blocks`, `queries::extrinsics` and `queries::events`: the
`SELECT`s behind the block and extrinsic views, and the mapping of a row
to the value shown. The rows of a table come in the order of its key,
which is the `ORDER BY` of the reads of one block.
-/

namespace AllfeatExplorer

open Projections

/-! ## `queries::blocks` -/

namespace Queries

/-- `indexed_head`: `MAX(num)`. -/
def indexedHead (db : Db) : Option ℕ := db.blocks.keys.max?.map asU64

/-- `LEFT JOIN authors a ON a.id = b.author_id`. -/
def authorBytes (db : Db) (authorId : Option ℕ) : Option AccountId :=
  authorId.bind fun id => (db.authors.rows.find? fun r => r.2 = id).map Prod.fst

/-- `row_to_block`. -/
def rowToBlock (net : Network) (num : ℤ) (row : StoredBlock) (author : Option AccountId) :
    Block :=
  let (authorSs58, authorName) := net.authorLabels author
  { number := asU64 num
    hash := hexBytes row.hash.bytes
    parentHash := hexBytes row.parentHash.bytes
    stateRoot := hexBytes row.stateRoot.bytes
    extrinsicsRoot := hexBytes row.extrinsicsRoot.bytes
    timestampMs := row.timestampMs
    finalized := true
    extrinsicCount := (max row.extrinsicCount 0).toNat
    eventCount := (max row.eventCount 0).toNat
    author := authorSs58
    authorName := authorName
    refTime := (max row.refTime 0).toNat
    refTimePct := (max 0 (min row.refTimePct 100)).toNat
    proofSize := (max row.proofSize 0).toNat
    specVersion := (max row.specVersion 0).toNat
    sizeBytes := (max row.sizeBytes 0).toNat }

/-- `queries::blocks::block_by_number`. -/
def blockByNumber (net : Network) (db : Db) (num : ℕ) : Option Block :=
  (db.blocks.find (asI64 num)).map fun row =>
    rowToBlock net (asI64 num) row (authorBytes db row.authorId)

/-! ## `queries::events` -/

/-- The rows of a table keyed by `(block_num, idx)` that belong to a
block, by ascending `idx`. -/
def rowsOfBlock {ρ : Type} (t : Table (ℤ ×ₗ ℤ) ρ) (blockNum : ℤ) : List ((ℤ ×ₗ ℤ) × ρ) :=
  t.rows.filter fun r => (ofLex r.1).1 = blockNum

/-- The `EventRef` of a row. -/
def rowToEventRef (net : Network) (row : StoredEvent) : EventRef :=
  net.eventRef row.pallet row.variant row.dataScale

/-- `events_by_ext_idx_in_block`. -/
def eventsByExtIdxInBlock (net : Network) (db : Db) (blockNum : ℕ) : Buckets ℕ EventRef :=
  let rows := (rowsOfBlock db.events (asI64 blockNum)).filter fun r =>
    r.2.phaseKind = phaseApplyExtrinsic && r.2.phaseIdx.isSome
  Buckets.ofRows (fun r => (max (r.2.phaseIdx.getD 0) 0).toNat) (fun r => rowToEventRef net r.2)
    rows

/-- `events_for_extrinsic`. -/
def eventsForExtrinsic (net : Network) (db : Db) (blockNum extIdx : ℕ) : List EventRef :=
  ((rowsOfBlock db.events (asI64 blockNum)).filter fun r =>
    r.2.phaseKind = phaseApplyExtrinsic && r.2.phaseIdx = some (asI32 extIdx)).map fun r =>
      rowToEventRef net r.2

/-- `ORDER BY e.block_num DESC, e.idx ASC`. -/
def newestBlockFirst (a b : (ℤ ×ₗ ℤ) × StoredEvent) : Bool :=
  (ofLex b.1).1 < (ofLex a.1).1 ||
    ((ofLex a.1).1 = (ofLex b.1).1 && (ofLex a.1).2 ≤ (ofLex b.1).2)

/-- `events_for_pairs`: the join has a row for each pair it matches. -/
def eventsForPairs (net : Network) (db : Db) (pairs : List (ℕ × ℕ)) : Buckets (ℕ × ℕ) EventRef :=
  if pairs.isEmpty then .empty
  else
    let joined := db.events.rows.flatMap fun r =>
      (pairs.filter fun p =>
        (ofLex r.1).1 = asI64 p.1 && r.2.phaseIdx = some (asI32 p.2)).map fun _ => r
    let rows := (joined.filter fun r => r.2.phaseKind = phaseApplyExtrinsic).mergeSort
      newestBlockFirst
    Buckets.ofRows
      (fun r => ((max (ofLex r.1).1 0).toNat, (max (r.2.phaseIdx.getD 0) 0).toNat))
      (fun r => rowToEventRef net r.2) rows

/-! ## `queries::extrinsics` -/

/-- `s.parse::<u128>()` of a `NUMERIC`'s text. -/
def parseU128 (amount : ℕ) : Option ℕ := Decimal.readDec u128Max (Decimal.showDec amount)

/-- `row_to_extrinsic`: its events are filled in later. -/
def rowToExtrinsic (net : Network) (r : (ℤ ×ₗ ℤ) × StoredExtrinsic) : Extrinsic :=
  let block := (max (ofLex r.1).1 0).toNat
  let index := (max (ofLex r.1).2 0).toNat
  let row := r.2
  let signerSs58 := row.signer.map net.encodeSs58
  { id := extrinsicId block index
    blockNumber := block
    index := index
    hash := hexBytes row.hash.bytes
    module := row.pallet
    call := row.call
    signed := signerSs58.isSome
    signer := signerSs58
    args := net.decodeCallArgs row.pallet row.call row.argsScale
    result := if row.success then .success else .failed
    nonce := row.nonce.map asU32
    tip := (row.tip.bind parseU128).getD 0
    fee := (parseU128 row.fee).getD 0
    timestampMs := row.timestampMs
    events := [] }

/-- `if let Some(evs)`, the events are set. -/
def fillEvents (x : Extrinsic) (evs : Option (List EventRef)) : Extrinsic :=
  match evs with
  | some evs => x.setEvents evs
  | none => x

/-- The loop of `hydrate_events` over extrinsics of several blocks. -/
def hydrateByPair : Buckets (ℕ × ℕ) EventRef → List Extrinsic → List Extrinsic
  | _, [] => []
  | byPair, x :: xts =>
    fillEvents x (byPair.get (x.blockNumber, x.index)) ::
      hydrateByPair (byPair.remove (x.blockNumber, x.index)) xts

/-- **`hydrate_events`**: one scan where all extrinsics share a block,
else one join over their keys. -/
def hydrateEvents (net : Network) (db : Db) (xts : List Extrinsic) : List Extrinsic :=
  match xts with
  | [] => []
  | first :: _ =>
    if xts.all fun e => e.blockNumber = first.blockNumber then
      let byIdx := eventsByExtIdxInBlock net db first.blockNumber
      xts.map fun x => fillEvents x (byIdx.get x.index)
    else
      hydrateByPair (eventsForPairs net db (xts.map fun e => (e.blockNumber, e.index))) xts

/-- `queries::extrinsics::extrinsics_in_block`. -/
def extrinsicsInBlock (net : Network) (db : Db) (blockNum : ℕ) : List Extrinsic :=
  hydrateEvents net db ((rowsOfBlock db.extrinsics (asI64 blockNum)).map (rowToExtrinsic net))

/-- The tail of the reads of one extrinsic: the row, then its events. -/
def withEvents (net : Network) (db : Db) (r : (ℤ ×ₗ ℤ) × StoredExtrinsic) : Extrinsic :=
  let ext := rowToExtrinsic net r
  ext.setEvents (eventsForExtrinsic net db ext.blockNumber ext.index)

/-- `extrinsic_by_block_idx`. -/
def extrinsicByBlockIdx (net : Network) (db : Db) (blockNum idx : ℕ) : Option Extrinsic :=
  let key := toLex (asI64 blockNum, asI32 idx)
  (db.extrinsics.find key).map fun row => withEvents net db (key, row)

/-- `extrinsic_by_hash`: the newest row that has it. -/
def extrinsicByHash (net : Network) (db : Db) (hash : Bytes32) : Option Extrinsic :=
  (db.extrinsics.rows.reverse.find? fun r => r.2.hash = hash).map (withEvents net db)

/-- `ExtrinsicLookup`. -/
inductive ExtrinsicLookup where
  | blockIdx (block idx : ℕ)
  | hash (h : Bytes32)
deriving DecidableEq

/-- `parse_lookup`: a `block-index` id, else a hash. -/
def parseLookup (id : String) : Option ExtrinsicLookup :=
  match Decimal.splitOnce '-' id.toList with
  | some (b, i) =>
    match Decimal.readDec u64Max b, Decimal.readDec u32Max i with
    | some block, some idx => some (.blockIdx block idx)
    | _, _ => (decodeHex32 id).map .hash
  | none => (decodeHex32 id).map .hash

/-- The id of an extrinsic looks it up by its key. -/
theorem parseLookup_extrinsicId {b i : ℕ} (hb : b ≤ u64Max) (hi : i ≤ u32Max) :
    parseLookup (extrinsicId b i) = some (.blockIdx b i) := by
  have hblock : Decimal.readDec u64Max (Decimal.showDec b) = some b := Decimal.readDec_showDec hb
  have hindex : Decimal.readDec u32Max (Decimal.showDec i) = some i := Decimal.readDec_showDec hi
  simp only [parseLookup, splitOnce_extrinsicId, hblock, hindex]

end Queries

end AllfeatExplorer
