import AllfeatExplorer.Data.Model.Filters
import AllfeatExplorer.Data.Model.Pages
import AllfeatExplorer.Data.Model.Queries

/-!
# The database lists

The paged `SELECT`s: a `WHERE` over the keys below a bound, the newest
rows first, one row more than the page takes. That row is dropped again;
that it was there says there is a next page, and the last row kept is the
cursor to it.
-/

namespace AllfeatExplorer

open Projections

namespace Queries

/-! ## A page of a probe -/

/-- `truncate(count)` where there are more, and whether there were. -/
def trimProbe {α : Type*} (count : ℕ) (rows : List α) : List α × Bool :=
  if count < rows.length then (rows.take count, true) else (rows, false)

/-- The cursor of the next page: the last row's, where there is one. -/
def nextCursor {α : Type*} (hasMore : Bool) (cursorOf : α → String) (rows : List α) :
    Option String :=
  if hasMore then rows.getLast?.map cursorOf else none

/-- The smaller of the cursor and the caller's bound: both are
exclusive. -/
def tightest (cursor strictUpper : Option (ℕ × ℕ)) : Option (ℕ × ℕ) :=
  match cursor, strictUpper with
  | some c, some u => some (ofLex (min (toLex c) (toLex u)))
  | some c, none => some c
  | none, some u => some u
  | none, none => none

/-- `(block_num, idx) < ($block as i64, $idx as i32)`. -/
def belowUpper (upper : Option (ℕ × ℕ)) (key : ℤ ×ₗ ℤ) : Bool :=
  upper.all fun u => key < toLex (asI64 u.1, asI32 u.2)

/-! ## `list_blocks_page_bounded` -/

/-- **`list_blocks_page_bounded`.** -/
def listBlocksPageBounded (net : Network) (db : Db) (count : ℕ) (cursor upperBound : Option ℕ)
    (filters : BlockFilters) : Page Block :=
  if count = 0 then .empty
  else if filters.finalized = some false then .empty
  else
    let probeCount := satAddU32 count 1
    let numBound : Option ℤ :=
      match cursor, upperBound with
      | some c, some upper => some (asI64 (min upper (c - 1)))
      | some c, none => some (asI64 (c - 1))
      | none, some upper => some (asI64 upper)
      | none, none => none
    let rows := ((db.blocks.rows.filter fun r =>
      (numBound.all fun bound => decide (r.1 ≤ bound)) &&
      (filters.minExtrinsics.all fun min => decide (asI32 min ≤ r.2.extrinsicCount))).reverse).take
        probeCount
    -- `rows_to_page`.
    let (rows, hasMore) := trimProbe count rows
    { items := rows.map fun r => rowToBlock net r.1 r.2 (authorBytes db r.2.authorId)
      pageInfo :=
        { total := none
          nextCursor := nextCursor hasMore (fun r => blockCursor.toText (max r.1 0).toNat) rows
          hasMore := hasMore } }

/-! ## `list_extrinsics_page_bounded` -/

/-- The filters of its `WHERE` clause. -/
def extrinsicAdmitted (filters : ExtrinsicFilters) (r : (ℤ ×ₗ ℤ) × StoredExtrinsic) : Bool :=
  let hideTimestampInherent :=
    filters.signed ≠ some false && filters.pallet ≠ some "Timestamp"
  (!hideTimestampInherent || !((ofLex r.1).2 = 0 && r.2.signer.isNone)) &&
  (filters.signed.all fun signed => if signed then r.2.signer.isSome else r.2.signer.isNone) &&
  (filters.pallet.all fun pallet => r.2.pallet = pallet) &&
  (filters.call.all fun call => r.2.call = call) &&
  (filters.status.all fun status => r.2.success = decide (status = .success))

/-- **`list_extrinsics_page_bounded`.** -/
def listExtrinsicsPageBounded (net : Network) (db : Db) (strictUpper : Option (ℕ × ℕ))
    (filters : ExtrinsicFilters) (req : PageRequest) : Except BadRequest (Page Extrinsic) :=
  if req.count = 0 then .ok .empty
  else do
    let cursor ← parseCursor extrinsicCursor req
    let upper := tightest cursor strictUpper
    let rows := ((db.extrinsics.rows.filter fun r =>
      extrinsicAdmitted filters r && belowUpper upper r.1).reverse).take (req.count + 1)
    let (items, hasMore) := trimProbe req.count (rows.map (rowToExtrinsic net))
    let items := hydrateEvents net db items
    pure
      { items := items
        pageInfo :=
          { total := none
            nextCursor :=
              nextCursor hasMore (fun e => extrinsicCursor.toText (e.blockNumber, e.index)) items
            hasMore := hasMore } }

/-! ## `list_transfers_page_bounded` -/

/-- A movement joined with its event and the extrinsic the event came
from. -/
structure TransferRow where
  blockNum : ℤ
  eventIdx : ℤ
  account : AccountId
  counterparty : Option AccountId
  delta : ℤ
  phaseIdx : Option ℤ
  extrinsic : StoredExtrinsic

/-- `JOIN events e … JOIN extrinsics x … ON x.idx = e.phase_idx`. -/
def joinMovement (db : Db) (m : (ℤ ×ₗ ℤ ×ₗ AccountId) × StoredMovement) : Option TransferRow := do
  let blockNum := (ofLex m.1).1
  let eventIdx := (ofLex (ofLex m.1).2).1
  let event ← db.events.find (toLex (blockNum, eventIdx))
  let phaseIdx ← event.phaseIdx
  let extrinsic ← db.extrinsics.find (toLex (blockNum, phaseIdx))
  pure
    { blockNum := blockNum
      eventIdx := eventIdx
      account := (ofLex (ofLex m.1).2).2
      counterparty := m.2.counterparty
      delta := m.2.delta
      phaseIdx := event.phaseIdx
      extrinsic := extrinsic }

/-- `delta_text.parse::<i128>()` of a `NUMERIC(39)`'s text. -/
def parseI128 (delta : ℤ) : Option ℤ :=
  if -170141183460469231731687303715884105728 ≤ delta ∧
      delta ≤ 170141183460469231731687303715884105727 then some delta
  else none

/-- `row_to_transfer`. A row that has no counterparty, or a delta that is
no `i128`, is dropped. -/
def rowToTransfer (net : Network) (row : TransferRow) : Option Transfer := do
  let phaseIdx ← row.phaseIdx
  let account := net.encodeSs58 row.account
  let counterparty ← row.counterparty.map net.encodeSs58
  let delta ← parseI128 row.delta
  pure
    { extrinsic := rowToExtrinsic net (toLex (row.blockNum, phaseIdx), row.extrinsic)
      fromAddr := if delta < 0 then account else counterparty
      toAddr := if delta < 0 then counterparty else account
      amount := delta.natAbs }

/-- Its `WHERE` clause: the debit side of a transfer below the bound, and
the two accounts where they are given. -/
def transferAdmitted (fromBytes toBytes : Option AccountId) (upper : Option (ℕ × ℕ))
    (m : (ℤ ×ₗ ℤ ×ₗ AccountId) × StoredMovement) : Bool :=
  m.2.kind = MovementKind.transfer.asI16 && m.2.delta < 0 &&
  belowUpper upper (toLex ((ofLex m.1).1, (ofLex (ofLex m.1).2).1)) &&
  (fromBytes.all fun bytes => (ofLex (ofLex m.1).2).2 = bytes) &&
  (toBytes.all fun bytes => m.2.counterparty = some bytes)

/-- A row converted, with the `(block, event_idx)` its cursor is made of. -/
def probeTransfer (net : Network) (row : TransferRow) : Option (Transfer × ℕ × ℕ) :=
  (rowToTransfer net row).map fun t => (t, (max row.blockNum 0).toNat, (max row.eventIdx 0).toNat)

/-- **`probed`**: the first `limit` rows, those that convert. Two debits of
one event come in no order that the statement fixes. -/
def probeTransfers (net : Network) (db : Db) (fromBytes toBytes : Option AccountId)
    (upper : Option (ℕ × ℕ)) (limit : ℕ) : List (Transfer × ℕ × ℕ) :=
  let admitted := db.balanceMovements.rows.filter (transferAdmitted fromBytes toBytes upper)
  (((admitted.filterMap (joinMovement db)).reverse).take limit).filterMap (probeTransfer net)

/-- `parse_ss58_filter`, of a field that may be absent. -/
def parseSs58Filter (parseSs58 : String → Option AccountId) (field : String) :
    Option String → Except BadRequest (Option AccountId)
  | none => .ok none
  | some value =>
    match parseSs58 value with
    | some bytes => .ok (some bytes)
    | none => .error (.ss58 field value)

/-- **`list_transfers_page_bounded`**, as far as its last step: the items
still have the keys next to them. `AccountId32::from_str` is
`parseSs58`. -/
def listProbedTransfers (net : Network) (parseSs58 : String → Option AccountId) (db : Db)
    (strictUpper : Option (ℕ × ℕ)) (filters : TransferFilters) (req : PageRequest) :
    Except BadRequest (Page (Transfer × ℕ × ℕ)) :=
  if req.count = 0 then .ok .empty
  else do
    let cursor ← parseCursor transferCursor req
    let upper := tightest cursor strictUpper
    let fromBytes ← parseSs58Filter parseSs58 "from" filters.fromAddr
    let toBytes ← parseSs58Filter parseSs58 "to" filters.toAddr
    let (probed, hasMore) := trimProbe req.count
      (probeTransfers net db fromBytes toBytes upper (req.count + 1))
    pure
      { items := probed
        pageInfo :=
          { total := none
            nextCursor := nextCursor hasMore (fun p => transferCursor.toText p.2) probed
            hasMore := hasMore } }

/-- **`list_transfers_page_bounded`**: the keys are dropped. -/
def listTransfersPageBounded (net : Network) (parseSs58 : String → Option AccountId) (db : Db)
    (strictUpper : Option (ℕ × ℕ)) (filters : TransferFilters) (req : PageRequest) :
    Except BadRequest (Page Transfer) := do
  let page ← listProbedTransfers net parseSs58 db strictUpper filters req
  pure { items := page.items.map Prod.fst, pageInfo := page.pageInfo }

/-! ## `list_ats_page` -/

/-- `SELECT r.id, r.owner, r.created_block, r.version_count,
COALESCE(b.timestamp_ms, 0)`. -/
structure RegistryRow where
  id : ℤ
  owner : AccountId
  createdBlock : ℤ
  versionCount : ℤ
  createdTimestampMs : ℤ

/-- `LEFT JOIN blocks b ON b.num = r.created_block`. -/
def registryRow (db : Db) (r : ℤ × AtsRegistryEntry) : RegistryRow :=
  { id := r.1
    owner := r.2.owner
    createdBlock := r.2.createdBlock
    versionCount := r.2.versionCount
    createdTimestampMs := ((db.blocks.find r.2.createdBlock).map StoredBlock.timestampMs).getD 0 }

/-- `row_to_version`, of a row joined with its block and extrinsic. -/
def rowToVersion (net : Network) (db : Db) (v : (ℤ ×ₗ ℤ) × AtsVersionEntry) : AtsVersion :=
  let blockNumber := (max v.2.blockNum 0).toNat
  let extrinsicIndex := (max v.2.extIdx 0).toNat
  let extrinsic := db.extrinsics.find (toLex (v.2.blockNum, v.2.extIdx))
  { versionIndex := (max (ofLex v.1).2 0).toNat
    commitment := hexBytes v.2.commitment.bytes
    protocolVersion := (max v.2.protocolVersion 0).toNat % 256
    createdAtMs := ((db.blocks.find v.2.blockNum).map StoredBlock.timestampMs).getD 0
    blockNumber := blockNumber
    extrinsicIndex := extrinsicIndex
    extrinsicId := extrinsicId blockNumber extrinsicIndex
    fee := (extrinsic.bind fun x => parseU128 x.fee).getD 0
    signer := ((extrinsic.bind StoredExtrinsic.signer).map net.encodeSs58).getD "" }

/-- `ats_id_u32` of a column. -/
def rowAtsId (id : ℤ) : ℕ := atsIdU32 (max id 0).toNat

/-- `registry_to_record`: one deposit, attributed to the owner. -/
def registryToRecord (net : Network) (reg : RegistryRow) (versions : List AtsVersion) :
    AtsRecord :=
  let versionCount := (max reg.versionCount 0).toNat
  let totalDeposit := min (versionCount * versionDeposit) u128Max
  { atsId := rowAtsId reg.id
    owner := net.encodeSs58 reg.owner
    createdAtMs := reg.createdTimestampMs
    createdAtBlock := (max reg.createdBlock 0).toNat
    versionCount := versionCount
    deposits := if versionCount > 0 then [⟨net.encodeSs58 reg.owner, totalDeposit⟩] else []
    totalDeposit := totalDeposit
    versions := versions }

/-- The loop of `hydrate_records` over the records. -/
def hydrateById (net : Network) : Buckets ℤ AtsVersion → List RegistryRow → List AtsRecord
  | _, [] => []
  | byId, reg :: regs =>
    registryToRecord net reg ((byId.get reg.id).getD []) ::
      hydrateById net (byId.remove reg.id) regs

/-- `hydrate_records`: the versions of all the records in one scan. -/
def hydrateRecords (net : Network) (db : Db) (regs : List RegistryRow) : List AtsRecord :=
  if regs.isEmpty then []
  else
    let ids := regs.map RegistryRow.id
    let rows := db.ats.children.rows.filter fun v => decide ((ofLex v.1).1 ∈ ids)
    hydrateById net (Buckets.ofRows (fun v => (ofLex v.1).1) (rowToVersion net db) rows) regs

/-- `registry_total`. -/
def registryTotal (db : Db) : ℕ := db.ats.parents.rows.length

/-- **`list_ats_page`.** -/
def listAtsPage (net : Network) (db : Db) (req : PageRequest) :
    Except BadRequest (Page AtsRecord) :=
  if req.count = 0 then .ok .empty
  else do
    let cursor ← parseCursor atsCursor req
    let rows := ((db.ats.parents.rows.filter fun r =>
      cursor.all fun id => decide (r.1 < asI64 id)).reverse).take (req.count + 1)
    let (truncated, hasMore) := trimProbe req.count (rows.map (registryRow db))
    pure
      { items := hydrateRecords net db truncated
        pageInfo :=
          { total := some (registryTotal db)
            nextCursor := nextCursor hasMore (fun r => atsCursor.toText (rowAtsId r.id)) truncated
            hasMore := hasMore } }

/-! ## `list_ats_feed_page` -/

/-- A version joined with its record, its block and its extrinsic. -/
structure FeedRow where
  atsId : ℤ
  owner : AccountId
  versionCount : ℤ
  version : ℤ
  commitment : Bytes32
  protocolVersion : ℤ
  blockNum : ℤ
  extIdx : ℤ
  timestampMs : Option ℤ
  signer : Option AccountId

/-- `JOIN ats_registry r … LEFT JOIN blocks b … LEFT JOIN extrinsics x`. -/
def feedRow (db : Db) (v : (ℤ ×ₗ ℤ) × AtsVersionEntry) : Option FeedRow :=
  (db.ats.parents.find (ofLex v.1).1).map fun r =>
    { atsId := (ofLex v.1).1
      owner := r.owner
      versionCount := r.versionCount
      version := (ofLex v.1).2
      commitment := v.2.commitment
      protocolVersion := v.2.protocolVersion
      blockNum := v.2.blockNum
      extIdx := v.2.extIdx
      timestampMs := (db.blocks.find v.2.blockNum).map StoredBlock.timestampMs
      signer := (db.extrinsics.find (toLex (v.2.blockNum, v.2.extIdx))).bind
        StoredExtrinsic.signer }

/-- `(v.block_num, v.ats_id, v.version)`. -/
def FeedRow.key (r : FeedRow) : ℤ ×ₗ ℤ ×ₗ ℤ := toLex (r.blockNum, toLex (r.atsId, r.version))

/-- `feed_row_to_item`. -/
def feedRowToItem (net : Network) (row : FeedRow) : AtsFeedItem :=
  let owner := net.encodeSs58 row.owner
  let blockNumber := (max row.blockNum 0).toNat
  let versionCount := (max row.versionCount 0).toNat
  let versionIndex := (max row.version 0).toNat
  { atsId := rowAtsId row.atsId
    owner := owner
    versionIndex := versionIndex
    isInitial := versionIndex = 0
    isLatest := versionIndex + 1 = versionCount
    versionCount := versionCount
    commitment := hexBytes row.commitment.bytes
    protocolVersion := (max row.protocolVersion 0).toNat % 256
    blockNumber := blockNumber
    extrinsicId := extrinsicId blockNumber (max row.extIdx 0).toNat
    timestampMs := row.timestampMs.getD 0
    signer := (row.signer.map net.encodeSs58).getD owner }

/-- `version_total`. -/
def versionTotal (db : Db) : ℕ :=
  (max ((db.ats.parents.rows.map fun r : ℤ × AtsRegistryEntry => r.2.versionCount).sum) 0).toNat

/-- **`list_ats_feed_page`.** -/
def listAtsFeedPage (net : Network) (db : Db) (req : PageRequest) :
    Except BadRequest (Page AtsFeedItem) :=
  if req.count = 0 then .ok .empty
  else do
    let cursor ← parseCursor atsFeedCursor req
    let rows := (((db.ats.children.rows.filterMap (feedRow db)).filter fun r =>
      cursor.all fun c => decide (r.key < toLex (asI64 c.1, toLex ((c.2.1 : ℤ), asI32 c.2.2)))
        ).mergeSort fun a b => decide (b.key ≤ a.key)).take (req.count + 1)
    let (probed, hasMore) := trimProbe req.count (rows.map (feedRowToItem net))
    pure
      { items := probed
        pageInfo :=
          { total := some (versionTotal db)
            nextCursor := nextCursor hasMore
              (fun item => atsFeedCursor.toText (item.blockNumber, item.atsId, item.versionIndex))
              probed
            hasMore := hasMore } }

end Queries

end AllfeatExplorer
