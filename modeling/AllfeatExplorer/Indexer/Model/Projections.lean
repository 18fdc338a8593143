import AllfeatExplorer.Common.Machine
import AllfeatExplorer.Common.Chain

/-!
# The projections

The pure half of indexing: what rows one block turns into. Nothing here
touches the database; the sink writes what these return.

The two columns the schema dropped, `error_module` and `error_name`, are
not carried: nothing reads them after the projection.
-/

namespace AllfeatExplorer

namespace Projections

/-! ## `projections::blocks` -/

/-- `BlockRow`: one row for `blocks`. -/
structure BlockRow where
  num : ℕ
  hash : Bytes32
  parentHash : Bytes32
  stateRoot : Bytes32
  extrinsicsRoot : Bytes32
  author : Option AccountId
  timestampMs : ℤ
  specVersion : ℕ
  extrinsicCount : ℕ
  eventCount : ℕ
  refTime : ℕ
  proofSize : ℕ
  refTimePct : ℕ
  sizeBytes : ℕ
deriving DecidableEq

/-- `fetch_timestamp`: genesis has no `Timestamp::Now` and reads as 0. -/
def fetchTimestamp (blk : NodeBlock) : ℤ :=
  match blk.now with
  | none => 0
  | some now => asI64 now

/-- `fetch_extrinsics_summary`: how many extrinsics, and their bytes. -/
def fetchExtrinsicsSummary (blk : NodeBlock) : ℕ × ℕ :=
  (blk.extrinsics.length, (blk.extrinsics.map NodeExtrinsic.byteLength).sum)

/-- `blocks::map`. -/
def Blocks.map (blk : NodeBlock) (blockNum : ℕ) : BlockRow :=
  let (extrinsicCount, sizeExtrinsics) := fetchExtrinsicsSummary blk
  { num := blockNum
    hash := blk.hash
    parentHash := blk.parentHash
    stateRoot := blk.stateRoot
    extrinsicsRoot := blk.extrinsicsRoot
    author := blk.author
    timestampMs := fetchTimestamp blk
    specVersion := blk.specVersion
    extrinsicCount := extrinsicCount
    eventCount := blk.events.length
    refTime := blk.refTime
    proofSize := blk.proofSize
    refTimePct := blk.refTimePct
    sizeBytes := wrapU32 (blk.headerSize + sizeExtrinsics) }

/-! ## `projections::extrinsics` -/

/-- `ExtrinsicRow`: one row for `extrinsics`. -/
structure ExtrinsicRow where
  blockNum : ℕ
  idx : ℕ
  hash : Bytes32
  pallet : String
  call : String
  signer : Option AccountId
  tip : Option ℕ
  fee : ℕ
  nonce : Option ℕ
  success : Bool
  argsScale : List Byte
deriving DecidableEq

/-- `index_events_by_phase`, read at one extrinsic: the events applying
it deposited. -/
def eventsOfExtrinsic (events : List NodeEvent) (idx : ℕ) : List NodeEvent :=
  events.filter fun evt => evt.phase = .applyExtrinsic idx

/-- `decode_signer_bytes`: only the `Id` variant is an account. -/
def decodeSignerBytes (addr : Option MultiAddress) : Option AccountId :=
  match addr with
  | some (.id account) => some account
  | _ => none

/-- The loop of `resolve_outcome`, at one event. -/
def resolveEvent (st : Bool × ℕ) (evt : NodeEvent) : Bool × ℕ :=
  let (success, fee) := st
  match evt.body with
  | .extrinsicFailed => (false, fee)
  | .transactionFeePaid _ actualFee => (success, actualFee)
  | _ => (success, fee)

/-- `resolve_outcome`: whether the extrinsic succeeded, and its fee. The
last `TransactionFeePaid` counts. -/
def resolveOutcome (evts : List NodeEvent) : Bool × ℕ :=
  evts.foldl resolveEvent (true, 0)

/-- One turn of `extrinsics::map`: the row of the extrinsic at `idx`. -/
def Extrinsics.mapOne (blk : NodeBlock) (blockNum idx : ℕ) (ext : NodeExtrinsic) :
    ExtrinsicRow :=
  let (success, fee) := resolveOutcome (eventsOfExtrinsic blk.events idx)
  { blockNum := blockNum
    idx := idx
    hash := ext.hash
    pallet := ext.palletName
    call := ext.callName
    signer := decodeSignerBytes ext.address
    tip := ext.tip
    fee := fee
    nonce := ext.nonce
    success := success
    argsScale := ext.callData }

/-- `extrinsics::map`. -/
def Extrinsics.map (blk : NodeBlock) (blockNum : ℕ) : List ExtrinsicRow :=
  blk.extrinsics.mapIdx (Extrinsics.mapOne blk blockNum)

/-! ## `projections::events` -/

/-- `PHASE_APPLY_EXTRINSIC`. -/
def phaseApplyExtrinsic : ℤ := 0

/-- `PHASE_FINALIZATION`. -/
def phaseFinalization : ℤ := 1

/-- `PHASE_INITIALIZATION`. -/
def phaseInitialization : ℤ := 2

/-- `EventRow`: one row for `events`. -/
structure EventRow where
  blockNum : ℕ
  idx : ℕ
  phaseKind : ℤ
  phaseIdx : Option ℕ
  pallet : String
  variant : String
  dataScale : List Byte
deriving DecidableEq

/-- `encode_phase`. -/
def encodePhase : Phase → ℤ × Option ℕ
  | .applyExtrinsic i => (phaseApplyExtrinsic, some i)
  | .finalization => (phaseFinalization, none)
  | .initialization => (phaseInitialization, none)

/-- One turn of `events::map`: the row of the event at `idx`. -/
def Events.mapOne (blockNum idx : ℕ) (evt : NodeEvent) : EventRow :=
  let (phaseKind, phaseIdx) := encodePhase evt.phase
  { blockNum := blockNum
    idx := idx
    phaseKind := phaseKind
    phaseIdx := phaseIdx
    pallet := evt.body.palletName
    variant := evt.body.eventName
    dataScale := evt.fieldBytes }

/-- `events::map`. -/
def Events.map (blk : NodeBlock) (blockNum : ℕ) : List EventRow :=
  blk.events.mapIdx (Events.mapOne blockNum)

/-! ## `projections::balances` -/

/-- `MovementKind`. -/
inductive MovementKind where
  | transfer | deposit | withdraw | fee | slash | reserve | unreserve | reserveRepatriated
  | burn | minted | frozen | thawed | locked | unlocked | held | released | burnedHeld
  | transferAndHold | transferOnHold | endowed | dustLost | restored | suspended
deriving DecidableEq

/-- `as_i16`: the discriminant in `balance_movements.kind`. -/
def MovementKind.asI16 : MovementKind → ℤ
  | transfer => 0
  | deposit => 1
  | withdraw => 2
  | fee => 3
  | slash => 4
  | reserve => 5
  | unreserve => 6
  | reserveRepatriated => 7
  | burn => 8
  | minted => 9
  | frozen => 10
  | thawed => 11
  | locked => 12
  | unlocked => 13
  | held => 14
  | released => 15
  | burnedHeld => 16
  | transferAndHold => 17
  | transferOnHold => 18
  | endowed => 19
  | dustLost => 20
  | restored => 21
  | suspended => 22

/-- `BalanceMovementRow`: one row for `balance_movements`. -/
structure BalanceMovementRow where
  blockNum : ℕ
  eventIdx : ℕ
  account : AccountId
  kind : MovementKind
  delta : ℤ
  counterparty : Option AccountId
deriving DecidableEq

/-- `DecodedBalanceEvent`: the events with a delta. `ReserveRepatriated`
keeps its source side only. -/
inductive DecodedBalanceEvent where
  | transfer (fromAcct toAcct : AccountId) (amount : ℕ)
  | deposit (who : AccountId) (amount : ℕ)
  | withdraw (who : AccountId) (amount : ℕ)
  | slash (who : AccountId) (amount : ℕ)
  | reserve (who : AccountId) (amount : ℕ)
  | unreserve (who : AccountId) (amount : ℕ)
  | reserveRepatriated (fromAcct : AccountId) (amount : ℕ)
  | burn (who : AccountId) (amount : ℕ)
  | mint (who : AccountId) (amount : ℕ)
  | frozen (who : AccountId) (amount : ℕ)
  | thawed (who : AccountId) (amount : ℕ)
  | locked (who : AccountId) (amount : ℕ)
  | unlocked (who : AccountId) (amount : ℕ)
  | fee (who : AccountId) (amount : ℕ)
  | held (who : AccountId) (amount : ℕ)
  | released (who : AccountId) (amount : ℕ)
  | burnedHeld (who : AccountId) (amount : ℕ)
  | transferAndHold (source dest : AccountId) (amount : ℕ)
  | transferOnHold (source dest : AccountId) (amount : ℕ)
  | endowed (account : AccountId) (amount : ℕ)
  | dustLost (account : AccountId) (amount : ℕ)
  | restored (who : AccountId) (amount : ℕ)
  | suspended (who : AccountId) (amount : ℕ)
deriving DecidableEq

/-- `single`: a movement with no counterparty. -/
def single (blockNum eventIdx : ℕ) (account : AccountId) (kind : MovementKind) (delta : ℤ) :
    BalanceMovementRow :=
  { blockNum, eventIdx, account, kind, delta, counterparty := none }

/-- The two rows of an event that moves funds between accounts: one
each side, opposite signs. -/
def paired (blockNum eventIdx : ℕ) (kind : MovementKind) (source dest : AccountId) (amount : ℕ) :
    List BalanceMovementRow :=
  [{ blockNum, eventIdx, account := source, kind, delta := negI128 (asI128 amount),
     counterparty := some dest },
   { blockNum, eventIdx, account := dest, kind, delta := asI128 amount,
     counterparty := some source }]

/-- The rows `balances::project` pushes for one event. -/
def movementsOf (blockNum eventIdx : ℕ) : DecodedBalanceEvent → List BalanceMovementRow
  | .transfer src dst amount => paired blockNum eventIdx .transfer src dst amount
  | .deposit who amount => [single blockNum eventIdx who .deposit (asI128 amount)]
  | .withdraw who amount => [single blockNum eventIdx who .withdraw (negI128 (asI128 amount))]
  | .slash who amount => [single blockNum eventIdx who .slash (negI128 (asI128 amount))]
  | .reserve who amount => [single blockNum eventIdx who .reserve (asI128 amount)]
  | .unreserve who amount => [single blockNum eventIdx who .unreserve (negI128 (asI128 amount))]
  | .reserveRepatriated src amount =>
    [single blockNum eventIdx src .reserveRepatriated (negI128 (asI128 amount))]
  | .burn who amount => [single blockNum eventIdx who .burn (negI128 (asI128 amount))]
  | .mint who amount => [single blockNum eventIdx who .minted (asI128 amount)]
  | .frozen who amount => [single blockNum eventIdx who .frozen (asI128 amount)]
  | .thawed who amount => [single blockNum eventIdx who .thawed (negI128 (asI128 amount))]
  | .locked who amount => [single blockNum eventIdx who .locked (asI128 amount)]
  | .unlocked who amount => [single blockNum eventIdx who .unlocked (negI128 (asI128 amount))]
  | .fee who amount => [single blockNum eventIdx who .fee (negI128 (asI128 amount))]
  | .held who amount => [single blockNum eventIdx who .held (asI128 amount)]
  | .released who amount => [single blockNum eventIdx who .released (negI128 (asI128 amount))]
  | .burnedHeld who amount => [single blockNum eventIdx who .burnedHeld (negI128 (asI128 amount))]
  | .transferAndHold src dst amount => paired blockNum eventIdx .transferAndHold src dst amount
  | .transferOnHold src dst amount => paired blockNum eventIdx .transferOnHold src dst amount
  | .endowed account amount => [single blockNum eventIdx account .endowed (asI128 amount)]
  | .dustLost account amount =>
    [single blockNum eventIdx account .dustLost (negI128 (asI128 amount))]
  | .restored who amount => [single blockNum eventIdx who .restored (asI128 amount)]
  | .suspended who amount => [single blockNum eventIdx who .suspended (negI128 (asI128 amount))]

/-- `balances::project`. -/
def Balances.project (decoded : List (ℕ × DecodedBalanceEvent)) (blockNum : ℕ) :
    List BalanceMovementRow :=
  decoded.flatMap fun (eventIdx, evt) => movementsOf blockNum eventIdx evt

/-- `decode_balance_event`: the decoded event, and `touched` with the
accounts the event's arm pushes. -/
def decodeBalanceEvent (evt : NodeEvent) (touched : List AccountId) :
    List AccountId × Option DecodedBalanceEvent :=
  match evt.body with
  | .transfer src dst amount => (touched ++ [src, dst], some (.transfer src dst amount))
  | .deposit who amount => (touched ++ [who], some (.deposit who amount))
  | .withdraw who amount => (touched ++ [who], some (.withdraw who amount))
  | .slashed who amount => (touched ++ [who], some (.slash who amount))
  | .reserved who amount => (touched ++ [who], some (.reserve who amount))
  | .unreserved who amount => (touched ++ [who], some (.unreserve who amount))
  -- The arm reads `d.from` and never `d.to`.
  | .reserveRepatriated src _ amount => (touched ++ [src], some (.reserveRepatriated src amount))
  | .burned who amount => (touched ++ [who], some (.burn who amount))
  | .minted who amount => (touched ++ [who], some (.mint who amount))
  | .frozen who amount => (touched ++ [who], some (.frozen who amount))
  | .thawed who amount => (touched ++ [who], some (.thawed who amount))
  | .locked who amount => (touched ++ [who], some (.locked who amount))
  | .unlocked who amount => (touched ++ [who], some (.unlocked who amount))
  | .held who amount => (touched ++ [who], some (.held who amount))
  | .released who amount => (touched ++ [who], some (.released who amount))
  | .burnedHeld who amount => (touched ++ [who], some (.burnedHeld who amount))
  | .transferAndHold src dst amount =>
    (touched ++ [src, dst], some (.transferAndHold src dst amount))
  | .transferOnHold src dst amount => (touched ++ [src, dst], some (.transferOnHold src dst amount))
  | .endowed account free => (touched ++ [account], some (.endowed account free))
  | .dustLost account amount => (touched ++ [account], some (.dustLost account amount))
  | .restored who amount => (touched ++ [who], some (.restored who amount))
  | .suspended who amount => (touched ++ [who], some (.suspended who amount))
  -- Touched, but no movement: the delta is unknown, or there is none.
  | .balanceSet who => (touched ++ [who], none)
  | .upgraded who => (touched ++ [who], none)
  | .transactionFeePaid who actualFee => (touched ++ [who], some (.fee who actualFee))
  | .atsCreated .. | .atsUpdated .. | .atsRevoked .. | .extrinsicFailed | .other .. =>
    (touched, none)

/-- `BlockBalanceProjection`. -/
structure BlockBalanceProjection where
  movements : List BalanceMovementRow
  touchedAccounts : List AccountId
deriving DecidableEq

/-- The event loop of `balances::project_block`: the decoded events with
their positions, and the accounts pushed, both in event order. -/
def Balances.decodeLoop : ℕ → List NodeEvent → List AccountId → List (ℕ × DecodedBalanceEvent) →
    List AccountId × List (ℕ × DecodedBalanceEvent)
  | _, [], touched, decoded => (touched, decoded)
  | idx, evt :: evts, touched, decoded =>
    match decodeBalanceEvent evt touched with
    | (touched', some d) => Balances.decodeLoop (idx + 1) evts touched' (decoded ++ [(idx, d)])
    | (touched', none) => Balances.decodeLoop (idx + 1) evts touched' decoded

/-- `balances::project_block`: events of every phase. -/
def Balances.projectBlock (blk : NodeBlock) (blockNum : ℕ) : BlockBalanceProjection :=
  let (touched, decoded) := Balances.decodeLoop 0 blk.events [] []
  { movements := Balances.project decoded blockNum, touchedAccounts := touched }

/-! ## `projections::accounts` -/

/-- The `push` closure of `collect_touched`: `seen` and `out` hold the
same accounts, so one list plays both. -/
def pushTouched (out : List AccountId) (acct : AccountId) : List AccountId :=
  if acct ∈ out then out else out ++ [acct]

/-- `collect_touched`. -/
def collectTouched (fromEvents : List AccountId) (extrinsics : List ExtrinsicRow) :
    List AccountId :=
  extrinsics.foldl (fun out x =>
    match x.signer with
    | some signer => pushTouched out signer
    | none => out) (fromEvents.foldl pushTouched [])

/-- `fetch_accounts_at`: one snapshot an account, in order; an account
with no storage entry reads as all zero. -/
def fetchAccountsAt (blk : NodeBlock) (accounts : List AccountId) :
    List (AccountId × AccountSnapshot) :=
  accounts.map fun a => (a, (blk.systemAccount.find a).getD default)

/-- `project_genesis_accounts`: the whole `System::Account` map. -/
def projectGenesisAccounts (blk : NodeBlock) : List (AccountId × AccountSnapshot) :=
  blk.systemAccount.rows

/-! ## `projections::ats` -/

/-- `AtsRegistryRow`. -/
structure AtsRegistryRow where
  id : UInt64
  owner : AccountId
  createdBlock : ℕ
  createdExtIdx : ℕ
  versionCount : ℕ
deriving DecidableEq

/-- `AtsVersionRow`. -/
structure AtsVersionRow where
  atsId : UInt64
  version : UInt32
  blockNum : ℕ
  extIdx : ℕ
  commitment : Bytes32
  protocolVersion : ℕ
deriving DecidableEq

/-- `AtsVersionCountBump`. -/
structure AtsVersionCountBump where
  atsId : UInt64
  versionCount : ℕ
deriving DecidableEq

/-- `AtsOps`: one block's ATS side effects. -/
structure AtsOps where
  registryInserts : List AtsRegistryRow := []
  versionInserts : List AtsVersionRow := []
  versionCountBumps : List AtsVersionCountBump := []
  revocations : List UInt64 := []
deriving DecidableEq

/-- `DecodedAtsEvent`. -/
inductive DecodedAtsEvent where
  | created (atsId : UInt64) (owner : AccountId) (commitment : Bytes32) (protocolVersion : ℕ)
  | updated (atsId : UInt64) (version : UInt32) (commitment : Bytes32) (protocolVersion : ℕ)
  | revoked (atsId : UInt64)
deriving DecidableEq

/-- The id a decoded event is about. -/
def DecodedAtsEvent.atsId : DecodedAtsEvent → UInt64
  | created atsId .. => atsId
  | updated atsId .. => atsId
  | revoked atsId => atsId

/-- What one decoded event pushes onto the ops. -/
def AtsOps.push (blockNum : ℕ) (ops : AtsOps) : ℕ × DecodedAtsEvent → AtsOps
  | (extIdx, .created atsId owner commitment protocolVersion) =>
    { ops with
      registryInserts := ops.registryInserts ++
        [{ id := atsId, owner, createdBlock := blockNum, createdExtIdx := extIdx,
           versionCount := 1 }]
      versionInserts := ops.versionInserts ++
        [{ atsId, version := 0, blockNum, extIdx, commitment, protocolVersion }] }
  | (extIdx, .updated atsId version commitment protocolVersion) =>
    { ops with
      versionInserts := ops.versionInserts ++
        [{ atsId, version, blockNum, extIdx, commitment, protocolVersion }]
      versionCountBumps := ops.versionCountBumps ++
        [{ atsId, versionCount := satAddU32 version.toNat 1 }] }
  | (_, .revoked atsId) => { ops with revocations := ops.revocations ++ [atsId] }

/-- `ats::project`. -/
def Ats.project (decoded : List (ℕ × DecodedAtsEvent)) (blockNum : ℕ) : AtsOps :=
  decoded.foldl (AtsOps.push blockNum) {}

/-- `decode_ats_event`. -/
def decodeAtsEvent (evt : NodeEvent) : Option DecodedAtsEvent :=
  match evt.body with
  | .atsCreated atsId owner commitment protocolVersion =>
    some (.created atsId owner commitment protocolVersion)
  | .atsUpdated atsId version commitment protocolVersion =>
    some (.updated atsId version commitment protocolVersion)
  | .atsRevoked atsId => some (.revoked atsId)
  | _ => none

/-- The event loop of `ats::project_block`: only events deposited while
an extrinsic was applied count. -/
def Ats.decodeBlock (blk : NodeBlock) : List (ℕ × DecodedAtsEvent) :=
  blk.events.filterMap fun evt =>
    match evt.phase with
    | .applyExtrinsic extIdx => (decodeAtsEvent evt).map fun d => (extIdx, d)
    | _ => none

/-- `ats::project_block`. -/
def Ats.projectBlock (blk : NodeBlock) (blockNum : ℕ) : AtsOps :=
  Ats.project (Ats.decodeBlock blk) blockNum

/-! ## One block, projected -/

/-- Everything `index_block` reads of a block before it opens its
transaction. -/
structure BlockProjection where
  row : BlockRow
  extrinsicRows : List ExtrinsicRow
  eventRows : List EventRow
  balanceProjection : BlockBalanceProjection
  snapshots : List (AccountId × AccountSnapshot)
  atsOps : AtsOps
  genesisSnapshots : List (AccountId × AccountSnapshot)

/-- The accounts the snapshot pipeline refetches for a block. -/
def touchedAt (blk : NodeBlock) (num : ℕ) : List AccountId :=
  collectTouched (Balances.projectBlock blk num).touchedAccounts (Extrinsics.map blk num)

/-- The reads at the head of `index_block`, the same in both workers. -/
def projectAt (blk : NodeBlock) (num : ℕ) : BlockProjection :=
  { row := Blocks.map blk num
    extrinsicRows := Extrinsics.map blk num
    eventRows := Events.map blk num
    balanceProjection := Balances.projectBlock blk num
    snapshots := fetchAccountsAt blk (touchedAt blk num)
    atsOps := Ats.projectBlock blk num
    genesisSnapshots := if num = 0 then projectGenesisAccounts blk else [] }

end Projections

end AllfeatExplorer
