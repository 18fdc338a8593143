import AllfeatExplorer.Data.Model.Pages
import AllfeatExplorer.Data.Model.Rpc

/-!
# The node's ATS registry

`pallet-ats`'s storage, the records the mapper builds from it, and the
list over them, from the newest id down. A revoked id has no storage and
is skipped. The list's cursor is an id, and what it skips are positions.
-/

namespace AllfeatExplorer

open Projections

/-- `DepositEntryView`. -/
structure DepositEntryView where
  depositor : AccountId
  amount : ℕ

/-- `AtsRecordView`. -/
structure AtsRecordView where
  owner : AccountId
  createdAt : ℕ
  versionCount : ℕ
  deposits : List DepositEntryView

/-- `VersionInfoView`. -/
structure VersionInfoView where
  createdAt : ℕ
  commitment : Bytes32
  protocolVersion : ℕ

/-- **The ATS pallet of a node** at one block, and the older blocks the
node still serves. -/
structure AtsNode where
  /-- `NextAtsId`: one past the id created last. -/
  nextAtsId : ℕ
  next_le : nextAtsId ≤ u64Max
  /-- `AtsRegistry`, which has no entry under a revoked id. -/
  atsRegistry : ℕ → Option AtsRecordView
  /-- `AtsVersions` under an id, in the order of storage. -/
  atsVersions : ℕ → List (ℕ × VersionInfoView)
  /-- `api.at_block`, absent where the call fails. -/
  atBlock : ℕ → Option NodeBlock

namespace Rpc

/-! ## One record -/

/-- `VersionExtras`. -/
structure VersionExtras where
  timestampMs : ℤ
  extrinsicIndex : ℕ
  fee : ℕ
  signer : String

/-- Whether an event is the one that made a version. -/
def makesVersion (atsId version : ℕ) : EventBody → Bool
  | .atsCreated id _ _ _ => version = 0 && id.toNat = atsId
  | .atsUpdated id v _ _ => 0 < version && id.toNat = atsId && v.toNat = version
  | _ => false

/-- The extrinsic that made a version. A block has one such event, so it
does not matter in which order the map of events is gone through. -/
def extrinsicOfVersion (blk : NodeBlock) (atsId version : ℕ) : Option ℕ :=
  blk.events.findSome? fun evt =>
    match evt.phase with
    | .applyExtrinsic idx => if makesVersion atsId version evt.body then some idx else none
    | _ => none

/-- `fetch_version_extras`. -/
def fetchVersionExtras (net : Network) (number : ℕ) (blk : NodeBlock) (atsId version : ℕ)
    (owner : AccountId) : VersionExtras :=
  match extrinsicOfVersion blk atsId version with
  | some idx =>
    let ext := (mapExtrinsics net number blk).find? fun e => e.index = idx
    { timestampMs := fetchTimestamp blk
      extrinsicIndex := idx
      fee := (ext.map Extrinsic.fee).getD 0
      signer := (ext.bind Extrinsic.signer).getD (net.encodeSs58 owner) }
  | none => ⟨fetchTimestamp blk, 0, 0, net.encodeSs58 owner⟩

/-- The version loop of `build_ats_record`, at one version: the record's
timestamp and the versions so far. -/
def buildVersion (net : Network) (node : AtsNode) (atsId : ℕ) (owner : AccountId)
    (st : ℤ × List AtsVersion) (entry : ℕ × VersionInfoView) : ℤ × List AtsVersion :=
  let (createdAtMs, versions) := st
  let (vIdx, info) := entry
  let vBlock := info.createdAt
  let extras :=
    match node.atBlock vBlock with
    | some blk => fetchVersionExtras net vBlock blk atsId vIdx owner
    | none => ⟨0, 0, 0, net.encodeSs58 owner⟩
  (if vIdx = 0 then extras.timestampMs else createdAtMs,
    versions ++
      [{ versionIndex := vIdx
         commitment := hexBytes info.commitment.bytes
         protocolVersion := info.protocolVersion
         createdAtMs := extras.timestampMs
         blockNumber := vBlock
         extrinsicIndex := extras.extrinsicIndex
         extrinsicId := extrinsicId vBlock extras.extrinsicIndex
         fee := extras.fee
         signer := extras.signer }])

/-- **`build_ats_record`**: no record under a revoked id. -/
def buildAtsRecord (net : Network) (node : AtsNode) (atsId : ℕ) : Option AtsRecord :=
  (node.atsRegistry atsId).map fun record =>
    -- `fetch_ats_versions` sorts by the version.
    let versionsRaw := (node.atsVersions atsId).mergeSort fun a b => decide (a.1 ≤ b.1)
    let (createdAtMs, versions) :=
      versionsRaw.foldl (buildVersion net node atsId record.owner) (0, [])
    { atsId := atsIdU32 atsId
      owner := net.encodeSs58 record.owner
      createdAtMs := createdAtMs
      createdAtBlock := (versionsRaw.head?.map fun v => v.2.createdAt).getD record.createdAt
      versionCount := record.versionCount
      deposits := record.deposits.map fun d => ⟨net.encodeSs58 d.depositor, d.amount⟩
      totalDeposit := (record.deposits.map DepositEntryView.amount).sum % (u128Max + 1)
      versions := versions }

/-! ## The list -/

/-- The loop of `build_ats_list` over the stream: how many live records
are skipped so far, and those taken. -/
def atsListLoop {α : Type} (count fromIndex : ℕ) : ℕ → List α → List (Option α) → List α
  | _, out, [] => out
  | skipped, out, none :: stream => atsListLoop count fromIndex skipped out stream
  | skipped, out, some record :: stream =>
    if skipped < fromIndex then atsListLoop count fromIndex (skipped + 1) out stream
    else
      let out := out ++ [record]
      if out.length ≥ count then out else atsListLoop count fromIndex skipped out stream

/-- `build_ats_list`, of the records that `build` builds. -/
def buildAtsList {α : Type} (build : ℕ → Option α) (next count fromIndex : ℕ) : List α :=
  if count = 0 then []
  else if next = 0 then []
  else atsListLoop count fromIndex 0 [] ((List.range next).reverse.map build)

/-- `ats_list`, of the records that `build` builds. -/
def atsListOf {α : Type} (build : ℕ → Option α) (atsId : α → ℕ) (next : ℕ) (req : PageRequest) :
    Except BadRequest (Page α) :=
  if req.count = 0 then .ok .empty
  else do
    let cursor ← parseCursor atsCursor req
    let fromIndex :=
      match cursor with
      | some id => wrapU32 (next - id)
      | none => 0
    let probe := satAddU32 req.count 1
    let items := buildAtsList build next probe fromIndex
    let hasMore := decide (req.count < items.length)
    let trimmed := if hasMore then items.take req.count else items
    pure
      { items := trimmed
        pageInfo :=
          { total := some next
            nextCursor :=
              if hasMore then trimmed.getLast?.map fun record => atsCursor.toText (atsId record)
              else none
            hasMore := hasMore } }

/-- **`RpcProvider::ats_list`.** -/
def atsList (net : Network) (node : AtsNode) (req : PageRequest) :
    Except BadRequest (Page AtsRecord) :=
  atsListOf (buildAtsRecord net node) AtsRecord.atsId node.nextAtsId req

end Rpc

end AllfeatExplorer
