import AllfeatExplorer.Indexer.Model.Projections
import AllfeatExplorer.Data.Model.Domain

/-!
# The node reads

`RpcProvider` and its mappers, for the block and extrinsic views: pin a
block, read it, map it to the value shown. The chain does not change
here, so the caches in front answer what the node would; a node that does
not answer is a fault of the call, not a value.
-/

namespace AllfeatExplorer

open Projections

/-- The values of a block are those of the types the decoder hands over:
counts and indices are `u32`, amounts are `u128`. -/
structure NodeBlock.Typed (blk : NodeBlock) : Prop where
  extrinsics : blk.extrinsics.length ≤ u32Max
  tip : ∀ ext ∈ blk.extrinsics, ∀ tip, ext.tip = some tip → tip ≤ u128Max
  fee : ∀ evt ∈ blk.events, ∀ who fee, evt.body = .transactionFeePaid who fee → fee ≤ u128Max

/-- **A node**: the chain it serves up to its best head, and how much of
it is final. -/
structure Node where
  chain : Chain
  finalizedHead : ℕ
  bestHead : ℕ
  finalized_le : finalizedHead ≤ bestHead
  best_le : bestHead ≤ u64Max
  typed : ∀ n, n ≤ bestHead → (chain n).Typed

namespace Rpc

/-- `map_block`. -/
def mapBlock (net : Network) (finalizedHead number : ℕ) (blk : NodeBlock) : Block :=
  let (extrinsicCount, sizeExtrinsics) := fetchExtrinsicsSummary blk
  let (author, authorName) := net.authorLabels blk.author
  { number := number
    hash := hashString blk.hash
    parentHash := hashString blk.parentHash
    stateRoot := hashString blk.stateRoot
    extrinsicsRoot := hashString blk.extrinsicsRoot
    timestampMs := fetchTimestamp blk
    finalized := number ≤ finalizedHead
    extrinsicCount := extrinsicCount
    eventCount := blk.events.length
    author := author
    authorName := authorName
    refTime := blk.refTime
    refTimePct := blk.refTimePct
    proofSize := blk.proofSize
    specVersion := blk.specVersion
    sizeBytes := wrapU32 (blk.headerSize + sizeExtrinsics) }

/-- `decode_signer_ss58`. -/
def decodeSignerSs58 (net : Network) (addr : Option MultiAddress) : Option String :=
  match addr with
  | some (.id account) => some (net.encodeSs58 account)
  | _ => none

/-- The event loop of `map_extrinsics`, at one event: the events so far,
the result and the fee. -/
def mapEvent (net : Network) (st : List EventRef × CallResult × ℕ) (evt : NodeEvent) :
    List EventRef × CallResult × ℕ :=
  let (events, result, fee) := st
  let events := events ++ [net.eventRef evt.body.palletName evt.body.eventName evt.fieldBytes]
  match evt.body with
  | .extrinsicFailed => (events, .failed, fee)
  | .transactionFeePaid _ actualFee => (events, result, actualFee)
  | _ => (events, result, fee)

/-- One turn of `map_extrinsics`. -/
def mapExtrinsic (net : Network) (number : ℕ) (blk : NodeBlock) (idx : ℕ) (ext : NodeExtrinsic) :
    Extrinsic :=
  let (events, result, fee) :=
    (eventsOfExtrinsic blk.events idx).foldl (mapEvent net) ([], .success, 0)
  { id := extrinsicId number idx
    blockNumber := number
    index := idx
    hash := hashString ext.hash
    module := ext.palletName
    call := ext.callName
    signed := ext.isSigned
    signer := if ext.isSigned then decodeSignerSs58 net ext.address else none
    args := net.decodeCallArgs ext.palletName ext.callName ext.callData
    result := result
    nonce := ext.nonce.map wrapU32
    tip := ext.tip.getD 0
    fee := fee
    timestampMs := fetchTimestamp blk
    events := events }

/-- **`map_extrinsics`.** -/
def mapExtrinsics (net : Network) (number : ℕ) (blk : NodeBlock) : List Extrinsic :=
  blk.extrinsics.mapIdx (mapExtrinsic net number blk)

/-- `RpcProvider::block_by_number`. -/
def blockByNumber (net : Network) (node : Node) (number : ℕ) : Option Block :=
  if number > node.bestHead then none
  else some (mapBlock net node.finalizedHead number (node.chain number))

/-- `RpcProvider::extrinsics_in_block`. -/
def extrinsicsInBlock (net : Network) (node : Node) (block : ℕ) : List Extrinsic :=
  if block > node.bestHead then []
  else mapExtrinsics net block (node.chain block)

/-- `RpcProvider::extrinsic_by_id`: an index the block does not have is a
miss. -/
def extrinsicById (net : Network) (node : Node) (id : String) : Option Extrinsic :=
  match parseExtrinsicId id with
  | none => none
  | some (block, idx) =>
    if block > node.bestHead then none
    else (mapExtrinsics net block (node.chain block)).find? fun e => e.index = idx

end Rpc

end AllfeatExplorer
