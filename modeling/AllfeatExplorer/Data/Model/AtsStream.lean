import AllfeatExplorer.Data.Model.Feed

/-!
# The live feed of ATS versions

The ATS part of `run_best_stream`: at every best block it compares
`NextAtsId` with what it was, and broadcasts that many items of
`build_ats_feed`. Under it the blocks it looks at, as sequences of the
calls that create a record or add a version to one.
-/

namespace AllfeatExplorer

open Projections

/-! ## Blocks of the pallet -/

/-- A call that went through. -/
inductive AtsCall where
  | create (owner : AccountId) (deposits : List DepositEntryView) (commitment : Bytes32)
      (protocolVersion : ℕ)
  | addVersion (atsId : ℕ) (commitment : Bytes32) (protocolVersion : ℕ)

/-- A block: its number, its calls, and the blocks the node serves at it. -/
structure AtsBlock where
  number : ℕ
  calls : List AtsCall
  atBlock : ℕ → Option NodeBlock

namespace AtsNode

/-- **One call**: the storage after it and the version that landed. A
record is created under `NextAtsId` with version 0; a version is added
under the count of those the record has. No counter goes past its type. -/
def execute (number : ℕ) (node : AtsNode) : AtsCall → Option (AtsNode × (ℕ × ℕ))
  | .create owner deposits commitment protocolVersion =>
    if h : node.nextAtsId + 1 ≤ u64Max then
      some
        ({ nextAtsId := node.nextAtsId + 1
           next_le := h
           atsRegistry :=
             Function.update node.atsRegistry node.nextAtsId (some ⟨owner, number, 1, deposits⟩)
           atsVersions :=
             Function.update node.atsVersions node.nextAtsId
               [(0, ⟨number, commitment, protocolVersion⟩)]
           atBlock := node.atBlock }, (node.nextAtsId, 0))
    else none
  | .addVersion atsId commitment protocolVersion =>
    (node.atsRegistry atsId).bind fun record =>
      if record.versionCount + 1 ≤ u32Max then
        some
          ({ node with
             atsRegistry :=
               Function.update node.atsRegistry atsId
                 (some { record with versionCount := record.versionCount + 1 })
             atsVersions :=
               Function.update node.atsVersions atsId
                 (node.atsVersions atsId ++
                   [(record.versionCount, ⟨number, commitment, protocolVersion⟩)]) },
            (atsId, record.versionCount))
      else none

/-- The calls of a block, and the versions they landed. -/
def executeAll (number : ℕ) : AtsNode → List AtsCall → Option (AtsNode × List (ℕ × ℕ))
  | node, [] => some (node, [])
  | node, call :: calls =>
    (node.execute number call).bind fun one =>
      (executeAll number one.1 calls).map fun rest => (rest.1, one.2 :: rest.2)

/-- A block. -/
def executeBlock (node : AtsNode) (block : AtsBlock) : Option (AtsNode × List (ℕ × ℕ)) :=
  (node.executeAll block.number block.calls).map fun r =>
    ({ r.1 with atBlock := block.atBlock }, r.2)

/-- **A chain of blocks**: the storage at each, and the versions that
landed in it. -/
def executeBlocks : AtsNode → List AtsBlock → Option (List (AtsNode × List (ℕ × ℕ)))
  | _, [] => some []
  | node, block :: blocks =>
    (node.executeBlock block).bind fun one =>
      (executeBlocks one.1 blocks).map fun rest => one :: rest

end AtsNode

/-! ## The stream -/

/-- **One best block as the stream meets it**: whether the feed has a
subscriber, which of the reads are answered, and the storage at it. -/
structure AtsTick where
  hasAts : Bool
  atBlock : Bool
  fetchNextAtsId : Bool
  buildAtsFeed : Bool
  node : AtsNode

/-- A block with a subscriber and every read answered. -/
def AtsTick.answered (node : AtsNode) : AtsTick := ⟨true, true, true, true, node⟩

namespace Rpc

/-- **The ATS part of the loop body**: `last_next_ats_id` after it, and
what it broadcasts. -/
def atsTick (net : Network) (lastNextAtsId : Option ℕ) (tick : AtsTick) :
    Option ℕ × List AtsFeedItem :=
  if tick.hasAts && tick.atBlock && tick.fetchNextAtsId then
    let current := tick.node.nextAtsId
    let previous := lastNextAtsId.getD current
    let sent :=
      if previous < current then
        let delta := min (current - previous) u32Max
        if tick.buildAtsFeed then (buildAtsFeed net tick.node delta 0).reverse else []
      else []
    (some current, sent)
  else (lastNextAtsId, [])

/-- **All a stream broadcasts.** -/
def atsStream (net : Network) : Option ℕ → List AtsTick → List AtsFeedItem
  | _, [] => []
  | last, tick :: ticks =>
    (atsTick net last tick).2 ++ atsStream net (atsTick net last tick).1 ticks

end Rpc

end AllfeatExplorer
