import AllfeatExplorer.Data.Model.Lists
import AllfeatExplorer.Data.Model.Provider

/-!
# The newest extrinsics

`PendingBuffer`, as far as the extrinsic list reads it, and the list of
`IndexedProvider` over it: a page is filled from the buffered blocks,
newest first, and topped up from the database.
-/

namespace AllfeatExplorer

open Queries

/-! ## The buffer -/

/-- `BUFFER_CAPACITY`. -/
def bufferCapacity : ℕ := 64

/-- `BufferedBlock`. -/
structure BufferedBlock where
  number : ℕ
  extrinsics : List Extrinsic

/-- **`PendingBuffer`**: the blocks, oldest first. -/
structure PendingBuffer where
  blocks : List BufferedBlock

namespace PendingBuffer

/-- `PendingBuffer::new`. -/
def new : PendingBuffer := ⟨[]⟩

/-- `append_block`: a full buffer drops its oldest block. -/
def appendBlock (buf : PendingBuffer) (block : BufferedBlock) : PendingBuffer :=
  let blocks := if buf.blocks.length = bufferCapacity then buf.blocks.tail else buf.blocks
  ⟨blocks ++ [block]⟩

/-- `iter_blocks_newest_first`. -/
def iterBlocksNewestFirst (buf : PendingBuffer) : List BufferedBlock := buf.blocks.reverse

/-- What the two nested loops of `latest_extrinsics` go through. -/
def extrinsicsNewestFirst (buf : PendingBuffer) : List Extrinsic :=
  buf.iterBlocksNewestFirst.flatMap fun b => b.extrinsics.reverse

end PendingBuffer

/-! ## The list -/

/-- `(ext.block_number, ext.index)`. -/
def Extrinsic.key (ext : Extrinsic) : ℕ × ℕ := (ext.blockNumber, ext.index)

namespace IndexedProvider

/-- **The loop over the pending slice**: `items` and `last_buffered`.
`break 'outer` leaves both loops. -/
def pendingSlice (count : ℕ) (cursor : Option (ℕ × ℕ)) (filters : ExtrinsicFilters) :
    List Extrinsic → List Extrinsic × Option (ℕ × ℕ) → List Extrinsic × Option (ℕ × ℕ)
  | [], st => st
  | ext :: rest, (items, lastBuffered) =>
    if ext.index = 0 && !ext.signed then
      pendingSlice count cursor filters rest (items, lastBuffered)
    else if cursor.any fun c => decide (toLex c ≤ toLex ext.key) then
      pendingSlice count cursor filters rest (items, lastBuffered)
    else if !extrinsicMatchesFilters ext filters then
      pendingSlice count cursor filters rest (items, some ext.key)
    else if count ≤ items.length then (items, some ext.key)
    else pendingSlice count cursor filters rest (items ++ [ext], some ext.key)

/-- **`IndexedProvider::latest_extrinsics`**, with the buffer of
`buffer_for`. -/
def latestExtrinsics (buffer : Option PendingBuffer) (filters : ExtrinsicFilters)
    (p : IndexedProvider) (req : PageRequest) : Except BadRequest (Page Extrinsic) :=
  if req.count = 0 then .ok .empty
  else do
    let cursor ← parseCursor extrinsicCursor req
    let tip := buffer.elim [] PendingBuffer.extrinsicsNewestFirst
    let (items, lastBuffered) := pendingSlice req.count cursor filters tip ([], none)
    let upper := lastBuffered.or cursor
    if req.count ≤ items.length then
      let probe ← listExtrinsicsPageBounded p.net p.db upper filters ⟨1, none⟩
      let hasMore := !probe.items.isEmpty
      pure
        { items := items
          pageInfo :=
            { total := none
              nextCursor := nextCursor hasMore (fun e => extrinsicCursor.toText e.key) items
              hasMore := hasMore } }
    else
      let need := req.count - items.length
      let dbPage ← listExtrinsicsPageBounded p.net p.db upper filters ⟨need, none⟩
      let hasMore := dbPage.pageInfo.hasMore
      let items := items ++ dbPage.items
      pure
        { items := items
          pageInfo :=
            { total := none
              nextCursor :=
                if hasMore && dbPage.pageInfo.nextCursor.isNone then
                  items.getLast?.map fun e => extrinsicCursor.toText e.key
                else dbPage.pageInfo.nextCursor
              hasMore := hasMore } }

end IndexedProvider

end AllfeatExplorer
