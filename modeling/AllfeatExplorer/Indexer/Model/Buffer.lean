import AllfeatExplorer.Data.Model.LatestExtrinsics
import AllfeatExplorer.Lib.LastWrite

/-!
# The pending buffer with its indexes

`src/indexer/buffer.rs`: the ring buffer of the best blocks together with
its two hash maps, number to position and extrinsic hash to coordinates,
under appends and finalized heads in any order. `PendingBuffer` is its
list of blocks.
-/

namespace AllfeatExplorer

/-- What a block writes to `by_xt_hash`, in order. A hash that does not
decode is skipped. -/
def BufferedBlock.hashEntries (b : BufferedBlock) : List (Bytes32 × (ℕ × ℕ)) :=
  b.extrinsics.filterMap fun ext => (decodeHex32 ext.hash).map fun h => (h, (b.number, ext.index))

/-- **`PendingBuffer`** with `by_number`, `by_xt_hash` and the finalized
head. -/
structure IndexedBuffer extends PendingBuffer where
  byNumber : ℕ → Option ℕ
  byXtHash : Bytes32 → Option (ℕ × ℕ)
  finalizedHead : ℕ

namespace IndexedBuffer

/-- `PendingBuffer::new`. -/
def new : IndexedBuffer :=
  { PendingBuffer.new with
    byNumber := fun _ => none
    byXtHash := fun _ => none
    finalizedHead := 0 }

/-- `reindex_positions`: clear, then one write a block. -/
def reindexPositions (buf : IndexedBuffer) : IndexedBuffer :=
  { buf with byNumber := ofWrites (buf.blocks.zipIdx.map fun (b, i) => (b.number, i)) }

/-- `rebuild_xt_index`: clear, then one write an extrinsic. -/
def rebuildXtIndex (buf : IndexedBuffer) : IndexedBuffer :=
  { buf with byXtHash := ofWrites (buf.blocks.flatMap BufferedBlock.hashEntries) }

/-- The head of `append_block`: a full buffer drops its front. -/
def makeRoom (buf : IndexedBuffer) : IndexedBuffer :=
  if buf.blocks.length = bufferCapacity then
    match buf.blocks with
    | [] => buf
    | evicted :: rest =>
      ({ buf with
          blocks := rest
          byNumber := Function.update buf.byNumber evicted.number none
        }).reindexPositions.rebuildXtIndex
  else buf

/-- **`append_block`.** -/
def appendBlock (buf : IndexedBuffer) (block : BufferedBlock) : IndexedBuffer :=
  let buf := buf.makeRoom
  let pos := buf.blocks.length
  { buf with
    byXtHash := writeAll buf.byXtHash block.hashEntries
    byNumber := Function.update buf.byNumber block.number (some pos)
    blocks := buf.blocks ++ [block] }

/-- The `while let Some(front)` of `advance_finalized`: it stops at the
first block above `up_to`. -/
def popFinalized (upTo : ℕ) :
    List BufferedBlock → (ℕ → Option ℕ) → List BufferedBlock × (ℕ → Option ℕ)
  | [], byNumber => ([], byNumber)
  | front :: rest, byNumber =>
    if front.number ≤ upTo then
      popFinalized upTo rest (Function.update byNumber front.number none)
    else (front :: rest, byNumber)

/-- **`advance_finalized`.** -/
def advanceFinalized (buf : IndexedBuffer) (upTo : ℕ) : IndexedBuffer :=
  let (blocks, byNumber) := popFinalized upTo buf.blocks buf.byNumber
  ({ buf with
      finalizedHead := max buf.finalizedHead upTo
      blocks := blocks
      byNumber := byNumber }).reindexPositions.rebuildXtIndex

/-- `extrinsic_by_block_idx`. -/
def extrinsicByBlockIdx (buf : IndexedBuffer) (blockNum idx : ℕ) : Option Extrinsic := do
  let pos ← buf.byNumber blockNum
  let block ← buf.blocks[pos]?
  block.extrinsics.find? fun e => e.index = idx

/-- **`extrinsic_by_hash`.** -/
def extrinsicByHash (buf : IndexedBuffer) (hash : Bytes32) : Option Extrinsic := do
  let (blockNum, idx) ← buf.byXtHash hash
  buf.extrinsicByBlockIdx blockNum idx

/-- A call on the buffer. -/
inductive Call
  | append (block : BufferedBlock)
  | advance (upTo : ℕ)

/-- One call. -/
def apply (buf : IndexedBuffer) : Call → IndexedBuffer
  | .append block => buf.appendBlock block
  | .advance upTo => buf.advanceFinalized upTo

/-- The buffer after calls, from the empty one. -/
def after (calls : List Call) : IndexedBuffer := calls.foldl apply new

end IndexedBuffer

end AllfeatExplorer
