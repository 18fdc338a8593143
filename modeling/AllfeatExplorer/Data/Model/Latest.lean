import AllfeatExplorer.Data.Model.Lists
import AllfeatExplorer.Data.Model.Provider

/-!
# The newest blocks

The block list of both providers. The node's is a window below the
cursor, filtered after it is read. `IndexedProvider`'s is stitched: the
blocks above the indexed head are taken from the node's list, and what
they leave of the page from the database.
-/

namespace AllfeatExplorer

open Queries

/-- `RpcProvider::latest_blocks`. The node has every block of the
window. -/
def Rpc.latestBlocks (net : Network) (node : Node) (req : PageRequest) (filters : BlockFilters) :
    Except BadRequest (Page Block) :=
  if req.count = 0 then .ok .empty
  else do
    let cursor ← parseCursor blockCursor req
    let tip :=
      match cursor with
      | some block => min (block - 1) node.bestHead
      | none => node.bestHead
    let span := satAddU64 req.count 1
    let lowest := tip - (span - 1)
    let blocks := (List.range' lowest (tip + 1 - lowest)).reverse.map fun number =>
      mapBlock net node.finalizedHead number (node.chain number)
    let (items, hasMore) := trimProbe req.count
      (blocks.filter fun block => blockMatchesFilters block filters)
    pure
      { items := items
        pageInfo :=
          { total := some (node.bestHead + 1)
            nextCursor := nextCursor hasMore (fun block => blockCursor.toText block.number) items
            hasMore := hasMore } }

namespace IndexedProvider

/-- `pending_upper`: where the page starts. -/
def pendingUpper (p : IndexedProvider) (cursor : Option ℕ) : ℕ :=
  cursor.elim p.node.bestHead fun block => block - 1

/-- **The pending slice**: what the node lists above the indexed head, at
most a page of it. Where only final blocks are asked for there is none. -/
def pendingBlocks (p : IndexedProvider) (count : ℕ) (cursor : Option ℕ) (filters : BlockFilters) :
    Except BadRequest (List Block) :=
  if p.indexedHead < p.pendingUpper cursor ∧ filters.finalized ≠ some true then do
    let page ← Rpc.latestBlocks p.net p.node ⟨count, cursor.map blockCursor.toText⟩ filters
    pure ((page.items.takeWhile fun block => decide (p.indexedHead < block.number)).take count)
  else pure []

/-- **`IndexedProvider::latest_blocks`.** -/
def latestBlocks (p : IndexedProvider) (req : PageRequest) (filters : BlockFilters) :
    Except BadRequest (Page Block) :=
  if req.count = 0 then .ok .empty
  else do
    let cursor ← parseCursor blockCursor req
    let chainHead := p.node.bestHead
    let pending ← p.pendingBlocks req.count cursor filters
    let need := req.count - pending.length
    if 0 < need then
      -- `(need + 1) as u32`.
      let probe := wrapU32 (need + 1)
      let dbUpper := min p.indexedHead (cursor.elim u64Max fun block => block - 1)
      let dbPage := listBlocksPageBounded p.net p.db probe none (some dbUpper) filters
      if need < dbPage.items.length then
        let trimmed := dbPage.items.take need
        pure
          { items := pending ++ trimmed
            pageInfo :=
              { total := some (chainHead + 1)
                nextCursor := trimmed.getLast?.map fun block => blockCursor.toText block.number
                hasMore := true } }
      else
        pure
          { items := pending ++ dbPage.items
            pageInfo :=
              { total := some (chainHead + 1)
                nextCursor := dbPage.pageInfo.nextCursor
                hasMore := dbPage.pageInfo.hasMore } }
    else if 0 < p.indexedHead ∧ p.indexedHead < p.pendingUpper cursor then
      pure
        { items := pending
          pageInfo :=
            { total := some (chainHead + 1)
              nextCursor := pending.getLast?.map fun block => blockCursor.toText block.number
              hasMore := true } }
    else
      pure { items := pending, pageInfo := ⟨some (chainHead + 1), none, false⟩ }

end IndexedProvider

end AllfeatExplorer
