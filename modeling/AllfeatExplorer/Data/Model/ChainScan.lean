import AllfeatExplorer.Data.Model.LatestExtrinsics
import AllfeatExplorer.Live.Model.Buffers

/-!
# The newest rows, off the node

`RpcProvider::latest_extrinsics` and `latest_transfers`: blocks are
fetched back from the cursor's own, and of each the rows that are older
than the cursor and match the filters are kept, until there is one more
than the page takes or the blocks of the window are done.
-/

namespace AllfeatExplorer

open Queries

/-- `transfer_matches_filters`. -/
def transferMatchesFilters (transfer : Transfer) (filters : TransferFilters) : Bool :=
  (filters.fromAddr.all fun addr => transfer.fromAddr = addr) &&
  (filters.toAddr.all fun addr => transfer.toAddr = addr)

/-- What a scan fails with: a bad request, or a transfer that does not
decode. -/
inductive ScanError where
  | badRequest (e : BadRequest)
  | decode
deriving DecidableEq

namespace Rpc

/-! ## The scan -/

section Scan

variable {α ε : Type}

/-- The inner loop, over the rows of a block, newest first: `items`, and
whether it broke off the outer one. -/
def scanRows (target : ℕ) (kept : α → Bool) : List α → List α → List α × Bool
  | [], items => (items, false)
  | row :: rest, items =>
    if kept row = false then scanRows target kept rest items
    else if target ≤ items.length then (items, true)
    else scanRows target kept rest (items ++ [row])

/-- The outer loop, over the blocks fetched: one that fails is the failure
of the scan, and one the node does not have ends it. -/
def scanChain (target : ℕ) (kept : α → Bool) :
    List (Except ε (Option (List α))) → List α → Except ε (List α)
  | [], items => .ok items
  | .error e :: _, _ => .error e
  | .ok none :: _, items => .ok items
  | .ok (some rows) :: rest, items =>
    let (items, done) := scanRows target kept rows.reverse items
    if done then .ok items else scanChain target kept rest items

/-- `(lowest..=scan_tip).rev()`. -/
def scanRange (lowest scanTip : ℕ) : List ℕ :=
  (List.range' lowest (scanTip + 1 - lowest)).reverse

/-- What both lists make of the rows kept. -/
def scannedPage (count : ℕ) (text : α → String) (rows : List α) : Page α :=
  let (items, hasMore) := trimProbe count rows
  { items := items
    pageInfo :=
      { total := none
        nextCursor := nextCursor hasMore text items
        hasMore := hasMore } }

end Scan

/-! ## `latest_extrinsics` -/

/-- `fetch_block_extrinsics`. -/
def fetchBlockExtrinsics (net : Network) (node : Node) (number : ℕ) :
    Except BadRequest (Option (List Extrinsic)) :=
  .ok (if number ≤ node.bestHead then some (mapExtrinsics net number (node.chain number)) else none)

/-- What the scan keeps of a block's extrinsics. -/
def extrinsicKept (cursor : Option (ℕ × ℕ)) (filters : ExtrinsicFilters) (ext : Extrinsic) :
    Bool :=
  (cursor.all fun c => decide (toLex ext.key < toLex c)) && extrinsicSelected ext filters

/-- `ExtrinsicCursor`, of an extrinsic. -/
def extrinsicText (ext : Extrinsic) : String :=
  extrinsicCursor.toText (ext.blockNumber, ext.index)

/-- **`RpcProvider::latest_extrinsics`.** -/
def latestExtrinsics (net : Network) (node : Node) (req : PageRequest)
    (filters : ExtrinsicFilters) : Except BadRequest (Page Extrinsic) :=
  if req.count = 0 then .ok .empty
  else do
    let cursor ← parseCursor extrinsicCursor req
    let scanTip := cursor.elim node.bestHead fun c => min c.1 node.bestHead
    let target := req.count + 1
    let depth := max (req.count * 2) req.count
    let lowest := scanTip - (depth - 1)
    let blocks := (scanRange lowest scanTip).map (fetchBlockExtrinsics net node)
    let items ← scanChain target (extrinsicKept cursor filters) blocks []
    pure (scannedPage req.count extrinsicText items)

/-! ## `latest_transfers` -/

/-- `fetch_block_transfers`. -/
def fetchBlockTransfers (net : Network) (node : Node) (number : ℕ) :
    Except ScanError (Option (List (Transfer × ℕ))) :=
  if number ≤ node.bestHead then
    match Live.blockTransfers net node.chain number with
    | some transfers => .ok (some transfers)
    | none => .error .decode
  else .ok none

/-- `(block, event_idx)`. -/
def transferPlace (p : Transfer × ℕ) : ℕ × ℕ := (p.1.extrinsic.blockNumber, p.2)

/-- What the scan keeps of a block's transfers. -/
def transferKept (cursor : Option (ℕ × ℕ)) (filters : TransferFilters) (p : Transfer × ℕ) : Bool :=
  (cursor.all fun c => decide (toLex (transferPlace p) < toLex c)) &&
    transferMatchesFilters p.1 filters

/-- `TransferCursor`, of a transfer and its event. -/
def transferText (p : Transfer × ℕ) : String := transferCursor.toText (transferPlace p)

/-- `MAX_DEPTH`. -/
def maxDepth : ℕ := 200

/-- **`RpcProvider::latest_transfers`**, as far as its last step: the items
still have their events next to them. -/
def scanTransfers (net : Network) (node : Node) (filters : TransferFilters) (req : PageRequest) :
    Except ScanError (Page (Transfer × ℕ)) :=
  if req.count = 0 then .ok .empty
  else do
    let cursor ← (parseCursor transferCursor req).mapError .badRequest
    let tip := node.finalizedHead
    let scanTip := cursor.elim tip fun c => min c.1 tip
    let lowest := scanTip - maxDepth
    let target := req.count + 1
    let blocks := (scanRange lowest scanTip).map (fetchBlockTransfers net node)
    let items ← scanChain target (transferKept cursor filters) blocks []
    pure (scannedPage req.count transferText items)

/-- **`RpcProvider::latest_transfers`**: the events are dropped. -/
def latestTransfers (net : Network) (node : Node) (filters : TransferFilters)
    (req : PageRequest) : Except ScanError (Page Transfer) := do
  let page ← scanTransfers net node filters req
  pure { items := page.items.map Prod.fst, pageInfo := page.pageInfo }

end Rpc

end AllfeatExplorer
