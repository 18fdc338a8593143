import AllfeatExplorer.Live.Model.Socket
import AllfeatExplorer.Live.Model.Streams

/-!
# Seeds, and merging

What else fills the live buffers: a page fetched before the socket is
open, which takes the place of what a buffer holds, and `merge_live`,
which puts a live buffer in front of a page.
-/

namespace AllfeatExplorer

namespace Live

/-! ## The block buffers -/

namespace BlockBuffers

/-- `seedBlocks`. -/
def seedBlocks (store : BlockBuffers) (items : List Block) : BlockBuffers :=
  let sorted := items.mergeSort fun a b => decide (b.number ≤ a.number)
  { store with blocks := (dedupeBy Block.number [] sorted).take blocksCap }

/-- `seedWaveform`. -/
def seedWaveform (store : BlockBuffers) (items : List WaveformBlock) : BlockBuffers :=
  let sorted := items.mergeSort fun a b => decide (b.number ≤ a.number)
  { store with waveformBlocks := (dedupeBy WaveformBlock.number [] sorted).take waveformCap }

/-- `clearLive`. -/
def clearLive : BlockBuffers := ⟨[], []⟩

end BlockBuffers

/-! ## `merge_live` -/

/-- The loop of `merge_live`, with the keys seen and what is put out. -/
def mergeLoop {α κ : Type} [DecidableEq κ] (dedupKey : α → κ) (limit : ℕ) :
    List κ → List α → List α → List α
  | _, out, [] => out
  | keys, out, item :: rest =>
    if dedupKey item ∈ keys then mergeLoop dedupKey limit keys out rest
    else if limit ≤ (out ++ [item]).length then out ++ [item]
    else mergeLoop dedupKey limit (keys ++ [dedupKey item]) (out ++ [item]) rest

/-- **`merge_live`**: the live items, newest first, and then the page. -/
def mergeLive {α κ : Type} [DecidableEq κ] (dedupKey : α → κ) (live initial : List α)
    (limit : ℕ) : List α :=
  mergeLoop dedupKey limit [] [] (live ++ initial)

/-- `Transfer::dedup_key`. -/
def transferDedupKey (t : Transfer) : String := t.extrinsic.id

/-! ## `map_transfers` -/

/-- `index_events_by_phase`: the events of each extrinsic, with their
places in the block. -/
def indexEventsByPhase (events : List NodeEvent) : List (ℕ × List (ℕ × NodeEvent)) :=
  let indexed := events.zipIdx.filterMap fun (evt, j) =>
    match evt.phase with
    | .applyExtrinsic i => some (i, j, evt)
    | _ => none
  (indexed.map Prod.fst).dedup.map fun i =>
    (i, (indexed.filter fun e => e.1 = i).map Prod.snd)

/-- `decode_fields_unchecked_as::<balances::events::Transfer>()`. -/
def decodeTransfer : EventBody → Option (AccountId × AccountId × ℕ)
  | .transfer fromAcct toAcct amount => some (fromAcct, toAcct, amount)
  | _ => none

/-- One event of `map_transfers_with_event_idx`: nothing where it is no
transfer, and a fault where a transfer does not decode. -/
def mapTransferEvent (net : Network) (extrinsic : Extrinsic) (evt : ℕ × NodeEvent) :
    List (Option (Transfer × ℕ)) :=
  if evt.2.body.palletName ≠ "Balances" ∨ evt.2.body.eventName ≠ "Transfer" then []
  else [(decodeTransfer evt.2.body).map fun (fromAcct, toAcct, amount) =>
    (⟨extrinsic, net.encodeSs58 fromAcct, net.encodeSs58 toAcct, amount⟩, evt.1)]

/-- The loop of `map_transfers_with_event_idx`. -/
def collectTransfers (net : Network) (blockExtrinsics : List Extrinsic)
    (eventsByPhase : List (ℕ × List (ℕ × NodeEvent))) : Option (List (Transfer × ℕ)) :=
  (eventsByPhase.flatMap fun (idx, evtSlice) =>
    (blockExtrinsics.find? fun e => e.index = idx).elim [] fun extrinsic =>
      evtSlice.flatMap (mapTransferEvent net extrinsic)).mapM id

/-- **`map_transfers_with_event_idx`.** The order of the map is sorted away
again. -/
def mapTransfersWithEventIdx (net : Network) (blockExtrinsics : List Extrinsic)
    (eventsByPhase : List (ℕ × List (ℕ × NodeEvent))) : Option (List (Transfer × ℕ)) :=
  (collectTransfers net blockExtrinsics eventsByPhase).map fun out =>
    out.mergeSort fun a b => decide (a.2 ≤ b.2)

/-- The transfers of block `n`, as the live path maps them. -/
def blockTransfers (net : Network) (chain : Chain) (n : ℕ) : Option (List (Transfer × ℕ)) :=
  mapTransfersWithEventIdx net (Rpc.mapExtrinsics net n (chain n))
    (indexEventsByPhase (chain n).events)

end Live

end AllfeatExplorer
