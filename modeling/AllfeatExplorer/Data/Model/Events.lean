import AllfeatExplorer.Data.Model.Caches
import AllfeatExplorer.Data.Model.Lists
import AllfeatExplorer.Data.Model.Provider

/-!
# The newest events

`RpcProvider::latest_events`, which serves indexed networks as well: no
table holds events. A page scans blocks back from the cursor's own,
twice as many as it has rows, and keeps what is older than the cursor.
-/

namespace AllfeatExplorer

open Queries

/-! ## `EventCursor` -/

/-- `EventPhaseKind`. -/
inductive EventPhaseKind where
  | initialization
  | applyExtrinsic
  | finalization
deriving DecidableEq

/-- `EventPhaseKind::letter`. -/
def EventPhaseKind.letter : EventPhaseKind → Char
  | .initialization => 'I'
  | .applyExtrinsic => 'A'
  | .finalization => 'F'

/-- `EventPhaseKind::from_letter`. -/
def EventPhaseKind.fromLetter (c : Char) : Option EventPhaseKind :=
  if c = 'I' then some .initialization
  else if c = 'A' then some .applyExtrinsic
  else if c = 'F' then some .finalization
  else none

/-- `EventPhaseKind::from`. -/
def EventPhase.kind : EventPhase → EventPhaseKind
  | .initialization => .initialization
  | .applyExtrinsic _ => .applyExtrinsic
  | .finalization => .finalization

/-- `EventCursor`: `<block>-<phase>-<idx>`. -/
structure EventCursor where
  block : ℕ
  phase : EventPhaseKind
  index : ℕ
deriving DecidableEq

/-- The phase part of a cursor: one letter. -/
def parsePhase : List Char → Option EventPhaseKind
  | [c] => EventPhaseKind.fromLetter c
  | _ => none

/-- The three parts of a cursor. -/
def parseEventParts (b p i : List Char) : Option EventCursor :=
  (Decimal.readDec u64Max b).bind fun block =>
    (parsePhase p).bind fun phase =>
      (Decimal.readDec u32Max i).map fun index => ⟨block, phase, index⟩

/-- The text of an `EventCursor`. `splitn(3, '-')` leaves whatever follows
the second dash to the index. -/
def eventCursor : CursorText EventCursor where
  toText c :=
    String.ofList (Decimal.showDec c.block ++ '-' :: c.phase.letter :: '-' ::
      Decimal.showDec c.index)
  fromStr s :=
    let parsed := (Decimal.splitOnce '-' s.toList).bind fun (b, rest) =>
      (Decimal.splitOnce '-' rest).bind fun (p, i) => parseEventParts b p i
    match parsed with
    | some c => .ok c
    | none => .error ⟨s, "<block>-<phase>-<idx> with phase in I|A|F"⟩

/-! ## `latest_events` -/

/-- `EventFilters`. -/
structure EventFilters where
  pallet : Option String
  variant : Option String
deriving DecidableEq

/-- `EventFilters::default`. -/
def EventFilters.none : EventFilters := ⟨.none, .none⟩

/-- `event_matches_filters`. -/
def eventMatchesFilters (event : BlockEvent) (filters : EventFilters) : Bool :=
  (filters.pallet.all fun pallet => event.module = pallet) &&
  (filters.variant.all fun variant => event.name = variant)

/-- Where an event stands. -/
def BlockEvent.key (ev : BlockEvent) : ℕ ×ₗ ℕ := toLex (ev.blockNumber, ev.index)

/-- The cursor made of an event. -/
def BlockEvent.cursor (ev : BlockEvent) : EventCursor := ⟨ev.blockNumber, ev.phase.kind, ev.index⟩

/-- What the cursor is compared by: its phase is not. -/
def EventCursor.key (c : EventCursor) : ℕ ×ₗ ℕ := toLex (c.block, c.index)

namespace Rpc

/-- What the scan keeps. -/
def eventKept (cursor : Option EventCursor) (filters : EventFilters) (ev : BlockEvent) : Bool :=
  (cursor.all fun c => decide (ev.key < c.key)) && eventMatchesFilters ev filters

/-- The scan over one block's events, newest first: what it leaves in
`items`, and whether it broke off the whole scan. -/
def scanEvents (target : ℕ) (cursor : Option EventCursor) (filters : EventFilters) :
    List BlockEvent → List BlockEvent → List BlockEvent × Bool
  | [], items => (items, false)
  | ev :: rest, items =>
    if eventKept cursor filters ev = false then scanEvents target cursor filters rest items
    else if target ≤ items.length then (items, true)
    else scanEvents target cursor filters rest (items ++ [ev])

/-- The scan over the blocks; one the node does not have ends it. -/
def scanBlocks (target : ℕ) (cursor : Option EventCursor) (filters : EventFilters) :
    List (Option (List BlockEvent)) → List BlockEvent → List BlockEvent
  | [], items => items
  | none :: _, items => items
  | some events :: rest, items =>
    let (items, done) := scanEvents target cursor filters events.reverse items
    if done then items else scanBlocks target cursor filters rest items

/-- `fetch_block_events_with_ts`. -/
def fetchBlockEventsWithTs (net : Network) (node : Node) (number : ℕ) :
    Option (List BlockEvent) :=
  if number ≤ node.bestHead then some (mapBlockEvents net number (node.chain number)) else none

/-- **`RpcProvider::latest_events`.** -/
def latestEvents (net : Network) (node : Node) (req : PageRequest) (filters : EventFilters) :
    Except BadRequest (Page BlockEvent) :=
  if req.count = 0 then .ok .empty
  else do
    let cursor ← parseCursor eventCursor req
    let scanTip := cursor.elim node.bestHead fun c => min c.block node.bestHead
    let target := req.count + 1
    let depth := max (req.count * 2) req.count
    let lowest := scanTip - (depth - 1)
    let blocks := (List.range' lowest (scanTip + 1 - lowest)).reverse.map
      (fetchBlockEventsWithTs net node)
    let (items, hasMore) := trimProbe req.count (scanBlocks target cursor filters blocks [])
    pure
      { items := items
        pageInfo :=
          { total := none
            nextCursor := nextCursor hasMore (fun ev => eventCursor.toText ev.cursor) items
            hasMore := hasMore } }

end Rpc

/-- `IndexedProvider::latest_events`. -/
def IndexedProvider.latestEvents (p : IndexedProvider) (req : PageRequest)
    (filters : EventFilters) : Except BadRequest (Page BlockEvent) :=
  Rpc.latestEvents p.net p.node req filters

end AllfeatExplorer
