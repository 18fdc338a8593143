import AllfeatExplorer.Data.Model.Rpc
import AllfeatExplorer.Lib.SingleFlight

/-!
# The node reads behind their caches

`RpcProvider`'s per-block views as they run: a read takes the heads, waits
for the cache of its view, and loads on a miss, while the best chain grows
or is reorganised and blocks become final. The caches have no TTL and are
taken never to evict; a call that fails otherwise than by a block the node
does not have answers an error and stores nothing.
-/

namespace AllfeatExplorer

open Projections

namespace Rpc

/-! ## `events_in_block` -/

/-- `phase_to_domain`. -/
def phaseToDomain : Phase → EventPhase
  | .initialization => .initialization
  | .applyExtrinsic i => .applyExtrinsic i
  | .finalization => .finalization

/-- **`map_block_events`.** -/
def mapBlockEvents (net : Network) (number : ℕ) (blk : NodeBlock) : List BlockEvent :=
  blk.events.mapIdx fun idx evt =>
    { blockNumber := number
      index := wrapU32 idx
      phase := phaseToDomain evt.phase
      module := evt.body.palletName
      name := evt.body.eventName
      fields := net.decodeEventFields evt.body.palletName evt.body.eventName evt.fieldBytes
      timestampMs := fetchTimestamp blk }

/-- The extrinsic of a block at an index. -/
def extrinsicAt (net : Network) (number idx : ℕ) (blk : NodeBlock) : Option Extrinsic :=
  (mapExtrinsics net number blk).find? fun e => e.index = idx

/-! ## `Caches` -/

/-- **The per-block caches.** -/
structure Caches where
  blockByNumber : SingleFlight ℕ Block
  extrinsicsInBlock : SingleFlight ℕ (List Extrinsic)
  eventsInBlock : SingleFlight ℕ (List BlockEvent)
  extrinsicById : SingleFlight (ℕ × ℕ) Extrinsic

/-- `Caches::new`. -/
def Caches.new : Caches := ⟨.empty, .empty, .empty, .empty⟩

/-- A call of one of the four views. -/
inductive Request where
  | blockByNumber (number : ℕ)
  | extrinsicsInBlock (block : ℕ)
  | eventsInBlock (block : ℕ)
  | extrinsicById (id : String)

/-- Which cache, and its key. -/
inductive Key where
  | block (number : ℕ)
  | extrinsics (block : ℕ)
  | events (block : ℕ)
  | extrinsic (block idx : ℕ)

/-- The block that is read. -/
def Key.number : Key → ℕ
  | .block n | .extrinsics n | .events n | .extrinsic n _ => n

/-- The key of a call; an id that does not parse has none. -/
def Request.key : Request → Option Key
  | .blockByNumber n => some (.block n)
  | .extrinsicsInBlock n => some (.extrinsics n)
  | .eventsInBlock n => some (.events n)
  | .extrinsicById id => (parseExtrinsicId id).map fun (block, idx) => .extrinsic block idx

/-- What a call answers where it does not fail. -/
inductive Answer where
  | block (found : Option Block)
  | extrinsics (found : List Extrinsic)
  | events (found : List BlockEvent)
  | extrinsic (found : Option Extrinsic)
deriving DecidableEq

/-- The answer for a number above the best head. -/
def Key.beyond : Key → Answer
  | .block _ => .block none
  | .extrinsics _ => .extrinsics []
  | .events _ => .events []
  | .extrinsic _ _ => .extrinsic none

/-- The answer of an entry. -/
def Caches.hit (c : Caches) : Key → Option Answer
  | .block n => (c.blockByNumber.entries n).map fun b => .block (some b)
  | .extrinsics n => (c.extrinsicsInBlock.entries n).map .extrinsics
  | .events n => (c.eventsInBlock.entries n).map .events
  | .extrinsic n i => (c.extrinsicById.entries (n, i)).map fun e => .extrinsic (some e)

/-- **The loader of a view**, where the node has the block or has not. It
stores nothing where it fails: `block_by_number` and `extrinsic_by_id`
answer a miss. -/
def Caches.load (net : Network) (chain : Chain) (finalizedHead : ℕ) (found : Bool) (c : Caches) :
    Key → Option (Except Answer Caches)
  | .block n =>
    if c.blockByNumber.free n then
      some <|
        if found then
          .ok { c with
            blockByNumber := c.blockByNumber.load n (mapBlock net finalizedHead n (chain n)) }
        else .error (.block none)
    else none
  | .extrinsics n =>
    if c.extrinsicsInBlock.free n then
      some <| .ok { c with
        extrinsicsInBlock :=
          c.extrinsicsInBlock.load n (if found then mapExtrinsics net n (chain n) else []) }
    else none
  | .events n =>
    if c.eventsInBlock.free n then
      some <| .ok { c with
        eventsInBlock :=
          c.eventsInBlock.load n (if found then mapBlockEvents net n (chain n) else []) }
    else none
  | .extrinsic n i =>
    if c.extrinsicById.free (n, i) then
      some <|
        match (if found then extrinsicAt net n i (chain n) else none) with
        | some e => .ok { c with extrinsicById := c.extrinsicById.load (n, i) e }
        | none => .error (.extrinsic none)
    else none

/-- A load is stored. -/
def Caches.store (c : Caches) : Key → Option Caches
  | .block n => (c.blockByNumber.store n).map fun s => { c with blockByNumber := s }
  | .extrinsics n => (c.extrinsicsInBlock.store n).map fun s => { c with extrinsicsInBlock := s }
  | .events n => (c.eventsInBlock.store n).map fun s => { c with eventsInBlock := s }
  | .extrinsic n i => (c.extrinsicById.store (n, i)).map fun s => { c with extrinsicById := s }

/-! ## Runs -/

/-- **The node, the caches, and the reads under way**: each with the
finalized head it took. -/
structure State where
  node : Node
  caches : Caches
  reads : ℕ → Option (Key × ℕ)

/-- Empty caches in front of a node. -/
def State.start (node : Node) : State := ⟨node, .new, fun _ => none⟩

/-- The read is over. -/
def State.done (s : State) (task : ℕ) : State :=
  { s with reads := Function.update s.reads task none }

/-- What happens next: the best chain becomes another branch, blocks
become final, or a read goes on. -/
inductive Action where
  | newBest (branch : Node)
  | finalize (head : ℕ)
  | call (task : ℕ) (request : Request)
  | load (task : ℕ) (found : Bool)
  | store (key : Key)
  | answer (task : ℕ)
  | fail (task : ℕ)

/-- **Another branch becomes the best chain**, a longer one or a reorg. It
has the final blocks. -/
def Node.newBest (node branch : Node) (h : node.finalizedHead ≤ branch.bestHead) : Node where
  chain := fun n => if n ≤ node.finalizedHead then node.chain n else branch.chain n
  finalizedHead := node.finalizedHead
  bestHead := branch.bestHead
  finalized_le := h
  best_le := branch.best_le
  typed := by
    intro n hn
    split
    · rename_i hfinal
      exact node.typed n (le_trans hfinal node.finalized_le)
    · exact branch.typed n hn

/-- More of the chain is final. -/
def Node.finalize (node : Node) (head : ℕ) (h : head ≤ node.bestHead) : Node :=
  { node with finalizedHead := head, finalized_le := h }

/-- **One step**, and what it answers. -/
def act (net : Network) (s : State) : Action → Option (State × Option (Key × Answer))
  | .newBest branch =>
    if h : s.node.finalizedHead ≤ branch.bestHead then
      some ({ s with node := Node.newBest s.node branch h }, none)
    else none
  | .finalize head =>
    if h : head ≤ s.node.bestHead then
      if s.node.finalizedHead ≤ head then
        some ({ s with node := Node.finalize s.node head h }, none)
      else none
    else none
  | .call task request =>
    match s.reads task with
    | some _ => none
    | none =>
      match request.key with
      -- `Ok(None)`, of no block.
      | none => some (s, none)
      | some key =>
        if key.number > s.node.bestHead then some (s, some (key, key.beyond))
        else
          some ({ s with
            reads := Function.update s.reads task (some (key, s.node.finalizedHead)) }, none)
  | .load task found =>
    match s.reads task with
    | none => none
    | some (key, finalizedHead) =>
      if found ∧ key.number > s.node.bestHead then none
      else
        match s.caches.load net s.node.chain finalizedHead found key with
        | none => none
        | some (.ok caches) => some ({ s with caches := caches }, none)
        | some (.error missed) => some (s.done task, some (key, missed))
  | .store key => (s.caches.store key).map fun caches => ({ s with caches := caches }, none)
  | .answer task =>
    match s.reads task with
    | none => none
    | some (key, _) => (s.caches.hit key).map fun found => (s.done task, some (key, found))
  | .fail task =>
    match s.reads task with
    | none => none
    | some _ => some (s.done task, none)

/-- The state alone. -/
def step (net : Network) (s : State) (a : Action) : Option State := (act net s a).map Prod.fst

end Rpc

end AllfeatExplorer
