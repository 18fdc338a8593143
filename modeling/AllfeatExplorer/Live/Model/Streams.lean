import AllfeatExplorer.Data.Model.Rpc
import AllfeatExplorer.Lib.Window

/-!
# The live block stream

Two tasks broadcast blocks over one channel. `run_best_stream` reads the
finalized head once it has pinned a best block, and maps the block with
that head; `run_finalized_head_watch` publishes the head and maps the
final block again. Their steps interleave. What a browser shows is a
window of the frames, the newest numbers first.
-/

namespace AllfeatExplorer

namespace Live

/-! ## The tasks -/

/-- Where `run_best_stream` is. -/
inductive BestTask where
  | waiting
  | received (number : ℕ)
  | pinned (number finalizedHead : ℕ)
  | mapped (block : Block)

/-- Where `run_finalized_head_watch` is. -/
inductive WatchTask where
  | waiting
  | received (number : ℕ)
  | mapped (block : Block)

/-- **The two heads, the two tasks, and all frames broadcast**, the oldest
first. -/
structure Streams where
  finalizedHead : Option ℕ
  bestHead : Option ℕ
  best : BestTask
  watch : WatchTask
  sent : List Block

/-- What happens next. `hasBlocks` says whether the channel has a
receiver, and a block that is mapped is what the node has under the
number then. -/
inductive StreamAction where
  | bestReceive (number : ℕ) (hasBlocks : Bool)
  | bestPin
  | bestMap (blk : NodeBlock)
  | bestSend
  | watchReceive (number : ℕ) (hasBlocks : Bool)
  | watchMap (blk : NodeBlock)
  | watchSend
  | restart

/-- **One step.** Finalized heads never decrease; `restart` is the end of a
pass, which drops both tasks and keeps the heads. -/
def streamStep (net : Network) (s : Streams) : StreamAction → Option Streams
  | .bestReceive number hasBlocks =>
    match s.best with
    | .waiting =>
      some { s with
        bestHead := some number
        best := if hasBlocks then .received number else .waiting }
    | _ => none
  | .bestPin =>
    match s.best with
    | .received number => some { s with best := .pinned number (s.finalizedHead.getD 0) }
    | _ => none
  | .bestMap blk =>
    match s.best with
    | .pinned number finalizedHead =>
      some { s with best := .mapped (Rpc.mapBlock net finalizedHead number blk) }
    | _ => none
  | .bestSend =>
    match s.best with
    | .mapped block => some { s with best := .waiting, sent := s.sent ++ [block] }
    | _ => none
  | .watchReceive number hasBlocks =>
    match s.watch with
    | .waiting =>
      if s.finalizedHead.all fun head => decide (head ≤ number) then
        some { s with
          finalizedHead := some number
          watch := if hasBlocks then .received number else .waiting }
      else none
    | _ => none
  | .watchMap blk =>
    match s.watch with
    | .received number => some { s with watch := .mapped (Rpc.mapBlock net number number blk) }
    | _ => none
  | .watchSend =>
    match s.watch with
    | .mapped block => some { s with watch := .waiting, sent := s.sent ++ [block] }
    | _ => none
  | .restart => some { s with best := .waiting, watch := .waiting }

/-- The start of a pass, whatever head the one before left. -/
def Streams.start (finalizedHead : Option ℕ) : Streams :=
  ⟨finalizedHead, none, .waiting, .waiting, []⟩

/-! ## The store -/

/-- `WaveformBlock`. -/
structure WaveformBlock where
  number : ℕ
  extrinsicCount : ℕ
  eventCount : ℕ
  refTimePct : ℕ
  finalized : Bool
  timestampMs : ℤ
deriving DecidableEq

/-- `blockToWaveform`. -/
def blockToWaveform (b : Block) : WaveformBlock :=
  { number := b.number
    extrinsicCount := b.extrinsicCount
    eventCount := b.eventCount
    refTimePct := b.refTimePct
    finalized := b.finalized
    timestampMs := b.timestampMs }

/-- `CAP`. -/
def blocksCap : ℕ := 25

/-- `WAVEFORM_CAP`. -/
def waveformCap : ℕ := 72

/-- The block buffers of `useLiveStore`. -/
structure BlockBuffers where
  blocks : List Block
  waveformBlocks : List WaveformBlock

/-- `pushBlock`, which mirrors the block into the waveform. -/
def BlockBuffers.pushBlock (store : BlockBuffers) (b : Block) : BlockBuffers where
  blocks := upsert Block.number blocksCap store.blocks b
  waveformBlocks :=
    upsert WaveformBlock.number waveformCap store.waveformBlocks (blockToWaveform b)

/-- The buffers after some frames. -/
def BlockBuffers.after (frames : List Block) : BlockBuffers :=
  frames.foldl BlockBuffers.pushBlock ⟨[], []⟩

end Live

end AllfeatExplorer
