import AllfeatExplorer.Live.Model.Encoder

/-!
# A session and its tasks

`run_session` of `src/live/server.rs` runs four kinds of tasks around one
bounded channel: the receiver, which reads the client's frames under two
limits, the heartbeat, the sink, and a forwarder for each subscription.
Each producer holds a clone of the channel's sender, and the sink ends when
the last one is dropped. A send takes its place in the queue when it gets
its permit. What the encoder hub does is left out: a call of `subscribe`
returns, and a forwarder's receiver has messages.
-/

namespace AllfeatExplorer

namespace Live

/-! ## The limits of the receiver -/

/-- `MAX_INBOUND_FRAMES_PER_SEC`. -/
def maxInboundFramesPerSec : ℕ := 20

/-- One second, in nanoseconds. -/
def second : ℕ := 1000000000

/-- **A frame of the client.** A text is parsed, or there is the text of
what is wrong with it. -/
inductive Frame where
  | text (parsed : Except String ClientMsg)
  | binary
  | ping
  | pong
  | close

/-- The locals of `run_receiver` but the forwarders. -/
structure Limits where
  windowStart : ℕ
  frameBudget : ℕ
  subscribesEver : ℕ

/-- The limits of a session that starts now. -/
def Limits.new (now : ℕ) : Limits := ⟨now, maxInboundFramesPerSec, 0⟩

/-- What is to be done for a frame before the next one is read. -/
inductive Todo where
  | nothing
  | reply (message : String)
  | subscribe (topic : Topic)
  | unsubscribe (topic : Topic)

/-- **What the loop does with a frame**: it returns at once, perhaps with a
message, or it goes through the frame and returns, or it goes on. -/
inductive Handling where
  | refuse (message : Option String)
  | last (message : Option String)
  | next (limits : Limits) (todo : Todo)

/-- The text of the frame that closes a session over its frame budget. -/
def rateLimitMessage : String := "inbound rate limit exceeded"

/-- Refill the budget when the window is over. -/
def Limits.refill (l : Limits) (now : ℕ) : Limits :=
  if second ≤ now - l.windowStart then
    { l with windowStart := now, frameBudget := maxInboundFramesPerSec }
  else l

/-- The `match frame` of the loop. -/
def Limits.dispatch (l : Limits) : Frame → Handling
  | .text (.ok (.subscribe topic)) =>
    let l := { l with subscribesEver := l.subscribesEver + 1 }
    if maxSubscribesPerSession < l.subscribesEver then
      .last (some "subscribe churn limit exceeded")
    else .next l (.subscribe topic)
  | .text (.ok (.unsubscribe topic)) => .next l (.unsubscribe topic)
  | .text (.ok .pong) => .next l .nothing
  | .text (.error e) => .next l (.reply ("bad client frame: " ++ e))
  | .binary => .next l (.reply "binary frames are not supported")
  | .ping => .next l .nothing
  | .pong => .next l .nothing
  | .close => .last none

/-- **One turn of the loop**, for what is read at `now`. -/
def Limits.receive (l : Limits) (now : ℕ) : Option Frame → Handling
  | none => .refuse none
  | some frame =>
    let l := l.refill now
    if l.frameBudget = 0 then .refuse (some rateLimitMessage)
    else { l with frameBudget := l.frameBudget - 1 }.dispatch frame

/-- **The loop of `run_receiver`** over what `ws_rx.next()` yields, each with
its time, and `none` for an error of the socket: the frames it goes
through. -/
def Limits.processed : Limits → List (ℕ × Option Frame) → List (ℕ × Option Frame)
  | _, [] => []
  | l, f :: fs =>
    match l.receive f.1 f.2 with
    | .refuse _ => []
    | .last _ => [f]
    | .next l _ => f :: l.processed fs

/-- Whether it returns as the frame budget is spent. -/
def Limits.rateLimited : Limits → List (ℕ × Option Frame) → Bool
  | _, [] => false
  | l, f :: fs =>
    match l.receive f.1 f.2 with
    | .refuse message => decide (message = some rateLimitMessage)
    | .last _ => false
    | .next l _ => l.rateLimited fs

/-! ## The tasks -/

/-- `SINK_CAPACITY`. -/
def sinkCapacity : ℕ := 128

/-- `HEARTBEAT_DROP_LIMIT`. -/
def heartbeatDropLimit : ℕ := 3

/-- A message of the channel. -/
inductive SinkMsg where
  | ping
  | error (message : String)
  | encoded (text : String)

/-- **Where the receiver is**: it reads, it waits in `spawn_forwarder` or
for room in the channel, or it has returned and dropped its sender. -/
inductive ReceiverTask where
  | reading
  | subscribing (topic : Topic)
  | sending (message : String) (last : Bool)
  | returned
deriving DecidableEq

/-- **A forwarder**: the message it waits to send, if one. A task whose
abort was requested may take steps before it is dropped. -/
structure ForwarderTask where
  topic : Topic
  holding : Option String
  aborted : Bool
  exited : Bool

/-- **The heartbeat**, with its consecutive drops. -/
inductive HeartbeatTask where
  | running (consecutiveDrops : ℕ) (aborted : Bool)
  | limitReached
  | sinkClosed
  | cancelled
deriving DecidableEq

/-- What `run_session` does next, once the receiver has returned. -/
inductive Teardown where
  | abortForwarders
  | abortHeartbeat
  | dropSender
  | awaitSink
deriving DecidableEq

/-- **A session.** A forwarder is its place in `tasks`. -/
structure SessionTasks where
  limits : Limits
  receiver : ReceiverTask
  forwarders : Topic → Option ℕ
  tasks : List ForwarderTask
  heartbeat : HeartbeatTask
  teardown : Teardown
  queue : List SinkMsg
  sinkReturned : Bool

namespace SessionTasks

/-- `run_session`, once its tasks are spawned. -/
def start (now : ℕ) : SessionTasks where
  limits := .new now
  receiver := .reading
  forwarders := fun _ => none
  tasks := []
  heartbeat := .running 0 false
  teardown := .abortForwarders
  queue := []
  sinkReturned := false

/-! ## The channel -/

/-- The channel is full. -/
def isFull (s : SessionTasks) : Bool := decide (sinkCapacity ≤ s.queue.length)

/-- A message takes its place in the queue. -/
def push (s : SessionTasks) (msg : SinkMsg) : SessionTasks := { s with queue := s.queue ++ [msg] }

/-- The heartbeat has not stopped. -/
def heartbeatRuns (s : SessionTasks) : Bool :=
  match s.heartbeat with
  | .running _ _ => true
  | _ => false

/-- **The live clones of the sender** but the heartbeat's: the receiver's,
that of `run_session`, and one a forwarder. -/
def otherSenders (s : SessionTasks) : ℕ :=
  (if s.receiver = .returned then 0 else 1) + (if s.teardown = .awaitSink then 0 else 1) +
    s.tasks.countP fun t => !t.exited

/-- All live clones. -/
def senders (s : SessionTasks) : ℕ := s.otherSenders + if s.heartbeatRuns then 1 else 0

/-- A forwarder changes. -/
def modifyTask (s : SessionTasks) (i : ℕ) (f : ForwarderTask → ForwarderTask) : SessionTasks :=
  { s with tasks := s.tasks.modify i f }

/-- `h.abort()` on a forwarder. -/
def abortForwarder (s : SessionTasks) (handle : Option ℕ) : SessionTasks :=
  handle.elim s fun i => s.modifyTask i fun t => { t with aborted := true }

/-- A forwarder ends, and drops its sender. -/
def exitTask (s : SessionTasks) (i : ℕ) : SessionTasks :=
  s.modifyTask i fun t => { t with holding := none, exited := true }

/-! ## The receiver -/

/-- A message is to be sent before the loop goes on or returns. -/
def reply (s : SessionTasks) (message : Option String) : SessionTasks :=
  { s with receiver := message.elim .returned fun m => .sending m true }

/-- **`run_receiver`, for a frame.** -/
def receiveFrame (s : SessionTasks) (now : ℕ) (frame : Option Frame) : SessionTasks :=
  match s.limits.receive now frame with
  | .refuse message => s.reply message
  | .last message => s.reply message
  | .next limits todo =>
    let s := { s with limits := limits }
    match todo with
    | .nothing => s
    | .reply message => { s with receiver := .sending message false }
    | .subscribe topic =>
      -- Already subscribed, says the map of handles.
      if (s.forwarders topic).isSome then s else { s with receiver := .subscribing topic }
    | .unsubscribe topic =>
      { s.abortForwarder (s.forwarders topic) with
        forwarders := Function.update s.forwarders topic none }

/-- `spawn_forwarder` returns: with a task, or with the text of an error. -/
def subscribed (s : SessionTasks) (topic : Topic) : Except String Unit → SessionTasks
  | .ok _ =>
    { s with
      receiver := .reading
      tasks := s.tasks ++ [⟨topic, none, false, false⟩]
      forwarders := Function.update s.forwarders topic (some s.tasks.length) }
  | .error message => { s with receiver := .sending message false }

/-- The receiver's send is over. -/
def sent (s : SessionTasks) (last : Bool) : SessionTasks :=
  { s with receiver := if last then .returned else .reading }

/-! ## The other tasks -/

/-- **A tick**: `try_send` of a ping. -/
def tick (s : SessionTasks) (drops : ℕ) (aborted : Bool) : SessionTasks :=
  if s.sinkReturned then { s with heartbeat := .sinkClosed }
  else if s.isFull then
    if heartbeatDropLimit ≤ drops + 1 then { s with heartbeat := .limitReached }
    else { s with heartbeat := .running (drops + 1) aborted }
  else { s.push .ping with heartbeat := .running 0 aborted }

/-- **The next step of `run_session`** after the receiver. -/
def tearDown (s : SessionTasks) : Option SessionTasks :=
  match s.teardown with
  | .abortForwarders =>
    let s := Topic.all.foldl (fun s topic => s.abortForwarder (s.forwarders topic)) s
    some { s with forwarders := fun _ => none, teardown := .abortHeartbeat }
  | .abortHeartbeat =>
    let heartbeat :=
      match s.heartbeat with
      | .running drops _ => .running drops true
      | stopped => stopped
    some { s with heartbeat := heartbeat, teardown := .dropSender }
  | .dropSender => some { s with teardown := .awaitSink }
  | .awaitSink => none

end SessionTasks

/-! ## Runs -/

/-- What happens next. -/
inductive SessionAction where
  | frame (now : ℕ) (frame : Option Frame)
  | streamEnd
  | subscribed (result : Except String Unit)
  | receiverSends
  | item (i : ℕ) (text : String)
  | lagged (i : ℕ)
  | broadcastClosed (i : ℕ)
  | forward (i : ℕ)
  | cancelForwarder (i : ℕ)
  | tick
  | cancelHeartbeat
  | tearDown
  | sinkSends (ok : Bool)
  | sinkEnds

/-- A forwarder that waits in `rx.recv()`. -/
def SessionTasks.receiving (s : SessionTasks) (i : ℕ) : Option ForwarderTask :=
  s.tasks[i]?.filter fun t => !t.exited && t.holding.isNone

/-- **One step.** -/
def sessionStep (s : SessionTasks) : SessionAction → Option SessionTasks
  | .frame now frame =>
    if s.receiver = .reading then some (s.receiveFrame now frame) else none
  | .streamEnd => if s.receiver = .reading then some { s with receiver := .returned } else none
  | .subscribed result =>
    match s.receiver with
    | .subscribing topic => some (s.subscribed topic result)
    | _ => none
  | .receiverSends =>
    match s.receiver with
    | .sending message last =>
      -- Whether the send succeeds makes no difference to the receiver.
      if s.sinkReturned then some (s.sent last)
      else if s.isFull then none
      else some ((s.push (.error message)).sent last)
    | _ => none
  | .item i text =>
    (s.receiving i).map fun _ => s.modifyTask i fun t => { t with holding := some text }
  | .lagged i => (s.receiving i).map fun _ => s
  | .broadcastClosed i => (s.receiving i).map fun _ => s.exitTask i
  | .forward i =>
    (s.tasks[i]?.filter fun t => !t.exited).bind fun t =>
      t.holding.bind fun text =>
        if s.sinkReturned then some (s.exitTask i)
        else if s.isFull then none
        else some ((s.push (.encoded text)).modifyTask i fun t => { t with holding := none })
  | .cancelForwarder i =>
    (s.tasks[i]?.filter fun t => !t.exited && t.aborted).map fun _ => s.exitTask i
  | .tick =>
    match s.heartbeat with
    | .running drops aborted => some (s.tick drops aborted)
    | _ => none
  | .cancelHeartbeat =>
    match s.heartbeat with
    | .running _ true => some { s with heartbeat := .cancelled }
    | _ => none
  | .tearDown => if s.receiver = .returned then s.tearDown else none
  -- `rx.recv()` has a message, and the socket takes it or fails.
  | .sinkSends ok =>
    match s.queue with
    | [] => none
    | _ :: rest =>
      if s.sinkReturned then none
      else if ok then some { s with queue := rest }
      else some { s with queue := [], sinkReturned := true }
  -- `rx.recv()` is at its end: the queue is empty and no sender is left.
  | .sinkEnds =>
    if s.sinkReturned = false ∧ s.queue = [] ∧ s.senders = 0 then
      some { s with sinkReturned := true }
    else none

end Live

end AllfeatExplorer
