import Mathlib.Data.Nat.Notation
import Mathlib.Logic.Function.Basic

/-!
# The encoder hub

`EncoderHub` keeps a weak entry for each network and topic, whose task pumps
the provider's stream into a broadcast channel. What `subscribe` returns is
a lease, which keeps the entry alive, and a receiver; a session's forwarder
holds both. The entry has a sender of the channel, and the task another. A
call of `subscribe` that waits for the provider has the map locked.
-/

namespace AllfeatExplorer

namespace Live

/-! ## The state -/

/-- `Topic`. -/
inductive Topic where
  | blocks
  | transfers
  | atsFeed
deriving DecidableEq

/-- `Topic::ALL`. -/
def Topic.all : List Topic := [.blocks, .transfers, .atsFeed]

/-- `Key`: the id of a network, and a topic. -/
abbrev HubKey := String × Topic

/-- `ENCODED_CAP`. -/
def encodedCap : ℕ := 256

/-- `MAX_SUBSCRIBES_PER_SESSION`. -/
def maxSubscribesPerSession : ℕ := 128

/-- **An entry there was and its task.** The stream is the provider's; a
task that is aborted exits later. -/
structure Encoder where
  key : HubKey
  streamEnded : Bool
  aborted : Bool
  exited : Bool

/-- **What a call of `subscribe` returned**: a lease and a receiver with
some messages to receive. A session's forwarder, which has its session,
drops both as it exits; it remembers whether it did as the channel was
closed. -/
structure Holder where
  entry : ℕ
  session : Option ℕ
  lease : Bool
  receiver : Bool
  pending : ℕ
  aborted : Bool
  sawClosed : Bool

/-- A session. While it waits in `spawn_forwarder` it reads no frame. -/
structure Session where
  network : String
  closed : Bool
  sinkClosed : Bool
  subscribesEver : ℕ
  subscribing : Option Topic
  forwarders : Topic → Option ℕ

/-- Who calls `subscribe`: a session for a frame it read, or someone else. -/
inductive Caller where
  | session (id : ℕ) (topic : Topic)
  | other (key : HubKey)

/-- The session that calls, if one does. -/
def Caller.session? : Caller → Option ℕ
  | .session x _ => some x
  | .other _ => none

/-- **The hub and its users.** An entry is its place in `encoders`, and a
handle the place in `holders`. -/
structure Hub where
  encoders : List Encoder
  map : HubKey → Option ℕ
  lock : Option (Caller × HubKey)
  holders : List Holder
  sessions : List Session

namespace Hub

/-- `EncoderHub::new`. -/
def new : Hub := ⟨[], fun _ => none, none, [], []⟩

/-! ## Leases -/

/-- The strong count of an entry. -/
def strongCount (s : Hub) (e : ℕ) : ℕ :=
  s.holders.countP fun h => h.lease && decide (h.entry = e)

/-- `weak.upgrade()`, for the entry under a key. -/
def upgrade (s : Hub) (key : HubKey) : Option ℕ :=
  (s.map key).filter fun e => decide (0 < s.strongCount e)

/-- **The channel is closed**: the entry's sender is gone, and the task's. -/
def isClosed (s : Hub) (e : ℕ) : Bool :=
  decide (s.strongCount e = 0) && s.encoders[e]?.any fun x => x.exited

/-- `handle.abort()` on the task of an entry. -/
def abortTask (s : Hub) (e : ℕ) : Hub :=
  { s with encoders := s.encoders.modify e fun x => { x with aborted := true } }

/-- The task exits, and drops its sender. -/
def exitTask (s : Hub) (e : ℕ) : Hub :=
  { s with encoders := s.encoders.modify e fun x => { x with exited := true } }

/-- A holder changes. -/
def modifyHolder (s : Hub) (i : ℕ) (f : Holder → Holder) : Hub :=
  { s with holders := s.holders.modify i f }

/-- A session changes. -/
def modifySession (s : Hub) (x : ℕ) (f : Session → Session) : Hub :=
  { s with sessions := s.sessions.modify x f }

/-- **A lease on an entry is dropped.** With the last one goes
`EncoderEntry`, which aborts the task. -/
def dropLease (s : Hub) (i e : ℕ) : Hub :=
  let s := s.modifyHolder i fun h => { h with lease := false }
  if s.strongCount e = 0 then s.abortTask e else s

/-- A forwarder exits: first the receiver is dropped, then the lease. -/
def exitForwarder (s : Hub) (i e : ℕ) : Hub :=
  (s.modifyHolder i fun h => { h with receiver := false }).dropLease i e

/-! ## `subscribe` -/

/-- The key of a call that is to be made. -/
def callKey (s : Hub) : Caller → Option HubKey
  | .session x topic =>
    s.sessions[x]?.bind fun session =>
      if session.subscribing = some topic then some (session.network, topic) else none
  | .other key => some key

/-- The call returns: a session goes on, with a handle or without. -/
def returns (s : Hub) (caller : Caller) (handle : Option ℕ) : Hub :=
  match caller with
  | .other _ => s
  | .session x topic =>
    s.modifySession x fun session =>
      { session with
        subscribing := none
        forwarders := handle.elim session.forwarders fun i =>
          Function.update session.forwarders topic (some i) }

/-- **The caller gets a lease and a receiver.** -/
def attach (s : Hub) (caller : Caller) (e : ℕ) : Hub :=
  let attached : Hub :=
    { s with holders := s.holders ++ [⟨e, caller.session?, true, true, 0, false, false⟩] }
  attached.returns caller (some s.holders.length)

/-- A task is spawned for a stream of the provider, and its entry inserted. -/
def insertEntry (s : Hub) (key : HubKey) : Hub :=
  { s with
    encoders := s.encoders ++ [⟨key, false, false, false⟩]
    map := Function.update s.map key (some s.encoders.length) }

/-! ## Frames -/

/-- `h.abort()` on a forwarder. -/
def abortForwarder (s : Hub) (handle : Option ℕ) : Hub :=
  handle.elim s fun i => s.modifyHolder i fun h => { h with aborted := true }

/-- **The receiver of a session returns**, and the forwarders are aborted. -/
def closeSession (s : Hub) (x : ℕ) (session : Session) : Hub :=
  (Topic.all.foldl (fun s topic => s.abortForwarder (session.forwarders topic)) s).modifySession x
    fun session => { session with closed := true, forwarders := fun _ => none }

end Hub

/-- `ClientMsg`. -/
inductive ClientMsg where
  | subscribe (topic : Topic)
  | unsubscribe (topic : Topic)
  | pong

namespace Hub

/-- **`run_receiver`, for a frame.** -/
def receiveFrame (s : Hub) (x : ℕ) (session : Session) : ClientMsg → Hub
  | .subscribe topic =>
    let subscribesEver := session.subscribesEver + 1
    let s := s.modifySession x fun session => { session with subscribesEver := subscribesEver }
    if maxSubscribesPerSession < subscribesEver then s.closeSession x session
    -- Already subscribed, says the map of handles.
    else if (session.forwarders topic).isSome then s
    else s.modifySession x fun session => { session with subscribing := some topic }
  | .unsubscribe topic =>
    (s.abortForwarder (session.forwarders topic)).modifySession x fun session =>
      { session with forwarders := Function.update session.forwarders topic none }
  | .pong => s

/-- **`rx.recv()`**, and what `forward_encoded` makes of it. A forwarder
exits if the sink is closed or the channel is. -/
def recv (s : Hub) (i : ℕ) (h : Holder) : Option Hub :=
  let sinkClosed := h.session.bind fun x => s.sessions[x]?.map fun session => session.sinkClosed
  if h.receiver = false then none
  else if 0 < h.pending then
    if sinkClosed = some true then some (s.exitForwarder i h.entry)
    else some (s.modifyHolder i fun h => { h with pending := h.pending - 1 })
  else if s.isClosed h.entry then
    let s := s.modifyHolder i fun h => { h with sawClosed := true }
    some (if h.session.isSome then s.exitForwarder i h.entry else s)
  else none

/-- A message of the task: every receiver of the channel has one more to
receive, or misses the oldest. -/
def send (s : Hub) (e : ℕ) : Hub :=
  { s with
    holders := s.holders.map fun h =>
      if h.receiver && decide (h.entry = e) then
        { h with pending := min (h.pending + 1) encodedCap }
      else h }

end Hub

/-! ## Runs -/

/-- What happens next. A call of `subscribe` that finds no entry waits for
the provider. -/
inductive HubAction where
  | connect (network : String)
  | frame (x : ℕ) (msg : ClientMsg)
  | closeSession (x : ℕ)
  | closeSink (x : ℕ)
  | subscribe (caller : Caller)
  | provider (ok : Bool)
  | recv (i : ℕ)
  | dropAborted (i : ℕ)
  | dropLease (i : ℕ)
  | dropReceiver (i : ℕ)
  | item (e : ℕ)
  | streamEnd (e : ℕ)
  | taskExit (e : ℕ)

/-- An open session that waits for no call. -/
def Hub.reading (s : Hub) (x : ℕ) : Option Session :=
  s.sessions[x]?.filter fun session => !session.closed && session.subscribing.isNone

/-- **One step.** -/
def hubStep (s : Hub) : HubAction → Option Hub
  | .connect network =>
    some { s with sessions := s.sessions ++ [⟨network, false, false, 0, none, fun _ => none⟩] }
  | .frame x msg => (s.reading x).map fun session => s.receiveFrame x session msg
  | .closeSession x => (s.reading x).map fun session => s.closeSession x session
  | .closeSink x => some (s.modifySession x fun session => { session with sinkClosed := true })
  | .subscribe caller =>
    if s.lock.isSome then none
    else
      (s.callKey caller).map fun key =>
        (s.upgrade key).elim { s with lock := some (caller, key) } fun e => s.attach caller e
  | .provider ok =>
    s.lock.map fun (caller, key) =>
      let s := { s with lock := none }
      if ok then (s.insertEntry key).attach caller s.encoders.length else s.returns caller none
  | .recv i => s.holders[i]?.bind fun h => s.recv i h
  | .dropAborted i =>
    s.holders[i]?.bind fun h =>
      if h.session.isSome && h.aborted && h.receiver then some (s.exitForwarder i h.entry) else none
  -- A forwarder drops neither by itself.
  | .dropLease i =>
    s.holders[i]?.bind fun h =>
      if h.session.isNone && h.lease then some (s.dropLease i h.entry) else none
  | .dropReceiver i =>
    s.holders[i]?.bind fun h =>
      if h.session.isNone then some (s.modifyHolder i fun h => { h with receiver := false })
      else none
  | .item e =>
    s.encoders[e]?.bind fun x => if x.streamEnded || x.exited then none else some (s.send e)
  | .streamEnd e =>
    s.encoders[e]?.map fun _ =>
      { s with encoders := s.encoders.modify e fun x => { x with streamEnded := true } }
  -- The loop ends with the stream, or the task is aborted.
  | .taskExit e =>
    s.encoders[e]?.bind fun x =>
      if !x.exited && (x.streamEnded || x.aborted) then some (s.exitTask e) else none

end Live

end AllfeatExplorer
