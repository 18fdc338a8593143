import Mathlib.Data.Nat.Notation

/-!
# The shared client and its watcher

`RpcClient`: one connection in a slot under a lock, the two head
channels, and the flag that a watcher supervisor is running. Callers of
`subxt()` take the connection or open it, and retry once; the supervisor
drives one pass of streams after another and backs off after a failure.
The steps of all tasks interleave. The caches that a client clears with
its slot are modelled apart.
-/

namespace AllfeatExplorer

namespace Live

/-- `WATCHER_INITIAL_BACKOFF`, in milliseconds. -/
def watcherInitialBackoff : ℕ := 250

/-- `WATCHER_MAX_BACKOFF`, in milliseconds. -/
def watcherMaxBackoff : ℕ := 30000

/-- A task that may hold the lock for writing. -/
inductive RpcTask where
  | caller (k : ℕ)
  | supervisor (i : ℕ)
deriving DecidableEq

/-- **Where a call of `subxt()` is.** `second` is the call's second
`connect_or_reuse`. A connection is given by the number it was opened
as. -/
inductive CallerStage where
  | reading (second : Bool)
  | wantWrite (second : Bool)
  | connecting (second : Bool)
  | spawning (conn : ℕ)
  | wantInvalidate
  | invalidating
  | returned (conn : Option ℕ)
  | cancelled
deriving DecidableEq

/-- **Where `run_watcher_supervisor` is.** -/
inductive SupervisorStage where
  | checking
  | reading
  | wantWrite
  | connecting
  | streaming (conn : ℕ)
  | clearing
  | sleeping
  | exiting
  | ended
deriving DecidableEq

/-- A supervisor: where it is, and its backoff. It remembers whether its
last pass came to a natural end, which no step looks at. -/
structure Supervisor where
  stage : SupervisorStage
  backoff : ℕ
  eof : Bool
deriving DecidableEq

/-- Whether a call is over. -/
def CallerStage.over : CallerStage → Bool
  | .returned _ | .cancelled => true
  | _ => false

/-- Whether a call holds the lock for writing. -/
def CallerStage.holds : CallerStage → Bool
  | .connecting _ | .invalidating => true
  | _ => false

/-- Whether `run_watcher_supervisor` has returned. -/
def SupervisorStage.returned : SupervisorStage → Bool
  | .exiting | .ended => true
  | _ => false

/-- Whether a supervisor holds the lock for writing. -/
def SupervisorStage.holds : SupervisorStage → Bool
  | .connecting => true
  | _ => false

/-- **`RpcClient` and its tasks.** `lock` is who holds the lock for
writing, `alive` is `watcher_alive`, `owned` says that the client is not
dropped yet, and `watchers` counts the receivers `watch_finalized_head`
handed out. `opened` and `dropped` count the connections opened, and the
connections taken out of the slot. -/
structure RpcClient where
  inner : Option ℕ
  lock : Option RpcTask
  finalizedHead : Option ℕ
  bestHead : Option ℕ
  alive : Bool
  callers : List CallerStage
  supervisors : List Supervisor
  owned : Bool
  watchers : ℕ
  opened : ℕ
  dropped : ℕ

namespace RpcClient

/-- `RpcClient::new`. -/
def new : RpcClient :=
  ⟨none, none, none, none, false, [], [], true, 0, 0, 0⟩

/-- The caller goes on. -/
def setCaller (c : RpcClient) (k : ℕ) (stage : CallerStage) : RpcClient :=
  { c with callers := c.callers.set k stage }

/-- The supervisor goes on. -/
def setSupervisor (c : RpcClient) (i : ℕ) (sup : Supervisor) : RpcClient :=
  { c with supervisors := c.supervisors.set i sup }

/-- The supervisor goes on, with its backoff as it is. -/
def moveSupervisor (c : RpcClient) (i : ℕ) (sup : Supervisor) (stage : SupervisorStage) :
    RpcClient :=
  c.setSupervisor i { sup with stage }

/-- `*guard = Some(client)` with a connection just opened, and the lock
released. -/
def connect (c : RpcClient) : RpcClient :=
  { c with inner := some c.opened, opened := c.opened + 1, lock := none }

/-- `*guard = None`, and both heads reset. The client is the only receiver
of the best head, and a `send` with no receiver changes nothing. -/
def clear (c : RpcClient) : RpcClient :=
  { c with
    inner := none
    dropped := c.dropped + if c.inner.isSome then 1 else 0
    finalizedHead := none
    bestHead := if c.owned then none else c.bestHead }

/-- The receivers of the finalized head: the client's own, those handed
out, and the one each supervisor keeps until it returns. -/
def headReceivers (c : RpcClient) : ℕ :=
  (if c.owned then 1 else 0) + c.watchers +
    c.supervisors.countP fun sup => !sup.stage.returned

/-- `ensure_watcher_running`: a supervisor is spawned by whoever turns the
flag. -/
def ensureWatcherRunning (c : RpcClient) : RpcClient :=
  if c.alive then c
  else
    { c with
      alive := true
      supervisors := c.supervisors ++ [⟨.checking, watcherInitialBackoff, false⟩] }

end RpcClient

/-- **What happens next**, and to which task. A call may be dropped where
it awaits. -/
inductive RpcAction where
  | warmUp
  | watchHead
  | unwatchHead
  | dropClient
  | call
  | read (k : ℕ)
  | acquire (k : ℕ)
  | connected (k : ℕ)
  | connectFailed (k : ℕ)
  | spawn (k : ℕ)
  | invalidate (k : ℕ)
  | invalidated (k : ℕ)
  | cancel (k : ℕ)
  | watcherCheck (i : ℕ)
  | watcherRead (i : ℕ)
  | watcherAcquire (i : ℕ)
  | watcherConnected (i : ℕ)
  | watcherConnectFailed (i : ℕ)
  | publishFinalized (i number : ℕ)
  | publishBest (i number : ℕ)
  | streamErrored (i : ℕ)
  | streamEof (i : ℕ)
  | watcherClear (i : ℕ)
  | watcherWake (i : ℕ)
  | watcherReturn (i : ℕ)
deriving DecidableEq

/-- The step of a call that is at a stage. -/
def callerStep (c : RpcClient) (k : ℕ) : CallerStage → RpcAction → Option RpcClient
  | .reading second, .read _ =>
    if c.lock = none then
      match c.inner with
      | some conn => some (c.setCaller k (.returned (some conn)))
      | none => some (c.setCaller k (.wantWrite second))
    else none
  | .wantWrite second, .acquire _ =>
    if c.lock = none then
      -- Someone else may have connected since the read.
      match c.inner with
      | some conn => some (c.setCaller k (.returned (some conn)))
      | none =>
        some ({ c with lock := some (.caller k) }.setCaller k (.connecting second))
    else none
  | .connecting _, .connected _ => some (c.connect.setCaller k (.spawning c.opened))
  | .connecting second, .connectFailed _ =>
    let stage := if second then .returned none else .wantInvalidate
    some ({ c with lock := none }.setCaller k stage)
  | .spawning conn, .spawn _ => some (c.ensureWatcherRunning.setCaller k (.returned (some conn)))
  | .wantInvalidate, .invalidate _ =>
    if c.lock = none then
      some ({ c.clear with lock := some (.caller k) }.setCaller k .invalidating)
    else none
  | .invalidating, .invalidated _ => some ({ c with lock := none }.setCaller k (.reading true))
  | .spawning _, .cancel _ => none
  | stage, .cancel _ =>
    if stage.over then none
    else
      let lock := if stage.holds then none else c.lock
      some ({ c with lock }.setCaller k .cancelled)
  | _, _ => none

/-- The step of a supervisor that is at a stage. -/
def supervisorStep (c : RpcClient) (i : ℕ) (sup : Supervisor) :
    SupervisorStage → RpcAction → Option RpcClient
  | .checking, .watcherCheck _ =>
    some (c.moveSupervisor i sup (if c.headReceivers = 0 then .exiting else .reading))
  | .reading, .watcherRead _ =>
    if c.lock = none then
      match c.inner with
      | some conn => some (c.moveSupervisor i sup (.streaming conn))
      | none => some (c.moveSupervisor i sup .wantWrite)
    else none
  | .wantWrite, .watcherAcquire _ =>
    if c.lock = none then
      match c.inner with
      | some conn => some (c.moveSupervisor i sup (.streaming conn))
      | none => some ({ c with lock := some (.supervisor i) }.moveSupervisor i sup .connecting)
    else none
  | .connecting, .watcherConnected _ =>
    some (c.connect.moveSupervisor i sup (.streaming c.opened))
  | .connecting, .watcherConnectFailed _ =>
    some ({ c with lock := none }.moveSupervisor i sup .sleeping)
  | .streaming _, .publishFinalized _ number =>
    if c.headReceivers = 0 then some (c.moveSupervisor i sup .exiting)
    else some { c with finalizedHead := some number }
  | .streaming _, .publishBest _ number =>
    some (if c.owned then { c with bestHead := some number } else c)
  | .streaming _, .streamErrored _ => some (c.setSupervisor i ⟨.clearing, sup.backoff, false⟩)
  | .streaming _, .streamEof _ =>
    some (c.setSupervisor i ⟨.checking, watcherInitialBackoff, true⟩)
  | .clearing, .watcherClear _ =>
    if c.lock = none then some (c.clear.moveSupervisor i sup .sleeping) else none
  | .sleeping, .watcherWake _ =>
    let backoff := min (sup.backoff * 2) watcherMaxBackoff
    some (c.setSupervisor i ⟨.checking, backoff, sup.eof⟩)
  | .exiting, .watcherReturn _ =>
    some ({ c with alive := false }.moveSupervisor i sup .ended)
  | _, _ => none

/-- The call an action is a step of. -/
def RpcAction.caller : RpcAction → Option ℕ
  | .read k | .acquire k | .connected k | .connectFailed k | .spawn k | .invalidate k
  | .invalidated k | .cancel k => some k
  | _ => none

/-- The supervisor an action is a step of. -/
def RpcAction.supervisor : RpcAction → Option ℕ
  | .watcherCheck i | .watcherRead i | .watcherAcquire i | .watcherConnected i
  | .watcherConnectFailed i | .publishFinalized i _ | .publishBest i _ | .streamErrored i
  | .streamEof i | .watcherClear i | .watcherWake i | .watcherReturn i => some i
  | _ => none

/-- **One step.** A dropped client takes no further call, and is dropped
once every call is over. -/
def rpcStep (c : RpcClient) (action : RpcAction) : Option RpcClient :=
  match action with
  | .warmUp => if c.owned then some c.ensureWatcherRunning else none
  | .watchHead => if c.owned then some { c with watchers := c.watchers + 1 } else none
  | .unwatchHead => if 0 < c.watchers then some { c with watchers := c.watchers - 1 } else none
  | .dropClient =>
    if c.owned ∧ c.callers.all CallerStage.over then some { c with owned := false } else none
  | .call =>
    if c.owned then some { c with callers := c.callers ++ [.reading false] } else none
  | action =>
    match action.caller, action.supervisor with
    | some k, _ => c.callers[k]?.bind fun stage => callerStep c k stage action
    | none, some i =>
      c.supervisors[i]?.bind fun sup => supervisorStep c i sup sup.stage action
    | none, none => none

end Live

end AllfeatExplorer
