import AllfeatExplorer.Data.Model.Domain
import AllfeatExplorer.Lib.Window

/-!
# The live socket of the web client

`useLiveSocket` keeps one WebSocket and the network it is for in a few
variables of its module; what the socket brings goes into the buffers of
`useLiveStore`. Every item is kept with the network it is of, which no
function looks at.
-/

namespace AllfeatExplorer

namespace Live

/-! ## The store -/

/-- An item and the network it was received from, or seeded for. -/
structure Sourced (α : Type) where
  network : String
  item : α

/-- `ConnState`. -/
inductive ConnState where
  | connecting
  | connected
  | reconnecting
  | offline
deriving DecidableEq

/-- **The live buffers.** -/
structure LiveStore where
  blocks : List (Sourced Block)
  transfers : List (Sourced Transfer)
  atsFeed : List (Sourced AtsFeedItem)

/-- `CAP`. -/
def liveCap : ℕ := 25

/-- `dedupeBy`: the first of each key stays. -/
def dedupeBy {α κ : Type} [DecidableEq κ] (key : α → κ) : List κ → List α → List α
  | _, [] => []
  | seen, a :: l =>
    if key a ∈ seen then dedupeBy key seen l else a :: dedupeBy key (key a :: seen) l

/-- The head insertion of `pushTransfer` and `pushAtsItem`. -/
def pushHead {α κ : Type} [DecidableEq κ] (key : α → κ) (l : List α) (a : α) : List α :=
  (a :: l.filter fun x => decide (key x ≠ key a)).take liveCap

/-- `atsKey`. -/
def atsKey (a : AtsFeedItem) : ℕ × ℕ := (a.atsId, a.versionIndex)

namespace LiveStore

/-- `seedBlocks`. -/
def seedBlocks (store : LiveStore) (items : List (Sourced Block)) : LiveStore :=
  let sorted := items.mergeSort fun a b => decide (b.item.number ≤ a.item.number)
  { store with blocks := (dedupeBy (fun x => x.item.number) [] sorted).take liveCap }

/-- `pushBlock`. -/
def pushBlock (store : LiveStore) (b : Sourced Block) : LiveStore :=
  { store with blocks := upsert (fun x => x.item.number) liveCap store.blocks b }

/-- `seedTransfers`. -/
def seedTransfers (store : LiveStore) (items : List (Sourced Transfer)) : LiveStore :=
  { store with transfers := (dedupeBy (fun x => x.item.extrinsic.id) [] items).take liveCap }

/-- `pushTransfer`. -/
def pushTransfer (store : LiveStore) (t : Sourced Transfer) : LiveStore :=
  { store with transfers := pushHead (fun x => x.item.extrinsic.id) store.transfers t }

/-- `seedAtsFeed`. -/
def seedAtsFeed (store : LiveStore) (items : List (Sourced AtsFeedItem)) : LiveStore :=
  { store with atsFeed := (dedupeBy (fun x => atsKey x.item) [] items).take liveCap }

/-- `pushAtsItem`. -/
def pushAtsItem (store : LiveStore) (a : Sourced AtsFeedItem) : LiveStore :=
  { store with atsFeed := pushHead (fun x => atsKey x.item) store.atsFeed a }

/-- `clearLive`. -/
def clearLive : LiveStore := ⟨[], [], []⟩

end LiveStore

/-! ## The socket -/

/-- `INITIAL_RECONNECT_MS`. -/
def initialReconnectMs : ℕ := 250

/-- `MAX_RECONNECT_MS`. -/
def maxReconnectMs : ℕ := 5000

/-- **The variables of the module, and the store.** `opened` has the
network of every WebSocket there was; a WebSocket is its place in it. -/
structure LiveClient where
  opened : List String
  socket : Option ℕ
  reconnectTimer : Bool
  reconnectDelay : ℕ
  targetNetworkId : Option String
  closing : Bool
  connection : ConnState
  store : LiveStore

/-- The page as it is loaded, with what was seeded on the server. -/
def LiveClient.loaded (store : LiveStore) : LiveClient :=
  ⟨[], none, false, initialReconnectMs, none, false, .connecting, store⟩

/-- `ServerMsg`, or a frame that does not parse. -/
inductive ServerMsg where
  | block (b : Block)
  | transfer (t : Transfer)
  | atsItem (a : AtsFeedItem)
  | ping
  | error (message : String)
  | bad (raw : String)

namespace LiveClient

/-- `open`. -/
def openSocket (c : LiveClient) (networkId : String) : LiveClient :=
  { c with
    closing := false
    targetNetworkId := some networkId
    connection := if c.socket.isSome then .reconnecting else .connecting
    opened := c.opened ++ [networkId]
    socket := some c.opened.length }

/-- `dispatch`: only three of the messages reach the store. -/
def dispatch (c : LiveClient) (network : String) : ServerMsg → LiveClient
  | .block b => { c with store := c.store.pushBlock ⟨network, b⟩ }
  | .transfer t => { c with store := c.store.pushTransfer ⟨network, t⟩ }
  | .atsItem a => { c with store := c.store.pushAtsItem ⟨network, a⟩ }
  | .ping | .error _ | .bad _ => c

/-- The listener of `close`. -/
def onClose (c : LiveClient) : LiveClient :=
  let c := { c with socket := none }
  if c.closing then { c with connection := .offline }
  else
    { c with
      connection := .reconnecting
      reconnectTimer := true
      reconnectDelay := min (c.reconnectDelay * 2) maxReconnectMs }

/-- The callback of the timer. An empty text is no target. -/
def onTimer (c : LiveClient) : LiveClient :=
  let c := { c with reconnectTimer := false }
  c.targetNetworkId.elim c fun target =>
    if target ≠ "" ∧ c.closing = false then c.openSocket target else c

/-- `dispose`. -/
def dispose (c : LiveClient) : LiveClient :=
  { c with
    closing := true
    reconnectTimer := false
    socket := none
    targetNetworkId := none
    connection := .offline }

/-- **`switchNetwork`.** -/
def switchNetwork (c : LiveClient) (networkId : Option String) : LiveClient :=
  networkId.elim c.dispose fun networkId =>
    if c.targetNetworkId = some networkId ∧ c.socket.isSome then c
    else
      let isInitialOpen := c.targetNetworkId.isNone && c.socket.isNone
      let closing := if c.socket.isSome then true else c.closing
      let store := if isInitialOpen then c.store else .clearLive
      { c with
        reconnectTimer := false
        closing := closing
        socket := none
        store := store
        reconnectDelay := initialReconnectMs }.openSocket networkId

end LiveClient

/-! ## Runs -/

/-- What happens next: a call, an event of some socket there was, a seed
for the target, or the timer. -/
inductive ClientAction where
  | switchNetwork (networkId : Option String)
  | dispose
  | socketOpen (ws : ℕ)
  | socketMessage (ws : ℕ) (msg : ServerMsg)
  | socketError (ws : ℕ)
  | socketClose (ws : ℕ)
  | seedBlocks (items : List Block)
  | seedTransfers (items : List Transfer)
  | seedAtsFeed (items : List AtsFeedItem)
  | timer

/-- A seed is made for the target. -/
def LiveClient.seed {α : Type} (c : LiveClient) (seed : LiveStore → List (Sourced α) → LiveStore)
    (items : List α) : Option LiveClient :=
  c.targetNetworkId.map fun target =>
    if items = [] then c else { c with store := seed c.store (items.map (Sourced.mk target)) }

/-- **One step.** The events of a socket that is not the current one are
ignored, and an error only closes its socket. -/
def clientStep (c : LiveClient) : ClientAction → Option LiveClient
  | .switchNetwork networkId => some (c.switchNetwork networkId)
  | .dispose => some c.dispose
  | .socketOpen ws =>
    c.opened[ws]?.map fun _ =>
      if c.socket = some ws then
        { c with reconnectDelay := initialReconnectMs, connection := .connected }
      else c
  | .socketMessage ws msg =>
    c.opened[ws]?.map fun network => if c.socket = some ws then c.dispatch network msg else c
  | .socketError ws => c.opened[ws]?.map fun _ => c
  | .socketClose ws => c.opened[ws]?.map fun _ => if c.socket = some ws then c.onClose else c
  | .seedBlocks items => c.seed LiveStore.seedBlocks items
  | .seedTransfers items => c.seed LiveStore.seedTransfers items
  | .seedAtsFeed items => c.seed LiveStore.seedAtsFeed items
  | .timer => if c.reconnectTimer then some c.onTimer else none

end Live

end AllfeatExplorer
