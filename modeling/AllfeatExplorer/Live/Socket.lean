import AllfeatExplorer.Lib.Run
import AllfeatExplorer.Live.Model.Socket

/-!
# The buffers of one network

Frames reach the buffers from the current socket alone, and a switch from
one network to another empties them. Whether it is the first switch of the
page is told from there being no target and no socket, which is so after a
disposal too: then the buffers are kept for a network that may be another.
-/

namespace AllfeatExplorer

namespace Live

variable {c d : LiveClient} {a b : String} {act : ClientAction} {actions : List ClientAction}

/-! ## Items of one network -/

/-- **All that is buffered is of one network.** -/
structure LiveStore.AllOf (store : LiveStore) (network : String) : Prop where
  blocks : ∀ x ∈ store.blocks, x.network = network
  transfers : ∀ x ∈ store.transfers, x.network = network
  atsFeed : ∀ x ∈ store.atsFeed, x.network = network

section Buffers

variable {α κ : Type} [DecidableEq κ] {key : α → κ} {l : List α} {x y : α}

theorem mem_of_mem_dedupeBy {seen : List κ} (h : x ∈ dedupeBy key seen l) : x ∈ l := by
  induction l generalizing seen with
  | nil => exact h
  | cons z l ih =>
    rw [dedupeBy] at h
    split at h
    · exact List.mem_cons_of_mem z (ih h)
    · rcases List.mem_cons.mp h with rfl | hrest
      · exact List.mem_cons_self
      · exact List.mem_cons_of_mem z (ih hrest)

theorem mem_pushHead (h : x ∈ pushHead key l y) : x = y ∨ x ∈ l := by
  rcases List.mem_cons.mp (List.mem_of_mem_take h) with hnew | hold
  · exact .inl hnew
  · exact .inr (List.mem_of_mem_filter hold)

/-- What a seed keeps is of the network it is made for. -/
theorem network_of_mem_dedupeBy {items : List α} {keyOf : Sourced α → κ} {z : Sourced α}
    (h : z ∈ (dedupeBy keyOf [] (items.map (Sourced.mk a))).take liveCap) : z.network = a := by
  obtain ⟨item, -, rfl⟩ := List.mem_map.mp (mem_of_mem_dedupeBy (List.mem_of_mem_take h))
  rfl

end Buffers

namespace LiveStore.AllOf

variable {store : LiveStore}

theorem clear : LiveStore.clearLive.AllOf a where
  blocks := fun _ h => absurd h List.not_mem_nil
  transfers := fun _ h => absurd h List.not_mem_nil
  atsFeed := fun _ h => absurd h List.not_mem_nil

theorem seedBlocks (h : store.AllOf a) (items : List Block) :
    (store.seedBlocks (items.map (Sourced.mk a))).AllOf a where
  blocks := by
    intro x hx
    have hsorted := mem_of_mem_dedupeBy (List.mem_of_mem_take hx)
    obtain ⟨item, -, rfl⟩ := List.mem_map.mp (List.mem_mergeSort.mp hsorted)
    rfl
  transfers := h.transfers
  atsFeed := h.atsFeed

theorem seedTransfers (h : store.AllOf a) (items : List Transfer) :
    (store.seedTransfers (items.map (Sourced.mk a))).AllOf a where
  blocks := h.blocks
  transfers := fun _ hx => network_of_mem_dedupeBy hx
  atsFeed := h.atsFeed

theorem seedAtsFeed (h : store.AllOf a) (items : List AtsFeedItem) :
    (store.seedAtsFeed (items.map (Sourced.mk a))).AllOf a where
  blocks := h.blocks
  transfers := h.transfers
  atsFeed := fun _ hx => network_of_mem_dedupeBy hx

theorem pushBlock (h : store.AllOf a) (block : Block) :
    (store.pushBlock ⟨a, block⟩).AllOf a where
  blocks := by
    intro x hx
    rcases mem_upsert hx with rfl | ⟨hold, -⟩
    · rfl
    · exact h.blocks x hold
  transfers := h.transfers
  atsFeed := h.atsFeed

theorem pushTransfer (h : store.AllOf a) (transfer : Transfer) :
    (store.pushTransfer ⟨a, transfer⟩).AllOf a where
  blocks := h.blocks
  transfers := by
    intro x hx
    rcases mem_pushHead hx with rfl | hold
    · rfl
    · exact h.transfers x hold
  atsFeed := h.atsFeed

theorem pushAtsItem (h : store.AllOf a) (item : AtsFeedItem) :
    (store.pushAtsItem ⟨a, item⟩).AllOf a where
  blocks := h.blocks
  transfers := h.transfers
  atsFeed := by
    intro x hx
    rcases mem_pushHead hx with rfl | hold
    · rfl
    · exact h.atsFeed x hold

end LiveStore.AllOf

/-! ## One network -/

/-- **The client shows one network.** With a target, all that is buffered
is of it, and at most one socket is looked at, which was opened for it. -/
structure LiveClient.Unmixed (c : LiveClient) : Prop where
  buffers : ∀ target, c.targetNetworkId = some target → c.store.AllOf target
  current : ∀ target ws, c.targetNetworkId = some target → c.socket = some ws →
    c.opened[ws]? = some target
  one : ∀ ws ws', c.socket = some ws → c.socket = some ws' → ws = ws'

/-- **The condition on a step.** A network is switched to without a target
only if all that is buffered is of it. -/
def SwitchOk (c : LiveClient) : ClientAction → Prop
  | .switchNetwork (some networkId) => c.targetNetworkId = none → c.store.AllOf networkId
  | _ => True

/-! ## The invariant -/

/-- **What holds between two steps**: moreover, there is no socket without
a target, and none while the timer is set. -/
structure LiveClient.Inv (c : LiveClient) : Prop extends c.Unmixed where
  idle : c.targetNetworkId = none → c.socket = none
  timer : c.reconnectTimer = true → c.socket = none

theorem inv_loaded (store : LiveStore) : (LiveClient.loaded store).Inv where
  buffers := fun _ htarget => by cases htarget
  current := fun _ _ htarget => by cases htarget
  one := fun _ _ hsocket => by cases hsocket
  idle := fun _ => rfl
  timer := fun _ => rfl

/-- A client without a socket has but its buffers to keep to the target. -/
theorem inv_of_no_socket (hsocket : c.socket = none)
    (hstore : ∀ target, c.targetNetworkId = some target → c.store.AllOf target) : c.Inv where
  buffers := hstore
  current := fun target ws _ hws => by rw [hsocket] at hws; cases hws
  one := fun ws ws' hws => by rw [hsocket] at hws; cases hws
  idle := fun _ => hsocket
  timer := fun _ => hsocket

/-- **A socket is opened** with the timer off, on buffers of its network. -/
theorem inv_openSocket (htimer : c.reconnectTimer = false) (hstore : c.store.AllOf a) :
    (c.openSocket a).Inv where
  buffers := by
    intro target htarget
    obtain rfl := Option.some.inj htarget
    exact hstore
  current := by
    intro target ws htarget hws
    obtain rfl := Option.some.inj htarget
    obtain rfl := Option.some.inj hws
    exact List.getElem?_concat_length
  one := fun ws ws' hws hws' => Option.some.inj (hws.symm.trans hws')
  idle := fun htarget => by cases htarget
  timer := fun hset => by
    have hoff : c.reconnectTimer = true := hset
    rw [htimer] at hoff
    cases hoff

/-- Only the buffers change. -/
theorem inv_store (hi : c.Inv) {store : LiveStore}
    (hstore : ∀ target, c.targetNetworkId = some target → store.AllOf target) :
    ({ c with store := store } : LiveClient).Inv where
  buffers := hstore
  current := hi.current
  one := hi.one
  idle := hi.idle
  timer := hi.timer

/-! ## The steps -/

theorem inv_dispose (c : LiveClient) : c.dispose.Inv :=
  inv_of_no_socket rfl fun _ htarget => by cases htarget

/-- **A switch** empties the buffers, is to the same network, or finds no
target. -/
theorem inv_switchNetwork (hi : c.Inv) {networkId : Option String}
    (hok : SwitchOk c (.switchNetwork networkId)) : (c.switchNetwork networkId).Inv := by
  cases networkId with
  | none => exact inv_dispose c
  | some networkId =>
    simp only [LiveClient.switchNetwork, Option.elim_some]
    split
    · exact hi
    · refine inv_openSocket rfl ?_
      dsimp only
      split
      · rename_i hinitial
        have htarget : c.targetNetworkId = none :=
          Option.isNone_iff_eq_none.mp (Bool.and_eq_true_iff.mp hinitial).1
        exact hok htarget
      · exact .clear

/-- **A frame** comes from the current socket, which is for the target. -/
theorem inv_dispatch (hi : c.Inv) {ws : ℕ} (hsocket : c.socket = some ws)
    (hopened : c.opened[ws]? = some a) (msg : ServerMsg) : (c.dispatch a msg).Inv := by
  have hnetwork : ∀ target, c.targetNetworkId = some target → target = a := by
    intro target htarget
    have hfor := hi.current target ws htarget hsocket
    exact Option.some.inj (hfor.symm.trans hopened)
  have hof : ∀ target, c.targetNetworkId = some target → c.store.AllOf a := by
    intro target htarget
    rw [← hnetwork target htarget]
    exact hi.buffers target htarget
  cases msg with
  | block block =>
    refine inv_store hi fun target htarget => ?_
    rw [hnetwork target htarget]
    exact (hof target htarget).pushBlock block
  | transfer transfer =>
    refine inv_store hi fun target htarget => ?_
    rw [hnetwork target htarget]
    exact (hof target htarget).pushTransfer transfer
  | atsItem item =>
    refine inv_store hi fun target htarget => ?_
    rw [hnetwork target htarget]
    exact (hof target htarget).pushAtsItem item
  | ping => exact hi
  | error message => exact hi
  | bad raw => exact hi

theorem inv_onClose (hi : c.Inv) : c.onClose.Inv := by
  by_cases hclosing : c.closing = true
  · rw [show c.onClose = { c with socket := none, connection := .offline } by
      simp only [LiveClient.onClose, hclosing, if_true]]
    exact inv_of_no_socket rfl hi.buffers
  · simp only [LiveClient.onClose, hclosing]
    exact inv_of_no_socket rfl hi.buffers

/-- **The timer** opens a socket for the target again. -/
theorem inv_onTimer (hi : c.Inv) (htimer : c.reconnectTimer = true) : c.onTimer.Inv := by
  have hoff : ({ c with reconnectTimer := false } : LiveClient).Inv :=
    inv_of_no_socket (hi.timer htimer) hi.buffers
  cases htarget : c.targetNetworkId with
  | none =>
    rw [show c.onTimer = { c with reconnectTimer := false } by
      simp only [LiveClient.onTimer, htarget, Option.elim_none]]
    exact hoff
  | some target =>
    by_cases hopen : target ≠ "" ∧ c.closing = false
    · rw [show c.onTimer = ({ c with reconnectTimer := false } : LiveClient).openSocket target by
        simp only [LiveClient.onTimer, htarget, Option.elim_some, if_pos hopen]]
      exact inv_openSocket rfl (hi.buffers target htarget)
    · rw [show c.onTimer = { c with reconnectTimer := false } by
        simp only [LiveClient.onTimer, htarget, Option.elim_some, if_neg hopen]]
      exact hoff

/-- **A seed** is for the target. -/
theorem inv_seed {α : Type} {seed : LiveStore → List (Sourced α) → LiveStore} {items : List α}
    (hseed : ∀ {store : LiveStore} {network : String}, store.AllOf network →
      (seed store (items.map (Sourced.mk network))).AllOf network)
    (hi : c.Inv) (h : c.seed seed items = some d) : d.Inv := by
  obtain ⟨network, hnetwork, rfl⟩ := Option.map_eq_some_iff.mp h
  split
  · exact hi
  · refine inv_store hi fun target htarget => ?_
    obtain rfl : network = target := Option.some.inj (hnetwork.symm.trans htarget)
    exact hseed (hi.buffers network htarget)

/-- An event of some socket, which counts if the socket is current. -/
theorem inv_event (hi : c.Inv) {ws : ℕ} {next : String → LiveClient}
    (hnext : ∀ network, c.opened[ws]? = some network → c.socket = some ws → (next network).Inv)
    (h : (c.opened[ws]?.map fun network => if c.socket = some ws then next network else c) =
      some d) : d.Inv := by
  obtain ⟨network, hopened, rfl⟩ := Option.map_eq_some_iff.mp h
  split
  · rename_i hsocket
    exact hnext network hopened hsocket
  · exact hi

/-- **A step keeps the invariant**, if it meets the condition. -/
theorem inv_clientStep (hi : c.Inv) (hok : SwitchOk c act) (h : clientStep c act = some d) :
    d.Inv := by
  cases act with
  | switchNetwork networkId =>
    obtain rfl := Option.some.inj h
    exact inv_switchNetwork hi hok
  | dispose =>
    obtain rfl := Option.some.inj h
    exact inv_dispose c
  | socketOpen ws =>
    have hopened : ({ c with
        reconnectDelay := initialReconnectMs
        connection := .connected } : LiveClient).Inv :=
      { buffers := hi.buffers
        current := hi.current
        one := hi.one
        idle := hi.idle
        timer := hi.timer }
    exact inv_event hi (fun _ _ _ => hopened) h
  | socketMessage ws msg =>
    exact inv_event hi (fun _ hopened hsocket => inv_dispatch hi hsocket hopened msg) h
  | socketError ws =>
    obtain ⟨-, -, rfl⟩ := Option.map_eq_some_iff.mp h
    exact hi
  | socketClose ws => exact inv_event hi (fun _ _ _ => inv_onClose hi) h
  | seedBlocks items => exact inv_seed (fun hof => hof.seedBlocks items) hi h
  | seedTransfers items => exact inv_seed (fun hof => hof.seedTransfers items) hi h
  | seedAtsFeed items => exact inv_seed (fun hof => hof.seedAtsFeed items) hi h
  | timer =>
    rw [clientStep] at h
    split at h
    · rename_i htimer
      obtain rfl := Option.some.inj h
      exact inv_onTimer hi htimer
    · cases h

/-! ## The result -/

/-- Without a target and a socket, a switch keeps what is buffered. -/
theorem store_switchNetwork (htarget : c.targetNetworkId = none) (hsocket : c.socket = none) :
    (c.switchNetwork (some a)).store = c.store := by
  simp only [LiveClient.switchNetwork, Option.elim_some, htarget, hsocket]
  rfl

theorem targetNetworkId_switchNetwork (c : LiveClient) (a : String) :
    (c.switchNetwork (some a)).targetNetworkId = some a := by
  simp only [LiveClient.switchNetwork, Option.elim_some]
  split
  · rename_i hsame
    exact hsame.1
  · rfl

/-- **The buffers never mix networks** in a run, just if no network is
switched to without a target while items of another are buffered. -/
theorem unmixed_iff_switchOk (store : LiveStore) {actions : List ClientAction} {t : LiveClient}
    (h : run clientStep (.loaded store) actions = some t) :
    (∀ pre u, pre <+: actions → run clientStep (.loaded store) pre = some u → u.Unmixed) ↔
      EveryStep clientStep SwitchOk (.loaded store) actions := by
  refine holds_iff_everyStep (fun _ _ _ hi hok hs => inv_clientStep hi hok hs)
    (fun _ hi => hi.toUnmixed) ?_ (inv_loaded store) h
  intro c act d hi hs hunmixed
  cases act with
  | switchNetwork networkId =>
    cases networkId with
    | none => trivial
    | some networkId =>
      intro htarget
      obtain rfl := Option.some.inj hs
      -- The switch itself shows what was buffered before it.
      have hbuffers := hunmixed.buffers networkId (targetNetworkId_switchNetwork c networkId)
      rwa [store_switchNetwork htarget (hi.idle htarget)] at hbuffers
  | _ => trivial

/-- A block, as a frame has it. -/
def frameBlock : Block :=
  ⟨7, "0x07", "0x06", "0x00", "0x00", 0, false, 0, 0, "author", "", 0, 0, 0, 1, 0⟩

/-- A page is loaded for a network, and shows another after it. -/
def switchedOver : List ClientAction :=
  [.switchNetwork (some "melodie"), .socketOpen 0, .socketMessage 0 (.block frameBlock),
    .switchNetwork (some "allfeat")]

/-- The switch empties the buffers. -/
theorem unmixed_iff_switchOk_switchedOver :
    ∃ t, run clientStep (.loaded ⟨[], [], []⟩) switchedOver = some t ∧
      t.targetNetworkId = some "allfeat" ∧ t.Unmixed := by
  refine ⟨_, rfl, rfl, (unmixed_iff_switchOk ⟨[], [], []⟩
    (show run clientStep (.loaded ⟨[], [], []⟩) switchedOver = some _ from rfl)).mpr ?_
      switchedOver _ List.prefix_rfl rfl⟩
  refine (everyStep_cons rfl).mpr ⟨fun _ => LiveStore.AllOf.clear, (everyStep_cons rfl).mpr
    ⟨trivial, (everyStep_cons rfl).mpr ⟨trivial, (everyStep_cons rfl).mpr ⟨?_, trivial⟩⟩⟩⟩
  intro htarget
  cases htarget

/-- **After a switch to none** the blocks of one network stay buffered for
the next. -/
theorem not_unmixed_switchedOff :
    ∃ t, run clientStep (.loaded ⟨[], [], []⟩)
        [.switchNetwork (some "melodie"), .socketOpen 0, .socketMessage 0 (.block frameBlock),
          .switchNetwork none, .switchNetwork (some "allfeat")] = some t ∧
      t.targetNetworkId = some "allfeat" ∧ ¬ t.Unmixed := by
  refine ⟨_, rfl, rfl, fun hunmixed => ?_⟩
  have hblocks : ∀ x ∈ upsert (fun x : Sourced Block => x.item.number) liveCap []
      ⟨"melodie", frameBlock⟩, x.network = "allfeat" := (hunmixed.buffers "allfeat" rfl).blocks
  have hmelodie : "melodie" = "allfeat" :=
    hblocks ⟨"melodie", frameBlock⟩ (by simp [upsert, liveCap])
  revert hmelodie
  decide

end Live

end AllfeatExplorer
