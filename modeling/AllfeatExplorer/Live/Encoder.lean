import AllfeatExplorer.Lib.Run
import AllfeatExplorer.Live.Model.Encoder

/-!
# The hub while streams end

A live entry is in the map and its task is neither aborted nor, as long as
its stream goes on, exited. But a stream that ends under a lease leaves the
entry alive, with a sender of the channel: it is served to who comes next,
and no receiver sees the channel closed.
-/

namespace AllfeatExplorer

namespace Live

variable {s t : Hub} {act : HubAction} {actions : List HubAction} {key : HubKey} {e i x : ℕ}
  {h : Holder} {enc : Encoder}

namespace Hub

/-! ## Who is served -/

/-- An entry that is alive, and the task it owns. -/
def Owned (s : Hub) (key : HubKey) (e : ℕ) : Prop :=
  ∃ enc, s.encoders[e]? = some enc ∧ enc.key = key ∧ 0 < s.strongCount e

/-- **A task pumps its provider's stream.** -/
def Pumping (s : Hub) (e : ℕ) : Prop :=
  ∃ enc, s.encoders[e]? = some enc ∧ enc.streamEnded = false ∧ enc.aborted = false ∧
    enc.exited = false

/-- **No dead encoder is served.** -/
structure Served (s : Hub) : Prop where
  /-- At most one task for a key is owned by a live entry. -/
  one : ∀ key e e', s.Owned key e → s.Owned key e' → e = e'
  /-- What the map has for a call is pumping. -/
  found : ∀ key e, s.upgrade key = some e → s.Pumping e
  /-- Who gets a receiver is attached to a task that is pumping, or to a new
  one. -/
  attached : ∀ act (t : Hub) (i : ℕ) (h : Holder), hubStep s act = some t → s.holders[i]? = none →
    t.holders[i]? = some h → t.Pumping h.entry ∨ s.encoders[h.entry]? = none
  /-- Where the stream has ended, the channel closes with the task. -/
  closes : ∀ (i : ℕ) (h : Holder) (enc : Encoder), s.holders[i]? = some h → h.receiver = true →
    s.encoders[h.entry]? = some enc → enc.streamEnded = true →
    (s.exitTask h.entry).isClosed h.entry = true
  /-- A forwarder that sees the channel closed exits. -/
  exits : ∀ (i : ℕ) (h : Holder) (t : Hub), s.holders[i]? = some h → h.session.isSome →
    h.pending = 0 → s.isClosed h.entry = true → hubStep s (.recv i) = some t →
    ∃ h', t.holders[i]? = some h' ∧ h'.receiver = false ∧ h'.lease = false
  /-- Then the session subscribes again. -/
  restarts : ∀ (i : ℕ) (h : Holder) (x : ℕ) session topic (t : Hub), s.holders[i]? = some h →
    h.session = some x → h.sawClosed = true → s.sessions[x]? = some session →
    session.forwarders topic = some i →
    hubStep s (.frame x (.subscribe topic)) = some t →
    ∃ session', t.sessions[x]? = some session' ∧
      (session'.subscribing = some topic ∨ session'.closed = true)

end Hub

/-- **The condition on a step.** A stream ends only when no lease of its
entry is held. -/
def StreamOk (s : Hub) : HubAction → Prop
  | .streamEnd e => s.strongCount e = 0
  | _ => True

namespace Hub

/-! ## Leases -/

/-- An entry is alive while a lease on it is held. -/
theorem strongCount_pos :
    0 < s.strongCount e ↔ ∃ h ∈ s.holders, h.lease = true ∧ h.entry = e := by
  rw [strongCount, List.countP_pos_iff]
  simp only [Bool.and_eq_true, decide_eq_true_eq]

/-- What the map has for a key is alive. -/
theorem upgrade_eq_some : s.upgrade key = some e ↔ s.map key = some e ∧ 0 < s.strongCount e := by
  rw [upgrade, Option.filter_eq_some_iff, decide_eq_true_eq]

theorem isClosed_iff :
    s.isClosed e = true ↔
      s.strongCount e = 0 ∧ ∃ enc, s.encoders[e]? = some enc ∧ enc.exited = true := by
  rw [isClosed, Bool.and_eq_true, decide_eq_true_eq]
  cases hentry : s.encoders[e]? with
  | none => simp
  | some enc => simp

/-! ## The invariant -/

/-- **What holds between two steps.** A live entry is in the map, and its
task is pumping; and a forwarder has a lease as long as it receives. -/
structure Inv (s : Hub) : Prop where
  entries : ∀ h ∈ s.holders, h.entry < s.encoders.length
  keyed : ∀ key e, s.map key = some e → ∃ enc, s.encoders[e]? = some enc ∧ enc.key = key
  mapped : ∀ e enc, s.encoders[e]? = some enc → 0 < s.strongCount e → s.map enc.key = some e
  pumping : ∀ e, 0 < s.strongCount e → s.Pumping e
  locked : ∀ caller key, s.lock = some (caller, key) → s.upgrade key = none
  leased : ∀ h ∈ s.holders, h.session.isSome → h.receiver = true → h.lease = true
  unseen : ∀ h ∈ s.holders, h.session.isSome → h.sawClosed = false

theorem inv_new : Hub.new.Inv where
  entries := fun _ h => absurd h List.not_mem_nil
  keyed := fun _ _ h => by cases h
  mapped := fun _ _ h => by cases h
  pumping := fun _ h => absurd h (Nat.lt_irrefl 0)
  locked := fun _ _ h => by cases h
  leased := fun _ h => absurd h List.not_mem_nil
  unseen := fun _ h => absurd h List.not_mem_nil

/-- A task with leases on its entry is not about to exit. -/
theorem Inv.strongCount_eq_zero (hi : s.Inv) (henc : s.encoders[e]? = some enc)
    (hdead : enc.streamEnded = true ∨ enc.aborted = true ∨ enc.exited = true) :
    s.strongCount e = 0 := by
  by_contra hne
  obtain ⟨enc', henc', hended, haborted, hexited⟩ := hi.pumping e (Nat.pos_of_ne_zero hne)
  obtain rfl : enc = enc' := Option.some.inj (henc.symm.trans henc')
  simp only [hended, haborted, hexited] at hdead
  simp at hdead

end Hub

/-! ## Steps that bring nothing new -/

/-- What a holder keeps of what it was. -/
structure Holder.Keeps (h' h : Holder) : Prop where
  entry : h'.entry = h.entry
  session : h'.session = h.session
  lease : h'.lease = true → h.lease = true
  receiver : h'.session.isSome → h'.receiver = true →
    h.receiver = true ∧ (h.lease = true → h'.lease = true)
  sawClosed : h'.session.isSome → h.sawClosed = false → h'.sawClosed = false

/-- What is aborted, and how much there is to receive, is of no account. -/
theorem Holder.Keeps.of_eq {h h' : Holder} (hentry : h'.entry = h.entry)
    (hsession : h'.session = h.session) (hlease : h'.lease = h.lease)
    (hreceiver : h'.receiver = h.receiver) (hsaw : h'.sawClosed = h.sawClosed) : h'.Keeps h where
  entry := hentry
  session := hsession
  lease := fun hl => hlease ▸ hl
  receiver := fun _ hr => ⟨hreceiver ▸ hr, fun hl => hlease ▸ hl⟩
  sawClosed := fun _ hs => hsaw ▸ hs

theorem Holder.Keeps.refl (h : Holder) : h.Keeps h :=
  .of_eq rfl rfl rfl rfl rfl

theorem Holder.Keeps.trans {h h' h'' : Holder} (hk' : h''.Keeps h') (hk : h'.Keeps h) :
    h''.Keeps h where
  entry := hk'.entry.trans hk.entry
  session := hk'.session.trans hk.session
  lease := fun hl => hk.lease (hk'.lease hl)
  receiver := by
    intro hs hr
    obtain ⟨hr', hl'⟩ := hk'.receiver hs hr
    rw [hk'.session] at hs
    obtain ⟨hr'', hl⟩ := hk.receiver hs hr'
    exact ⟨hr'', fun h => hl' (hl h)⟩
  sawClosed := by
    intro hs hsaw
    have hs' := hs
    rw [hk'.session] at hs'
    exact hk'.sawClosed hs (hk.sawClosed hs' hsaw)

namespace Hub

/-- **Nothing new**: no entry, lease or receiver comes, and a task goes on
as it did while its entry is alive. -/
structure Calm (s t : Hub) : Prop where
  map : t.map = s.map
  lock : t.lock = s.lock ∨ t.lock = none
  length : t.encoders.length = s.encoders.length
  key : ∀ e enc, s.encoders[e]? = some enc →
    ∃ enc', t.encoders[e]? = some enc' ∧ enc'.key = enc.key ∧
      (0 < t.strongCount e → enc' = enc)
  size : t.holders.length = s.holders.length
  holders : ∀ h' ∈ t.holders, ∃ h ∈ s.holders, h'.Keeps h

/-- No lease comes. -/
theorem strongCount_pos_of_keeps (hh : ∀ h' ∈ t.holders, ∃ h ∈ s.holders, h'.Keeps h)
    (hpos : 0 < t.strongCount e) : 0 < s.strongCount e := by
  obtain ⟨h', hmem', hlease, hentry⟩ := strongCount_pos.mp hpos
  obtain ⟨h, hmem, hkeeps⟩ := hh h' hmem'
  exact strongCount_pos.mpr ⟨h, hmem, hkeeps.lease hlease, hkeeps.entry ▸ hentry⟩

/-- **The invariant stays** where nothing new comes. -/
theorem Inv.calm (hi : s.Inv) (hc : s.Calm t) : t.Inv := by
  have hpos : ∀ e, 0 < t.strongCount e → 0 < s.strongCount e := fun _ =>
    strongCount_pos_of_keeps hc.holders
  -- The task of an entry that is alive after the step was there before it.
  have hback : ∀ e enc', t.encoders[e]? = some enc' → 0 < t.strongCount e →
      s.encoders[e]? = some enc' := by
    intro e enc' henc' hlive
    have hlt : e < s.encoders.length := hc.length ▸ (List.getElem?_eq_some_iff.mp henc').1
    obtain ⟨enc'', henc'', -, hsame⟩ := hc.key e _ (List.getElem?_eq_getElem hlt)
    obtain rfl : enc'' = enc' := Option.some.inj (henc''.symm.trans henc')
    rw [hsame hlive]
    exact List.getElem?_eq_getElem hlt
  refine
    { entries := fun h' hmem' => ?_
      keyed := fun key e hmap => ?_
      mapped := fun e enc' henc' hlive => ?_
      pumping := fun e hlive => ?_
      locked := fun caller key hlock => ?_
      leased := fun h' hmem' hs hr => ?_
      unseen := fun h' hmem' hs => ?_ }
  · obtain ⟨h, hmem, hkeeps⟩ := hc.holders h' hmem'
    rw [hkeeps.entry, hc.length]
    exact hi.entries h hmem
  · rw [hc.map] at hmap
    obtain ⟨enc, henc, rfl⟩ := hi.keyed key e hmap
    obtain ⟨enc', henc', hkey, -⟩ := hc.key e enc henc
    exact ⟨enc', henc', hkey⟩
  · rw [hc.map]
    exact hi.mapped e enc' (hback e enc' henc' hlive) (hpos e hlive)
  · obtain ⟨enc, henc, hpumping⟩ := hi.pumping e (hpos e hlive)
    obtain ⟨enc', henc', -, hsame⟩ := hc.key e enc henc
    rw [hsame hlive] at henc'
    exact ⟨enc, henc', hpumping⟩
  · have hold : s.lock = some (caller, key) := by
      rcases hc.lock with hlock' | hlock'
      · rw [← hlock', hlock]
      · rw [hlock'] at hlock
        cases hlock
    by_contra hne
    obtain ⟨e, he⟩ := Option.ne_none_iff_exists'.mp hne
    obtain ⟨hmap, hlive⟩ := upgrade_eq_some.mp he
    rw [hc.map] at hmap
    have hfound : s.upgrade key = some e := upgrade_eq_some.mpr ⟨hmap, hpos e hlive⟩
    rw [hi.locked caller key hold] at hfound
    cases hfound
  · obtain ⟨h, hmem, hkeeps⟩ := hc.holders h' hmem'
    obtain ⟨hr', hl⟩ := hkeeps.receiver hs hr
    rw [hkeeps.session] at hs
    exact hl (hi.leased h hmem hs hr')
  · obtain ⟨h, hmem, hkeeps⟩ := hc.holders h' hmem'
    have hs' := hs
    rw [hkeeps.session] at hs'
    exact hkeeps.sawClosed hs (hi.unseen h hmem hs')

theorem Calm.refl (s : Hub) : s.Calm s where
  map := rfl
  lock := .inl rfl
  length := rfl
  key := fun _ enc henc => ⟨enc, henc, rfl, fun _ => rfl⟩
  size := rfl
  holders := fun h hmem => ⟨h, hmem, .refl h⟩

theorem Calm.trans {u : Hub} (hst : s.Calm t) (htu : t.Calm u) : s.Calm u where
  map := htu.map.trans hst.map
  lock := by
    rcases htu.lock with hlock | hlock
    · rw [hlock]
      exact hst.lock
    · exact .inr hlock
  length := htu.length.trans hst.length
  key := by
    intro e enc henc
    obtain ⟨enc', henc', hkey', hsame'⟩ := hst.key e enc henc
    obtain ⟨enc'', henc'', hkey'', hsame''⟩ := htu.key e enc' henc'
    refine ⟨enc'', henc'', hkey''.trans hkey', fun hlive => ?_⟩
    rw [hsame'' hlive, hsame' (strongCount_pos_of_keeps htu.holders hlive)]
  size := htu.size.trans hst.size
  holders := by
    intro h'' hmem''
    obtain ⟨h', hmem', hkeeps'⟩ := htu.holders h'' hmem''
    obtain ⟨h, hmem, hkeeps⟩ := hst.holders h' hmem'
    exact ⟨h, hmem, hkeeps'.trans hkeeps⟩

/-! ## The operations -/

/-- A holder changes to what it may keep. -/
theorem calm_modifyHolder {f : Holder → Holder}
    (hf : ∀ h, s.holders[i]? = some h → (f h).Keeps h) : s.Calm (s.modifyHolder i f) where
  map := rfl
  lock := .inl rfl
  length := rfl
  key := fun _ enc henc => ⟨enc, henc, rfl, fun _ => rfl⟩
  size := List.length_modify f s.holders i
  holders := by
    intro h' hmem'
    obtain ⟨j, hj⟩ := List.mem_iff_getElem?.mp hmem'
    rw [modifyHolder, List.getElem?_modify] at hj
    obtain ⟨h, hh, rfl⟩ := Option.map_eq_some_iff.mp hj
    refine ⟨h, List.mem_of_getElem? hh, ?_⟩
    split
    · rename_i heq
      exact hf h (heq ▸ hh)
    · exact .refl h

/-- The task of a dead entry changes. -/
theorem calm_modifyEncoder {f : Encoder → Encoder} (hkey : ∀ enc, (f enc).key = enc.key)
    (hdead : s.strongCount e = 0) :
    s.Calm { s with encoders := s.encoders.modify e f } where
  map := rfl
  lock := .inl rfl
  length := List.length_modify f s.encoders e
  key := by
    intro e' enc henc
    have hmodify : (s.encoders.modify e f)[e']? = some (if e = e' then f enc else enc) := by
      rw [List.getElem?_modify, henc]
      rfl
    refine ⟨_, hmodify, ?_, fun hlive => ?_⟩
    · split
      · exact hkey enc
      · rfl
    · have hne : e ≠ e' := by
        rintro rfl
        have hlive' : 0 < s.strongCount e := hlive
        omega
      exact if_neg hne
  size := rfl
  holders := fun h hmem => ⟨h, hmem, .refl h⟩

/-- The sessions change. -/
theorem calm_sessions (s : Hub) (sessions : List Session) :
    s.Calm { s with sessions := sessions } where
  map := rfl
  lock := .inl rfl
  length := rfl
  key := fun _ enc henc => ⟨enc, henc, rfl, fun _ => rfl⟩
  size := rfl
  holders := fun h hmem => ⟨h, hmem, .refl h⟩

/-- **A lease is dropped**, by a holder that no longer receives if it is a
forwarder. -/
theorem calm_dropLease
    (hheld : ∀ h, s.holders[i]? = some h → h.session.isSome → h.receiver = false) :
    s.Calm (s.dropLease i e) := by
  have hdrop : s.Calm (s.modifyHolder i fun h => { h with lease := false }) :=
    calm_modifyHolder fun h hh =>
      { entry := rfl
        session := rfl
        lease := fun hl => by cases hl
        receiver := fun hs hr => by
          have hgone := hheld h hh hs
          rw [show h.receiver = true from hr] at hgone
          cases hgone
        sawClosed := fun _ hsaw => hsaw }
  rw [dropLease]
  split
  · rename_i hdead
    exact hdrop.trans (calm_modifyEncoder (fun _ => rfl) hdead)
  · exact hdrop

/-- **A forwarder exits.** -/
theorem calm_exitForwarder (s : Hub) (i e : ℕ) : s.Calm (s.exitForwarder i e) := by
  have hdrop : s.Calm (s.modifyHolder i fun h => { h with receiver := false }) :=
    calm_modifyHolder fun h hh =>
      { entry := rfl
        session := rfl
        lease := id
        receiver := fun _ hr => by cases hr
        sawClosed := fun _ hsaw => hsaw }
  refine hdrop.trans (calm_dropLease fun h hh _ => ?_)
  rw [modifyHolder, List.getElem?_modify_eq] at hh
  obtain ⟨h', -, rfl⟩ := Option.map_eq_some_iff.mp hh
  rfl

theorem calm_abortForwarder (s : Hub) (handle : Option ℕ) : s.Calm (s.abortForwarder handle) := by
  cases handle with
  | none => exact .refl s
  | some i =>
    exact calm_modifyHolder fun h _ => .of_eq rfl rfl rfl rfl rfl

theorem calm_modifySession (s : Hub) (x : ℕ) (f : Session → Session) :
    s.Calm (s.modifySession x f) :=
  calm_sessions s _

theorem calm_returns (s : Hub) (caller : Caller) (handle : Option ℕ) :
    s.Calm (s.returns caller handle) := by
  cases caller with
  | session x topic => exact calm_modifySession s x _
  | other key => exact .refl s

theorem calm_closeSession (s : Hub) (x : ℕ) (session : Session) :
    s.Calm (s.closeSession x session) := by
  have hall : ∀ (topics : List Topic) (u : Hub),
      u.Calm (topics.foldl (fun s topic => s.abortForwarder (session.forwarders topic)) u) := by
    intro topics
    induction topics with
    | nil => exact Calm.refl
    | cons topic topics ih => exact fun u => (calm_abortForwarder u _).trans (ih _)
  exact (hall Topic.all s).trans (calm_modifySession _ x _)

theorem calm_receiveFrame (s : Hub) (x : ℕ) (session : Session) (msg : ClientMsg) :
    s.Calm (s.receiveFrame x session msg) := by
  cases msg with
  | subscribe topic =>
    rw [receiveFrame]
    split
    · exact (calm_modifySession s x _).trans (calm_closeSession _ x session)
    · split
      · exact calm_modifySession s x _
      · exact (calm_modifySession s x _).trans (calm_modifySession _ x _)
  | unsubscribe topic => exact (calm_abortForwarder s _).trans (calm_modifySession _ x _)
  | pong => exact .refl s

theorem calm_send (s : Hub) (e : ℕ) : s.Calm (s.send e) where
  map := rfl
  lock := .inl rfl
  length := rfl
  key := fun _ enc henc => ⟨enc, henc, rfl, fun _ => rfl⟩
  size := List.length_map _
  holders := by
    intro h' hmem'
    obtain ⟨h, hmem, rfl⟩ := List.mem_map.mp hmem'
    refine ⟨h, hmem, ?_⟩
    split
    · exact .of_eq rfl rfl rfl rfl rfl
    · exact .refl h

/-- A forwarder that receives keeps its channel open. -/
theorem Inv.not_isClosed (hi : s.Inv) (hh : s.holders[i]? = some h) (hs : h.session.isSome)
    (hr : h.receiver = true) : s.isClosed h.entry = false := by
  have hmem := List.mem_of_getElem? hh
  have hlive : 0 < s.strongCount h.entry :=
    strongCount_pos.mpr ⟨h, hmem, hi.leased h hmem hs hr, rfl⟩
  rw [Bool.eq_false_iff]
  intro hclosed
  have hdead := (isClosed_iff.mp hclosed).1
  omega

/-- **What is received** changes little, and no forwarder finds its channel
closed. -/
theorem Inv.calm_recv (hi : s.Inv) (hh : s.holders[i]? = some h) (ht : s.recv i h = some t) :
    s.Calm t := by
  rw [recv] at ht
  split at ht
  · cases ht
  · rename_i hreceiver
    have hr : h.receiver = true := by rwa [Bool.not_eq_false] at hreceiver
    split at ht
    · split at ht
      · obtain rfl := Option.some.inj ht
        exact calm_exitForwarder s i h.entry
      · obtain rfl := Option.some.inj ht
        exact calm_modifyHolder fun h _ => .of_eq rfl rfl rfl rfl rfl
    · split at ht
      · rename_i hclosed
        have hnone : h.session.isSome = false := by
          by_contra hsome
          rw [hi.not_isClosed hh (by rwa [Bool.not_eq_false] at hsome) hr] at hclosed
          cases hclosed
        obtain rfl := Option.some.inj ht
        rw [hnone]
        refine calm_modifyHolder fun h' hh' => ?_
        obtain rfl : h = h' := Option.some.inj (hh.symm.trans hh')
        exact
          { entry := rfl
            session := rfl
            lease := id
            receiver := fun _ hr => ⟨hr, id⟩
            sawClosed := fun hs => by
              rw [show h.session.isSome = true from hs] at hnone
              cases hnone }
      · cases ht

/-- **What a step does**, if it meets the condition: nothing new, the map is
locked for a call that finds no entry, or a call returns one it found or
had made. -/
theorem Inv.step_cases (hi : s.Inv) (hok : StreamOk s act) (h : hubStep s act = some t) :
    s.Calm t ∨
    (∃ caller key, s.lock = none ∧ s.upgrade key = none ∧
      t = { s with lock := some (caller, key) }) ∨
    (∃ caller key e, s.lock = none ∧ s.upgrade key = some e ∧ t = s.attach caller e) ∨
    (∃ caller key, s.lock = some (caller, key) ∧
      t = (({ s with lock := none } : Hub).insertEntry key).attach caller s.encoders.length) := by
  cases act with
  | connect network =>
    obtain rfl := Option.some.inj h
    exact .inl (calm_sessions s _)
  | frame x msg =>
    obtain ⟨session, -, rfl⟩ := Option.map_eq_some_iff.mp h
    exact .inl (calm_receiveFrame s x session msg)
  | closeSession x =>
    obtain ⟨session, -, rfl⟩ := Option.map_eq_some_iff.mp h
    exact .inl (calm_closeSession s x session)
  | closeSink x =>
    obtain rfl := Option.some.inj h
    exact .inl (calm_modifySession s x _)
  | subscribe caller =>
    rw [hubStep] at h
    split at h
    · cases h
    · rename_i hlock
      have hfree : s.lock = none := Option.not_isSome_iff_eq_none.mp hlock
      obtain ⟨key, -, rfl⟩ := Option.map_eq_some_iff.mp h
      cases hfound : s.upgrade key with
      | none => exact .inr (.inl ⟨caller, key, hfree, hfound, rfl⟩)
      | some e => exact .inr (.inr (.inl ⟨caller, key, e, hfree, hfound, rfl⟩))
  | provider ok =>
    obtain ⟨⟨caller, key⟩, hlock, rfl⟩ := Option.map_eq_some_iff.mp h
    cases ok with
    | true => exact .inr (.inr (.inr ⟨caller, key, hlock, rfl⟩))
    | false =>
      have hunlock : s.Calm { s with lock := none } :=
        { Calm.refl s with lock := .inr rfl }
      exact .inl (hunlock.trans (calm_returns _ caller none))
  | recv i =>
    obtain ⟨held, hh, ht⟩ := Option.bind_eq_some_iff.mp h
    exact .inl (hi.calm_recv hh ht)
  | dropAborted i =>
    obtain ⟨held, hh, ht⟩ := Option.bind_eq_some_iff.mp h
    split at ht
    · obtain rfl := Option.some.inj ht
      exact .inl (calm_exitForwarder s i held.entry)
    · cases ht
  | dropLease i =>
    obtain ⟨held, hh, ht⟩ := Option.bind_eq_some_iff.mp h
    split at ht
    · rename_i hother
      obtain rfl := Option.some.inj ht
      refine .inl (calm_dropLease fun h' hh' hs => ?_)
      obtain rfl : held = h' := Option.some.inj (hh.symm.trans hh')
      rw [Bool.and_eq_true, Option.isNone_iff_eq_none] at hother
      rw [hother.1] at hs
      cases hs
    · cases ht
  | dropReceiver i =>
    obtain ⟨held, hh, ht⟩ := Option.bind_eq_some_iff.mp h
    split at ht
    · obtain rfl := Option.some.inj ht
      exact .inl (calm_modifyHolder fun h' _ =>
        { entry := rfl
          session := rfl
          lease := id
          receiver := fun _ hr => by cases hr
          sawClosed := fun _ hsaw => hsaw })
    · cases ht
  | item e =>
    obtain ⟨enc, -, ht⟩ := Option.bind_eq_some_iff.mp h
    split at ht
    · cases ht
    · obtain rfl := Option.some.inj ht
      exact .inl (calm_send s e)
  | streamEnd e =>
    obtain ⟨enc, -, rfl⟩ := Option.map_eq_some_iff.mp h
    exact .inl (calm_modifyEncoder (fun _ => rfl) hok)
  | taskExit e =>
    obtain ⟨enc, henc, ht⟩ := Option.bind_eq_some_iff.mp h
    split at ht
    · rename_i hends
      obtain rfl := Option.some.inj ht
      rw [Bool.and_eq_true, Bool.or_eq_true] at hends
      have hdead : s.strongCount e = 0 :=
        hi.strongCount_eq_zero henc (hends.2.elim .inl fun haborted => .inr (.inl haborted))
      exact .inl (calm_modifyEncoder (fun _ => rfl) hdead)
    · cases ht

/-! ## Calls that return -/

/-- **A lease more** on an entry of the map that is pumping. -/
theorem Inv.attach (hi : s.Inv) (hlock : s.lock = none) (hmap : s.map key = some e)
    (hpumping : s.Pumping e) (caller : Caller) : (s.attach caller e).Inv := by
  obtain ⟨enc, henc, hkey⟩ := hi.keyed key e hmap
  let held : Holder := ⟨e, caller.session?, true, true, 0, false, false⟩
  let u : Hub := { s with holders := s.holders ++ [held] }
  have hlive : ∀ e', 0 < u.strongCount e' → 0 < s.strongCount e' ∨ e' = e := by
    intro e' hpos
    obtain ⟨h, hmem, hlease, hentry⟩ := strongCount_pos.mp hpos
    rcases List.mem_append.mp hmem with hold | hnew
    · exact .inl (strongCount_pos.mpr ⟨h, hold, hlease, hentry⟩)
    · rw [List.mem_singleton.mp hnew] at hentry
      exact .inr hentry.symm
  have hu : u.Inv :=
    { entries := fun h hmem => ?_
      keyed := hi.keyed
      mapped := fun e' enc' henc' hpos => ?_
      pumping := fun e' hpos => ?_
      locked := fun caller' key' hlock' => ?_
      leased := fun h hmem hs hr => ?_
      unseen := fun h hmem hs => ?_ }
  · exact hu.calm (calm_returns u caller _)
  · rcases List.mem_append.mp hmem with hold | hnew
    · exact hi.entries h hold
    · rw [List.mem_singleton.mp hnew]
      exact (List.getElem?_eq_some_iff.mp henc).1
  · rcases hlive e' hpos with hold | rfl
    · exact hi.mapped e' enc' henc' hold
    · obtain rfl : enc = enc' := Option.some.inj (henc.symm.trans henc')
      rw [hkey]
      exact hmap
  · rcases hlive e' hpos with hold | rfl
    · exact hi.pumping e' hold
    · exact hpumping
  · rw [show u.lock = s.lock from rfl, hlock] at hlock'
    cases hlock'
  · rcases List.mem_append.mp hmem with hold | hnew
    · exact hi.leased h hold hs hr
    · rw [List.mem_singleton.mp hnew]
  · rcases List.mem_append.mp hmem with hold | hnew
    · exact hi.unseen h hold hs
    · rw [List.mem_singleton.mp hnew]

theorem map_insertEntry (s : Hub) (key : HubKey) :
    (s.insertEntry key).map = Function.update s.map key (some s.encoders.length) := rfl

theorem length_insertEntry (s : Hub) (key : HubKey) :
    (s.insertEntry key).encoders.length = s.encoders.length + 1 :=
  List.length_append

/-- **An entry is inserted** by the call that has the map locked, which
found none alive under its key. -/
theorem Inv.insertEntry (hi : s.Inv) {caller : Caller} (hlock : s.lock = some (caller, key)) :
    (({ s with lock := none } : Hub).insertEntry key).Inv := by
  have hlt : ∀ e, 0 < s.strongCount e → e < s.encoders.length := by
    intro e hpos
    obtain ⟨h, hmem, -, rfl⟩ := strongCount_pos.mp hpos
    exact hi.entries h hmem
  have hold : ∀ e, e < s.encoders.length →
      (({ s with lock := none } : Hub).insertEntry key).encoders[e]? = s.encoders[e]? :=
    fun e he => List.getElem?_append_left he
  refine
    { entries := fun h hmem => ?_
      keyed := fun key' e hmap => ?_
      mapped := fun e enc henc hpos => ?_
      pumping := fun e hpos => ?_
      locked := fun _ _ hlocked => by cases hlocked
      leased := hi.leased
      unseen := hi.unseen }
  · have hentry := hi.entries h hmem
    rw [length_insertEntry]
    exact Nat.lt_succ_of_lt hentry
  · rw [map_insertEntry] at hmap
    by_cases heq : key' = key
    · rw [heq, Function.update_self] at hmap
      obtain rfl := Option.some.inj hmap
      exact ⟨_, List.getElem?_concat_length, heq.symm⟩
    · rw [Function.update_of_ne heq] at hmap
      obtain ⟨enc, henc, hkey⟩ := hi.keyed key' e hmap
      exact ⟨enc, (hold e (List.getElem?_eq_some_iff.mp henc).1).trans henc, hkey⟩
  · have hpos' : 0 < s.strongCount e := hpos
    rw [hold e (hlt e hpos')] at henc
    have hmap := hi.mapped e enc henc hpos'
    have hne : enc.key ≠ key := by
      intro heq
      rw [heq] at hmap
      have hfound := upgrade_eq_some.mpr ⟨hmap, hpos'⟩
      rw [hi.locked caller key hlock] at hfound
      cases hfound
    rw [map_insertEntry, Function.update_of_ne hne]
    exact hmap
  · have hpos' : 0 < s.strongCount e := hpos
    obtain ⟨enc, henc, hpumping⟩ := hi.pumping e hpos'
    exact ⟨enc, (hold e (hlt e hpos')).trans henc, hpumping⟩

/-- The task of an entry just inserted is pumping. -/
theorem pumping_insertEntry (s : Hub) (key : HubKey) :
    (s.insertEntry key).Pumping s.encoders.length :=
  ⟨⟨key, false, false, false⟩, List.getElem?_concat_length, rfl, rfl, rfl⟩

/-- **A step keeps the invariant**, if it meets the condition. -/
theorem Inv.step (hi : s.Inv) (hok : StreamOk s act) (h : hubStep s act = some t) : t.Inv := by
  rcases hi.step_cases hok h with hcalm | ⟨caller, key, hlock, hnone, rfl⟩ |
    ⟨caller, key, e, hlock, hfound, rfl⟩ | ⟨caller, key, hlock, rfl⟩
  · exact hi.calm hcalm
  · refine
      { entries := hi.entries
        keyed := hi.keyed
        mapped := hi.mapped
        pumping := hi.pumping
        locked := fun caller' key' hlocked => ?_
        leased := hi.leased
        unseen := hi.unseen }
    obtain ⟨rfl, rfl⟩ := Prod.mk.inj (Option.some.inj hlocked)
    exact hnone
  · obtain ⟨hmap, hpos⟩ := upgrade_eq_some.mp hfound
    exact hi.attach hlock hmap (hi.pumping e hpos) caller
  · have hmap : (({ s with lock := none } : Hub).insertEntry key).map key =
        some s.encoders.length := Function.update_self key _ s.map
    exact (hi.insertEntry hlock).attach rfl hmap
      (pumping_insertEntry { s with lock := none } key) caller

/-! ## What the invariant gives -/

theorem holders_attach (s : Hub) (caller : Caller) (e : ℕ) :
    (s.attach caller e).holders =
      s.holders ++ [⟨e, caller.session?, true, true, 0, false, false⟩] := by
  cases caller <;> rfl

theorem encoders_attach (s : Hub) (caller : Caller) (e : ℕ) :
    (s.attach caller e).encoders = s.encoders := by
  cases caller <;> rfl

/-- Who is attached is who was not there. -/
theorem entry_of_attach {caller : Caller} (hnone : s.holders[i]? = none)
    (hsome : (s.attach caller e).holders[i]? = some h) : h.entry = e := by
  rw [holders_attach, List.getElem?_append_right (List.getElem?_eq_none_iff.mp hnone)] at hsome
  have hmem := List.mem_singleton.mp (List.mem_of_getElem? hsome)
  rw [hmem]

/-- **A call that returns** is attached to a task that is pumping, or to a
new one. -/
theorem Inv.attached (hi : s.Inv) (ht : hubStep s act = some t) (hnone : s.holders[i]? = none)
    (hsome : t.holders[i]? = some h) : t.Pumping h.entry ∨ s.encoders[h.entry]? = none := by
  have hsize : t.holders.length ≠ s.holders.length := by
    intro hsize
    have hlt := (List.getElem?_eq_some_iff.mp hsome).1
    have hge := List.getElem?_eq_none_iff.mp hnone
    omega
  by_cases hok : StreamOk s act
  · rcases hi.step_cases hok ht with hcalm | ⟨caller, key, -, -, rfl⟩ |
      ⟨caller, key, e, -, hfound, rfl⟩ | ⟨caller, key, -, rfl⟩
    · exact absurd hcalm.size hsize
    · exact absurd rfl hsize
    · obtain ⟨enc, henc, hpumping⟩ := hi.pumping e (upgrade_eq_some.mp hfound).2
      rw [entry_of_attach hnone hsome]
      exact .inl ⟨enc, by rw [encoders_attach]; exact henc, hpumping⟩
    · rw [entry_of_attach (s := ({ s with lock := none } : Hub).insertEntry key) hnone hsome]
      exact .inr (List.getElem?_eq_none_iff.mpr (Nat.le_refl _))
  · -- The end of a stream attaches no one.
    cases act with
    | streamEnd e =>
      obtain ⟨enc, -, rfl⟩ := Option.map_eq_some_iff.mp ht
      exact absurd rfl hsize
    | _ => exact absurd trivial hok

theorem holders_exitForwarder (s : Hub) (i e : ℕ) :
    (s.exitForwarder i e).holders =
      s.holders.modify i fun h => { h with receiver := false, lease := false } := by
  have hmodify : ((s.modifyHolder i fun h => { h with receiver := false }).modifyHolder i
      fun h => { h with lease := false }).holders =
      s.holders.modify i fun h => { h with receiver := false, lease := false } :=
    List.modify_modify_eq _ _ i s.holders
  rw [exitForwarder, dropLease]
  split
  · exact hmodify
  · exact hmodify

/-- **A forwarder that sees its channel closed exits.** -/
theorem exits_of_isClosed (hh : s.holders[i]? = some h) (hs : h.session.isSome)
    (hpending : h.pending = 0) (hclosed : s.isClosed h.entry = true)
    (ht : hubStep s (.recv i) = some t) :
    ∃ h', t.holders[i]? = some h' ∧ h'.receiver = false ∧ h'.lease = false := by
  obtain ⟨h', hh', hrecv⟩ := Option.bind_eq_some_iff.mp ht
  obtain rfl : h = h' := Option.some.inj (hh.symm.trans hh')
  rw [recv] at hrecv
  split at hrecv
  · cases hrecv
  · have hempty : ¬ 0 < h.pending := by omega
    rw [if_neg hempty] at hrecv
    obtain rfl := Option.some.inj hrecv
    refine ⟨{ h with sawClosed := true, receiver := false, lease := false }, ?_, rfl, rfl⟩
    rw [holders_exitForwarder, List.getElem?_modify_eq, modifyHolder, List.getElem?_modify_eq, hh]
    rfl

/-- **Where the invariant holds no dead encoder is served.** -/
theorem Inv.served (hi : s.Inv) : s.Served where
  one := by
    rintro key e e' ⟨enc, henc, rfl, hpos⟩ ⟨enc', henc', hkey, hpos'⟩
    have hmap := hi.mapped e enc henc hpos
    have hmap' := hi.mapped e' enc' henc' hpos'
    rw [hkey, hmap] at hmap'
    exact Option.some.inj hmap'
  found := fun key e hfound => hi.pumping e (upgrade_eq_some.mp hfound).2
  attached := fun _ _ _ _ ht hnone hsome => hi.attached ht hnone hsome
  closes := by
    intro i h enc _ _ henc hended
    have hdead : s.strongCount h.entry = 0 := hi.strongCount_eq_zero henc (.inl hended)
    refine isClosed_iff.mpr ⟨hdead, { enc with exited := true }, ?_, rfl⟩
    rw [exitTask, List.getElem?_modify_eq, henc]
    rfl
  exits := fun _ _ _ hh hs hpending hclosed ht => exits_of_isClosed hh hs hpending hclosed ht
  restarts := by
    intro i h x session topic t hh hs hsaw
    -- No forwarder has seen its channel closed: its lease kept it open.
    have hunseen := hi.unseen h (List.mem_of_getElem? hh) (by rw [hs]; rfl)
    rw [hsaw] at hunseen
    cases hunseen

/-- **A stream that ends under a lease** leaves a dead task in the map. -/
theorem Inv.not_served_of_streamEnd (hi : s.Inv) (hlive : 0 < s.strongCount e)
    (ht : hubStep s (.streamEnd e) = some t) : ¬ t.Served := by
  obtain ⟨enc, henc, rfl⟩ := Option.map_eq_some_iff.mp ht
  intro hserved
  have hfound : Hub.upgrade { s with
      encoders := s.encoders.modify e fun x => { x with streamEnded := true } } enc.key = some e :=
    upgrade_eq_some.mpr ⟨hi.mapped e enc henc hlive, hlive⟩
  obtain ⟨enc', henc', hgoing, -⟩ := hserved.found enc.key e hfound
  rw [List.getElem?_modify_eq, henc] at henc'
  obtain rfl := Option.some.inj henc'
  cases hgoing

end Hub

/-! ## The result -/

/-- **No dead encoder is served** in a run, just if no stream ends in it
while a lease of its entry is held. -/
theorem served_iff_streamOk {actions : List HubAction} {t : Hub}
    (h : run hubStep .new actions = some t) :
    (∀ pre u, pre <+: actions → run hubStep .new pre = some u → u.Served) ↔
      EveryStep hubStep StreamOk .new actions := by
  refine holds_iff_everyStep (fun _ _ _ hi hok hs => hi.step hok hs) (fun _ hi => hi.served) ?_
    Hub.inv_new h
  intro s act t hi hs hserved
  cases act with
  | streamEnd e =>
    by_contra hheld
    exact hi.not_served_of_streamEnd (Nat.pos_of_ne_zero hheld) hs hserved
  | _ => trivial

/-- A session unsubscribes, the stream ends with its task, and the session
subscribes again. -/
def unsubscribedFirst : List HubAction :=
  [.connect "allfeat", .frame 0 (.subscribe .blocks), .subscribe (.session 0 .blocks),
    .provider true, .item 0, .recv 0, .frame 0 (.unsubscribe .blocks), .dropAborted 0,
    .streamEnd 0, .taskExit 0, .frame 0 (.subscribe .blocks), .subscribe (.session 0 .blocks),
    .provider true]

/-- It is served by a new task. -/
theorem served_iff_streamOk_unsubscribedFirst :
    ∃ t, run hubStep .new unsubscribedFirst = some t ∧
      t.upgrade ("allfeat", .blocks) = some 1 ∧ t.Served := by
  refine ⟨_, rfl, by decide, (served_iff_streamOk
    (show run hubStep .new unsubscribedFirst = some _ from rfl)).mpr ?_
      unsubscribedFirst _ List.prefix_rfl rfl⟩
  refine (everyStep_cons rfl).mpr ⟨trivial, (everyStep_cons rfl).mpr ⟨trivial,
    (everyStep_cons rfl).mpr ⟨trivial, (everyStep_cons rfl).mpr ⟨trivial,
    (everyStep_cons rfl).mpr ⟨trivial, (everyStep_cons rfl).mpr ⟨trivial,
    (everyStep_cons rfl).mpr ⟨trivial, (everyStep_cons rfl).mpr ⟨trivial, ?_⟩⟩⟩⟩⟩⟩⟩⟩
  refine (everyStep_cons rfl).mpr ⟨rfl, (everyStep_cons rfl).mpr ⟨trivial,
    (everyStep_cons rfl).mpr ⟨trivial, (everyStep_cons rfl).mpr ⟨trivial,
    (everyStep_cons rfl).mpr ⟨trivial, trivial⟩⟩⟩⟩⟩

/-- A stream ends while a session is subscribed. The task exits, another
session subscribes, and the first one does so again. -/
def endedUnderLease : List HubAction :=
  [.connect "allfeat", .frame 0 (.subscribe .blocks), .subscribe (.session 0 .blocks),
    .provider true, .streamEnd 0, .taskExit 0, .connect "allfeat",
    .frame 1 (.subscribe .blocks), .subscribe (.session 1 .blocks),
    .frame 0 (.subscribe .blocks)]

/-- **The dead task is served to both**, with the channel open. -/
theorem not_served_endedUnderLease :
    ∃ t, run hubStep .new endedUnderLease = some t ∧
      t.holders.map (fun h => h.entry) = [0, 0] ∧ t.isClosed 0 = false ∧ ¬ t.Served := by
  refine ⟨_, rfl, rfl, by decide, fun hserved => ?_⟩
  obtain ⟨enc, henc, hgoing, -⟩ := hserved.found ("allfeat", .blocks) 0 (by decide)
  obtain rfl := Option.some.inj henc
  cases hgoing

end Live

end AllfeatExplorer
