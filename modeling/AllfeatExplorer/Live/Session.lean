import AllfeatExplorer.Live.Model.Session
import AllfeatExplorer.Lib.Run

/-!
# The end of a session

Once no clone of the sender is left but the heartbeat's, none comes back:
every step that sends or subscribes is one of a task that has not ended
(`Ended.step`). The heartbeat that gives up drops its own clone and no
other. So the channel is closed by it just if all the others are gone
already (`closes_iff`).
-/

open scoped List

namespace AllfeatExplorer

namespace Live

namespace SessionTasks

variable {s s' : SessionTasks} {a : SessionAction} {i : ℕ}

/-! ## No sender left -/

/-- **Every task but the heartbeat has ended.** -/
structure Ended (s : SessionTasks) : Prop where
  receiver : s.receiver = .returned
  teardown : s.teardown = .awaitSink
  tasks : ∀ t ∈ s.tasks, t.exited = true

theorem otherSenders_eq_zero_iff : s.otherSenders = 0 ↔ s.Ended := by
  unfold otherSenders
  rw [Nat.add_eq_zero_iff, Nat.add_eq_zero_iff, List.countP_eq_zero]
  constructor
  · rintro ⟨⟨hreceiver, hteardown⟩, htasks⟩
    refine ⟨by simpa using hreceiver, by simpa using hteardown, fun t ht => ?_⟩
    simpa using htasks t ht
  · rintro ⟨hreceiver, hteardown, htasks⟩
    exact ⟨⟨if_pos hreceiver, if_pos hteardown⟩, fun t ht => by simp [htasks t ht]⟩

theorem senders_eq_zero_iff : s.senders = 0 ↔ s.Ended ∧ s.heartbeatRuns = false := by
  unfold senders
  rw [Nat.add_eq_zero_iff, otherSenders_eq_zero_iff]
  cases s.heartbeatRuns <;> simp

/-- No forwarder is there to take a step. -/
theorem Ended.filter_eq_none (h : s.Ended) {p : ForwarderTask → Bool} :
    (s.tasks[i]?.filter fun t => !t.exited && p t) = none := by
  rw [Option.filter_eq_none_iff]
  intro t ht
  simp [h.tasks t (List.mem_of_getElem? ht)]

/-- A tick is one of a heartbeat that runs. -/
theorem tick_inv (hstep : sessionStep s .tick = some s') :
    ∃ drops aborted, s.heartbeat = .running drops aborted ∧ s' = s.tick drops aborted := by
  simp only [sessionStep] at hstep
  split at hstep
  · next drops aborted hheart => exact ⟨drops, aborted, hheart, (Option.some.inj hstep).symm⟩
  · exact absurd hstep (by simp)

theorem cancelHeartbeat_inv (hstep : sessionStep s .cancelHeartbeat = some s') :
    s' = { s with heartbeat := .cancelled } := by
  simp only [sessionStep] at hstep
  split at hstep
  · exact (Option.some.inj hstep).symm
  · exact absurd hstep (by simp)

/-- **Ended tasks stay so**, and what is queued only drains, unless the
heartbeat still runs. -/
theorem Ended.step (h : s.Ended) (hstep : sessionStep s a = some s') :
    s'.Ended ∧ (s.heartbeatRuns = false → s'.heartbeatRuns = false ∧ s'.queue <:+ s.queue) := by
  cases a with
  | frame now frame => simp [sessionStep, h.receiver] at hstep
  | streamEnd => simp [sessionStep, h.receiver] at hstep
  | subscribed result => simp [sessionStep, h.receiver] at hstep
  | receiverSends => simp [sessionStep, h.receiver] at hstep
  | item i text => simp [sessionStep, receiving, h.filter_eq_none] at hstep
  | lagged i => simp [sessionStep, receiving, h.filter_eq_none] at hstep
  | broadcastClosed i => simp [sessionStep, receiving, h.filter_eq_none] at hstep
  | forward i =>
    have hnone := h.filter_eq_none (i := i) (p := fun _ => true)
    simp only [Bool.and_true] at hnone
    simp [sessionStep, hnone] at hstep
  | cancelForwarder i => simp [sessionStep, h.filter_eq_none] at hstep
  | tearDown => simp [sessionStep, SessionTasks.tearDown, h.receiver, h.teardown] at hstep
  | tick =>
    obtain ⟨drops, aborted, hheart, rfl⟩ := tick_inv hstep
    refine ⟨?_, fun hruns => absurd hruns (by simp [heartbeatRuns, hheart])⟩
    unfold tick push
    split
    · exact ⟨h.receiver, h.teardown, h.tasks⟩
    · split
      · split <;> exact ⟨h.receiver, h.teardown, h.tasks⟩
      · exact ⟨h.receiver, h.teardown, h.tasks⟩
  | cancelHeartbeat =>
    obtain rfl := cancelHeartbeat_inv hstep
    exact ⟨⟨h.receiver, h.teardown, h.tasks⟩, fun _ => ⟨rfl, List.suffix_refl _⟩⟩
  | sinkSends ok =>
    rcases hqueue : s.queue with - | ⟨msg, rest⟩ <;> simp only [sessionStep, hqueue] at hstep
    · exact absurd hstep (by simp)
    · split at hstep
      · exact absurd hstep (by simp)
      · split at hstep <;> obtain rfl := Option.some.inj hstep
        · exact ⟨⟨h.receiver, h.teardown, h.tasks⟩, fun hruns => ⟨hruns, List.suffix_cons _ _⟩⟩
        · exact ⟨⟨h.receiver, h.teardown, h.tasks⟩, fun hruns => ⟨hruns, List.nil_suffix⟩⟩
  | sinkEnds =>
    simp only [sessionStep] at hstep
    split at hstep
    · obtain rfl := Option.some.inj hstep
      exact ⟨⟨h.receiver, h.teardown, h.tasks⟩, fun hruns => ⟨hruns, List.suffix_refl _⟩⟩
    · exact absurd hstep (by simp)

/-- **Without a sender the queue drains**, whatever happens. -/
theorem drains {as : List SessionAction} (h : s.senders = 0)
    (hrun : run sessionStep s as = some s') : s'.senders = 0 ∧ s'.queue <:+ s.queue := by
  obtain ⟨hended, hruns⟩ := senders_eq_zero_iff.1 h
  have hinv : s'.Ended ∧ s'.heartbeatRuns = false ∧ s'.queue <:+ s.queue := by
    refine inv_run (I := fun u => u.Ended ∧ u.heartbeatRuns = false ∧ u.queue <:+ s.queue)
      (fun u a v hu hstep => ?_) ⟨hended, hruns, List.suffix_refl _⟩ hrun
    obtain ⟨hv, hquiet⟩ := hu.1.step hstep
    obtain ⟨hvruns, hvqueue⟩ := hquiet hu.2.1
    exact ⟨hv, hvruns, hvqueue.trans hu.2.2⟩
  exact ⟨senders_eq_zero_iff.2 ⟨hinv.1, hinv.2.1⟩, hinv.2.2⟩

/-- And drained, it ends the sink. -/
theorem sink_ends (h : s.senders = 0) (hqueue : s.queue = []) (hsink : s.sinkReturned = false) :
    ∃ s', sessionStep s .sinkEnds = some s' ∧ s'.sinkReturned = true := by
  refine ⟨{ s with sinkReturned := true }, ?_, rfl⟩
  rw [sessionStep, if_pos ⟨hsink, hqueue, h⟩]

/-! ## The heartbeat's limit -/

@[simp] theorem modifyTask_heartbeat {f : ForwarderTask → ForwarderTask} :
    (s.modifyTask i f).heartbeat = s.heartbeat := rfl

@[simp] theorem exitTask_heartbeat : (s.exitTask i).heartbeat = s.heartbeat := rfl

@[simp] theorem push_heartbeat {msg : SinkMsg} : (s.push msg).heartbeat = s.heartbeat := rfl

@[simp] theorem reply_heartbeat {message : Option String} :
    (s.reply message).heartbeat = s.heartbeat := rfl

@[simp] theorem sent_heartbeat {last : Bool} : (s.sent last).heartbeat = s.heartbeat := rfl

@[simp] theorem abortForwarder_heartbeat {handle : Option ℕ} :
    (s.abortForwarder handle).heartbeat = s.heartbeat := by
  cases handle <;> rfl

@[simp] theorem subscribed_heartbeat {topic : Topic} {result : Except String Unit} :
    (s.subscribed topic result).heartbeat = s.heartbeat := by
  cases result <;> rfl

@[simp] theorem receiveFrame_heartbeat {now : ℕ} {frame : Option Frame} :
    (s.receiveFrame now frame).heartbeat = s.heartbeat := by
  unfold receiveFrame
  split
  · rfl
  · rfl
  · split
    · rfl
    · rfl
    · dsimp only
      split <;> rfl
    · simp

/-- **What leaves the heartbeat as it is**: every step but its own and the
end of the session. -/
theorem heartbeat_of_step (hstep : sessionStep s a = some s') :
    a = .tick ∨ a = .cancelHeartbeat ∨ a = .tearDown ∨ s'.heartbeat = s.heartbeat := by
  cases a with
  | tick => exact .inl rfl
  | cancelHeartbeat => exact .inr (.inl rfl)
  | tearDown => exact .inr (.inr (.inl rfl))
  | frame now frame =>
    simp only [sessionStep, Option.ite_none_right_eq_some, Option.some.injEq] at hstep
    obtain ⟨-, rfl⟩ := hstep
    exact .inr (.inr (.inr (by simp)))
  | streamEnd =>
    simp only [sessionStep, Option.ite_none_right_eq_some, Option.some.injEq] at hstep
    obtain ⟨-, rfl⟩ := hstep
    exact .inr (.inr (.inr rfl))
  | subscribed result =>
    simp only [sessionStep] at hstep
    split at hstep
    · obtain rfl := Option.some.inj hstep
      exact .inr (.inr (.inr (by simp)))
    · exact absurd hstep (by simp)
  | receiverSends =>
    simp only [sessionStep] at hstep
    split at hstep
    · split at hstep
      · obtain rfl := Option.some.inj hstep
        exact .inr (.inr (.inr rfl))
      · split at hstep
        · exact absurd hstep (by simp)
        · obtain rfl := Option.some.inj hstep
          exact .inr (.inr (.inr rfl))
    · exact absurd hstep (by simp)
  | item i text =>
    obtain ⟨t, -, rfl⟩ := Option.map_eq_some_iff.1 hstep
    exact .inr (.inr (.inr rfl))
  | lagged i =>
    obtain ⟨t, -, rfl⟩ := Option.map_eq_some_iff.1 hstep
    exact .inr (.inr (.inr rfl))
  | broadcastClosed i =>
    obtain ⟨t, -, rfl⟩ := Option.map_eq_some_iff.1 hstep
    exact .inr (.inr (.inr rfl))
  | cancelForwarder i =>
    obtain ⟨t, -, rfl⟩ := Option.map_eq_some_iff.1 hstep
    exact .inr (.inr (.inr rfl))
  | forward i =>
    obtain ⟨t, -, hstep⟩ := Option.bind_eq_some_iff.1 hstep
    obtain ⟨text, -, hstep⟩ := Option.bind_eq_some_iff.1 hstep
    split at hstep
    · obtain rfl := Option.some.inj hstep
      exact .inr (.inr (.inr rfl))
    · split at hstep
      · exact absurd hstep (by simp)
      · obtain rfl := Option.some.inj hstep
        exact .inr (.inr (.inr rfl))
  | sinkSends ok =>
    simp only [sessionStep] at hstep
    split at hstep
    · exact absurd hstep (by simp)
    · split at hstep
      · exact absurd hstep (by simp)
      · split at hstep <;> obtain rfl := Option.some.inj hstep <;> exact .inr (.inr (.inr rfl))
  | sinkEnds =>
    simp only [sessionStep, Option.ite_none_right_eq_some, Option.some.injEq] at hstep
    obtain ⟨-, rfl⟩ := hstep
    exact .inr (.inr (.inr rfl))

/-- The end of the session gives nothing up. -/
theorem limit_of_tearDown (hstep : sessionStep s .tearDown = some s')
    (hlimit : s'.heartbeat = .limitReached) : s.heartbeat = .limitReached := by
  simp only [sessionStep, SessionTasks.tearDown] at hstep
  split at hstep
  · split at hstep
    · obtain rfl := Option.some.inj hstep
      simpa [Topic.all] using hlimit
    · obtain rfl := Option.some.inj hstep
      dsimp only at hlimit
      split at hlimit
      · exact absurd hlimit (by simp)
      · exact hlimit
    · obtain rfl := Option.some.inj hstep
      exact hlimit
    · exact absurd hstep (by simp)
  · exact absurd hstep (by simp)

/-- The next drop is the one too many. -/
def LimitDrop (s : SessionTasks) : Prop :=
  s.sinkReturned = false ∧ s.isFull = true ∧
    ∃ drops aborted, s.heartbeat = .running drops aborted ∧ heartbeatDropLimit ≤ drops + 1

instance (s : SessionTasks) : Decidable s.LimitDrop :=
  decidable_of_iff
    (s.sinkReturned = false ∧ s.isFull = true ∧
      (match s.heartbeat with
      | .running drops _ => decide (heartbeatDropLimit ≤ drops + 1)
      | _ => false) = true) <| by
    unfold LimitDrop
    cases s.heartbeat <;> simp

/-- **The heartbeat gives up** at a tick, after the last drop it may have. -/
theorem limit_of_step (hstep : sessionStep s a = some s') (hlimit : s'.heartbeat = .limitReached) :
    s.heartbeat = .limitReached ∨ a = .tick ∧ s.LimitDrop := by
  rcases heartbeat_of_step hstep with rfl | rfl | rfl | hsame
  · obtain ⟨drops, aborted, hheart, rfl⟩ := tick_inv hstep
    refine .inr ⟨rfl, ?_⟩
    unfold tick at hlimit
    split at hlimit
    · exact absurd hlimit (by simp)
    · next hsink =>
      split at hlimit
      · next hfull =>
        split at hlimit
        · next hdrops => exact ⟨by simpa using hsink, hfull, drops, aborted, hheart, hdrops⟩
        · exact absurd hlimit (by simp)
      · exact absurd hlimit (by simp)
  · rw [cancelHeartbeat_inv hstep] at hlimit
    exact absurd hlimit (by simp)
  · exact .inl (limit_of_tearDown hstep hlimit)
  · exact .inl (hsame ▸ hlimit)

/-- **The drop limit closes the session**: once the heartbeat has given
up, no clone of the sender is left, so that what is queued only drains
and the sink then ends. -/
def Closes (s : SessionTasks) : Prop := s.heartbeat = .limitReached → s.senders = 0

/-- The heartbeat gives up only when every other sender is gone. -/
def GivesUpLast (s : SessionTasks) : SessionAction → Prop
  | .tick => s.LimitDrop → s.otherSenders = 0
  | _ => True

instance (s : SessionTasks) : ∀ a, Decidable (s.GivesUpLast a)
  | .tick => inferInstanceAs (Decidable (s.LimitDrop → s.otherSenders = 0))
  | .frame .. | .streamEnd | .subscribed _ | .receiverSends | .item .. | .lagged _
  | .broadcastClosed _ | .forward _ | .cancelForwarder _ | .cancelHeartbeat | .tearDown
  | .sinkSends _ | .sinkEnds => isTrue trivial

theorem Closes.step (h : s.Closes) (hok : s.GivesUpLast a) (hstep : sessionStep s a = some s') :
    s'.Closes := by
  intro hlimit
  have hruns : s'.heartbeatRuns = false := by
    unfold heartbeatRuns
    rw [hlimit]
  have hended : s.Ended := by
    rcases limit_of_step hstep hlimit with hbefore | ⟨rfl, hdrop⟩
    · exact (senders_eq_zero_iff.1 (h hbefore)).1
    · exact otherSenders_eq_zero_iff.1 (hok hdrop)
  exact senders_eq_zero_iff.2 ⟨(hended.step hstep).1, hruns⟩

/-- A heartbeat that gives up before leaves the others as they are. -/
theorem givesUpLast_of_closes (hstep : sessionStep s a = some s') (h : s'.Closes) :
    s.GivesUpLast a := by
  cases a with
  | tick =>
    rintro ⟨hsink, hfull, drops, aborted, hheart, hdrops⟩
    obtain ⟨drops', aborted', hheart', rfl⟩ := tick_inv hstep
    obtain ⟨rfl, rfl⟩ := HeartbeatTask.running.inj (hheart.symm.trans hheart')
    have htick : s.tick drops aborted = { s with heartbeat := .limitReached } := by
      rw [tick, hsink, if_neg (by simp), if_pos hfull, if_pos hdrops]
    rw [htick] at h
    have hended := (senders_eq_zero_iff.1 (h rfl)).1
    exact otherSenders_eq_zero_iff.2 ⟨hended.receiver, hended.teardown, hended.tasks⟩
  | _ => trivial

/-- **When the drop limit closes the session.** In all states of a run,
just if each tick at which the heartbeat gives up comes after the receiver,
`run_session` and every forwarder dropped their senders. -/
theorem closes_iff (now : ℕ) (as : List SessionAction) (s : SessionTasks)
    (hrun : run sessionStep (start now) as = some s) :
    (∀ pre u, pre <+: as → run sessionStep (start now) pre = some u → u.Closes) ↔
      EveryStep sessionStep GivesUpLast (start now) as :=
  holds_iff_everyStep (I := Closes) (fun _ _ _ hu hok hstep => hu.step hok hstep) (fun _ hu => hu)
    (fun _ _ _ _ hstep hv => givesUpLast_of_closes hstep hv)
    (fun h => absurd h (by simp [start])) hrun

/-- A client that does not read: one topic, and as many frames as the
channel holds. -/
def stalledClient : List SessionAction :=
  [.frame 0 (some (.text (.ok (.subscribe .blocks)))), .subscribed (.ok ())] ++
    (List.replicate sinkCapacity [.item 0 "block", .forward 0]).flatten

/-- The channel is full for two ticks, and again once the client has gone
and all but the heartbeat have ended. -/
def goneRun : List SessionAction :=
  stalledClient ++ [.tick, .tick, .streamEnd, .tearDown, .cancelForwarder 0, .tearDown, .tearDown,
    .tick]

/-- The heartbeat gives up last, and no sender is left. -/
theorem closes_iff_gone : ∃ s, run sessionStep (start 0) goneRun = some s ∧
    s.heartbeat = .limitReached ∧ s.senders = 0 := by
  have hrun : ((run sessionStep (start 0) goneRun).map fun s => s.heartbeat) =
      some .limitReached := by decide +kernel
  obtain ⟨s, hs, hlimit⟩ := Option.map_eq_some_iff.1 hrun
  have hevery : EveryStep sessionStep GivesUpLast (start 0) goneRun := by decide +kernel
  exact ⟨s, hs, hlimit, (closes_iff 0 goneRun s hs).2 hevery goneRun s List.prefix_rfl hs hlimit⟩

/-- The ticks find the channel full while the client is there. -/
def stalledRun : List SessionAction :=
  stalledClient ++ List.replicate heartbeatDropLimit .tick

/-- **The session of a client that does not read goes on**: the heartbeat
has given up, and the receiver, `run_session` and the forwarder still have
their senders. -/
theorem not_closes_stalled :
    ¬ ∀ now as s, run sessionStep (start now) as = some s → s.Closes := by
  intro hall
  have hrun : ((run sessionStep (start 0) stalledRun).map fun s => (s.heartbeat, s.senders)) =
      some (.limitReached, 3) := by decide +kernel
  obtain ⟨s, hs, heq⟩ := Option.map_eq_some_iff.1 hrun
  obtain ⟨hlimit, hsenders⟩ := Prod.mk.inj heq
  have hclosed := hall 0 stalledRun s hs hlimit
  omega

end SessionTasks

end Live

end AllfeatExplorer
