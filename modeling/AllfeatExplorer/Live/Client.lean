import AllfeatExplorer.Lib.Mutex
import AllfeatExplorer.Lib.Run
import AllfeatExplorer.Live.Model.Client
import Mathlib.Algebra.Group.Nat.Defs

/-!
# One connection, one supervisor

In every run, with any number of callers: at most one connection is being
opened, by the holder of the lock, while the slot is empty, so no
connection in the slot is ever written over. At most one supervisor runs;
and since it keeps a receiver of the head channel itself, it never finds
that channel closed, so once started it runs on, also when the client is
dropped.
-/

namespace AllfeatExplorer

namespace Live

/-- Whether a pass is on, up to the clearing of the slot after it. -/
def SupervisorStage.inPass : SupervisorStage → Bool
  | .streaming _ | .clearing => true
  | _ => false

/-- Whether the heads may be set: during a pass, until the slot is cleared
after it, and after a natural end. -/
def Supervisor.mayShow (sup : Supervisor) : Bool :=
  sup.eof || sup.stage.inPass

namespace RpcClient

variable {c c' d : RpcClient} {k i : ℕ} {stage : CallerStage} {sup : Supervisor}
variable {action : RpcAction}

/-! ## What a step can do -/

/-- **What a step of a call can do.** -/
theorem callerStep_cases (h : callerStep c k stage action = some c') :
    (∃ stage', stage.holds = false ∧ stage'.holds = false ∧ stage.over = false ∧
        c' = c.setCaller k stage') ∨
      (∃ second, stage = .wantWrite second ∧ c.lock = none ∧ c.inner = none ∧
        c' = { c with lock := some (.caller k) }.setCaller k (.connecting second)) ∨
      (∃ second, stage = .connecting second ∧ c' = c.connect.setCaller k (.spawning c.opened)) ∨
      (∃ stage', stage.holds = true ∧ stage'.holds = false ∧
        c' = { c with lock := none }.setCaller k stage') ∨
      (∃ conn, stage = .spawning conn ∧
        c' = c.ensureWatcherRunning.setCaller k (.returned (some conn))) ∨
      (stage = .wantInvalidate ∧ c.lock = none ∧
        c' = { c.clear with lock := some (.caller k) }.setCaller k .invalidating) := by
  unfold callerStep at h
  split at h
  · split at h
    · split at h
      · cases h
        exact .inl ⟨_, rfl, rfl, rfl, rfl⟩
      · cases h
        exact .inl ⟨_, rfl, rfl, rfl, rfl⟩
    · cases h
  · rename_i second _
    split at h
    · rename_i hlock
      split at h
      · cases h
        exact .inl ⟨_, rfl, rfl, rfl, rfl⟩
      · rename_i hinner
        cases h
        exact .inr (.inl ⟨second, rfl, hlock, hinner, rfl⟩)
    · cases h
  · rename_i second _
    cases h
    exact .inr (.inr (.inl ⟨second, rfl, rfl⟩))
  · rename_i second _
    cases h
    refine .inr (.inr (.inr (.inl ⟨_, rfl, ?_, rfl⟩)))
    split <;> rfl
  · rename_i conn _
    cases h
    exact .inr (.inr (.inr (.inr (.inl ⟨conn, rfl, rfl⟩))))
  · split at h
    · rename_i hlock
      cases h
      exact .inr (.inr (.inr (.inr (.inr ⟨rfl, hlock, rfl⟩))))
    · cases h
  · cases h
    exact .inr (.inr (.inr (.inl ⟨_, rfl, rfl, rfl⟩)))
  · cases h
  · split at h
    · cases h
    · rename_i hover
      rcases hholds : stage.holds with _ | _
      · rw [hholds] at h
        cases h
        exact .inl ⟨_, rfl, rfl, Bool.eq_false_iff.mpr hover, rfl⟩
      · rw [hholds] at h
        cases h
        exact .inr (.inr (.inr (.inl ⟨_, rfl, rfl, rfl⟩)))
  · cases h

/-- What an action makes of a supervisor's backoff. -/
def backoffAfter (action : RpcAction) (backoff : ℕ) : ℕ :=
  match action with
  | .streamEof _ => watcherInitialBackoff
  | .watcherWake _ => min (backoff * 2) watcherMaxBackoff
  | _ => backoff

/-- **What a step of a supervisor can do.** -/
theorem supervisorStep_cases (h : supervisorStep c i sup sup.stage action = some c') :
    (∃ sup', sup.stage.holds = false ∧ sup'.stage.holds = false ∧
        (sup'.stage.returned = true → c.headReceivers = 0) ∧
        (sup.mayShow = true → sup'.mayShow = true ∨ sup'.stage.returned = true) ∧
        sup'.backoff = backoffAfter action sup.backoff ∧ c' = c.setSupervisor i sup') ∨
      (c.lock = none ∧ c.inner = none ∧ sup.stage = .wantWrite ∧
        c' = { c with lock := some (.supervisor i) }.moveSupervisor i sup .connecting) ∨
      (sup.stage = .connecting ∧ c' = c.connect.moveSupervisor i sup (.streaming c.opened)) ∨
      (sup.stage = .connecting ∧ c' = { c with lock := none }.moveSupervisor i sup .sleeping) ∨
      (∃ conn finalized best, sup.stage = .streaming conn ∧
        c' = { c with finalizedHead := finalized, bestHead := best }) ∨
      (sup.stage = .clearing ∧ c.lock = none ∧ c' = c.clear.moveSupervisor i sup .sleeping) ∨
      (sup.stage = .exiting ∧ c' = { c with alive := false }.moveSupervisor i sup .ended) := by
  obtain ⟨stage, backoff, eof⟩ := sup
  unfold supervisorStep at h
  dsimp only at h
  split at h
  · cases h
    refine .inl ⟨⟨if c.headReceivers = 0 then .exiting else .reading, backoff, eof⟩, rfl, ?_, ?_,
      ?_, rfl, rfl⟩
    · dsimp only
      split <;> rfl
    · intro hret
      by_contra hopen
      dsimp only at hret
      rw [if_neg hopen] at hret
      cases hret
    · intro hshow
      dsimp only
      split
      · exact .inr rfl
      · exact .inl hshow
  · split at h
    · split at h
      · rename_i conn _
        cases h
        exact .inl ⟨⟨.streaming conn, backoff, eof⟩, rfl, rfl, nofun,
          fun _ => .inl (Bool.or_true eof), rfl, rfl⟩
      · cases h
        exact .inl ⟨⟨.wantWrite, backoff, eof⟩, rfl, rfl, nofun, .inl, rfl, rfl⟩
    · cases h
  · split at h
    · rename_i hlock
      split at h
      · rename_i conn _
        cases h
        exact .inl ⟨⟨.streaming conn, backoff, eof⟩, rfl, rfl, nofun,
          fun _ => .inl (Bool.or_true eof), rfl, rfl⟩
      · rename_i hinner
        cases h
        exact .inr (.inl ⟨hlock, hinner, rfl, rfl⟩)
    · cases h
  · cases h
    exact .inr (.inr (.inl ⟨rfl, rfl⟩))
  · cases h
    exact .inr (.inr (.inr (.inl ⟨rfl, rfl⟩)))
  · rename_i conn _ number
    split at h
    · rename_i hclosed
      cases h
      exact .inl ⟨⟨.exiting, backoff, eof⟩, rfl, rfl, fun _ => hclosed, fun _ => .inr rfl, rfl,
        rfl⟩
    · cases h
      exact .inr (.inr (.inr (.inr (.inl ⟨conn, some number, c.bestHead, rfl, rfl⟩))))
  · rename_i conn _ number
    cases h
    refine .inr (.inr (.inr (.inr (.inl ⟨conn, c.finalizedHead,
      if c.owned then some number else c.bestHead, rfl, ?_⟩))))
    split <;> rfl
  · cases h
    exact .inl ⟨⟨.clearing, backoff, false⟩, rfl, rfl, nofun, fun _ => .inl rfl, rfl, rfl⟩
  · cases h
    exact .inl ⟨⟨.checking, watcherInitialBackoff, true⟩, rfl, rfl, nofun, fun _ => .inl rfl, rfl,
      rfl⟩
  · split at h
    · rename_i hlock
      cases h
      exact .inr (.inr (.inr (.inr (.inr (.inl ⟨rfl, hlock, rfl⟩)))))
    · cases h
  · cases h
    exact .inl ⟨⟨.checking, min (backoff * 2) watcherMaxBackoff, eof⟩, rfl, rfl, nofun, .inl, rfl,
      rfl⟩
  · cases h
    exact .inr (.inr (.inr (.inr (.inr (.inr ⟨rfl, rfl⟩)))))
  · cases h

theorem supervisor_of_caller (h : action.caller = some k) : action.supervisor = none := by
  cases action <;> first | rfl | cases h

/-- **What a step can do.** -/
theorem rpcStep_cases (h : rpcStep c action = some c') :
    (action.supervisor = none ∧
        (c' = c.ensureWatcherRunning ∨ (∃ n, c' = { c with watchers := n }) ∨
          c' = { c with owned := false } ∨
          c' = { c with callers := c.callers ++ [.reading false] })) ∨
      (∃ k stage, action.supervisor = none ∧ c.callers[k]? = some stage ∧
        callerStep c k stage action = some c') ∨
      (∃ i sup, action.supervisor = some i ∧ c.supervisors[i]? = some sup ∧
        supervisorStep c i sup sup.stage action = some c') := by
  unfold rpcStep at h
  split at h
  · split at h
    · cases h
      exact .inl ⟨rfl, .inl rfl⟩
    · cases h
  · split at h
    · cases h
      exact .inl ⟨rfl, .inr (.inl ⟨_, rfl⟩)⟩
    · cases h
  · split at h
    · cases h
      exact .inl ⟨rfl, .inr (.inl ⟨_, rfl⟩)⟩
    · cases h
  · split at h
    · cases h
      exact .inl ⟨rfl, .inr (.inr (.inl rfl))⟩
    · cases h
  · split at h
    · cases h
      exact .inl ⟨rfl, .inr (.inr (.inr rfl))⟩
    · cases h
  · split at h
    · rename_i k hk
      obtain ⟨stage, hstage, h⟩ := Option.bind_eq_some_iff.mp h
      exact .inr (.inl ⟨k, stage, supervisor_of_caller hk, hstage, h⟩)
    · rename_i i _ hi
      obtain ⟨sup, hsup, h⟩ := Option.bind_eq_some_iff.mp h
      exact .inr (.inr ⟨i, sup, hi, hsup, h⟩)
    · cases h

/-! ## The lock -/

/-- Whether a task is in code it runs with the lock held. -/
def holds (c : RpcClient) : RpcTask → Bool
  | .caller k => c.callers[k]?.any CallerStage.holds
  | .supervisor i => c.supervisors[i]?.any fun sup => sup.stage.holds

theorem holds_caller (hk : c.callers[k]? = some stage) :
    c.holds (.caller k) = stage.holds := by
  change c.callers[k]?.any CallerStage.holds = _
  rw [hk]
  rfl

theorem holds_supervisor (hi : c.supervisors[i]? = some sup) :
    c.holds (.supervisor i) = sup.stage.holds := by
  change c.supervisors[i]?.any (fun sup => sup.stage.holds) = _
  rw [hi]
  rfl

theorem holds_setCaller (hk : c.callers[k]? = some stage) (stage' : CallerStage) :
    (c.setCaller k stage').holds = Function.update c.holds (.caller k) stage'.holds := by
  obtain ⟨hlt, -⟩ := List.getElem?_eq_some_iff.mp hk
  funext t
  rcases eq_or_ne t (.caller k) with rfl | hne
  · rw [Function.update_self]
    change (c.callers.set k stage')[k]?.any CallerStage.holds = _
    rw [List.getElem?_set_self hlt]
    rfl
  · rw [Function.update_of_ne hne]
    cases t with
    | caller j =>
      have hj : k ≠ j := fun h => hne (by rw [h])
      change (c.callers.set k stage')[j]?.any CallerStage.holds = _
      rw [List.getElem?_set_ne hj]
      rfl
    | supervisor j => rfl

theorem holds_setSupervisor (hi : c.supervisors[i]? = some sup) (sup' : Supervisor) :
    (c.setSupervisor i sup').holds =
      Function.update c.holds (.supervisor i) sup'.stage.holds := by
  obtain ⟨hlt, -⟩ := List.getElem?_eq_some_iff.mp hi
  funext t
  rcases eq_or_ne t (.supervisor i) with rfl | hne
  · rw [Function.update_self]
    change (c.supervisors.set i sup')[i]?.any (fun sup => sup.stage.holds) = _
    rw [List.getElem?_set_self hlt]
    rfl
  · rw [Function.update_of_ne hne]
    cases t with
    | caller j => rfl
    | supervisor j =>
      have hj : i ≠ j := fun h => hne (by rw [h])
      change (c.supervisors.set i sup')[j]?.any (fun sup => sup.stage.holds) = _
      rw [List.getElem?_set_ne hj]
      rfl

/-- A new task that holds nothing changes nothing. -/
theorem any_append_singleton {α : Type*} {xs : List α} {x : α} {p : α → Bool}
    (hx : p x = false) (j : ℕ) : (xs ++ [x])[j]?.any p = xs[j]?.any p := by
  rcases Nat.lt_trichotomy j xs.length with hlt | rfl | hgt
  · rw [List.getElem?_append_left hlt]
  · rw [List.getElem?_concat_length, List.getElem?_eq_none (by omega)]
    simpa using hx
  · rw [List.getElem?_eq_none (by simp; omega), List.getElem?_eq_none (by omega)]

theorem holds_newCaller :
    holds { c with callers := c.callers ++ [.reading false] } = c.holds := by
  funext t
  cases t with
  | caller j => exact any_append_singleton rfl j
  | supervisor j => rfl

theorem holds_ensureWatcherRunning : c.ensureWatcherRunning.holds = c.holds := by
  unfold ensureWatcherRunning
  split
  · rfl
  · funext t
    cases t with
    | caller j => rfl
    | supervisor j => exact any_append_singleton rfl j

/-- **The lock, the slot and the connections**: the lock names the task
that holds it, a held lock guards an empty slot, and a connection opened
is in the slot or was taken out of it. -/
structure Locking (c : RpcClient) : Prop where
  agree : Mutex.Agree c.lock c.holds
  empty : c.lock ≠ none → c.inner = none
  opened : c.opened = c.dropped + if c.inner.isSome then 1 else 0

theorem locking_new : new.Locking where
  agree := by
    intro t
    cases t <;> exact ⟨nofun, nofun⟩
  empty := fun _ => rfl
  opened := rfl

/-- A task that goes on without the lock. -/
theorem Locking.keep (h : c.Locking) {t : RpcTask} (hlock : c'.lock = c.lock)
    (hinner : c'.inner = c.inner) (hopened : c'.opened = c.opened)
    (hdropped : c'.dropped = c.dropped)
    (hholds : c'.holds = Function.update c.holds t (c.holds t)) : c'.Locking where
  agree := by
    rw [hlock]
    exact h.agree.keep rfl hholds
  empty := by
    rw [hlock, hinner]
    exact h.empty
  opened := by
    rw [hopened, hdropped, hinner]
    exact h.opened

/-- A task that takes the lock to connect. -/
theorem Locking.take (h : c.Locking) {t : RpcTask} (hfree : c.lock = none)
    (hempty : c.inner = none) (hlock : c'.lock = some t) (hinner : c'.inner = c.inner)
    (hopened : c'.opened = c.opened) (hdropped : c'.dropped = c.dropped)
    (hholds : c'.holds = Function.update c.holds t true) : c'.Locking where
  agree := by
    have hagree := h.agree
    rw [hfree] at hagree
    rw [hlock]
    exact hagree.take hholds
  empty := fun _ => hinner.trans hempty
  opened := by
    rw [hopened, hdropped, hinner]
    exact h.opened

/-- The task that holds the lock, and releases it. -/
theorem Locking.release (h : c.Locking) {t : RpcTask} (ht : c.holds t = true)
    (hlock : c'.lock = none) (hinner : c'.inner = c.inner) (hopened : c'.opened = c.opened)
    (hdropped : c'.dropped = c.dropped) (hholds : c'.holds = Function.update c.holds t false) :
    c'.Locking where
  agree := by
    rw [hlock]
    exact h.agree.release ht hholds
  empty := fun hne => absurd hlock hne
  opened := by
    rw [hopened, hdropped, hinner]
    exact h.opened

/-- The task that holds the lock, fills the slot and releases it. -/
theorem Locking.connect (h : c.Locking) {t : RpcTask} (ht : c.holds t = true)
    (hlock : c'.lock = none) (hinner : c'.inner = some c.opened)
    (hopened : c'.opened = c.opened + 1) (hdropped : c'.dropped = c.dropped)
    (hholds : c'.holds = Function.update c.holds t false) : c'.Locking where
  agree := by
    rw [hlock]
    exact h.agree.release ht hholds
  empty := fun hne => absurd hlock hne
  opened := by
    have hheld : c.lock ≠ none := by
      rw [(h.agree t).mpr ht]
      exact Option.some_ne_none t
    have hcount := h.opened
    rw [h.empty hheld] at hcount
    rw [hopened, hdropped, hinner, hcount]
    rfl

theorem opened_clear (h : c.Locking) :
    c.clear.opened = c.clear.dropped + if c.clear.inner.isSome then 1 else 0 := h.opened

/-- **A step of a call keeps the lock.** -/
theorem Locking.callerStep (h : c.Locking) (hk : c.callers[k]? = some stage)
    (hstep : callerStep c k stage action = some c') : c'.Locking := by
  have hat := holds_caller hk
  obtain ⟨stage', hold, hnew, -, rfl⟩ | ⟨second, rfl, hfree, hempty, rfl⟩ | ⟨second, rfl, rfl⟩ |
    ⟨stage', hold, hnew, rfl⟩ | ⟨conn, rfl, rfl⟩ | ⟨rfl, hfree, rfl⟩ := callerStep_cases hstep
  · refine h.keep (t := .caller k) rfl rfl rfl rfl ?_
    rw [holds_setCaller hk, hat, hold, hnew]
  · exact h.take hfree hempty rfl rfl rfl rfl (holds_setCaller hk _)
  · exact h.connect hat rfl rfl rfl rfl (holds_setCaller hk _)
  · refine h.release (hat.trans hold) rfl rfl rfl rfl ?_
    rw [← hnew]
    exact holds_setCaller hk _
  · have hens : c.ensureWatcherRunning.callers[k]? = some (.spawning conn) := by
      unfold ensureWatcherRunning
      split <;> exact hk
    refine h.keep (t := .caller k) ?_ ?_ ?_ ?_ ?_
    · unfold ensureWatcherRunning
      split <;> rfl
    · unfold ensureWatcherRunning
      split <;> rfl
    · unfold ensureWatcherRunning
      split <;> rfl
    · unfold ensureWatcherRunning
      split <;> rfl
    · rw [holds_setCaller hens, holds_ensureWatcherRunning, hat]
      rfl
  · have hclear : c.clear.callers[k]? = some .wantInvalidate := hk
    refine ⟨?_, fun _ => rfl, opened_clear (c := c) h⟩
    have hagree := h.agree
    rw [hfree] at hagree
    exact hagree.take (holds_setCaller hk .invalidating)

/-- **A step of a supervisor keeps the lock.** -/
theorem Locking.supervisorStep (h : c.Locking) (hi : c.supervisors[i]? = some sup)
    (hstep : supervisorStep c i sup sup.stage action = some c') : c'.Locking := by
  have hat := holds_supervisor hi
  obtain ⟨sup', hold, hnew, -, -, -, rfl⟩ | ⟨hfree, hempty, -, rfl⟩ | ⟨hstage, rfl⟩ |
    ⟨hstage, rfl⟩ | ⟨conn, finalized, best, -, rfl⟩ | ⟨hstage, hfree, rfl⟩ | ⟨hstage, rfl⟩ :=
    supervisorStep_cases hstep
  · refine h.keep (t := .supervisor i) rfl rfl rfl rfl ?_
    rw [holds_setSupervisor hi, hat, hold, hnew]
  · exact h.take hfree hempty rfl rfl rfl rfl (holds_setSupervisor hi _)
  · refine h.connect (hat.trans ?_) rfl rfl rfl rfl (holds_setSupervisor hi _)
    rw [hstage]
    rfl
  · refine h.release (hat.trans ?_) rfl rfl rfl rfl (holds_setSupervisor hi _)
    rw [hstage]
    rfl
  · exact ⟨h.agree, h.empty, h.opened⟩
  · refine ⟨?_, fun _ => rfl, opened_clear (c := c) h⟩
    refine h.agree.keep (t := .supervisor i) (hat.trans ?_) (holds_setSupervisor hi _)
    rw [hstage]
    rfl
  · refine h.keep (t := .supervisor i) rfl rfl rfl rfl ?_
    rw [hat, hstage]
    exact holds_setSupervisor hi _

/-- **Every step keeps the lock.** -/
theorem Locking.step (h : c.Locking) (hstep : rpcStep c action = some c') : c'.Locking := by
  obtain ⟨-, rfl | ⟨n, rfl⟩ | rfl | rfl⟩ | ⟨k, stage, -, hk, hcall⟩ | ⟨i, sup, -, hi, hsup⟩ :=
    rpcStep_cases hstep
  · refine ⟨?_, ?_, ?_⟩
    · rw [holds_ensureWatcherRunning]
      unfold ensureWatcherRunning
      split <;> exact h.agree
    · unfold ensureWatcherRunning
      split <;> exact h.empty
    · unfold ensureWatcherRunning
      split <;> exact h.opened
  · exact ⟨h.agree, h.empty, h.opened⟩
  · exact ⟨h.agree, h.empty, h.opened⟩
  · refine ⟨?_, h.empty, h.opened⟩
    rw [holds_newCaller]
    exact h.agree
  · exact h.callerStep hk hcall
  · exact h.supervisorStep hi hsup

/-! ## The supervisor -/

/-- **One supervisor, which runs on**: there is one just if the flag is
set, and none has returned. -/
structure Watching (c : RpcClient) : Prop where
  one : c.supervisors.length = if c.alive then 1 else 0
  running : ∀ sup ∈ c.supervisors, sup.stage.returned = false

theorem watching_new : new.Watching := ⟨rfl, nofun⟩

/-- A supervisor that runs is a receiver of the head it publishes. -/
theorem headReceivers_pos (hi : c.supervisors[i]? = some sup) (hrun : sup.stage.returned = false) :
    0 < c.headReceivers := by
  have hpos : 0 < c.supervisors.countP fun sup => !sup.stage.returned := by
    refine List.countP_pos_iff.mpr ⟨sup, List.mem_of_getElem? hi, ?_⟩
    rw [hrun]
    rfl
  unfold headReceivers
  omega

theorem Watching.setSupervisor (h : c.Watching) {sup' : Supervisor}
    (hrun : sup'.stage.returned = false) (halive : d.alive = c.alive)
    (hsup : d.supervisors = c.supervisors.set i sup') : d.Watching where
  one := by
    rw [hsup, halive, List.length_set]
    exact h.one
  running := by
    rw [hsup]
    intro s hs
    rcases List.mem_or_eq_of_mem_set hs with hold | rfl
    · exact h.running s hold
    · exact hrun

theorem Watching.ensureWatcherRunning (h : c.Watching) (halive : d.alive = true)
    (hsup : d.supervisors = c.ensureWatcherRunning.supervisors) : d.Watching := by
  have hone := h.one
  unfold RpcClient.ensureWatcherRunning at hsup
  rcases hflag : c.alive with _ | _
  · rw [hflag] at hsup hone
    have hnil : c.supervisors = [] := List.eq_nil_of_length_eq_zero hone
    rw [hnil] at hsup
    refine ⟨by rw [hsup, halive]; rfl, ?_⟩
    rw [hsup]
    intro s hs
    obtain rfl := List.mem_singleton.mp hs
    rfl
  · rw [hflag] at hsup hone
    refine ⟨by rw [hsup, halive]; exact hone, ?_⟩
    rw [hsup]
    exact h.running

theorem alive_ensureWatcherRunning : c.ensureWatcherRunning.alive = true := by
  unfold RpcClient.ensureWatcherRunning
  split
  · rename_i h
    exact h
  · rfl

/-- **Every step keeps the supervisor.** -/
theorem Watching.step (h : c.Watching) (hstep : rpcStep c action = some c') : c'.Watching := by
  obtain ⟨-, rfl | ⟨n, rfl⟩ | rfl | rfl⟩ | ⟨k, stage, -, hk, hcall⟩ | ⟨i, sup, -, hi, hsup⟩ :=
    rpcStep_cases hstep
  · exact h.ensureWatcherRunning alive_ensureWatcherRunning rfl
  · exact ⟨h.one, h.running⟩
  · exact ⟨h.one, h.running⟩
  · exact ⟨h.one, h.running⟩
  · obtain ⟨stage', -, -, -, rfl⟩ | ⟨second, -, -, -, rfl⟩ | ⟨second, -, rfl⟩ |
      ⟨stage', -, -, rfl⟩ | ⟨conn, -, rfl⟩ | ⟨-, -, rfl⟩ := callerStep_cases hcall
    · exact ⟨h.one, h.running⟩
    · exact ⟨h.one, h.running⟩
    · exact ⟨h.one, h.running⟩
    · exact ⟨h.one, h.running⟩
    · exact h.ensureWatcherRunning alive_ensureWatcherRunning rfl
    · exact ⟨h.one, h.running⟩
  · have hrun := h.running sup (List.mem_of_getElem? hi)
    have hpos := headReceivers_pos hi hrun
    obtain ⟨sup', -, -, hret, -, -, rfl⟩ | ⟨-, -, -, rfl⟩ | ⟨hstage, rfl⟩ |
      ⟨hstage, rfl⟩ | ⟨conn, finalized, best, -, rfl⟩ | ⟨hstage, -, rfl⟩ | ⟨hstage, rfl⟩ :=
      supervisorStep_cases hsup
    · refine h.setSupervisor ?_ rfl rfl
      by_contra hne
      have hzero := hret ((Bool.not_eq_false _).mp hne)
      omega
    · exact h.setSupervisor rfl rfl rfl
    · exact h.setSupervisor rfl rfl rfl
    · exact h.setSupervisor rfl rfl rfl
    · exact ⟨h.one, h.running⟩
    · exact h.setSupervisor rfl rfl rfl
    · rw [hstage] at hrun
      cases hrun

/-- **Every step keeps the flag.** -/
theorem alive_step (h : c.Watching) (halive : c.alive = true) (hstep : rpcStep c action = some c') :
    c'.alive = true := by
  obtain ⟨-, rfl | ⟨n, rfl⟩ | rfl | rfl⟩ | ⟨k, stage, -, hk, hcall⟩ | ⟨i, sup, -, hi, hsup⟩ :=
    rpcStep_cases hstep
  · exact alive_ensureWatcherRunning
  · exact halive
  · exact halive
  · exact halive
  · obtain ⟨stage', -, -, -, rfl⟩ | ⟨second, -, -, -, rfl⟩ | ⟨second, -, rfl⟩ |
      ⟨stage', -, -, rfl⟩ | ⟨conn, -, rfl⟩ | ⟨-, -, rfl⟩ := callerStep_cases hcall
    · exact halive
    · exact halive
    · exact halive
    · exact halive
    · exact alive_ensureWatcherRunning
    · exact halive
  · obtain ⟨sup', -, -, -, -, -, rfl⟩ | ⟨-, -, -, rfl⟩ | ⟨-, rfl⟩ | ⟨-, rfl⟩ |
      ⟨conn, finalized, best, -, rfl⟩ | ⟨-, -, rfl⟩ | ⟨hstage, -⟩ := supervisorStep_cases hsup
    · exact halive
    · exact halive
    · exact halive
    · exact halive
    · exact halive
    · exact halive
    · have hrun := h.running sup (List.mem_of_getElem? hi)
      rw [hstage] at hrun
      cases hrun

/-- **The steps that ask for the supervisor**: the warm-up, and the call
that opened a connection. -/
def Asks (action : RpcAction) : Prop := action = .warmUp ∨ ∃ k, action = .spawn k

/-- After one the flag is set. -/
theorem alive_of_asks (hasks : Asks action) (hstep : rpcStep c action = some c') :
    c'.alive = true := by
  rcases hasks with rfl | ⟨k, rfl⟩
  · change (if c.owned then some c.ensureWatcherRunning else none) = some c' at hstep
    split at hstep
    · obtain rfl := Option.some.inj hstep
      exact alive_ensureWatcherRunning
    · cases hstep
  · obtain ⟨stage, -, hcall⟩ := Option.bind_eq_some_iff.mp
      (show (c.callers[k]?.bind fun stage => callerStep c k stage (.spawn k)) = some c' from hstep)
    cases stage with
    | spawning conn =>
      obtain rfl := Option.some.inj hcall
      exact alive_ensureWatcherRunning
    | _ => cases hcall

/-! ## The heads -/

/-- A head is set only where a supervisor may show it. -/
def Showing (c : RpcClient) : Prop :=
  c.finalizedHead.isSome = true ∨ c.owned = true ∧ c.bestHead.isSome = true →
    ∃ (i : ℕ) (sup : Supervisor), c.supervisors[i]? = some sup ∧ sup.mayShow = true

theorem showing_new : new.Showing := by
  rintro (h | ⟨-, h⟩) <;> cases h

theorem showing_of_clear (hfinal : d.finalizedHead = c.clear.finalizedHead)
    (hbest : d.bestHead = c.clear.bestHead) (howned : d.owned = c.owned) : d.Showing := by
  rintro (h | ⟨ho, h⟩)
  · rw [hfinal] at h
    cases h
  · rw [howned] at ho
    rw [hbest] at h
    unfold clear at h
    rw [if_pos ho] at h
    cases h

theorem Showing.ensureWatcherRunning (h : c.Showing) (hfinal : d.finalizedHead = c.finalizedHead)
    (hbest : d.bestHead = c.bestHead) (howned : d.owned = c.owned)
    (hsup : d.supervisors = c.ensureWatcherRunning.supervisors) : d.Showing := by
  intro hset
  rw [hfinal, hbest, howned] at hset
  obtain ⟨i, sup, hi, hshow⟩ := h hset
  refine ⟨i, sup, ?_, hshow⟩
  obtain ⟨hlt, -⟩ := List.getElem?_eq_some_iff.mp hi
  rw [hsup]
  unfold RpcClient.ensureWatcherRunning
  split
  · exact hi
  · rw [List.getElem?_append_left hlt]
    exact hi

theorem Showing.setSupervisor (h : c.Showing) (hi : c.supervisors[i]? = some sup)
    {sup' : Supervisor} (hkeep : sup.mayShow = true → sup'.mayShow = true)
    (hfinal : d.finalizedHead = c.finalizedHead) (hbest : d.bestHead = c.bestHead)
    (howned : d.owned = c.owned) (hsup : d.supervisors = c.supervisors.set i sup') :
    d.Showing := by
  intro hset
  rw [hfinal, hbest, howned] at hset
  obtain ⟨j, s, hj, hshow⟩ := h hset
  obtain ⟨hlt, -⟩ := List.getElem?_eq_some_iff.mp hi
  rw [hsup]
  rcases eq_or_ne i j with rfl | hne
  · rw [hi] at hj
    cases hj
    exact ⟨i, sup', List.getElem?_set_self hlt, hkeep hshow⟩
  · exact ⟨j, s, (List.getElem?_set_ne hne).trans hj, hshow⟩

/-- Outside a pass, a supervisor that goes on may show what it might. -/
theorem Showing.outOfPass (h : c.Showing) (hi : c.supervisors[i]? = some sup)
    (hpass : sup.stage.inPass = false) {stage' : SupervisorStage}
    (hfinal : d.finalizedHead = c.finalizedHead) (hbest : d.bestHead = c.bestHead)
    (howned : d.owned = c.owned)
    (hsup : d.supervisors = c.supervisors.set i ⟨stage', sup.backoff, sup.eof⟩) : d.Showing := by
  refine h.setSupervisor hi (fun hshow => ?_) hfinal hbest howned hsup
  unfold Supervisor.mayShow at hshow ⊢
  rw [hpass, Bool.or_false] at hshow
  rw [hshow, Bool.true_or]

/-- **Every step keeps the heads.** -/
theorem Showing.step (h : c.Showing) (hwatch : c.Watching) (hstep : rpcStep c action = some c') :
    c'.Showing := by
  obtain ⟨-, rfl | ⟨n, rfl⟩ | rfl | rfl⟩ | ⟨k, stage, -, hk, hcall⟩ | ⟨i, sup, -, hi, hsup⟩ :=
    rpcStep_cases hstep
  · have hens : c.ensureWatcherRunning.finalizedHead = c.finalizedHead ∧
        c.ensureWatcherRunning.bestHead = c.bestHead ∧
        c.ensureWatcherRunning.owned = c.owned := by
      unfold RpcClient.ensureWatcherRunning
      split <;> exact ⟨rfl, rfl, rfl⟩
    exact h.ensureWatcherRunning hens.1 hens.2.1 hens.2.2 rfl
  · exact h
  · rintro (hset | ⟨ho, -⟩)
    · exact h (.inl hset)
    · cases ho
  · exact h
  · obtain ⟨stage', -, -, -, rfl⟩ | ⟨second, -, -, -, rfl⟩ | ⟨second, -, rfl⟩ |
      ⟨stage', -, -, rfl⟩ | ⟨conn, -, rfl⟩ | ⟨-, -, rfl⟩ := callerStep_cases hcall
    · exact h
    · exact h
    · exact h
    · exact h
    · have hens : c.ensureWatcherRunning.finalizedHead = c.finalizedHead ∧
          c.ensureWatcherRunning.bestHead = c.bestHead ∧
          c.ensureWatcherRunning.owned = c.owned := by
        unfold RpcClient.ensureWatcherRunning
        split <;> exact ⟨rfl, rfl, rfl⟩
      exact h.ensureWatcherRunning hens.1 hens.2.1 hens.2.2 rfl
    · exact showing_of_clear (c := c) rfl rfl rfl
  · have hpos := headReceivers_pos hi (hwatch.running sup (List.mem_of_getElem? hi))
    obtain ⟨sup', -, -, hret, hkeep, -, rfl⟩ | ⟨-, -, hstage, rfl⟩ | ⟨hstage, rfl⟩ | ⟨hstage, rfl⟩ |
      ⟨conn, finalized, best, hstage, rfl⟩ | ⟨-, -, rfl⟩ | ⟨hstage, rfl⟩ :=
      supervisorStep_cases hsup
    · refine h.setSupervisor hi (fun hshow => ?_) rfl rfl rfl rfl
      rcases hkeep hshow with hshow' | hreturned
      · exact hshow'
      · have hzero := hret hreturned
        omega
    · exact h.outOfPass hi (by rw [hstage]; rfl) rfl rfl rfl rfl
    · exact h.outOfPass hi (by rw [hstage]; rfl) rfl rfl rfl rfl
    · exact h.outOfPass hi (by rw [hstage]; rfl) rfl rfl rfl rfl
    · refine fun _ => ⟨i, sup, hi, ?_⟩
      unfold Supervisor.mayShow
      rw [hstage]
      exact Bool.or_true sup.eof
    · exact showing_of_clear (c := c) rfl rfl rfl
    · exact h.outOfPass hi (by rw [hstage]; rfl) rfl rfl rfl rfl

/-! ## The backoff -/

/-- The failures of a supervisor since its last natural end, each with its
sleep. -/
def failures (i : ℕ) (as : List RpcAction) : ℕ :=
  as.foldl (fun n action =>
    if action = .streamEof i then 0 else if action = .watcherWake i then n + 1 else n) 0

theorem failures_append (i : ℕ) (as : List RpcAction) (action : RpcAction) :
    failures i (as ++ [action]) =
      if action = .streamEof i then 0
      else if action = .watcherWake i then failures i as + 1 else failures i as := by
  unfold failures
  rw [List.foldl_append]
  rfl

/-- The backoff after `n` failures in a row. -/
def backoffOf (n : ℕ) : ℕ := min (watcherInitialBackoff * 2 ^ n) watcherMaxBackoff

theorem backoffAfter_backoffOf (hi : action.supervisor = some i) (n : ℕ) :
    backoffAfter action (backoffOf n) =
      backoffOf (if action = .streamEof i then 0
        else if action = .watcherWake i then n + 1 else n) := by
  unfold backoffAfter
  split
  · rename_i j
    cases hi
    rw [if_pos rfl]
    rfl
  · rename_i j
    cases hi
    rw [if_neg (by simp), if_pos rfl]
    unfold backoffOf watcherMaxBackoff
    rw [Nat.pow_succ, ← Nat.mul_assoc]
    omega
  · rename_i heof hwake
    rw [if_neg (heof i), if_neg (hwake i)]

/-- What a step does to the list of supervisors. -/
theorem supervisorStep_supervisors (hi : c.supervisors[i]? = some sup)
    (h : supervisorStep c i sup sup.stage action = some c') :
    ∃ sup', c'.supervisors = c.supervisors.set i sup' ∧
      sup'.backoff = backoffAfter action sup.backoff := by
  obtain ⟨stage, backoff, eof⟩ := sup
  have hsame : c.supervisors = c.supervisors.set i ⟨stage, backoff, eof⟩ := by
    obtain ⟨hlt, hget⟩ := List.getElem?_eq_some_iff.mp hi
    rw [← hget, List.set_getElem_self]
  unfold supervisorStep at h
  dsimp only at h
  split at h
  · cases h
    exact ⟨_, rfl, rfl⟩
  · split at h
    · split at h <;> cases h <;> exact ⟨_, rfl, rfl⟩
    · cases h
  · split at h
    · split at h <;> cases h <;> exact ⟨_, rfl, rfl⟩
    · cases h
  · cases h
    exact ⟨_, rfl, rfl⟩
  · cases h
    exact ⟨_, rfl, rfl⟩
  · split at h
    · cases h
      exact ⟨_, rfl, rfl⟩
    · cases h
      exact ⟨_, hsame, rfl⟩
  · cases h
    refine ⟨_, ?_, rfl⟩
    split <;> exact hsame
  · cases h
    exact ⟨_, rfl, rfl⟩
  · cases h
    exact ⟨_, rfl, rfl⟩
  · split at h
    · cases h
      exact ⟨_, rfl, rfl⟩
    · cases h
  · cases h
    exact ⟨_, rfl, rfl⟩
  · cases h
    exact ⟨_, rfl, rfl⟩
  · cases h

theorem failures_append_of_none (hnone : action.supervisor = none) (i : ℕ) (as : List RpcAction) :
    failures i (as ++ [action]) = failures i as := by
  rw [failures_append, if_neg, if_neg]
  · rintro rfl
    cases hnone
  · rintro rfl
    cases hnone

/-- What the other steps do to the list of supervisors. -/
theorem supervisors_of_none (hnone : action.supervisor = none) (h : rpcStep c action = some c') :
    c'.supervisors = c.supervisors ∨
      c'.supervisors = c.supervisors ++ [⟨.checking, watcherInitialBackoff, false⟩] := by
  have hens : c.ensureWatcherRunning.supervisors = c.supervisors ∨
      c.ensureWatcherRunning.supervisors =
        c.supervisors ++ [⟨.checking, watcherInitialBackoff, false⟩] := by
    unfold ensureWatcherRunning
    split
    · exact .inl rfl
    · exact .inr rfl
  obtain ⟨-, rfl | ⟨n, rfl⟩ | rfl | rfl⟩ | ⟨k, stage, -, hk, hcall⟩ | ⟨i, sup, hi, -, -⟩ :=
    rpcStep_cases h
  · exact hens
  · exact .inl rfl
  · exact .inl rfl
  · exact .inl rfl
  · obtain ⟨stage', -, -, -, rfl⟩ | ⟨second, -, -, -, rfl⟩ | ⟨second, -, rfl⟩ |
      ⟨stage', -, -, rfl⟩ | ⟨conn, -, rfl⟩ | ⟨-, -, rfl⟩ := callerStep_cases hcall
    · exact .inl rfl
    · exact .inl rfl
    · exact .inl rfl
    · exact .inl rfl
    · exact hens
    · exact .inl rfl
  · rw [hnone] at hi
    cases hi

/-- What the supervisors of a run wait, and that what is not spawned has
not failed. -/
structure Backing (as : List RpcAction) (c : RpcClient) : Prop where
  backoff : ∀ (i : ℕ) (sup : Supervisor), c.supervisors[i]? = some sup →
    sup.backoff = backoffOf (failures i as)
  fresh : ∀ i, c.supervisors.length ≤ i → failures i as = 0

theorem backing_new : Backing [] new := ⟨nofun, fun _ _ => rfl⟩

/-- **Every step keeps the backoffs.** -/
theorem Backing.step {as : List RpcAction} (h : Backing as c) (hstep : rpcStep c action = some c') :
    Backing (as ++ [action]) c' := by
  rcases hwho : action.supervisor with _ | j
  · have hsame := failures_append_of_none hwho
    rcases supervisors_of_none hwho hstep with heq | heq
    · refine ⟨fun i sup hi => ?_, fun i hi => ?_⟩
      · rw [heq] at hi
        rw [hsame]
        exact h.backoff i sup hi
      · rw [heq] at hi
        rw [hsame]
        exact h.fresh i hi
    · refine ⟨fun i sup hi => ?_, fun i hi => ?_⟩
      · rw [heq] at hi
        rw [hsame]
        rcases Nat.lt_trichotomy i c.supervisors.length with hlt | rfl | hgt
        · rw [List.getElem?_append_left hlt] at hi
          exact h.backoff i sup hi
        · rw [List.getElem?_concat_length] at hi
          cases hi
          rw [h.fresh _ (by omega)]
          rfl
        · rw [List.getElem?_eq_none (by simp; omega)] at hi
          cases hi
      · rw [heq, List.length_append] at hi
        rw [hsame]
        exact h.fresh i (by omega)
  · obtain ⟨hnone, -⟩ | ⟨k, stage, hnone, -⟩ | ⟨j', sup, hj', hj, hsup⟩ := rpcStep_cases hstep
    · rw [hwho] at hnone
      cases hnone
    · rw [hwho] at hnone
      cases hnone
    · obtain rfl : j = j' := Option.some.inj (hwho.symm.trans hj')
      obtain ⟨sup', heq, hback⟩ := supervisorStep_supervisors hj hsup
      obtain ⟨hlt, -⟩ := List.getElem?_eq_some_iff.mp hj
      have hother : ∀ i, i ≠ j → failures i (as ++ [action]) = failures i as := by
        intro i hne
        rw [failures_append, if_neg, if_neg]
        · rintro rfl
          exact hne (Option.some.inj hwho)
        · rintro rfl
          exact hne (Option.some.inj hwho)
      refine ⟨fun i s hi => ?_, fun i hi => ?_⟩
      · rw [heq] at hi
        rcases eq_or_ne i j with rfl | hne
        · rw [List.getElem?_set_self hlt] at hi
          cases hi
          rw [hback, h.backoff i sup hj, failures_append]
          exact backoffAfter_backoffOf hwho _
        · rw [List.getElem?_set_ne hne.symm] at hi
          rw [hother i hne]
          exact h.backoff i s hi
      · rw [heq, List.length_set] at hi
        rw [hother i (by omega)]
        exact h.fresh i hi

/-! ## Runs -/

variable {as : List RpcAction}

/-- A task that is opening a connection. -/
def Connecting (c : RpcClient) : RpcTask → Prop
  | .caller k => ∃ second, c.callers[k]? = some (.connecting second)
  | .supervisor i => ∃ sup, c.supervisors[i]? = some sup ∧ sup.stage = .connecting

theorem Connecting.holds {t : RpcTask} (h : c.Connecting t) : c.holds t = true := by
  cases t with
  | caller k =>
    obtain ⟨second, hk⟩ := h
    exact holds_caller hk
  | supervisor i =>
    obtain ⟨sup, hi, hstage⟩ := h
    rw [holds_supervisor hi, hstage]
    rfl

/-- **Two connections are never opened at once**, in any run: a task that
is opening one is alone, and finds the slot empty until it is done. So
each connection opened is the one in the slot, or was taken out of it. -/
theorem connecting_run (h : run rpcStep new as = some c) :
    (∀ t u, c.Connecting t → c.Connecting u → t = u) ∧
      (∀ t, c.Connecting t → c.inner = none) ∧
      c.opened = c.dropped + if c.inner.isSome then 1 else 0 := by
  have hlock : c.Locking := inv_run (fun _ _ _ hu hstep => hu.step hstep) locking_new h
  refine ⟨?_, ?_, hlock.opened⟩
  · intro t u ht hu
    exact hlock.agree.unique ht.holds hu.holds
  · intro t ht
    refine hlock.empty ?_
    rw [(hlock.agree t).mpr ht.holds]
    exact Option.some_ne_none t

/-- A supervisor and a call both find the slot empty; the supervisor
connects, and the call takes its connection. -/
def sampleRun : List RpcAction :=
  [.warmUp, .call, .read 0, .watcherCheck 0, .watcherRead 0, .watcherAcquire 0,
    .watcherConnected 0, .acquire 0, .dropClient, .publishFinalized 0 7]

theorem connecting_run_sample :
    ∃ c, run rpcStep new (sampleRun.take 6) = some c ∧ c.Connecting (.supervisor 0) ∧
      (∀ t, c.Connecting t → t = .supervisor 0) ∧ c.inner = none := by
  obtain ⟨c, hc⟩ : ∃ c, run rpcStep new (sampleRun.take 6) = some c := ⟨_, rfl⟩
  have hrun := connecting_run hc
  have hconn : c.Connecting (.supervisor 0) := by
    cases hc
    exact ⟨_, rfl, rfl⟩
  exact ⟨c, hc, hconn, fun t ht => hrun.1 t _ ht hconn, hrun.2.1 _ hconn⟩

theorem watching_run (h : run rpcStep new as = some c) : c.Watching :=
  inv_run (fun _ _ _ hu hstep => hu.step hstep) watching_new h

/-- **Once set the flag stays.** -/
theorem alive_run {pre : List RpcAction} {u : RpcClient} (h : run rpcStep new as = some c)
    (hpre : pre <+: as) (hu : run rpcStep new pre = some u) (halive : u.alive = true) :
    c.alive = true := by
  obtain ⟨post, rfl⟩ := hpre
  obtain ⟨u', hu', hpost⟩ := run_append_eq_some.mp h
  obtain rfl := Option.some.inj (hu.symm.trans hu')
  have hkeep : c.Watching ∧ c.alive = true :=
    inv_run (I := fun v => v.Watching ∧ v.alive = true)
      (fun _ _ _ hv hstep => ⟨hv.1.step hstep, alive_step hv.1 hv.2 hstep⟩)
      ⟨watching_run hu, halive⟩ hpost
  exact hkeep.2

/-- **There is one supervisor from the first request for it on**, in any
run: the flag is set once a step has asked for one, and just while there
is one, there are never two, it never returns, and the flag is never
cleared, also once the client and all receivers it handed out are
dropped. -/
theorem supervisor_run (h : run rpcStep new as = some c) :
    c.supervisors.length = (if c.alive then 1 else 0) ∧
      (∀ sup ∈ c.supervisors, sup.stage.returned = false) ∧
      (∀ action ∈ as, Asks action → c.alive = true) ∧
      ∀ pre u, pre <+: as → run rpcStep new pre = some u → u.alive = true → c.alive = true := by
  have hset : ∀ pre u, pre <+: as → run rpcStep new pre = some u → u.alive = true →
      c.alive = true := fun pre u hpre hu halive => alive_run h hpre hu halive
  refine ⟨(watching_run h).one, (watching_run h).running, fun action hmem hasks => ?_, hset⟩
  obtain ⟨pre, post, rfl⟩ := List.append_of_mem hmem
  have hparts : pre ++ action :: post = (pre ++ [action]) ++ post := by
    rw [List.append_assoc, List.singleton_append]
  obtain ⟨u, hu, -⟩ := run_append_eq_some.mp (hparts ▸ h)
  obtain ⟨v, -, hstep⟩ := run_append_eq_some.mp hu
  rw [run_singleton] at hstep
  exact hset _ u ⟨post, hparts.symm⟩ hu (alive_of_asks hasks hstep)

/-- The client is dropped, and its supervisor publishes on. -/
theorem supervisor_run_sample :
    ∃ c, run rpcStep new sampleRun = some c ∧ c.owned = false ∧ c.finalizedHead = some 7 ∧
      c.alive = true ∧ c.supervisors.length = 1 := by
  obtain ⟨c, hc⟩ : ∃ c, run rpcStep new sampleRun = some c := ⟨_, rfl⟩
  have hrun := supervisor_run hc
  have halive : c.alive = true := hrun.2.2.1 .warmUp List.mem_cons_self (.inl rfl)
  refine ⟨c, hc, ?_, ?_, halive, ?_⟩
  · cases hc
    rfl
  · cases hc
    rfl
  · rw [hrun.1, if_pos halive]

/-- **A head is set only during a pass or after its natural end**, in any
run: after a pass that failed, from the clearing of the slot to the next
pass, neither head is set. -/
theorem heads_run (h : run rpcStep new as = some c)
    (hset : c.finalizedHead.isSome = true ∨ c.owned = true ∧ c.bestHead.isSome = true) :
    ∃ sup, c.supervisors = [sup] ∧ (sup.eof = true ∨ sup.stage.inPass = true) := by
  have hinv : c.Watching ∧ c.Showing :=
    inv_run (I := fun v => v.Watching ∧ v.Showing)
      (fun _ _ _ hv hstep => ⟨hv.1.step hstep, hv.2.step hv.1 hstep⟩)
      ⟨watching_new, showing_new⟩ h
  obtain ⟨i, sup, hi, hshow⟩ := hinv.2 hset
  obtain ⟨hlt, -⟩ := List.getElem?_eq_some_iff.mp hi
  have hone := hinv.1.one
  have hlen : c.supervisors.length = 1 := by
    split at hone <;> omega
  obtain ⟨s, hs⟩ := List.length_eq_one_iff.mp hlen
  rw [hs] at hi hlt
  obtain rfl : i = 0 := by
    rw [List.length_singleton] at hlt
    omega
  cases hi
  refine ⟨sup, hs, ?_⟩
  unfold Supervisor.mayShow at hshow
  exact Bool.or_eq_true_iff.mp hshow

theorem heads_run_sample :
    ∃ c, run rpcStep new sampleRun = some c ∧
      ∃ sup, c.supervisors = [sup] ∧ (sup.eof = true ∨ sup.stage.inPass = true) := by
  obtain ⟨c, hc⟩ : ∃ c, run rpcStep new sampleRun = some c := ⟨_, rfl⟩
  refine ⟨c, hc, heads_run hc (.inl ?_)⟩
  cases hc
  rfl

/-- **What a supervisor waits**, in any run: 250 ms, doubled with each
failure since its last natural end, and 30 s at most. A connection that
opens or a pass that runs for long does not reset it. -/
theorem backoff_run (h : run rpcStep new as = some c) {sup : Supervisor}
    (hi : c.supervisors[i]? = some sup) :
    sup.backoff = min (250 * 2 ^ failures i as) 30000 := by
  have hback : Backing as c :=
    inv_run_history backing_new (fun _ _ _ _ _ hu hstep => hu.step hstep) h
  exact hback.backoff i sup hi

/-- Two connects fail; the supervisor then waits a second. -/
theorem backoff_run_sample :
    ∃ c sup, run rpcStep new [.warmUp, .watcherCheck 0, .watcherRead 0, .watcherAcquire 0,
        .watcherConnectFailed 0, .watcherWake 0, .watcherCheck 0, .watcherRead 0,
        .watcherAcquire 0, .watcherConnectFailed 0, .watcherWake 0] = some c ∧
      c.supervisors[0]? = some sup ∧ sup.backoff = 1000 := by
  obtain ⟨c, hc⟩ : ∃ c, run rpcStep new [.warmUp, .watcherCheck 0, .watcherRead 0,
      .watcherAcquire 0, .watcherConnectFailed 0, .watcherWake 0, .watcherCheck 0, .watcherRead 0,
      .watcherAcquire 0, .watcherConnectFailed 0, .watcherWake 0] = some c := ⟨_, rfl⟩
  obtain ⟨sup, hsup⟩ : ∃ sup, c.supervisors[0]? = some sup := by
    cases hc
    exact ⟨_, rfl⟩
  refine ⟨c, sup, hc, hsup, ?_⟩
  rw [backoff_run hc hsup]
  decide

end RpcClient

end Live

end AllfeatExplorer
