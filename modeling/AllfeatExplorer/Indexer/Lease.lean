import AllfeatExplorer.Indexer.Helpers.Lease

/-!
# Retired chunks, and leases

Two things the queue promises its workers: a retired chunk is never
worked on again, and a chunk whose lease runs is nobody else's. The
claim keeps both. Retiring and releasing look at the id alone, so a
worker whose lease has lapsed can break either; each promise holds along
a run exactly when no step of the run does that.
-/

namespace AllfeatExplorer

open Backfill

variable {chain : Chain} {chunkSize : ℕ} {as : List Action} {db : Db} {s t u v : Sys} {id : ℕ}

/-! ## Retired chunks -/

/-- **Done is final**, along the run: from wherever a chunk is done it
stays done, and no claim made from there returns it. -/
def DoneIsFinal (chain : Chain) (chunkSize : ℕ) (s : Sys) (as : List Action) : Prop :=
  ∀ pre mid u v id, pre ++ mid <+: as → run (Sys.step chain chunkSize) s pre = some u →
    u.IsDone id → run (Sys.step chain chunkSize) u mid = some v →
    v.IsDone id ∧
      ∀ w locked v', pre ++ mid ++ [.worker w (.claim locked)] <+: as →
        Sys.step chain chunkSize v (.worker w (.claim locked)) = some v' → ¬ v'.Tasked w id

/-- The worker whose `mark_chunk_failed` the action is. -/
def Action.released : Action → Option ℕ
  | .worker w (.markFailed _) => some w
  | _ => none

theorem Action.released_eq_some {a : Action} {w : ℕ} (h : w ∈ a.released) :
    ∃ err, a = .worker w (.markFailed err) := by
  unfold Action.released at h
  split at h
  · rename_i err
    obtain rfl := Option.some.inj h
    exact ⟨err, rfl⟩
  · cases h

/-- A release of a chunk that is done: the worker that fails was
overtaken by one that finished. -/
def Sys.ReleasesDone (s : Sys) (a : Action) : Prop :=
  ∃ w ∈ a.released, ∃ task ∈ (s.workers w).task, s.IsDone task.chunk.id

instance (s : Sys) (a : Action) : Decidable (s.ReleasesDone a) :=
  inferInstanceAs (Decidable (∃ w ∈ a.released, ∃ task ∈ (s.workers w).task, _))

/-- Any other step leaves a retired chunk retired. -/
theorem isDone_of_step {a : Action} (hdone : s.IsDone id)
    (hstep : Sys.step chain chunkSize s a = some t) (hok : ¬ s.ReleasesDone a) : t.IsDone id := by
  obtain ⟨row, hrow, hst⟩ := Option.map_eq_some_iff.mp hdone
  have hrowStep := Sys.rowStep hstep id
  cases hrowStep with
  | same hsame =>
    unfold Sys.IsDone
    rw [hsame row hrow]
    exact congrArg some hst
  | claim hold hclaimable hnew =>
    obtain rfl := Option.some.inj (hrow.symm.trans hold)
    exact absurd hst (ChunkRow.claimable_not_done hclaimable)
  | markDone hat hnew =>
    unfold Sys.IsDone
    rw [hnew, hrow]
    rfl
  | @markFailed w err _ hat hnew =>
    obtain ⟨task, htask, rfl⟩ := hat
    exact absurd ⟨w, rfl, task, htask, hdone⟩ hok

/-- A retired chunk is not what a claim returns. -/
theorem claim_not_done {w : ℕ} {locked : List ℕ} (hdone : s.IsDone id)
    (hstep : Sys.step chain chunkSize s (.worker w (.claim locked)) = some t) :
    ¬ t.Tasked w id := by
  rintro ⟨task, htask, rfl⟩
  have hworker := Sys.workerStep_cases (show Sys.workerStep chain s w (.claim locked) = some t from
    hstep)
  cases hworker with
  | drained =>
    simp only [Sys.setWorker, Function.update_self] at htask
    cases htask
  | @claim _ id row halive hnone hnext =>
    obtain ⟨hrow, -, hclaimable⟩ := Queue.next_eq_some hnext
    simp only [Sys.setWorker, Function.update_self, Option.some.injEq] at htask
    subst htask
    obtain ⟨row', hrow', hst⟩ := Option.map_eq_some_iff.mp hdone
    obtain rfl : row = row' := Option.some.inj (hrow.symm.trans hrow')
    exact ChunkRow.claimable_not_done hclaimable hst

/-- A release of a retired chunk undoes it. -/
theorem not_isDone_of_release {w : ℕ} {err : String} (hat : s.Tasked w id)
    (hdone : s.IsDone id)
    (hstep : Sys.step chain chunkSize s (.worker w (.markFailed err)) = some t) :
    ¬ t.IsDone id := by
  obtain ⟨task, htask, rfl⟩ := hat
  obtain ⟨row, hrow, -⟩ := Option.map_eq_some_iff.mp hdone
  have hworker := Sys.workerStep_cases (show Sys.workerStep chain s w (.markFailed err) = some t
    from hstep)
  cases hworker with
  | markFailed halive hfailing =>
    obtain rfl := Option.some.inj (htask.symm.trans hfailing)
    unfold Sys.chunk at hrow
    simp only [Sys.IsDone, Sys.chunk, Sys.setWorker, Sys.withQueue, markChunkFailed,
      Queue.find_set, if_true, hrow]
    intro hpending
    cases hpending

/-- **A retired chunk is never worked on again**, along a run, exactly
when no worker of the run releases a chunk that is done. -/
theorem doneIsFinal_iff (h : run (Sys.step chain chunkSize) s as = some t) :
    DoneIsFinal chain chunkSize s as ↔
      EveryStep (Sys.step chain chunkSize) (fun u a => ¬ u.ReleasesDone a) s as := by
  constructor
  -- The first release of a done chunk reopens it at once.
  · intro hfinal
    refine everyStep_of_earlier h ?_
    intro pre a u hpre hu _ hrelease
    obtain ⟨v, hv⟩ := run_earlier h hpre
    obtain ⟨u', hu', hua⟩ := run_append_eq_some.1 hv
    obtain rfl := Option.some.inj (hu.symm.trans hu')
    obtain ⟨w, hw, task, htask, hdone⟩ := hrelease
    obtain ⟨err, rfl⟩ := Action.released_eq_some hw
    have hstill := (hfinal pre [.worker w (.markFailed err)] u v _ hpre hu hdone hua).1
    rw [run_singleton] at hua
    exact not_isDone_of_release ⟨task, htask, rfl⟩ hdone hua hstill
  · intro hok pre mid u v id hpre hu hdone hv
    have hmid : EveryStep (Sys.step chain chunkSize) (fun u a => ¬ u.ReleasesDone a) u mid :=
      ((everyStep_append hu).1 (hok.earlier h hpre)).2
    have hstill : v.IsDone id :=
      inv_run_of_every (I := fun x => x.IsDone id)
        (fun _ _ _ hx hok hstep => isDone_of_step hx hstep hok) hdone hmid hv
    exact ⟨hstill, fun w locked v' _ hclaim => claim_not_done hstill hclaim⟩

/-- One chunk of one block. Worker 0 claims it and stalls past its
lease, worker 1 takes it over and finishes, and then worker 0 fails. -/
def overtaken : List Action :=
  [.publish 0, .seed 0 .readHead, .seed 0 .readExisting, .seed 0 (.insert .acked),
    .worker 0 (.claim []), .tick 300000001, .worker 1 (.claim []),
    .worker 1 (.index {}), .worker 1 .markDone,
    .worker 0 (.index { read := true }), .worker 0 (.markFailed "timeout"),
    .worker 2 (.claim [])]

/-- **The chunk is claimed again.** The run is done with it after worker
1's step, and worker 2 is given it. -/
theorem not_doneIsFinal_overtaken :
    (run (Sys.step bareChain 1) (Sys.start Db.empty) overtaken).isSome = true ∧
      ¬ DoneIsFinal bareChain 1 (Sys.start Db.empty) overtaken := by
  refine ⟨by decide, ?_⟩
  intro hfinal
  have hdone : (run (Sys.step bareChain 1) (Sys.start Db.empty) (overtaken.take 9)).map
      (fun u => decide (u.IsDone 1)) = some true := by decide
  obtain ⟨u, hu, hudone⟩ := Option.map_eq_some_iff.mp hdone
  have hreopened : (run (Sys.step bareChain 1) (Sys.start Db.empty)
      (overtaken.take 9 ++ (overtaken.drop 9).take 2)).map (fun v => decide (v.IsDone 1)) =
      some false := by decide
  obtain ⟨v, hv, hvdone⟩ := Option.map_eq_some_iff.mp hreopened
  rw [run_append, hu] at hv
  have hinit : overtaken.take 9 ++ (overtaken.drop 9).take 2 <+: overtaken := by decide
  have hstill := (hfinal _ _ u v 1 hinit hu (of_decide_eq_true hudone) hv).1
  exact of_decide_eq_false hvdone hstill

/-- The same run up to the late failure keeps the promise. -/
theorem doneIsFinal_of_no_release :
    DoneIsFinal bareChain 1 (Sys.start Db.empty) (overtaken.take 10) := by
  have hrun : (run (Sys.step bareChain 1) (Sys.start Db.empty) (overtaken.take 10)).isSome := by
    decide
  obtain ⟨t, ht⟩ := Option.isSome_iff_exists.mp hrun
  exact (doneIsFinal_iff ht).mpr (by decide)

/-! ## Leases -/

/-- **Leases are exclusive**, along the run: at each of its states a
chunk has one valid holder at most, and the next step, where another
worker takes it, leaves the row of a chunk that is held as it is. -/
def LeasesExclusive (chain : Chain) (chunkSize : ℕ) (s : Sys) (as : List Action) : Prop :=
  ∀ pre u, pre <+: as → run (Sys.step chain chunkSize) s pre = some u →
    (∀ id w w', u.Holder w id → u.Holder w' id → w = w') ∧
    ∀ id w w' a v, w' ≠ w → u.Holder w id → pre ++ [.worker w' a] <+: as →
      Sys.step chain chunkSize u (.worker w' a) = some v → v.chunk id = u.chunk id

/-- A step of another worker that is no release leaves a held row as it
is. -/
theorem LeaseInv.chunk_eq {w w' : ℕ} {a : WorkerAction} (h : LeaseInv s) (hw : w' ≠ w)
    (hold : s.Holder w id) (hok : ¬ s.ForeignRelease (.worker w' a))
    (hstep : Sys.step chain chunkSize s (.worker w' a) = some t) : t.chunk id = s.chunk id := by
  obtain ⟨row, -, hrow, -⟩ := h.row_of_holder hold
  have hrowStep := Sys.rowStep hstep id
  cases hrowStep with
  | same hsame => rw [hrow, hsame row hrow]
  | claim hfree hclaimable hnew =>
    rw [h.not_claimable hold hfree] at hclaimable
    cases hclaimable
  | markDone hat hnew => exact absurd ⟨id, w, hat, Ne.symm hw, hold⟩ hok
  | markFailed hat hnew => exact absurd ⟨id, w, hat, Ne.symm hw, hold⟩ hok

/-- A foreign release changes the row it is keyed to: it was running on
the holder's lease, and comes out on none. -/
theorem LeaseInv.chunk_ne {w w' : ℕ} {a : WorkerAction} (h : LeaseInv s)
    (hat : s.Tasked w' id) (hold : s.Holder w id)
    (hrelease : a = .markDone ∨ ∃ err, a = .markFailed err)
    (hstep : Sys.step chain chunkSize s (.worker w' a) = some t) : t.chunk id ≠ s.chunk id := by
  obtain ⟨row, lease, hrow, -, hleased, -⟩ := h.row_of_holder hold
  obtain ⟨task, htask, hid⟩ := hat
  have hlease : (t.chunk id).map ChunkRow.leaseUntil = some none := by
    have hworker := Sys.workerStep_cases
      (show Sys.workerStep chain s w' a = some t from hstep)
    unfold Sys.chunk at hrow ⊢
    cases hworker with
    | markDone halive hmine hnext =>
      obtain rfl := Option.some.inj (htask.symm.trans hmine)
      simp only at hid
      subst hid
      simp only [Sys.setWorker, Sys.withQueue, markChunkDone, Queue.find_set, if_true, hrow]
      rfl
    | markFailed halive hmine =>
      obtain rfl := Option.some.inj (htask.symm.trans hmine)
      simp only at hid
      subst hid
      simp only [Sys.setWorker, Sys.withQueue, markChunkFailed, Queue.find_set, if_true, hrow]
      rfl
    | _ => rcases hrelease with hx | ⟨err, hx⟩ <;> cases hx
  intro heq
  rw [heq, hrow, Option.map_some, hleased] at hlease
  cases hlease

/-- **Leases are exclusive along a run exactly when no worker of the run
retires or releases a chunk another worker validly holds.** -/
theorem leasesExclusive_iff
    (h : run (Sys.step chain chunkSize) (Sys.start db) as = some t) :
    LeasesExclusive chain chunkSize (Sys.start db) as ↔
      EveryStep (Sys.step chain chunkSize) (fun u a => ¬ u.ForeignRelease a) (Sys.start db) as := by
  have hinv : ∀ pre u, pre <+: as → run (Sys.step chain chunkSize) (Sys.start db) pre = some u →
      EveryStep (Sys.step chain chunkSize) (fun u a => ¬ u.ForeignRelease a) (Sys.start db) pre →
      LeaseInv u := by
    intro pre u _ hu hok
    exact inv_run_of_every (I := LeaseInv) (fun _ _ _ hx hok hstep => hx.of_step hstep hok)
      (LeaseInv.start db) hok hu
  constructor
  -- Up to the first foreign release the invariant holds, so the row it rewrites is the
  -- holder's, and it comes out changed.
  · intro hexcl
    refine everyStep_of_earlier h ?_
    intro pre a u hpre hu hok hforeign
    have hshort : pre <+: as := (List.prefix_append pre [a]).trans hpre
    have hu' := hinv pre u hshort hu hok
    obtain ⟨v, hv⟩ := run_earlier h hpre
    obtain ⟨u', hru, hua⟩ := run_append_eq_some.1 hv
    obtain rfl := Option.some.inj (hu.symm.trans hru)
    rw [run_singleton] at hua
    unfold Sys.ForeignRelease at hforeign
    split at hforeign
    · rename_i w
      obtain ⟨id, w', hat, hne, hold⟩ := hforeign
      exact hu'.chunk_ne hat hold (.inl rfl) hua
        ((hexcl pre u hshort hu).2 id w' w _ v (Ne.symm hne) hold hpre hua)
    · rename_i w err
      obtain ⟨id, w', hat, hne, hold⟩ := hforeign
      exact hu'.chunk_ne hat hold (.inr ⟨err, rfl⟩) hua
        ((hexcl pre u hshort hu).2 id w' w _ v (Ne.symm hne) hold hpre hua)
    · exact hforeign
  · intro hok pre u hpre hu
    have hu' := hinv pre u hpre hu (hok.earlier h hpre)
    refine ⟨hu'.unique, ?_⟩
    intro id w w' a v hne hold hnext hstep
    obtain ⟨post, rfl⟩ := hnext
    exact hu'.chunk_eq hne hold ((everyStep_iff h).1 hok pre _ post u (by simp) hu) hstep

/-- One chunk of one block. Worker 0 claims it and stalls past its
lease, worker 1 takes it over, and worker 0 fails while worker 1 has the
chunk. -/
def stolen : List Action :=
  [.publish 0, .seed 0 .readHead, .seed 0 .readExisting, .seed 0 (.insert .acked),
    .worker 0 (.claim []), .tick 300000001, .worker 1 (.claim []),
    .worker 0 (.index { read := true }), .worker 0 (.markFailed "timeout"),
    .worker 2 (.claim [])]

/-- **Worker 1 loses its chunk** with five minutes of lease left, and
worker 2 is given it. -/
theorem not_leasesExclusive_stolen :
    (run (Sys.step bareChain 1) (Sys.start Db.empty) stolen).isSome = true ∧
      ¬ LeasesExclusive bareChain 1 (Sys.start Db.empty) stolen := by
  refine ⟨by decide, ?_⟩
  intro hexcl
  have hend : (run (Sys.step bareChain 1) (Sys.start Db.empty) stolen).map (fun u =>
      ((u.workers 1).task.map fun task => (task.chunk.id, decide (u.now ≤ task.lease)),
        (u.workers 2).task.map fun task => (task.chunk.id, decide (u.now ≤ task.lease)))) =
      some (some (1, true), some (1, true)) := by decide
  obtain ⟨u, hu, hboth⟩ := Option.map_eq_some_iff.mp hend
  obtain ⟨hone, htwo⟩ := Prod.mk.inj hboth
  have holder : ∀ w, (u.workers w).task.map
      (fun task => (task.chunk.id, decide (u.now ≤ task.lease))) = some (1, true) →
      u.Holder w 1 := by
    intro w hw
    obtain ⟨task, htask, heq⟩ := Option.map_eq_some_iff.mp hw
    obtain ⟨hid, hvalid⟩ := Prod.mk.inj heq
    exact ⟨task, htask, hid, of_decide_eq_true hvalid⟩
  exact absurd ((hexcl stolen u List.prefix_rfl hu).1 1 1 2 (holder 1 hone) (holder 2 htwo))
    (by decide)

/-- A lapsed lease changes hands without harm as long as the first
holder keeps still. -/
theorem leasesExclusive_of_no_release :
    LeasesExclusive bareChain 1 (Sys.start Db.empty) (stolen.take 7) := by
  have hrun : (run (Sys.step bareChain 1) (Sys.start Db.empty) (stolen.take 7)).isSome := by
    decide
  obtain ⟨t, ht⟩ := Option.isSome_iff_exists.mp hrun
  refine (leasesExclusive_iff ht).mpr (everyStep_of_earlier ht ?_)
  intro pre a u hpre _ _
  have hmem : a ∈ stolen.take 7 := hpre.subset (by simp)
  simp only [stolen, List.take_succ_cons, List.take_zero, List.mem_cons, List.not_mem_nil,
    or_false] at hmem
  rcases hmem with rfl | rfl | rfl | rfl | rfl | rfl | rfl <;> exact id

end AllfeatExplorer
