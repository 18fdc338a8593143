import AllfeatExplorer.Indexer.Helpers.Steps
import AllfeatExplorer.Indexer.Helpers.Queue

/-!
# Who holds a chunk

A worker's claim on a chunk, and the row it is a claim on. `LeaseInv` ties
the two together: while a lease runs, the row says so, with that lease.
A claim takes no such row; what can break the tie is a release, which
looks at the id and not at whose lease the row carries.
-/

namespace AllfeatExplorer

open Backfill

variable {chain : Chain} {chunkSize : ℕ} {s s' u v : Sys} {w w' i id : ℕ}

/-- The row of `backfill_chunks` with this id. -/
def Sys.chunk (s : Sys) (id : ℕ) : Option ChunkRow :=
  s.db.backfillChunks.rows.find id

/-- The chunk is retired. -/
def Sys.IsDone (s : Sys) (id : ℕ) : Prop :=
  (s.chunk id).map ChunkRow.status = some .done

instance : Decidable (s.IsDone id) := inferInstanceAs (Decidable (_ = _))

/-- **Worker `w` validly holds chunk `id`**: its last claim returned it,
it has not retired or released it since, and the lease its claim wrote
has not passed. -/
def Sys.Holder (s : Sys) (w id : ℕ) : Prop :=
  ∃ task, (s.workers w).task = some task ∧ task.chunk.id = id ∧ s.now ≤ task.lease

/-- Worker `w` is at chunk `id`, its lease lapsed or not. -/
def Sys.Tasked (s : Sys) (w id : ℕ) : Prop :=
  ∃ task, (s.workers w).task = some task ∧ task.chunk.id = id

theorem Sys.Tasked.unique {id' : ℕ} (h : s.Tasked w id) (h' : s.Tasked w id') : id = id' := by
  obtain ⟨task, htask, rfl⟩ := h
  obtain ⟨task', htask', rfl⟩ := h'
  rw [Option.some.inj (htask.symm.trans htask')]

/-! ## What a step does to one row -/

/-- **A row's next state.** It stays, it is claimed while claimable, or
the worker at it retires or releases it. -/
inductive RowStep (s : Sys) (id : ℕ) : Action → Sys → Prop where
  | same {a : Action} {s' : Sys} (hrow : ∀ row, s.chunk id = some row → s'.chunk id = some row) :
      RowStep s id a s'
  | claim {w : ℕ} {locked : List ℕ} {s' : Sys} {row : ChunkRow} (hold : s.chunk id = some row)
      (hclaimable : row.claimable s.now = true)
      (hrow : s'.chunk id = some (Sys.leaseRow s.now row)) :
      RowStep s id (.worker w (.claim locked)) s'
  | markDone {w : ℕ} {s' : Sys} (hat : s.Tasked w id)
      (hrow : s'.chunk id = (s.chunk id).map fun row =>
        { row with status := .done, leaseUntil := none, lastError := none }) :
      RowStep s id (.worker w .markDone) s'
  | markFailed {w : ℕ} {err : String} {s' : Sys} (hat : s.Tasked w id)
      (hrow : s'.chunk id = (s.chunk id).map fun row =>
        { row with status := .pending, leaseUntil := none,
                   lastError := some (truncateError err) }) :
      RowStep s id (.worker w (.markFailed err)) s'

/-- A step that leaves the queue alone. -/
theorem RowStep.of_queue_eq {a : Action} (hq : s'.db.backfillChunks = s.db.backfillChunks) :
    RowStep s id a s' := by
  refine .same fun row hrow => ?_
  unfold Sys.chunk at hrow ⊢
  rwa [hq]

/-- A statement on another row. -/
theorem RowStep.of_set_ne {a : Action} {id' : ℕ} {f : ChunkRow → ChunkRow} {x : Worker}
    (hid : id ≠ id') :
    RowStep s id a ((s.withQueue (s.db.backfillChunks.set id' f)).setWorker w x) := by
  refine .same fun row hrow => ?_
  simp only [Sys.chunk, Sys.setWorker, Sys.withQueue, Queue.find_set, if_neg hid]
  exact hrow

theorem Sys.rowStep {a : Action} (h : Sys.step chain chunkSize s a = some s') (id : ℕ) :
    RowStep s id a s' := by
  cases a with
  | tick dt =>
    obtain rfl := Option.some.inj h
    exact .same fun _ hrow => hrow
  | publish head =>
    obtain rfl := Option.some.inj h
    exact .same fun _ hrow => hrow
  | seed i a =>
    have hstep := Sys.seedStep_cases (show Sys.seedStep chunkSize s i a = some s' from h)
    cases hstep with
    | readHead | plan | stop => exact .same fun _ hrow => hrow
    | insert hseed hend => exact .same fun _ hrow => Queue.find_insertAll_of_find hrow
  | live a =>
    have hstep := Sys.liveStep_cases (show Sys.liveStep chain s a = some s' from h)
    cases hstep with
    | start | noHead | observe | crash => exact .same fun _ hrow => hrow
    | indexed hlive hthrough hdb hnext => exact .of_queue_eq hdb.queue
    | notIndexed hlive hdb => exact .of_queue_eq hdb.keeps.queue
  | worker w a =>
    have hstep := Sys.workerStep_cases (show Sys.workerStep chain s w a = some s' from h)
    cases hstep with
    | drained | crash => exact .same fun _ hrow => hrow
    | @claim locked id' row halive htask hnext =>
      obtain ⟨hfind, -, hclaimable⟩ := Queue.next_eq_some hnext
      by_cases hid : id = id'
      · subst hid
        refine .claim hfind hclaimable ?_
        simp only [Sys.chunk, Sys.setWorker, Sys.withQueue, Queue.find_set, if_true, hfind]
        rfl
      · exact .of_set_ne hid
    | indexed halive htask hnext hdb hstage => exact .of_queue_eq hdb.queue
    | notIndexed halive htask hdb => exact .of_queue_eq hdb.keeps.queue
    | @markDone chunk next lease halive htask hnext =>
      by_cases hid : id = chunk.id
      · refine .markDone ⟨_, htask, hid.symm⟩ ?_
        simp only [Sys.chunk, Sys.setWorker, Sys.withQueue, markChunkDone, Queue.find_set, hid,
          if_true]
      · exact .of_set_ne hid
    | @markFailed chunk lease err halive htask =>
      by_cases hid : id = chunk.id
      · refine .markFailed ⟨_, htask, hid.symm⟩ ?_
        simp only [Sys.chunk, Sys.setWorker, Sys.withQueue, markChunkFailed, Queue.find_set,
          hid, if_true]
      · exact .of_set_ne hid

/-! ## What a step does to the workers' claims -/

/-- The clock does not run back. -/
theorem Sys.now_le {a : Action} (h : Sys.step chain chunkSize s a = some s') : s.now ≤ s'.now := by
  cases a with
  | tick dt =>
    obtain rfl := Option.some.inj h
    simp only
    omega
  | publish head =>
    obtain rfl := Option.some.inj h
    exact le_rfl
  | seed i a =>
    cases Sys.seedStep_cases (show Sys.seedStep chunkSize s i a = some s' from h) <;> exact le_rfl
  | worker w a =>
    cases Sys.workerStep_cases (show Sys.workerStep chain s w a = some s' from h) <;> exact le_rfl
  | live a =>
    cases Sys.liveStep_cases (show Sys.liveStep chain s a = some s' from h) <;> exact le_rfl

/-- **Where a worker's task comes from.** It had it, with the lease it
has, and did not just retire or release it; or it claims it in this
step. -/
inductive TaskStep (s : Sys) (w : ℕ) (task : Task) : Action → Sys → Prop where
  | kept {a : Action} {s' : Sys} {task₀ : Task} (htask : (s.workers w).task = some task₀)
      (hchunk : task.chunk = task₀.chunk) (hlease : task.lease = task₀.lease)
      (hdone : a ≠ .worker w .markDone) (hfailed : ∀ err, a ≠ .worker w (.markFailed err)) :
      TaskStep s w task a s'
  | claim {locked : List ℕ} {s' : Sys} {row : ChunkRow}
      (hold : s.chunk task.chunk.id = some row) (hclaimable : row.claimable s.now = true)
      (hrow : s'.chunk task.chunk.id = some (Sys.leaseRow s.now row))
      (hlease : task.lease = s.now + leaseDuration) :
      TaskStep s w task (.worker w (.claim locked)) s'

/-- A worker another worker's step leaves alone. -/
theorem TaskStep.of_other {task : Task} {a : WorkerAction} {x : Worker} (hw : w ≠ w')
    (htask : (Function.update s.workers w' x w).task = some task) :
    TaskStep s w task (.worker w' a) s' := by
  rw [Function.update_of_ne hw] at htask
  refine .kept htask rfl rfl ?_ ?_
  · intro heq
    exact hw (Action.worker.inj heq).1.symm
  · intro err heq
    exact hw (Action.worker.inj heq).1.symm

theorem Sys.taskStep {a : Action} {task : Task} (h : Sys.step chain chunkSize s a = some s')
    (htask : (s'.workers w).task = some task) : TaskStep s w task a s' := by
  cases a with
  | tick dt =>
    obtain rfl := Option.some.inj h
    exact .kept htask rfl rfl nofun nofun
  | publish head =>
    obtain rfl := Option.some.inj h
    exact .kept htask rfl rfl nofun nofun
  | seed i a =>
    cases Sys.seedStep_cases (show Sys.seedStep chunkSize s i a = some s' from h) <;>
      exact .kept htask rfl rfl nofun nofun
  | live a =>
    cases Sys.liveStep_cases (show Sys.liveStep chain s a = some s' from h) <;>
      exact .kept htask rfl rfl nofun nofun
  | worker w' a =>
    have hstep := Sys.workerStep_cases (show Sys.workerStep chain s w' a = some s' from h)
    by_cases hw : w = w'
    · subst hw
      cases hstep with
      -- These leave the worker without a task.
      | drained | markDone | markFailed =>
        simp only [Sys.setWorker, Function.update_self] at htask
        cases htask
      | @claim locked id row halive hnone hnext =>
        obtain ⟨hfind, -, hclaimable⟩ := Queue.next_eq_some hnext
        simp only [Sys.setWorker, Function.update_self, Option.some.injEq] at htask
        subst htask
        refine .claim hfind hclaimable ?_ rfl
        simp only [Sys.chunk, Sys.claimedTask, Sys.setWorker, Sys.withQueue, Queue.find_set,
          if_true, hfind]
        rfl
      | indexed halive hold hnext hdb hstage =>
        simp only [Sys.setWorker, Function.update_self, Option.some.injEq] at htask
        subst htask
        exact .kept hold rfl rfl nofun nofun
      | notIndexed halive hold hdb =>
        simp only [Sys.setWorker, Function.update_self, Option.some.injEq] at htask
        subst htask
        exact .kept hold rfl rfl nofun nofun
      | crash =>
        simp only [Sys.setWorker, Function.update_self] at htask
        exact .kept htask rfl rfl nofun nofun
    · cases hstep <;> exact .of_other hw htask

/-- A worker that holds a chunk after a step it did not claim it in held
it before. -/
theorem TaskStep.holder_of_kept {task task₀ : Task} (hnow : s.now ≤ s'.now)
    (htask : (s.workers w).task = some task₀) (hchunk : task.chunk = task₀.chunk)
    (hlease : task.lease = task₀.lease) (hvalid : s'.now ≤ task.lease) :
    s.Holder w task.chunk.id := by
  refine ⟨task₀, htask, by rw [hchunk], ?_⟩
  rw [← hlease]
  exact hnow.trans hvalid

/-! ## The lease invariant -/

/-- **The rows carry the leases that run**, and no chunk has two
holders. -/
structure LeaseInv (s : Sys) : Prop where
  leased : ∀ w task, (s.workers w).task = some task → s.now ≤ task.lease →
    ∃ row, s.chunk task.chunk.id = some row ∧ row.status = .running ∧
      row.leaseUntil = some task.lease
  unique : ∀ id w w', s.Holder w id → s.Holder w' id → w = w'

/-- A retirement or a release of a chunk that another worker validly
holds. -/
def Sys.ForeignRelease (s : Sys) : Action → Prop
  | .worker w .markDone | .worker w (.markFailed _) =>
    ∃ id w', s.Tasked w id ∧ w' ≠ w ∧ s.Holder w' id
  | _ => False

/-- A held chunk is running, on a lease that runs. -/
theorem LeaseInv.row_of_holder (h : LeaseInv s) (hold : s.Holder w id) :
    ∃ row lease, s.chunk id = some row ∧ row.status = .running ∧
      row.leaseUntil = some lease ∧ s.now ≤ lease := by
  obtain ⟨task, htask, rfl, hvalid⟩ := hold
  obtain ⟨row, hrow, hrunning, hlease⟩ := h.leased w task htask hvalid
  exact ⟨row, task.lease, hrow, hrunning, hlease, hvalid⟩

/-- **No claim takes a held chunk.** -/
theorem LeaseInv.not_claimable {row : ChunkRow} (h : LeaseInv s) (hold : s.Holder w id)
    (hrow : s.chunk id = some row) : row.claimable s.now = false := by
  obtain ⟨row', lease, hrow', hrunning, hlease, hvalid⟩ := h.row_of_holder hold
  obtain rfl : row = row' := Option.some.inj (hrow.symm.trans hrow')
  simp only [ChunkRow.claimable, hrunning, hlease, Option.all_some, decide_eq_false_iff_not]
  omega

/-- A holder's row after a step: written by the claim the step is, or
carried over from before it. -/
theorem LeaseInv.leased_of_step {a : Action} {task : Task} (h : LeaseInv s)
    (hstep : Sys.step chain chunkSize s a = some s') (hok : ¬ s.ForeignRelease a)
    (htask : (s'.workers w).task = some task) (hvalid : s'.now ≤ task.lease) :
    ∃ row, s'.chunk task.chunk.id = some row ∧ row.status = .running ∧
      row.leaseUntil = some task.lease := by
  have htaskStep := Sys.taskStep hstep htask
  cases htaskStep with
  | @claim locked _ row hold hclaimable hrow hlease =>
    exact ⟨_, hrow, rfl, by rw [hlease]; rfl⟩
  | @kept _ _ task₀ htask₀ hchunk hlease hdone hfailed =>
    have hnow := Sys.now_le hstep
    have hholder := TaskStep.holder_of_kept hnow htask₀ hchunk hlease hvalid
    obtain ⟨row, hrow, hrunning, hleased⟩ :=
      h.leased w task₀ htask₀ (hlease ▸ hnow.trans hvalid)
    rw [← hchunk] at hrow
    have hrowStep := Sys.rowStep hstep task.chunk.id
    cases hrowStep with
    | same hsame => exact ⟨row, hsame row hrow, hrunning, by rw [hleased, hlease]⟩
    | claim hold hclaimable hnew =>
      rw [h.not_claimable hholder hold] at hclaimable
      cases hclaimable
    -- A worker that retires or releases the chunk is another one, since this one kept it.
    | @markDone w' _ hat hnew =>
      have hne : w ≠ w' := by
        rintro rfl
        exact hdone rfl
      exact absurd ⟨_, w, hat, hne, hholder⟩ hok
    | @markFailed w' err _ hat hnew =>
      have hne : w ≠ w' := by
        rintro rfl
        exact hfailed err rfl
      exact absurd ⟨_, w, hat, hne, hholder⟩ hok

/-- Two holders after a step are one: both held before it, or one of them
claimed what the other held, or both claims are the step. -/
theorem LeaseInv.unique_of_step {a : Action} (h : LeaseInv s)
    (hstep : Sys.step chain chunkSize s a = some s') (hold : s'.Holder w id)
    (hold' : s'.Holder w' id) : w = w' := by
  have hnow := Sys.now_le hstep
  obtain ⟨task, htask, hid, hvalid⟩ := hold
  obtain ⟨task', htask', hid', hvalid'⟩ := hold'
  have hstep₁ := Sys.taskStep hstep htask
  have hstep₂ := Sys.taskStep hstep htask'
  cases hstep₁ with
  | kept htask₀ hchunk hlease =>
    have hholder := TaskStep.holder_of_kept hnow htask₀ hchunk hlease hvalid
    cases hstep₂ with
    | kept htask₁ hchunk' hlease' =>
      have hholder' := TaskStep.holder_of_kept hnow htask₁ hchunk' hlease' hvalid'
      rw [hid] at hholder
      rw [hid'] at hholder'
      exact h.unique id w w' hholder hholder'
    | claim hfree hclaimable =>
      rw [hid', ← hid] at hfree
      rw [h.not_claimable hholder hfree] at hclaimable
      cases hclaimable
  | claim hfree hclaimable =>
    cases hstep₂ with
    | kept htask₁ hchunk' hlease' =>
      have hholder' := TaskStep.holder_of_kept hnow htask₁ hchunk' hlease' hvalid'
      rw [hid, ← hid'] at hfree
      rw [h.not_claimable hholder' hfree] at hclaimable
      cases hclaimable
    | claim => rfl

/-- **A step that releases no foreign chunk keeps the invariant.** -/
theorem LeaseInv.of_step {a : Action} (h : LeaseInv s)
    (hstep : Sys.step chain chunkSize s a = some s') (hok : ¬ s.ForeignRelease a) :
    LeaseInv s' where
  leased := fun _ _ htask hvalid => h.leased_of_step hstep hok htask hvalid
  unique := fun _ _ _ hold hold' => h.unique_of_step hstep hold hold'

/-- Before the first step no worker holds anything. -/
theorem LeaseInv.start (db : Db) : LeaseInv (Sys.start db) where
  leased := fun _ _ htask => nomatch htask
  unique := by
    rintro id w w' ⟨task, htask, -⟩
    cases htask

end AllfeatExplorer
