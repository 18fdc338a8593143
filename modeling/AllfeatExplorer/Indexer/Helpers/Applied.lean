import AllfeatExplorer.Indexer.Helpers.Live
import AllfeatExplorer.Indexer.Helpers.Rows

/-!
# The blocks a run has applied

Whatever the interleaving, the tables of a run are those of some list of
blocks applied one after the other (`Db.Applied`): each commit adds its
block at the end, and no other step writes them. What holds of every list
of blocks then holds of every run.
-/

namespace AllfeatExplorer

open Projections

variable {chain : Chain} {chunkSize : ℕ} {as : List Action} {s t : Sys} {bs : List ℕ} {num : ℕ}

/-- The account snapshots of block `n`. -/
def applySnapshotsOf (chain : Chain) (t : AccountTable) (n : ℕ) : Except DataError AccountTable :=
  applyBlockSnapshots (projectAt (chain n) n) n t

/-- The ATS effects of block `n`. -/
def applyAtsOf (chain : Chain) (t : AtsTables) (n : ℕ) : Except DataError AtsTables :=
  Sink.applyAts t (projectAt (chain n) n).atsOps

/-- **The database holds the blocks `bs`**, applied in this order to
empty tables. -/
structure Db.Applied (chain : Chain) (bs : List ℕ) (db : Db) : Prop where
  bound : ∀ n ∈ bs, n ≤ u64Max
  blocks : ∀ k, db.blocks.contains k = true ↔ ∃ n ∈ bs, asI64 n = k
  row : ∀ n ∈ bs, ∃ authorId,
    db.blocks.find (asI64 n) = some (Sink.blockRow (Blocks.map (chain n) n) authorId)
  extrinsics : db.extrinsics = Table.empty.insertAll (bs.flatMap (extrinsicRowsAt chain))
  events : db.events = Table.empty.insertAll (bs.flatMap (eventRowsAt chain))
  accounts : bs.foldlM (applySnapshotsOf chain) .empty = .ok db.accountBalances
  ats : bs.foldlM (applyAtsOf chain) .empty = .ok db.ats

theorem Db.Applied.empty : Db.empty.Applied chain [] where
  bound := nofun
  blocks := by
    intro k
    exact ⟨nofun, fun ⟨n, hn, _⟩ => absurd hn List.not_mem_nil⟩
  row := nofun
  extrinsics := rfl
  events := rfl
  accounts := rfl
  ats := rfl

/-- Which blocks are present is which were applied. -/
theorem Db.Applied.hasBlock_iff {db : Db} (h : db.Applied chain bs) {n : ℕ} (hn : n ≤ u64Max) :
    db.hasBlock n ↔ n ∈ bs := by
  unfold Db.hasBlock
  rw [h.blocks]
  constructor
  · rintro ⟨m, hm, heq⟩
    rwa [← (asI64_inj (h.bound m hm) hn).mp heq]
  · exact fun hmem => ⟨n, hmem, rfl⟩

theorem Db.Keeps.applied {db db' : Db} (hk : db.Keeps db') (h : db.Applied chain bs) :
    db'.Applied chain bs where
  bound := h.bound
  blocks := by
    rw [hk.blocks]
    exact h.blocks
  row := by
    rw [hk.blocks]
    exact h.row
  extrinsics := hk.extrinsics.trans h.extrinsics
  events := hk.events.trans h.events
  accounts := by
    rw [hk.accounts]
    exact h.accounts
  ats := by
    rw [hk.ats]
    exact h.ats

/-- **A commit adds its block at the end.** -/
theorem Db.Indexed.applied {db db' : Db} {cursor : Option ℤ}
    (hi : db.Indexed chain num cursor db') (h : db.Applied chain bs) (hnum : num ≤ u64Max) :
    db'.Applied chain (bs ++ [num]) where
  bound := by
    intro n hn
    rcases List.mem_append.mp hn with hold | hnew
    · exact h.bound n hold
    · rwa [List.mem_singleton.mp hnew]
  blocks := by
    intro k
    rw [hi.blocks, Bool.or_eq_true, decide_eq_true_eq, h.blocks]
    constructor
    · rintro (rfl | ⟨n, hn, rfl⟩)
      · exact ⟨num, List.mem_append_right bs List.mem_cons_self, rfl⟩
      · exact ⟨n, List.mem_append_left [num] hn, rfl⟩
    · rintro ⟨n, hn, rfl⟩
      rcases List.mem_append.mp hn with hold | hnew
      · exact .inr ⟨n, hold, rfl⟩
      · exact .inl (by rw [List.mem_singleton.mp hnew])
  row := by
    intro n hn
    obtain ⟨authorId, hblocks⟩ := hi.find_blocks
    rw [hblocks, Table.find_insertNew]
    by_cases hold : n ∈ bs
    · -- A block written again keeps its row.
      obtain ⟨authorId₀, hrow⟩ := h.row n hold
      refine ⟨authorId₀, ?_⟩
      split
      · rename_i hkey
        rw [← hkey, hrow]
        rfl
      · exact hrow
    · rcases List.mem_append.mp hn with hmem | hnew
      · exact absurd hmem hold
      · obtain rfl := List.mem_singleton.mp hnew
        have hfresh : db.blocks.find (asI64 n) = none := by
          rw [← Table.contains_eq_false_iff, ← Bool.not_eq_true, ← Db.hasBlock,
            h.hasBlock_iff hnum]
          exact hold
        refine ⟨authorId, ?_⟩
        rw [if_pos rfl, hfresh]
        rfl
  extrinsics := by
    rw [hi.extrinsics_eq, h.extrinsics, ← Table.insertAll_append, List.flatMap_append,
      List.flatMap_singleton]
  events := by
    rw [hi.events_eq, h.events, ← Table.insertAll_append, List.flatMap_append,
      List.flatMap_singleton]
  accounts := by
    rw [foldlM_snoc h.accounts]
    exact hi.accounts
  ats := by
    rw [foldlM_snoc h.ats]
    exact hi.ats

/-- The blocks a process is at are `u64`s, and the database holds the
blocks some list names. -/
structure AppliedInv (chain : Chain) (s : Sys) : Prop where
  live : LiveInv s
  task : ∀ w task, (s.workers w).task = some task → task.chunk.toBlock ≤ u64Max
  applied : ∃ bs, s.db.Applied chain bs

theorem AppliedInv.task_setWorker {db : Db} {w : ℕ} {x : Worker} (h : AppliedInv chain s)
    (hx : ∀ task, x.task = some task → task.chunk.toBlock ≤ u64Max) :
    ∀ w' task, (({ s with db }.setWorker w x).workers w').task = some task →
      task.chunk.toBlock ≤ u64Max := by
  intro w' task htask
  simp only [Sys.setWorker, Function.update_apply] at htask
  split at htask
  · exact hx task htask
  · exact h.task w' task htask

theorem AppliedInv.of_workerStep {w : ℕ} {a : WorkerAction} (h : AppliedInv chain s)
    (hlive : LiveInv t) (hstep : Sys.WorkerStep chain s w a t) : AppliedInv chain t := by
  obtain ⟨bs, hbs⟩ := h.applied
  cases hstep with
  | drained => exact ⟨hlive, h.task_setWorker nofun, bs, hbs⟩
  | claim =>
    -- The chunk's end is read back from a `BIGINT`, so it is a `u64` whatever is stored.
    refine ⟨hlive, h.task_setWorker ?_, bs, { hbs with }⟩
    intro task htask
    obtain rfl := Option.some.inj htask
    exact asU64_le _
  | @indexed chunk next lease faults db stage halive htask hnext hdb hstage =>
    have hbound := h.task w _ htask
    refine ⟨hlive, h.task_setWorker ?_, bs ++ [next], hdb.applied hbs (hnext.trans hbound)⟩
    intro task htask'
    obtain rfl := Option.some.inj htask'
    exact hbound
  | @notIndexed chunk next lease faults db halive htask hdb =>
    refine ⟨hlive, h.task_setWorker ?_, bs, hdb.keeps.applied hbs⟩
    intro task htask'
    obtain rfl := Option.some.inj htask'
    exact h.task w ⟨chunk, .indexing next, lease⟩ htask
  | markDone | markFailed =>
    exact ⟨hlive, h.task_setWorker nofun, bs, { hbs with }⟩
  | crash => exact ⟨hlive, h.task_setWorker fun task htask => h.task w task htask, bs, hbs⟩

theorem AppliedInv.of_step {a : Action} (h : AppliedInv chain s)
    (hstep : Sys.step chain chunkSize s a = some t) : AppliedInv chain t := by
  have hlive := h.live.of_step hstep
  cases a with
  | tick dt =>
    obtain rfl := Option.some.inj hstep
    exact ⟨hlive, h.task, h.applied⟩
  | publish head =>
    obtain rfl := Option.some.inj hstep
    exact ⟨hlive, h.task, h.applied⟩
  | seed i a =>
    obtain ⟨bs, hbs⟩ := h.applied
    cases Sys.seedStep_cases (show Sys.seedStep chunkSize s i a = some t from hstep) <;>
      exact ⟨hlive, h.task, bs, { hbs with }⟩
  | worker w a =>
    exact h.of_workerStep hlive
      (Sys.workerStep_cases (show Sys.workerStep chain s w a = some t from hstep))
  | live a =>
    obtain ⟨bs, hbs⟩ := h.applied
    have hcases := Sys.liveStep_cases (show Sys.liveStep chain s a = some t from hstep)
    cases hcases with
    | start | noHead | observe | crash => exact ⟨hlive, h.task, bs, hbs⟩
    | @indexed last num head faults db live hl hthrough hdb hnext =>
      obtain ⟨hle, hhead, -⟩ := h.live.range last num head hl
      exact ⟨hlive, h.task, bs ++ [num], hdb.applied hbs (hle.trans hhead)⟩
    | notIndexed hl hdb => exact ⟨hlive, h.task, bs, hdb.keeps.applied hbs⟩

/-- **Every run applies some list of blocks.** -/
theorem applied_run (h : run (Sys.step chain chunkSize) (Sys.start Db.empty) as = some s) :
    ∃ bs, s.db.Applied chain bs := by
  have hinv : AppliedInv chain s := by
    refine inv_run (fun _ _ _ hu hstep => hu.of_step hstep) ?_ h
    exact ⟨LiveInv.start rfl rfl, nofun, [], Db.Applied.empty⟩
  exact hinv.applied

end AllfeatExplorer
