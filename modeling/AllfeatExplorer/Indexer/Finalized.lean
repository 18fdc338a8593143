import AllfeatExplorer.Indexer.Live
import AllfeatExplorer.Indexer.Helpers.Coverage

/-!
# Nothing above a published head

The seed tasks and the live worker take their upper bound from the watch
of finalized heads, and everything after works below a bound it was
given: the chunks of a plan, the rows of the queue, the chunk of a
worker, the range of a catch-up. So whatever the interleaving, a block
that is indexed or queued lies at or below a head published before (`published_run`).
-/

namespace AllfeatExplorer

open Backfill

variable {chain : Chain} {chunkSize : ℕ} {as : List Action} {s t : Sys} {db : Db} {n w i : ℕ}
  {B : ℕ → Prop}

/-- **The bounds at hand are in `B`**, each where a process or a table
keeps it. -/
structure Within (B : ℕ → Prop) (s : Sys) : Prop where
  published : ∀ head, s.published = some head → B head.toNat
  headRead : ∀ i head, s.seeds i = .headRead head → B head.toNat
  planned : ∀ i head chunks, s.seeds i = .planned head chunks → ∀ c ∈ chunks, c.2 ≤ u64Max ∧ B c.2
  queued : ∀ id row, s.db.backfillChunks.rows.find id = some row → B (asU64 row.toBlock)
  claimed : ∀ w task, (s.workers w).task = some task → task.chunk.toBlock ≤ u64Max ∧
    B task.chunk.toBlock
  catchUp : ∀ last num head, s.live = .indexing last num head →
    num ≤ head ∧ head ≤ u64Max ∧ B head
  indexed : ∀ k, s.db.blocks.contains k = true → B (asU64 k)

namespace Within

/-- A seed task is given a stage within the bounds. -/
theorem setSeed {x : Seed} (h : Within B s) (hread : ∀ head, x = .headRead head → B head.toNat)
    (hplan : ∀ head chunks, x = .planned head chunks → ∀ c ∈ chunks, c.2 ≤ u64Max ∧ B c.2) :
    Within B (s.setSeed i x) := by
  refine { h with headRead := ?_, planned := ?_ }
  · intro j head hj
    simp only [Sys.setSeed, Function.update_apply] at hj
    split at hj
    · exact hread head hj
    · exact h.headRead j head hj
  · intro j head chunks hj
    simp only [Sys.setSeed, Function.update_apply] at hj
    split at hj
    · exact hplan head chunks hj
    · exact h.planned j head chunks hj

/-- A worker is given a task within the bounds. -/
theorem setWorker {x : Worker} (h : Within B s)
    (hx : ∀ task, x.task = some task → task.chunk.toBlock ≤ u64Max ∧ B task.chunk.toBlock) :
    Within B (s.setWorker w x) := by
  refine { h with claimed := ?_ }
  intro v task htask
  simp only [Sys.setWorker, Function.update_apply] at htask
  split at htask
  · exact hx task htask
  · exact h.claimed v task htask

/-- The rows of the queue are replaced by rows within the bounds. -/
theorem withQueue {q : Queue} (h : Within B s)
    (hq : ∀ id row, q.rows.find id = some row → B (asU64 row.toBlock)) :
    Within B (s.withQueue q) :=
  { h with queued := hq }

/-- A row of the queue is rewritten over the range it has. -/
theorem set (id : ℕ) {f : ChunkRow → ChunkRow} (h : Within B s)
    (hf : ∀ row, (f row).toBlock = row.toBlock) :
    Within B (s.withQueue (s.db.backfillChunks.set id f)) := by
  refine h.withQueue fun id' row hrow => ?_
  rw [Queue.find_set] at hrow
  split at hrow
  · obtain ⟨row₀, hrow₀, rfl⟩ := Option.map_eq_some_iff.mp hrow
    rw [hf row₀]
    exact h.queued id row₀ hrow₀
  · exact h.queued id' row hrow

/-- A block within the bounds is indexed. -/
theorem ofIndexed {cursor : Option ℤ} (h : Within B s) (hdb : s.db.Indexed chain n cursor db)
    (hn : n ≤ u64Max) (hB : B n) : Within B { s with db } :=
  { h with
    queued := by
      rw [hdb.queue]
      exact h.queued
    indexed := by
      intro k hk
      rw [hdb.blocks, Bool.or_eq_true, decide_eq_true_eq] at hk
      rcases hk with rfl | hold
      · rwa [asU64_asI64 hn]
      · exact h.indexed k hold }

/-- Nothing but authors is written. -/
theorem ofAuthors (h : Within B s) (hdb : s.db.AuthorsOnly db) : Within B { s with db } := by
  have hkeeps := hdb.keeps
  refine { h with queued := ?_, indexed := ?_ }
  · rw [hkeeps.queue]
    exact h.queued
  · rw [hkeeps.blocks]
    exact h.indexed

/-- A catch-up is within the bounds of its head. -/
theorem setCatchUp {last : Option ℕ} {num head : ℕ} {live : LiveWorker} (h : Within B s)
    (hhead : head ≤ u64Max) (hB : B head)
    (hlive : live = Sys.catchUp last num head ∨ live = .waiting last) :
    Within B { s with live } := by
  refine { h with catchUp := ?_ }
  intro last' num' head' hl
  rcases hlive with rfl | rfl
  · obtain ⟨-, rfl, rfl, hle⟩ := catchUp_eq_indexing hl
    exact ⟨hle, hhead, hB⟩
  · cases hl

theorem of_seedStep {a : SeedAction} (h : Within B s) (hdown : ∀ m n, m ≤ n → B n → B m)
    (hstep : Sys.SeedStep chunkSize s i a t) : Within B t := by
  cases hstep with
  | @readHead head hseed hhead =>
    refine h.setSeed (fun head' hx => ?_) nofun
    obtain rfl := Seed.headRead.inj hx
    exact h.published head hhead
  | @plan head chunks hseed hplan =>
    refine h.setSeed nofun fun head' chunks' hx c hc => ?_
    obtain ⟨rfl, rfl⟩ := Seed.planned.inj hx
    obtain ⟨-, hbound⟩ := splitGaps_spec (toNat_le_u64Max head) hplan
    have hle := (hbound c hc).2
    exact ⟨hle.trans (toNat_le_u64Max head), hdown _ _ hle (h.headRead i head hseed)⟩
  | @insert head chunks outcome seed hseed hend =>
    have hrows : Within B (s.withQueue (s.db.backfillChunks.insertAll chunks)) := by
      refine h.withQueue fun id row hrow => ?_
      rcases Queue.find_insertAll hrow with hold | ⟨c, hc, rfl⟩
      · exact h.queued id row hold
      · obtain ⟨hle, hB⟩ := h.planned i head chunks hseed c hc
        change B (asU64 (asI64 c.2))
        rwa [asU64_asI64 hle]
    refine hrows.setSeed ?_ ?_ <;> rcases hend with ⟨rfl, -⟩ | ⟨rfl, -⟩ <;> nofun
  | stop => exact h.setSeed nofun nofun

theorem of_workerStep {a : WorkerAction} (h : Within B s) (hdown : ∀ m n, m ≤ n → B n → B m)
    (hstep : Sys.WorkerStep chain s w a t) : Within B t := by
  cases hstep with
  | drained => exact h.setWorker nofun
  | @claim locked id row halive htask hnext =>
    have hrow := (Queue.next_eq_some hnext).1
    have hleased : Within B
        (s.withQueue (s.db.backfillChunks.set id (Sys.leaseRow s.now))) := h.set id fun _ => rfl
    refine hleased.setWorker fun task hx => ?_
    obtain rfl := Option.some.inj hx
    exact ⟨asU64_le _, h.queued id row hrow⟩
  | @indexed chunk next lease faults db stage halive htask hnext hdb hstage =>
    obtain ⟨hle, hB⟩ := h.claimed w _ htask
    refine (h.ofIndexed hdb (hnext.trans hle) (hdown _ _ hnext hB)).setWorker ?_
    intro task hx
    obtain rfl := Option.some.inj hx
    exact ⟨hle, hB⟩
  | @notIndexed chunk next lease faults db halive htask hdb =>
    refine (h.ofAuthors hdb).setWorker ?_
    intro task hx
    obtain rfl := Option.some.inj hx
    exact h.claimed w ⟨chunk, .indexing next, lease⟩ htask
  | @markDone chunk next lease halive htask hnext =>
    have hdone : Within B (s.withQueue (markChunkDone s.db.backfillChunks chunk.id)) :=
      h.set _ fun _ => rfl
    exact hdone.setWorker fun task hx => nomatch hx
  | @markFailed chunk lease err halive htask =>
    have hfailed : Within B (s.withQueue (markChunkFailed s.db.backfillChunks chunk.id err)) :=
      h.set _ fun _ => rfl
    exact hfailed.setWorker fun task hx => nomatch hx
  | crash => exact h.setWorker fun task hx => h.claimed w task hx

theorem of_liveStep {a : LiveAction} (h : Within B s) (hdown : ∀ m n, m ≤ n → B n → B m)
    (hstep : Sys.LiveStep chain s a t) : Within B t := by
  cases hstep with
  | start => exact { h with catchUp := nofun }
  | noHead => exact h
  | @observe last head hlive hhead =>
    exact h.setCatchUp (toNat_le_u64Max head) (h.published head hhead) (.inl rfl)
  | @indexed last num head faults db live hlive hthrough hdb hnext =>
    obtain ⟨hle, hhead, hB⟩ := h.catchUp last num head hlive
    have hwritten := h.ofIndexed hdb (hle.trans hhead) (hdown _ _ hle hB)
    rcases hnext with hnext | rfl
    · exact hwritten.setCatchUp hhead hB (.inl hnext)
    · exact { hwritten with catchUp := nofun }
  | notIndexed hlive hdb => exact { h.ofAuthors hdb with catchUp := nofun }
  | crash => exact { h with catchUp := nofun }

/-- **A step stays within the bounds**, and a head published extends
them. -/
theorem of_step {a : Action} (h : Within B s) (hdown : ∀ m n, m ≤ n → B n → B m)
    (hpublish : ∀ head, a = .publish head → B head.toNat)
    (hstep : Sys.step chain chunkSize s a = some t) : Within B t := by
  cases a with
  | tick dt =>
    obtain rfl := Option.some.inj hstep
    exact { h with }
  | publish head =>
    obtain rfl := Option.some.inj hstep
    refine { h with published := fun head' hhead => ?_ }
    obtain rfl := Option.some.inj hhead
    exact hpublish head rfl
  | seed i a =>
    exact h.of_seedStep hdown
      (Sys.seedStep_cases (show Sys.seedStep chunkSize s i a = some t from hstep))
  | worker w a =>
    exact h.of_workerStep hdown
      (Sys.workerStep_cases (show Sys.workerStep chain s w a = some t from hstep))
  | live a =>
    exact h.of_liveStep hdown
      (Sys.liveStep_cases (show Sys.liveStep chain s a = some t from hstep))

theorem mono {B' : ℕ → Prop} (h : Within B s) (hB : ∀ n, B n → B' n) : Within B' s where
  published := fun head hh => hB _ (h.published head hh)
  headRead := fun i head hh => hB _ (h.headRead i head hh)
  planned := fun i head chunks hh c hc => (h.planned i head chunks hh c hc).imp_right (hB _)
  queued := fun id row hrow => hB _ (h.queued id row hrow)
  claimed := fun w task htask => (h.claimed w task htask).imp_right (hB _)
  catchUp := fun last num head hl =>
    (h.catchUp last num head hl).imp_right fun hh => hh.imp_right (hB _)
  indexed := fun k hk => hB _ (h.indexed k hk)

theorem start : Within B (Sys.start Db.empty) where
  published := nofun
  headRead := nofun
  planned := nofun
  queued := nofun
  claimed := nofun
  catchUp := nofun
  indexed := nofun

end Within

/-- Some head published in `as` is at or above `n`. -/
def Published (as : List Action) (n : ℕ) : Prop :=
  ∃ head, Action.publish head ∈ as ∧ n ≤ head.toNat

theorem within_run (h : run (Sys.step chain chunkSize) (Sys.start Db.empty) as = some s) :
    Within (Published as) s := by
  refine inv_run_history (P := fun pre u => Within (Published pre) u) Within.start ?_ h
  intro pre u a v hu hwithin hstep
  have hmono : ∀ n, Published pre n → Published (pre ++ [a]) n := by
    rintro n ⟨head, hmem, hle⟩
    exact ⟨head, List.mem_append_left [a] hmem, hle⟩
  refine (hwithin.mono hmono).of_step ?_ ?_ hstep
  · rintro m n hmn ⟨head, hmem, hle⟩
    exact ⟨head, hmem, hmn.trans hle⟩
  · rintro head rfl
    exact ⟨head, List.mem_append_right pre List.mem_cons_self, le_rfl⟩

/-- **No block above all heads published** is indexed. -/
theorem le_of_hasBlock_run (h : run (Sys.step chain chunkSize) (Sys.start Db.empty) as = some s)
    {n tip : ℕ} (hheads : ∀ head, Action.publish head ∈ as → head.toNat ≤ tip) (hn : n ≤ u64Max)
    (hthere : s.db.hasBlock n) : n ≤ tip := by
  obtain ⟨head, hmem, hle⟩ := (within_run h).indexed _ hthere
  rw [asU64_asI64 hn] at hle
  exact hle.trans (hheads head hmem)

/-- **Only what was final is indexed**: in every run, a block with a row
and the last block of every chunk lie at or below a head published
before. -/
theorem published_run (h : run (Sys.step chain chunkSize) (Sys.start Db.empty) as = some s) :
    (∀ n ≤ u64Max, s.db.hasBlock n → ∃ head, .publish head ∈ as ∧ n ≤ head.toNat) ∧
    ∀ id row, s.db.backfillChunks.rows.find id = some row →
      ∃ head, .publish head ∈ as ∧ asU64 row.toBlock ≤ head.toNat := by
  have hwithin := within_run h
  refine ⟨fun n hn hthere => ?_, hwithin.queued⟩
  have hbound := hwithin.indexed _ hthere
  rwa [asU64_asI64 hn] at hbound

/-- The live worker is at 12, the second head published. -/
theorem published_run_followed :
    ∃ s, run (Sys.step bareChain 1) (Sys.start Db.empty) followed = some s ∧ s.db.hasBlock 12 ∧
      ∃ head, .publish head ∈ followed ∧ 12 ≤ head.toNat := by
  have hrun : (run (Sys.step bareChain 1) (Sys.start Db.empty) followed).map
      (fun s => decide (s.db.hasBlock 12)) = some true := by decide
  obtain ⟨s, hs, hthere⟩ := Option.map_eq_some_iff.mp hrun
  have hblock : s.db.hasBlock 12 := of_decide_eq_true hthere
  exact ⟨s, hs, hblock, (published_run hs).1 12 (by decide) hblock⟩

end AllfeatExplorer
