import AllfeatExplorer.Indexer.Backfill
import AllfeatExplorer.Indexer.Helpers.AtsReplay
import AllfeatExplorer.Indexer.Helpers.Lands
import AllfeatExplorer.Indexer.Helpers.Order
import AllfeatExplorer.Lib.Progress
import Mathlib.Data.Finset.Card
import Mathlib.Data.Finset.Range

/-!
# The backfill can always finish

A chunk that fails is released and claimed again, so what a run must not
reach is a queue that no worker can empty. The queue is in the order of
the blocks: whatever chunk is claimed first, the blocks below it are
there or in no row. Where no ATS id that has been updated is revoked,
that is all a block needs, and one worker left to itself drains the queue
from any state of any run.
-/

namespace AllfeatExplorer

open Backfill Projections

variable {chain : Chain} {chunkSize : ℕ} {as : List Action} {s t u : Sys} {w n : ℕ} {db : Db}
  {h : AtsHistory}

/-! ## The order of the queue -/

/-- The order holds along every run. -/
theorem ordered_run (hrun : run (Sys.step chain chunkSize) (Sys.start Db.empty) as = some s) :
    ChunkOrder s := by
  have hboth : Coverage s ∧ ChunkOrder s := by
    refine inv_run (I := fun u => Coverage u ∧ ChunkOrder u) ?_
      ⟨Coverage.start, ChunkOrder.start⟩ hrun
    exact fun _ _ _ hu hstep => ⟨hu.1.of_step hstep, hu.2.of_step hu.1 hstep⟩
  exact hboth.2

/-- The row claimed is the first that can be. -/
theorem Queue.next_lowest {q : Queue} {now : ℤ} {locked : List ℕ} {id id' : ℕ}
    {row row' : ChunkRow} (hnext : q.next now locked = some (id, row)) (hlt : id' < id)
    (hrow' : q.rows.find id' = some row') : id' ∈ locked ∨ row'.claimable now = false := by
  obtain ⟨-, before, after, hrows, hnone⟩ := List.find?_eq_some_iff_append.mp hnext
  have hmem : (id', row') ∈ before ++ (id, row) :: after := by
    rw [← hrows]
    exact Table.find_eq_some_iff.mp hrow'
  have hsorted : (before ++ (id, row) :: after).Pairwise fun a b => a.1 < b.1 := by
    rw [← hrows]
    exact q.rows.sorted
  rcases List.mem_append.mp hmem with hbefore | hafter
  · have hskipped := hnone _ hbefore
    simp only [Bool.not_eq_true', Bool.and_eq_false_iff, decide_eq_false_iff_not,
      not_not] at hskipped
    exact hskipped
  · rcases List.mem_cons.mp hafter with heq | hafter
    · obtain ⟨rfl, -⟩ := Prod.mk.inj heq
      omega
    · have hgt := (List.pairwise_cons.mp (List.pairwise_append.mp hsorted).2.1).1 _ hafter
      simp only at hgt
      omega

/-- **Chunks are handed out in the order of the blocks**: a claim, in any
run, leaves below the chunk only blocks that are there, and blocks of
chunks that another transaction is claiming or a lease still holds. -/
theorem claimed_in_order
    (hrun : run (Sys.step chain chunkSize) (Sys.start Db.empty) as = some s) {locked : List ℕ}
    {id : ℕ} {row : ChunkRow} (hnext : s.db.backfillChunks.next s.now locked = some (id, row))
    (hn : n < asU64 row.fromBlock) :
    s.db.hasBlock n ∨ ∃ id' < id, ∃ row', s.db.backfillChunks.rows.find id' = some row' ∧
      row'.Holds n ∧ (id' ∈ locked ∨ row'.status = .running ∧
        ∃ lease, row'.leaseUntil = some lease ∧ s.now ≤ lease) := by
  obtain ⟨hrow, -, -⟩ := Queue.next_eq_some hnext
  rcases (ordered_run hrun).rows id row hrow n hn with hthere | ⟨id', hlt, row', hrow', hholds⟩
  · exact .inl hthere
  · rcases Queue.next_lowest hnext hlt hrow' with hlocked | hheld
    · exact .inr ⟨id', hlt, row', hrow', hholds, .inl hlocked⟩
    · unfold ChunkRow.claimable at hheld
      cases hst : row'.status with
      | pending =>
        rw [hst] at hheld
        cases hheld
      | running =>
        cases hlease : row'.leaseUntil with
        | none =>
          rw [hst, hlease] at hheld
          cases hheld
        | some lease =>
          rw [hst, hlease] at hheld
          refine .inr ⟨id', hlt, row', hrow', hholds, .inr ⟨hst, lease, hlease, ?_⟩⟩
          exact not_lt.mp (of_decide_eq_false hheld)
      | done => exact .inl ((coverage_run hrun).done id' row' hrow' hst n hholds)

/-- Worker 0 has the first of two chunks; the second is next, and block 0
is under the lease. -/
theorem claimed_in_order_second :
    ∃ s row, run (Sys.step bareChain 1) (Sys.start Db.empty)
        [.publish 1, .seed 0 .readHead, .seed 0 .readExisting, .seed 0 (.insert .acked),
          .worker 0 (.claim [])] = some s ∧
      s.db.backfillChunks.next s.now [] = some (2, row) ∧ asU64 row.fromBlock = 1 ∧
      (s.db.hasBlock 0 ∨ ∃ id' < 2, ∃ row', s.db.backfillChunks.rows.find id' = some row' ∧
        row'.Holds 0 ∧ (id' ∈ ([] : List ℕ) ∨ row'.status = .running ∧
          ∃ lease, row'.leaseUntil = some lease ∧ s.now ≤ lease)) := by
  have hrun : (run (Sys.step bareChain 1) (Sys.start Db.empty)
      [.publish 1, .seed 0 .readHead, .seed 0 .readExisting, .seed 0 (.insert .acked),
        .worker 0 (.claim [])]).map (fun s => s.db.backfillChunks.next s.now []) =
      some (some (2, pendingRow (1, 1))) := by
    decide
  obtain ⟨s, hs, hnext⟩ := Option.map_eq_some_iff.mp hrun
  have hfirst : asU64 (pendingRow (1, 1)).fromBlock = 1 := by decide
  exact ⟨s, _, hs, hnext, hfirst, claimed_in_order hs hnext (by rw [hfirst]; exact Nat.one_pos)⟩

/-- **No two blocks have one hash.** -/
def Chain.HashesDistinct (chain : Chain) : Prop :=
  ∀ n ≤ u64Max, ∀ m ≤ u64Max, (chain n).hash = (chain m).hash → n = m

/-- **The ATS events of a chain** are those of a history. -/
def Chain.HasHistory (chain : Chain) (h : AtsHistory) : Prop :=
  ∀ b ≤ u64Max, h.block b = Ats.decodeBlock (chain b)

/-- **No id that was updated after its first block is ever revoked.** -/
def AtsHistory.KeepsUpdated (h : AtsHistory) : Prop :=
  ∀ x b r, h.Updates b x → ¬ h.Creates b x → ¬ h.Revokes r x

theorem Chain.HasHistory.applyAtsOf (hh : chain.HasHistory h) (hn : n ≤ u64Max) (t : AtsTables) :
    AllfeatExplorer.applyAtsOf chain t n = h.apply t n := by
  unfold AllfeatExplorer.applyAtsOf AtsHistory.apply AtsHistory.ops
  rw [hh n hn]
  rfl

theorem Chain.HasHistory.applyAll (hh : chain.HasHistory h) {bs : List ℕ}
    (hbs : ∀ b ∈ bs, b ≤ u64Max) (t : AtsTables) :
    bs.foldlM (AllfeatExplorer.applyAtsOf chain) t = h.applyAll t bs := by
  induction bs generalizing t with
  | nil => rfl
  | cons b bs ih =>
    rw [AtsHistory.applyAll, List.foldlM_cons, List.foldlM_cons,
      hh.applyAtsOf (hbs b List.mem_cons_self)]
    exact bind_congr fun t' => ih (fun b' hb' => hbs b' (List.mem_cons_of_mem b hb')) t'

/-- **Once the blocks before it are applied a block's ATS effects apply**,
whatever else was and in whatever order. -/
theorem AtsHistory.KeepsUpdated.apply_ok (hkeeps : h.KeepsUpdated) (hv : h.Valid)
    {bs : List ℕ} {t : AtsTables} (ht : h.applyAll .empty bs = .ok t)
    (hbelow : ∀ m < n, m ∈ bs) : ∃ t', h.apply t n = .ok t' := by
  refine AtsHistory.apply_isOk_iff.mpr fun x hx => ?_
  obtain ⟨hupdates, hnot, hnone⟩ := AtsHistory.orphaned_iff.mp hx
  obtain ⟨p, hp, hid, -⟩ := id hupdates
  obtain ⟨c, hc⟩ := hv.exists_creates hp
  rw [hid] at hc
  have hcn : c ≠ n := fun heq => hnot (heq ▸ hc)
  have hlt : c < n := lt_of_le_of_ne (hv.creates_le hc hp hid) hcn
  have hthere := (hv.contains_iff_mem hc (fun r => hkeeps x n r hupdates hnot) ht).mpr
    (hbelow c hlt)
  rw [hthere] at hnone
  cases hnone

/-- **A run's database takes the next block**, once it has those before. -/
theorem takes_run (hrun : run (Sys.step chain chunkSize) (Sys.start Db.empty) as = some s)
    (hhash : chain.HashesDistinct) (hh : chain.HasHistory h) (hv : h.Valid)
    (hkeeps : h.KeepsUpdated) (hn : n ≤ u64Max) (hbelow : ∀ m < n, s.db.hasBlock m) :
    s.db.Takes chain n := by
  obtain ⟨bs, hbs⟩ := applied_run hrun
  constructor
  · rintro ⟨k, row⟩ hr heq
    have hfind := Table.find_eq_some_iff.mpr hr
    obtain ⟨m, hm, rfl⟩ := (hbs.blocks k).mp (Table.contains_eq_true_iff.mpr ⟨row, hfind⟩)
    obtain ⟨authorId, hrow⟩ := hbs.row m hm
    obtain rfl := Option.some.inj (hfind.symm.trans hrow)
    have hsame : m = n := hhash m (hbs.bound m hm) n hn heq
    rw [hsame]
  · have hats := hbs.ats
    rw [hh.applyAll hbs.bound] at hats
    rw [hh.applyAtsOf hn]
    refine hkeeps.apply_ok hv hats fun m hm => ?_
    exact (hbs.hasBlock_iff (hm.le.trans hn)).mp (hbelow m hm)

/-! ## One worker left to itself -/

/-- **The steps of worker `w` left to itself**: time passes, nothing
fails, and no other transaction holds a row. -/
inductive Undisturbed (w : ℕ) : Action → Prop where
  | tick (dt : ℕ) : Undisturbed w (.tick dt)
  | claim : Undisturbed w (.worker w (.claim []))
  | index : Undisturbed w (.worker w (.index {}))
  | markDone : Undisturbed w (.worker w .markDone)

theorem Sys.step_index {chunk : ClaimedChunk} {lease : ℤ}
    (hworker : s.workers w = { task := some ⟨chunk, .indexing n, lease⟩ })
    (hle : n ≤ chunk.toBlock) (hindex : Backfill.indexBlock chain n {} s.db = (db, .ok ())) :
    Sys.step chain chunkSize s (.worker w (.index {})) =
      some ({ s with db }.setWorker w { task := some ⟨chunk, .indexing (n + 1), lease⟩ }) := by
  change Sys.workerStep chain s w (.index {}) = _
  unfold Sys.workerStep
  simp only [hworker, if_pos hle, hindex]

/-- A state of a run. -/
def Reached (chain : Chain) (chunkSize : ℕ) (s : Sys) : Prop :=
  ∃ as, run (Sys.step chain chunkSize) (Sys.start Db.empty) as = some s

theorem Reached.step {a : Action} (hs : Reached chain chunkSize s)
    (hstep : Sys.step chain chunkSize s a = some t) : Reached chain chunkSize t := by
  obtain ⟨as, hrun⟩ := hs
  exact ⟨as ++ [a], run_append_eq_some.2 ⟨s, hrun, by rw [run_singleton, hstep]⟩⟩

/-- **In the middle of a chunk**, over the queue `q`. -/
structure AtBlock (chain : Chain) (chunkSize : ℕ) (seeds : ℕ → Seed) (now : ℤ) (q : Queue)
    (w : ℕ) (chunk : ClaimedChunk) (lease : ℤ) (n : ℕ) (u : Sys) : Prop where
  reached : Reached chain chunkSize u
  seeds : u.seeds = seeds
  now : u.now = now
  queue : u.db.backfillChunks = q
  worker : u.workers w = { task := some ⟨chunk, .indexing n, lease⟩ }

variable {seeds : ℕ → Seed} {now lease : ℤ} {q : Queue} {chunk : ClaimedChunk}

/-- **A turn of `index_chunk` goes through**: what lies below the chunk
is there, and so is what the worker has passed. -/
theorem AtBlock.turn (hu : AtBlock chain chunkSize seeds now q w chunk lease n u)
    (hhash : chain.HashesDistinct) (hh : chain.HasHistory h) (hv : h.Valid)
    (hkeeps : h.KeepsUpdated) (hle : n ≤ chunk.toBlock) (hmax : chunk.toBlock ≤ u64Max)
    (hbelow : ∀ m < chunk.fromBlock, u.db.hasBlock m) :
    ∃ v, Leads (Sys.step chain chunkSize) (Undisturbed w) u v ∧ u.db.Grows v.db ∧
      AtBlock chain chunkSize seeds now q w chunk lease (n + 1) v := by
  obtain ⟨as, hrun⟩ := hu.reached
  have hcov := coverage_run hrun
  have hbehind : ∀ m < n, u.db.hasBlock m := by
    intro m hm
    rcases Nat.lt_or_ge m chunk.fromBlock with hlt | hge
    · exact hbelow m hlt
    · exact hcov.behind w chunk n lease (by rw [hu.worker]) m hge hm
  obtain ⟨db, hindex⟩ :=
    (takes_run hrun hhash hh hv hkeeps (hle.trans hmax) hbehind).indexBlock
  have hstep : Sys.step chain chunkSize u (.worker w (.index {})) = some _ :=
    Sys.step_index hu.worker hle hindex
  have hdb : u.db.Indexed chain n u.db.indexerCursor db := by
    rcases Backfill.indexBlock_cases hindex with ⟨⟨e, he⟩, -⟩ | hdb
    · cases he
    · exact hdb
  refine ⟨_, .single .index hstep, hdb.grows, hu.reached.step hstep, hu.seeds, hu.now, ?_, ?_⟩
  · exact hdb.queue.trans hu.queue
  · exact Function.update_self w _ u.workers

end AllfeatExplorer
