import AllfeatExplorer.Indexer.Finalized
import AllfeatExplorer.Indexer.Helpers.Applied
import AllfeatExplorer.Data.BlockViews

/-!
# The database of a run, read

What the views assume of the database every run of the indexer provides:
the blocks it has indexed are fully stored, and there is no row of any
other (`holds_run`). So whatever the seeds, the workers and their crashes
did, an indexed block is shown as the canonical one
(`viewsAgree_run`).

A column is narrower than the count it stores, so this is about blocks
that fit (`Chain.Fits`).
-/

namespace AllfeatExplorer

open Projections Queries

variable {chain : Chain} {chunkSize : ℕ} {as : List Action} {s : Sys} {db : Db} {bs : List ℕ}
  {n b : ℕ}

/-- **Block `n` fits its columns**: `BIGINT` numbers, `INT` indices and
counts. -/
structure Chain.Fits (chain : Chain) (n : ℕ) : Prop where
  num : n ≤ i64Max
  extrinsics : (chain n).extrinsics.length ≤ i32Max
  events : (chain n).events.length ≤ i32Max
  phase : ∀ evt ∈ (chain n).events, ∀ i, evt.phase = .applyExtrinsic i → i ≤ i32Max

/-- **One block's rows read back** out of all blocks' rows inserted. -/
theorem rowsOfBlock_insertAll {ρ : Type} {rowsAt : ℕ → List ((ℤ ×ₗ ℤ) × ρ)}
    (hkey : ∀ m, ∀ r ∈ rowsAt m, (ofLex r.1).1 = asI64 m) (hbs : ∀ m ∈ bs, m ≤ u64Max)
    (hn : n ∈ bs) (hsorted : (rowsAt n).Pairwise fun a b => a.1 < b.1) :
    rowsOfBlock (Table.empty.insertAll (bs.flatMap rowsAt)) (asI64 n) = rowsAt n := by
  have hin : ∀ r ∈ rowsAt n, decide ((ofLex r.1).1 = asI64 n) = true :=
    fun r hr => decide_eq_true (hkey n r hr)
  refine Table.filter_rows_eq (p := fun k => decide ((ofLex k).1 = asI64 n)) hsorted hin ?_
  intro k hk
  rw [Table.find_insertAll, Table.find_empty, Option.none_or,
    firstOffered_flatMap hkey hbs hn (of_decide_eq_true hk)]

/-- **A block applied is fully stored.** -/
theorem Db.Applied.fullyStored (h : db.Applied chain bs) (hn : n ∈ bs) (hfits : chain.Fits n) :
    db.FullyStored (chain n) n where
  num_le := hfits.num
  count_le := hfits.extrinsics
  phase_le := hfits.phase
  block := h.row n hn
  extrinsics := by
    rw [h.extrinsics]
    exact rowsOfBlock_insertAll (fun _ _ => key_extrinsicRowsAt) h.bound hn
      (sorted_extrinsicRowsAt hfits.extrinsics)
  events := by
    rw [h.events]
    exact rowsOfBlock_insertAll (fun _ _ => key_eventRowsAt) h.bound hn
      (sorted_eventRowsAt hfits.events)

/-- **Blocks applied are the blocks held.** -/
theorem Db.Applied.holds (h : db.Applied chain bs) (hfits : ∀ n ∈ bs, chain.Fits n) :
    db.Holds chain {n | n ∈ bs} where
  stored := fun n hn => h.fullyStored hn (hfits n hn)
  blocks := fun k hk => (h.blocks k).mp hk
  extrinsics := by
    rintro ⟨k, row⟩ hr
    have hfind : db.extrinsics.find k = some row := Table.find_eq_some_iff.mpr hr
    rw [h.extrinsics, Table.find_insertAll, Table.find_empty, Option.none_or] at hfind
    -- A row is one that some block applied offered.
    obtain ⟨n, hn, hoffered⟩ := List.mem_flatMap.mp (Table.mem_of_firstOffered hfind)
    exact (h.blocks _).mpr ⟨n, hn, (key_extrinsicRowsAt hoffered).symm⟩

/-- **A run holds the blocks it has indexed**, as long as they fit. -/
theorem holds_run (h : run (Sys.step chain chunkSize) (Sys.start Db.empty) as = some s)
    (hfits : ∀ n ≤ u64Max, s.db.hasBlock n → chain.Fits n) :
    s.db.Holds chain {n | n ≤ u64Max ∧ s.db.hasBlock n} := by
  obtain ⟨bs, hbs⟩ := applied_run h
  have hmem : ∀ n, n ∈ bs ↔ n ≤ u64Max ∧ s.db.hasBlock n := by
    intro n
    constructor
    · intro hn
      have hn64 := hbs.bound n hn
      exact ⟨hn64, (hbs.hasBlock_iff hn64).mpr hn⟩
    · rintro ⟨hn64, hthere⟩
      exact (hbs.hasBlock_iff hn64).mp hthere
  have hholds : s.db.Holds chain {n | n ∈ bs} := by
    refine hbs.holds fun n hn => ?_
    obtain ⟨hn64, hthere⟩ := (hmem n).mp hn
    exact hfits n hn64 hthere
  have hset : {n | n ∈ bs} = {n | n ≤ u64Max ∧ s.db.hasBlock n} := Set.ext hmem
  rwa [hset] at hholds

/-- **A block that a run has indexed is shown as the canonical one**: its
count, its list and its ids agree. -/
theorem viewsAgree_run {net : Network} {node : Node}
    (h : run (Sys.step node.chain chunkSize) (Sys.start Db.empty) as = some s)
    (hfits : ∀ n ≤ u64Max, s.db.hasBlock n → node.chain.Fits n) (hb : b ≤ node.bestHead)
    (hthere : s.db.hasBlock b) : IndexedProvider.ViewsAgree ⟨net, s.db, node⟩ b := by
  have hholds := holds_run h hfits
  have hmem : b ∈ {n | n ≤ u64Max ∧ s.db.hasBlock n} := ⟨le_trans hb node.best_le, hthere⟩
  refine viewsAgree_of hholds hb (extrinsicsInBlock_of_mem hholds hb hmem)
    (map_reflag_map_reflag _) ?_
  exact fun i hi => extrinsicById_of_mem hholds hb hmem hi

theorem tickChain_fits (hn : n ≤ i64Max) : tickChain.Fits n where
  num := hn
  extrinsics := show 1 ≤ i32Max by decide
  events := show 1 ≤ i32Max by decide
  phase := by
    intro evt hevt i hphase
    rw [List.mem_singleton.mp hevt] at hphase
    cases hphase
    decide

/-- A seed at head 1 in chunks of one block, and a worker that retires the
first. -/
theorem viewsAgree_run_first :
    ∃ s, run (Sys.step tickChain 1) (Sys.start Db.empty)
        [.publish 1, .seed 0 .readHead, .seed 0 .readExisting, .seed 0 (.insert .acked),
          .worker 0 (.claim []), .worker 0 (.index {}), .worker 0 .markDone] = some s ∧
      IndexedProvider.ViewsAgree ⟨tickNetwork, s.db, holed.node⟩ 0 := by
  have hrun : (run (Sys.step tickChain 1) (Sys.start Db.empty)
      [.publish 1, .seed 0 .readHead, .seed 0 .readExisting, .seed 0 (.insert .acked),
        .worker 0 (.claim []), .worker 0 (.index {}), .worker 0 .markDone]).map
      (fun s => decide (s.db.hasBlock 0)) = some true := by
    decide +kernel
  obtain ⟨s, hs, hthere⟩ := Option.map_eq_some_iff.mp hrun
  refine ⟨s, hs, viewsAgree_run hs (fun n hn hn' => ?_) (Nat.zero_le _)
    (of_decide_eq_true hthere)⟩
  suffices hle : n ≤ 1 from tickChain_fits (hle.trans (by decide))
  refine le_of_hasBlock_run hs ?_ hn hn'
  intro head hmem
  simp only [List.mem_cons, Action.publish.injEq, reduceCtorEq, List.not_mem_nil, or_false] at hmem
  exact hmem ▸ le_rfl

end AllfeatExplorer
