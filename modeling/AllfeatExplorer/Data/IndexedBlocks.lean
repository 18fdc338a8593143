import AllfeatExplorer.Indexer.Finalized
import AllfeatExplorer.Indexer.Helpers.Authored
import AllfeatExplorer.Data.Helpers.Stored
import AllfeatExplorer.Data.Model.Provider

/-!
# A block's record, from the database and from the node

The database keeps a block's numbers in signed columns and its author
behind an id, and a read clamps what it finds. The record comes back as
the node's mapper makes it just where the numbers fit their columns
(`rowToBlock_eq_iff`). In a run every row names its block's author and
lies at or below a finalized head, so the provider in front of the two
answers as the node alone would, for every number, however far the
indexer has come and whatever holes it left (`blockByNumber_run`).
-/

namespace AllfeatExplorer

open Interned Projections

variable {chain : Chain} {chunkSize : ℕ} {as : List Action} {s : Sys} {db : Db} {net : Network}
  {blk : NodeBlock} {n head : ℕ}

/-- **The numbers of a block's record have their types**: `u32` counts and
versions, `u64` weights. -/
structure NodeBlock.RecordTyped (blk : NodeBlock) : Prop where
  extrinsics : blk.extrinsics.length ≤ u32Max
  events : blk.events.length ≤ u32Max
  specVersion : blk.specVersion ≤ u32Max
  refTime : blk.refTime ≤ u64Max
  proofSize : blk.proofSize ≤ u64Max

/-- **They fit their columns**, which are signed, and the percentage is
one. -/
structure NodeBlock.RecordFits (blk : NodeBlock) : Prop where
  extrinsics : blk.extrinsics.length ≤ i32Max
  events : blk.events.length ≤ i32Max
  specVersion : blk.specVersion ≤ i32Max
  refTime : blk.refTime ≤ i64Max
  proofSize : blk.proofSize ≤ i64Max
  refTimePct : blk.refTimePct ≤ 100
  sizeBytes : wrapU32 (blk.headerSize + (fetchExtrinsicsSummary blk).2) ≤ i32Max

/-! ## Numbers in signed columns -/

/-- A `u32` reads back of an `INT` just if it is not taken for a negative
number. -/
theorem toNat_max_asI32_iff (h : n ≤ u32Max) : (max (asI32 n) 0).toNat = n ↔ n ≤ i32Max := by
  unfold asI32
  simp only [u32Max, i32Max] at *
  split <;> omega

/-- A `u64` reads back of a `BIGINT` likewise. -/
theorem toNat_max_asI64_iff (h : n ≤ u64Max) : (max (asI64 n) 0).toNat = n ↔ n ≤ i64Max := by
  unfold asI64
  simp only [u64Max, i64Max] at *
  split <;> omega

theorem toNat_clampPct_iff : (max 0 (min (n : ℤ) 100)).toNat = n ↔ n ≤ 100 := by
  omega

/-! ## One record -/

/-- **The author a row names** is read back as the block's. -/
theorem authorBytes_of_names {author : Option AccountId} {authorId : Option ℕ}
    (hnumbered : db.AuthorsNumbered) (hnames : db.Names author authorId) :
    Queries.authorBytes db authorId = author := by
  obtain ⟨hid, hsome⟩ := hnames
  rcases authorId with - | id
  · rcases author with - | bytes
    · rfl
    · cases hsome
  · rcases author with - | bytes
    · cases hid
    · have hfind : db.authors.find bytes = some id := hid.symm
      have hrow : (bytes, id) ∈ db.authors.rows := Table.find_eq_some_iff.mp hfind
      rcases hfirst : db.authors.rows.find? fun r => r.2 = id with - | ⟨other, id'⟩
      · have hnone := List.find?_eq_none.mp hfirst (bytes, id) hrow
        simp at hnone
      · -- The row the join meets has the id, and an id has one author.
        have hmem := Table.find_eq_some_iff.mpr (List.mem_of_find?_eq_some hfirst)
        have hid' : id' = id := by simpa using List.find?_some hfirst
        rw [hid'] at hmem
        change (db.authors.rows.find? fun r => r.2 = id).map Prod.fst = some bytes
        rw [hfirst, hnumbered.inj other bytes id hmem hfind]
        rfl

/-- **The row reads back as the node's record** just where its numbers
fit. -/
theorem rowToBlock_eq_iff (net : Network) (authorId : Option ℕ) (htyped : blk.RecordTyped)
    (hn : n ≤ u64Max) (hfinal : n ≤ head) :
    Queries.rowToBlock net (asI64 n) (Sink.blockRow (Blocks.map blk n) authorId) blk.author =
      Rpc.mapBlock net head n blk ↔ blk.RecordFits := by
  have hcount : (fetchExtrinsicsSummary blk).1 = blk.extrinsics.length := rfl
  unfold Queries.rowToBlock Rpc.mapBlock
  simp only [Block.mk.injEq, asU64_asI64 hn, true_and, Sink.blockRow, Blocks.map, hashString,
    hcount]
  rw [decide_eq_true hfinal, toNat_max_asI32_iff htyped.extrinsics,
    toNat_max_asI32_iff htyped.events, toNat_max_asI32_iff htyped.specVersion,
    toNat_max_asI64_iff htyped.refTime, toNat_max_asI64_iff htyped.proofSize, toNat_clampPct_iff,
    toNat_max_asI32_iff (wrapU32_le _)]
  constructor
  · rintro ⟨-, hxts, hevents, htime, hpct, hproof, hspec, hsize⟩
    exact ⟨hxts, hevents, hspec, htime, hproof, hpct, hsize⟩
  · rintro ⟨hxts, hevents, hspec, htime, hproof, hpct, hsize⟩
    exact ⟨rfl, hxts, hevents, htime, hpct, hproof, hspec, hsize⟩

/-! ## The database of a run -/

/-- **A block a run has indexed reads back as the node's record** just
where its numbers fit. -/
theorem queries_blockByNumber_run (net : Network)
    (h : run (Sys.step chain chunkSize) (Sys.start Db.empty) as = some s) (hn : n ≤ u64Max)
    (hthere : s.db.hasBlock n) (htyped : (chain n).RecordTyped) (hfinal : n ≤ head) :
    Queries.blockByNumber net s.db n = some (Rpc.mapBlock net head n (chain n)) ↔
      (chain n).RecordFits := by
  obtain ⟨bs, hbs⟩ := applied_run h
  have hauthored := authored_run h
  obtain ⟨authorId, hfind⟩ := hbs.row n ((hbs.hasBlock_iff hn).mp hthere)
  have hauthor : Queries.authorBytes s.db authorId = (chain n).author :=
    authorBytes_of_names hauthored.numbered (hauthored.row n hn _ hfind)
  rw [← rowToBlock_eq_iff net authorId htyped hn hfinal, ← hauthor]
  unfold Queries.blockByNumber
  rw [hfind, Option.map_some, Option.some.injEq]
  rfl

/-- **The provider in front of a run answers as the node does**, for every
number, just where what is indexed fits its columns: that reads back, what
is not indexed is asked of the node, and nothing above the node's
finalized head is indexed. -/
theorem blockByNumber_run {node : Node}
    (h : run (Sys.step node.chain chunkSize) (Sys.start Db.empty) as = some s)
    (hpublished : ∀ head, .publish head ∈ as → head.toNat ≤ node.finalizedHead)
    (htyped : ∀ n ≤ node.finalizedHead, (node.chain n).RecordTyped) :
    (∀ n ≤ u64Max, IndexedProvider.blockByNumber ⟨net, s.db, node⟩ n =
      Rpc.blockByNumber net node n) ↔
    ∀ n ≤ u64Max, s.db.hasBlock n → (node.chain n).RecordFits := by
  have hhit : ∀ n ≤ u64Max, s.db.hasBlock n →
      (IndexedProvider.blockByNumber ⟨net, s.db, node⟩ n = Rpc.blockByNumber net node n ↔
        (node.chain n).RecordFits) := by
    intro n hn hthere
    obtain ⟨head, hmem, hle⟩ := (published_run h).1 n hn hthere
    have hfinal : n ≤ node.finalizedHead := hle.trans (hpublished head hmem)
    have hbest : n ≤ node.bestHead := hfinal.trans node.finalized_le
    rw [← queries_blockByNumber_run net h hn hthere (htyped n hfinal) hfinal]
    obtain ⟨row, hrow⟩ := Table.contains_eq_true_iff.mp hthere
    have hread : Queries.blockByNumber net s.db n =
        some (Queries.rowToBlock net (asI64 n) row (Queries.authorBytes s.db row.authorId)) := by
      unfold Queries.blockByNumber
      rw [hrow]
      rfl
    unfold IndexedProvider.blockByNumber Rpc.blockByNumber
    simp only [hread, if_neg (not_lt.mpr hbest)]
  constructor
  · exact fun hall n hn hthere => (hhit n hn hthere).mp (hall n hn)
  · intro hfits n hn
    by_cases hthere : s.db.hasBlock n
    · exact (hhit n hn hthere).mpr (hfits n hn hthere)
    · have hmiss : Queries.blockByNumber net s.db n = none := by
        unfold Queries.blockByNumber
        rw [Table.contains_eq_false_iff.mp (Bool.not_eq_true _ ▸ hthere)]
        rfl
      unfold IndexedProvider.blockByNumber
      simp only [hmiss]

/-- Two validators take turns; all 12 blocks are final. -/
def turnsNode : Node where
  chain := fun n => { bareChain n with author := some (.fill (n % 2)) }
  finalizedHead := 12
  bestHead := 12
  finalized_le := le_rfl
  best_le := by decide
  typed := fun n _ => ⟨Nat.zero_le _, nofun, nofun⟩

/-- The live worker has indexed the blocks from 10 on. -/
theorem blockByNumber_run_followed :
    ∃ s, run (Sys.step turnsNode.chain 1) (Sys.start Db.empty) followed = some s ∧
      ∀ n ≤ u64Max, IndexedProvider.blockByNumber ⟨plainNetwork, s.db, turnsNode⟩ n =
        Rpc.blockByNumber plainNetwork turnsNode n := by
  have hrun : (run (Sys.step turnsNode.chain 1) (Sys.start Db.empty) followed).isSome = true := by
    decide
  obtain ⟨s, hs⟩ := Option.isSome_iff_exists.mp hrun
  have hfits : ∀ n, (turnsNode.chain n).RecordFits := fun n =>
    { extrinsics := Nat.zero_le _
      events := Nat.zero_le _
      specVersion := show 1 ≤ i32Max by decide
      refTime := Nat.zero_le _
      proofSize := Nat.zero_le _
      refTimePct := Nat.zero_le _
      sizeBytes := show wrapU32 0 ≤ i32Max by decide }
  refine ⟨s, hs, (blockByNumber_run hs ?_ ?_).mpr fun n _ _ => hfits n⟩
  · intro head hmem
    simp only [followed, List.mem_cons, Action.publish.injEq, reduceCtorEq, List.not_mem_nil,
      or_false, false_or] at hmem
    rcases hmem with rfl | rfl <;> decide
  · exact fun n _ => ⟨Nat.zero_le _, Nat.zero_le _, show 1 ≤ u32Max by decide, Nat.zero_le _,
      Nat.zero_le _⟩

end AllfeatExplorer
