import AllfeatExplorer.Data.Model.Provider
import AllfeatExplorer.Data.Helpers.Stored

/-!
# The block views and the holes

Backfill leaves holes: a block may be missing while a greater one is
stored. The block view looks for the row and asks the node when it is
missing, wherever the hole is. The two extrinsic views ask the node only
above the greatest number stored, and read a hole below it as a block
with no extrinsics. So in a hole the block is shown with its extrinsic
count, and its list is empty.

`viewsAgree_iff` says where the three agree: at every stored block, above
every stored number, and at the blocks that have no extrinsic to lose.
-/

namespace AllfeatExplorer

open Projections Queries

/-- **The database holds the blocks of `S`**, each fully, and nothing of
any other block: a child row references its block's. -/
structure Db.Holds (db : Db) (chain : Chain) (S : Set ℕ) : Prop where
  stored : ∀ n ∈ S, db.FullyStored (chain n) n
  blocks : ∀ k, db.blocks.contains k = true → ∃ n ∈ S, asI64 n = k
  extrinsics : ∀ r ∈ db.extrinsics.rows, db.blocks.contains (ofLex r.1).1 = true

/-- The extrinsics of the canonical block `b`. -/
def IndexedProvider.canonical (p : IndexedProvider) (b : ℕ) : List Extrinsic :=
  Rpc.mapExtrinsics p.net b (p.node.chain b)

/-- **The views of block `b` agree**: where the block is shown, the list
is the extrinsics of the canonical block, as many as the block counts,
and each id answers with the element of the list it names. The flag a row
does not keep apart, an extrinsic is compared in every field. -/
def IndexedProvider.ViewsAgree (p : IndexedProvider) (b : ℕ) : Prop :=
  ∀ block, p.blockByNumber b = some block →
    (p.extrinsicsInBlock b).length = block.extrinsicCount ∧
    (p.extrinsicsInBlock b).map Extrinsic.reflag = (p.canonical b).map Extrinsic.reflag ∧
    ∀ i < block.extrinsicCount, ∃ x,
      p.extrinsicById (extrinsicId b i) = some x ∧ (p.extrinsicsInBlock b)[i]? = some x

variable {p : IndexedProvider} {S : Set ℕ} {b : ℕ}

/-! ## What the database answers -/

/-- A stored number is stored as itself. -/
theorem Db.Holds.contains_iff {db : Db} {chain : Chain} (h : db.Holds chain S)
    (hb : b ≤ u64Max) : db.blocks.contains (asI64 b) = true ↔ b ∈ S := by
  constructor
  · intro hc
    obtain ⟨n, hn, heq⟩ := h.blocks _ hc
    have hle : n ≤ i64Max := (h.stored n hn).num_le
    have hnb : n = b := (asI64_inj (by simp only [i64Max, u64Max] at *; omega) hb).mp heq
    exact hnb ▸ hn
  · intro hmem
    obtain ⟨authorId, hfind⟩ := (h.stored b hmem).block
    exact Table.contains_eq_true_iff.mpr ⟨_, hfind⟩

/-- A missing block has no extrinsic row. -/
theorem Db.Holds.rowsOfBlock_eq_nil {db : Db} {chain : Chain} (h : db.Holds chain S)
    (hb : b ≤ u64Max) (hout : b ∉ S) : rowsOfBlock db.extrinsics (asI64 b) = [] := by
  refine List.filter_eq_nil_iff.mpr fun r hr hk => hout ?_
  have hc := h.extrinsics r hr
  rw [of_decide_eq_true hk] at hc
  exact (h.contains_iff hb).mp hc

/-- **Where the extrinsic views ask the node**: at a missing block, above
every stored one. -/
theorem Db.Holds.indexedHead_lt_iff (h : p.db.Holds p.node.chain S) :
    p.indexedHead < b ↔ 0 < b ∧ ∀ n ∈ S, n < b := by
  have hkey : ∀ n ∈ S, (n : ℤ) ∈ p.db.blocks.keys := by
    intro n hn
    obtain ⟨authorId, hfind⟩ := (h.stored n hn).block
    rw [asI64_of_le (h.stored n hn).num_le] at hfind
    exact Table.mem_keys_iff.mpr (Table.contains_eq_true_iff.mpr ⟨_, hfind⟩)
  unfold IndexedProvider.indexedHead Queries.indexedHead
  rcases hmax : p.db.blocks.keys.max? with - | m
  · -- No block is stored, and the head reads as 0.
    have hnil : p.db.blocks.keys = [] := List.max?_eq_none_iff.mp hmax
    simp only [Option.map_none, Option.getD_none]
    refine ⟨fun hpos => ⟨hpos, fun n hn => ?_⟩, fun hpos => hpos.1⟩
    have hmem := hkey n hn
    rw [hnil] at hmem
    exact absurd hmem List.not_mem_nil
  · obtain ⟨hmem, hge⟩ := List.max?_eq_some_iff.mp hmax
    obtain ⟨n, hn, hnm⟩ := h.blocks m (Table.mem_keys_iff.mp hmem)
    have hhead : asU64 m = n := by
      rw [← hnm]
      exact asU64_asI64 (by have := (h.stored n hn).num_le; simp only [i64Max, u64Max] at *; omega)
    simp only [Option.map_some, Option.getD_some, hhead]
    constructor
    · intro hlt
      refine ⟨Nat.zero_lt_of_lt hlt, fun n' hn' => ?_⟩
      have hle : (n' : ℤ) ≤ m := hge _ (hkey n' hn')
      rw [← hnm, asI64_of_le (h.stored n hn).num_le] at hle
      omega
    · exact fun hall => hall.2 n hn

/-- A missing block has no extrinsic row under any index. -/
theorem Db.Holds.extrinsicByBlockIdx_eq_none {db : Db} {chain : Chain} {net : Network} {i : ℕ}
    (h : db.Holds chain S) (hb : b ≤ u64Max) (hout : b ∉ S) :
    extrinsicByBlockIdx net db b i = none := by
  refine Option.map_eq_none_iff.mpr (Table.find_eq_none_iff.mpr fun r hr => ?_)
  have hmem : (toLex (asI64 b, asI32 i), r) ∈ rowsOfBlock db.extrinsics (asI64 b) :=
    List.mem_filter.mpr ⟨hr, decide_eq_true rfl⟩
  rw [h.rowsOfBlock_eq_nil hb hout] at hmem
  exact absurd hmem List.not_mem_nil

/-! ## What the node answers -/

/-- The node finds an extrinsic under its id. -/
theorem Rpc.extrinsicById_eq {net : Network} {node : Node} {i : ℕ} (hb : b ≤ node.bestHead)
    (hi : i < (node.chain b).extrinsics.length) :
    Rpc.extrinsicById net node (extrinsicId b i) =
      (Rpc.mapExtrinsics net b (node.chain b))[i]? := by
  have hparse : parseExtrinsicId (extrinsicId b i) = some (b, i) :=
    parseExtrinsicId_extrinsicId (le_trans hb node.best_le)
      (le_trans (le_of_lt hi) (node.typed b hb).extrinsics)
  have hlen : i < (Rpc.mapExtrinsics net b (node.chain b)).length := by
    rwa [Rpc.mapExtrinsics, List.length_mapIdx]
  have hindex : ∀ j (hj : j < (Rpc.mapExtrinsics net b (node.chain b)).length),
      ((Rpc.mapExtrinsics net b (node.chain b))[j]).index = j := by
    intro j hj
    simp only [Rpc.mapExtrinsics, List.getElem_mapIdx]
    rfl
  simp only [Rpc.extrinsicById, hparse, if_neg (not_lt.mpr hb), gt_iff_lt]
  rw [List.getElem?_eq_getElem hlen]
  refine List.find?_eq_some_iff_getElem.mpr ⟨decide_eq_true (hindex i hlen), i, hlen, rfl, ?_⟩
  intro j hj
  rw [hindex j (lt_trans hj hlen), Bool.not_eq_true', decide_eq_false_iff_not]
  omega

/-! ## What the views answer -/

/-- The block view has an answer up to the best head, and it counts the
canonical block's extrinsics. -/
theorem exists_blockByNumber (h : p.db.Holds p.node.chain S) (hb : b ≤ p.node.bestHead) :
    ∃ block, p.blockByNumber b = some block ∧
      block.extrinsicCount = (p.node.chain b).extrinsics.length := by
  have hu64 : b ≤ u64Max := le_trans hb p.node.best_le
  unfold IndexedProvider.blockByNumber Queries.blockByNumber
  by_cases hmem : b ∈ S
  · have hstored := h.stored b hmem
    obtain ⟨authorId, hfind⟩ := hstored.block
    rw [hfind]
    exact ⟨_, rfl, toNat_max_asI32 hstored.count_le⟩
  · have hfind : p.db.blocks.find (asI64 b) = none := by
      rw [← Table.contains_eq_false_iff, ← Bool.not_eq_true, h.contains_iff hu64]
      exact hmem
    rw [hfind]
    simp only [Option.map_none, Rpc.blockByNumber, if_neg (not_lt.mpr hb), gt_iff_lt]
    exact ⟨_, rfl, rfl⟩

/-- **At a stored block** the list is the rows. -/
theorem extrinsicsInBlock_of_mem (h : p.db.Holds p.node.chain S) (hb : b ≤ p.node.bestHead)
    (hmem : b ∈ S) : p.extrinsicsInBlock b = (p.canonical b).map Extrinsic.reflag := by
  have hrows : Queries.extrinsicsInBlock p.net p.db b = (p.canonical b).map Extrinsic.reflag :=
    extrinsicsInBlock_eq (p.node.typed b hb) (h.stored b hmem)
  simp only [IndexedProvider.extrinsicsInBlock, hrows, Rpc.extrinsicsInBlock,
    if_neg (not_lt.mpr hb), gt_iff_lt]
  rcases hcanonical : p.canonical b with - | ⟨x, xs⟩
  · -- No row: whichever backend answers, it answers with nothing.
    have hnode : Rpc.mapExtrinsics p.net b (p.node.chain b) = [] := hcanonical
    rw [hnode]
    split <;> simp
  · rfl

/-- **At a missing block** it is the node's above every stored block, and
empty below. -/
theorem extrinsicsInBlock_of_not_mem (h : p.db.Holds p.node.chain S) (hb : b ≤ p.node.bestHead)
    (hout : b ∉ S) :
    p.extrinsicsInBlock b = if p.indexedHead < b then p.canonical b else [] := by
  have hrows : Queries.extrinsicsInBlock p.net p.db b = [] := by
    rw [Queries.extrinsicsInBlock, h.rowsOfBlock_eq_nil (le_trans hb p.node.best_le) hout]
    rfl
  simp only [IndexedProvider.extrinsicsInBlock, hrows, Rpc.extrinsicsInBlock,
    if_neg (not_lt.mpr hb), gt_iff_lt]
  rfl

/-- At a stored block an id answers with the row. -/
theorem extrinsicById_of_mem {i : ℕ} (h : p.db.Holds p.node.chain S)
    (hb : b ≤ p.node.bestHead) (hmem : b ∈ S)
    (hi : i < (p.node.chain b).extrinsics.length) :
    p.extrinsicById (extrinsicId b i) = ((p.canonical b).map Extrinsic.reflag)[i]? := by
  have hlookup : parseLookup (extrinsicId b i) = some (.blockIdx b i) :=
    parseLookup_extrinsicId (le_trans hb p.node.best_le)
      (le_trans (le_of_lt hi) (p.node.typed b hb).extrinsics)
  simp only [IndexedProvider.extrinsicById, hlookup,
    extrinsicByBlockIdx_eq (p.node.typed b hb) (h.stored b hmem) hi]
  simp only [IndexedProvider.canonical, Rpc.mapExtrinsics, List.getElem?_map,
    List.getElem?_mapIdx, List.getElem?_eq_getElem hi, Option.map_some]

/-- At a missing block above every stored one it answers with the node's
extrinsic. -/
theorem extrinsicById_of_not_mem {i : ℕ} (h : p.db.Holds p.node.chain S)
    (hb : b ≤ p.node.bestHead) (hout : b ∉ S) (hhead : p.indexedHead < b)
    (hi : i < (p.node.chain b).extrinsics.length) :
    p.extrinsicById (extrinsicId b i) = (p.canonical b)[i]? := by
  have hu64 : b ≤ u64Max := le_trans hb p.node.best_le
  have hlookup : parseLookup (extrinsicId b i) = some (.blockIdx b i) :=
    parseLookup_extrinsicId hu64 (le_trans (le_of_lt hi) (p.node.typed b hb).extrinsics)
  simp only [IndexedProvider.extrinsicById, hlookup, h.extrinsicByBlockIdx_eq_none hu64 hout,
    gt_iff_lt, if_pos hhead]
  exact Rpc.extrinsicById_eq hb hi

/-! ## Where the views agree -/

/-- The flag is read off the signer once. -/
theorem map_reflag_map_reflag (xs : List Extrinsic) :
    (xs.map Extrinsic.reflag).map Extrinsic.reflag = xs.map Extrinsic.reflag := by
  rw [List.map_map]
  rfl

/-- What the three views have to answer to agree. -/
theorem viewsAgree_of {xs : List Extrinsic} (h : p.db.Holds p.node.chain S)
    (hb : b ≤ p.node.bestHead) (hlist : p.extrinsicsInBlock b = xs)
    (hxs : xs.map Extrinsic.reflag = (p.canonical b).map Extrinsic.reflag)
    (hid : ∀ i < (p.node.chain b).extrinsics.length,
      p.extrinsicById (extrinsicId b i) = xs[i]?) :
    p.ViewsAgree b := by
  intro block hblock
  obtain ⟨block', hblock', hcount⟩ := exists_blockByNumber h hb
  obtain rfl : block' = block := Option.some.inj (hblock'.symm.trans hblock)
  have hlen : xs.length = (p.node.chain b).extrinsics.length := by
    have heq := congrArg List.length hxs
    simpa [IndexedProvider.canonical, Rpc.mapExtrinsics] using heq
  rw [hlist, hcount]
  refine ⟨hlen, hxs, fun i hi => ?_⟩
  have hbound : i < xs.length := hlen ▸ hi
  have hget : xs[i]? = some xs[i] := List.getElem?_eq_getElem hbound
  exact ⟨xs[i], (hid i hi).trans hget, hget⟩

/-- **The block views agree** exactly at the stored blocks, above the
greatest of them, and where there is no extrinsic to show. -/
theorem viewsAgree_iff (h : p.db.Holds p.node.chain S) (hb : b ≤ p.node.bestHead) :
    p.ViewsAgree b ↔
      b ∈ S ∨ (0 < b ∧ ∀ n ∈ S, n < b) ∨ (p.node.chain b).extrinsics = [] := by
  rw [← h.indexedHead_lt_iff]
  constructor
  -- In a hole the list is empty, and the block counts what the node has.
  · intro hagree
    by_contra hcond
    push Not at hcond
    obtain ⟨hout, hhead, hextrinsics⟩ := hcond
    obtain ⟨block, hblock, hcount⟩ := exists_blockByNumber h hb
    have hlen := (hagree block hblock).1
    rw [extrinsicsInBlock_of_not_mem h hb hout, if_neg (not_lt.mpr hhead), hcount] at hlen
    exact hextrinsics (List.length_eq_zero_iff.mp hlen.symm)
  · by_cases hmem : b ∈ S
    · intro _
      exact viewsAgree_of h hb (extrinsicsInBlock_of_mem h hb hmem)
        (map_reflag_map_reflag _) fun i hi => extrinsicById_of_mem h hb hmem hi
    · rintro (hin | hhead | hextrinsics)
      · exact absurd hin hmem
      -- Above every stored block all three views are the node's.
      · have hlist := extrinsicsInBlock_of_not_mem h hb hmem
        rw [if_pos hhead] at hlist
        exact viewsAgree_of h hb hlist rfl fun i hi => extrinsicById_of_not_mem h hb hmem hhead hi
      · have hcanonical : p.canonical b = [] := by
          simp only [IndexedProvider.canonical, Rpc.mapExtrinsics, hextrinsics, List.mapIdx_nil]
        refine viewsAgree_of h hb (extrinsicsInBlock_of_not_mem h hb hmem) ?_ ?_
        · rw [hcanonical, ite_self]
        · intro i hi
          rw [hextrinsics] at hi
          exact absurd hi (Nat.not_lt_zero i)

/-! ## A block stored above a hole -/

/-- A chain whose every block has the timestamp inherent and its event. -/
def tickChain : Chain := fun n =>
  { bareChain n with
    extrinsics :=
      [{ hash := .fill n
         palletName := "Timestamp"
         callName := "set"
         addressBytes := none
         nonce := none
         tip := none
         callData := [byte 1, byte 0, byte 40]
         byteLength := 5 }]
    events := [⟨.applyExtrinsic 0, .other "System" "ExtrinsicSuccess", []⟩] }

theorem tickChain_typed (n : ℕ) : (tickChain n).Typed where
  extrinsics := by
    have hlen : (tickChain n).extrinsics.length = 1 := rfl
    rw [hlen]
    decide
  tip := by
    intro ext hext tip htip
    rw [List.mem_singleton.mp hext] at htip
    cases htip
  fee := by
    intro evt hevt who fee hbody
    rw [List.mem_singleton.mp hevt] at hbody
    cases hbody

/-- A network that decodes the one argument of `Timestamp::set` where it
takes a byte. -/
def tickNetwork : Network where
  encodeSs58 := fun _ => "unknown"
  decodeCallFields := fun _ _ data =>
    match data with
    | [b] => [⟨some "now", some "T::Moment", toString (b.val / 4)⟩]
    | _ => []
  decodeEventFields := fun _ _ _ => []

/-- The node is at block 3, and backfill has stored block 2 and no
other. -/
def holed : IndexedProvider where
  net := tickNetwork
  db := (Backfill.indexBlock tickChain 2 {} Db.empty).1
  node :=
    { chain := tickChain
      finalizedHead := 3
      bestHead := 3
      finalized_le := le_rfl
      best_le := by decide
      typed := fun n _ => tickChain_typed n }

theorem holed_holds : holed.db.Holds holed.node.chain {2} where
  stored := by
    rintro n rfl
    exact
      { num_le := by decide
        count_le := by decide
        phase_le := by
          intro evt hevt i hphase
          rw [List.mem_singleton.mp hevt] at hphase
          cases hphase
          decide
        block := ⟨none, rfl⟩
        extrinsics := rfl
        events := rfl }
  blocks := by
    intro k hk
    have hkeys : holed.db.blocks.keys = [2] := by decide
    have hmem := Table.mem_keys_iff.mpr hk
    rw [hkeys] at hmem
    exact ⟨2, rfl, (List.mem_singleton.mp hmem).symm⟩
  extrinsics := by decide

theorem viewsAgree_holed : holed.ViewsAgree 2 ∧ holed.ViewsAgree 3 := by
  refine ⟨(viewsAgree_iff holed_holds (by decide)).mpr (.inl rfl), ?_⟩
  refine (viewsAgree_iff holed_holds (by decide)).mpr (.inr (.inl ⟨by decide, ?_⟩))
  rintro n rfl
  decide

/-- **Block 1 is shown with an extrinsic that no view finds.** -/
theorem not_viewsAgree_holed :
    holed.db.Holds holed.node.chain {2} ∧ 1 ≤ holed.node.bestHead ∧ ¬ holed.ViewsAgree 1 := by
  refine ⟨holed_holds, by decide, fun hagree => ?_⟩
  have hblock : (holed.blockByNumber 1).map Block.extrinsicCount = some 1 := by decide
  have hlist : (holed.extrinsicsInBlock 1).length = 0 := by decide
  obtain ⟨block, hshown, hcount⟩ := Option.map_eq_some_iff.mp hblock
  have hlen := (hagree block hshown).1
  omega

end AllfeatExplorer
