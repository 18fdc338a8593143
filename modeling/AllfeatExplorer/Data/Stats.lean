import Mathlib.Algebra.BigOperators.Ring.Finset
import Mathlib.Algebra.Order.BigOperators.Group.List
import AllfeatExplorer.Lib.Aggregate
import AllfeatExplorer.Data.Model.Stats
import AllfeatExplorer.Data.Helpers.AtsCensus
import AllfeatExplorer.Data.Feed
import AllfeatExplorer.Data.Ss58
import AllfeatExplorer.Indexer.Helpers.Applied

/-!
# The ATS statistics of both paths

Both paths report figures of the same lists: the ids that are live at the
tip, and their versions. They part in three places. A version whose block
is exactly as old as a window is in the window of the query and out of
the mapper's; the query wraps a count at `u32` where the mapper
saturates; and the query adds up counts that a column of type `INT`
holds. Where the indexer brought a revoked id back, the query counts it
too.
-/

namespace AllfeatExplorer

open Projections AtsHistory Rpc

variable {chain : Chain} {h : AtsHistory} {bs : List ℕ} {db : Db} {net : Network} {node : AtsNode}
  {b n : ℕ} {c : Creation} {window : ℤ}

/-! ## What is indexed, and what the node keeps -/

/-- The time of block `b`. -/
def Chain.time (chain : Chain) (b : ℕ) : ℤ := fetchTimestamp (chain b)

/-- **The clock of the first `n` blocks**: it starts at 0 or later, and
goes up from block to block. -/
structure Chain.ClockRuns (chain : Chain) (n : ℕ) : Prop where
  start : 0 ≤ chain.time 0
  rises : ∀ b b', b < b' → b' < n → chain.time b < chain.time b'

/-- **The database has indexed the history**: its blocks were applied, in
some order and any of them again, and `blocks` has those and no other. -/
structure Db.IndexedAll (db : Db) (chain : Chain) (h : AtsHistory) (bs : List ℕ) : Prop where
  applied : h.applyAll .empty bs = .ok db.ats
  all : ∀ b < h.length, b ∈ bs
  blocks : ∀ k, db.blocks.contains k = true → ∃ b < h.length, asI64 b = k
  row : ∀ b < h.length, ∃ row, db.blocks.find (asI64 b) = some row ∧
    row.timestampMs = chain.time b

/-- **What the pallet keeps of the history at the tip**, and the blocks
the node serves. Ids count up, a revoked one has no entry, and each
version of a live one has its deposit. -/
structure AtsNode.Keeps (node : AtsNode) (chain : Chain) (h : AtsHistory) : Prop where
  ascending : h.living.Pairwise fun c c' => c.id.toNat < c'.id.toNat
  next : ∀ c ∈ h.living, c.id.toNat < node.nextAtsId
  registered : ∀ id < node.nextAtsId, node.atsRegistry id ≠ none → ∃ c ∈ h.living, c.id.toNat = id
  entry : ∀ c ∈ h.living, ∃ record, node.atsRegistry c.id.toNat = some record ∧
    record.owner = c.owner ∧ record.versionCount = (h.additionsOf c.id).length ∧
    (record.deposits.map DepositEntryView.amount).sum =
      (h.additionsOf c.id).length * versionDeposit
  versions : ∀ c ∈ h.living, List.Perm
    ((node.atsVersions c.id.toNat).map fun e => (e.1, e.2.createdAt))
    ((h.additionsOf c.id).map fun a => (a.version.toNat, a.block))
  served : ∀ b < h.length, node.atBlock b = some (chain b)

/-- **No id comes back**: of the applications of the blocks that create
and revoke one the last is of the second. -/
def AtsHistory.NoneBack (h : AtsHistory) (bs : List ℕ) : Prop :=
  ∀ x c r, h.Creates c x → h.Revokes r x → c ≠ r → lastOf c r bs = some r

/-- **The history of the first `n` blocks of a chain.** -/
def Chain.history (chain : Chain) (n : ℕ) : AtsHistory :=
  (List.range n).map fun b => Ats.decodeBlock (chain b)

/-- **What a run of the indexer leaves is indexed**, once it has the
blocks up to a tip and none above. -/
theorem Db.Applied.indexedAll (h : db.Applied chain bs) (hbs : ∀ b, b ∈ bs ↔ b < n) :
    db.IndexedAll chain (chain.history n) bs := by
  have hlength : (chain.history n).length = n := by
    rw [Chain.history, List.length_map, List.length_range]
  have hops : ∀ b ∈ bs, (chain.history n).ops b = (projectAt (chain b) b).atsOps := by
    intro b hb
    have hblock : (chain.history n).block b = Ats.decodeBlock (chain b) := by
      rw [AtsHistory.block, Chain.history, List.getElem?_map,
        List.getElem?_range ((hbs b).mp hb)]
      rfl
    rw [AtsHistory.ops, hblock]
    rfl
  have hsame : ∀ (l : List ℕ) (t : AtsTables), (∀ b ∈ l, b ∈ bs) →
      (chain.history n).applyAll t l = l.foldlM (applyAtsOf chain) t := by
    intro l
    induction l with
    | nil => exact fun _ _ => rfl
    | cons b l ih =>
      intro t hl
      have hstep : (chain.history n).apply t b = applyAtsOf chain t b := by
        rw [AtsHistory.apply, hops b (hl b List.mem_cons_self)]
        rfl
      rw [AtsHistory.applyAll, List.foldlM_cons, List.foldlM_cons, hstep]
      exact bind_congr fun t' => ih t' fun b' hb' => hl b' (List.mem_cons_of_mem b hb')
  refine ⟨(hsame bs .empty fun _ hb => hb).trans h.ats, ?_, ?_, ?_⟩
  · rw [hlength]
    exact fun b hb => (hbs b).mpr hb
  · intro k hk
    obtain ⟨b, hb, heq⟩ := (h.blocks k).mp hk
    exact ⟨b, hlength.symm ▸ (hbs b).mp hb, heq⟩
  · rw [hlength]
    intro b hb
    obtain ⟨authorId, hrow⟩ := h.row b ((hbs b).mpr hb)
    exact ⟨_, hrow, rfl⟩

/-! ## The query -/

/-- The time at the tip. -/
def tipTime (chain : Chain) (h : AtsHistory) : ℤ := chain.time (h.length - 1)

/-- How many live versions are no older than a window. -/
def notOlder (chain : Chain) (h : AtsHistory) (window : ℤ) : ℕ :=
  h.livingAdditions.countP fun a => decide (tipTime chain h - window ≤ chain.time a.block)

/-- The counts of the registry, added up. -/
def storedVersions (h : AtsHistory) : ℕ :=
  (h.living.map fun c => min (h.additionsOf c.id).length i32Max).sum

theorem countU32_natCast (n : ℕ) : Queries.countU32 n = wrapU32 n := by
  simp only [Queries.countU32, asU32, wrapU32]
  omega

theorem asI64_block (hlen : h.length ≤ u32Max + 1) (hb : b < h.length) : asI64 b = b :=
  asI64_of_le (by simp only [u32Max, i64Max] at *; omega)

/-- **`MAX(timestamp_ms)` is the time at the tip.** -/
theorem latestTimestamp_eq (hdb : db.IndexedAll chain h bs) (hne : h ≠ [])
    (hclock : chain.ClockRuns h.length) :
    Queries.latestTimestamp db = some (tipTime chain h) := by
  have hlength := List.length_pos_iff.mpr hne
  refine List.max?_eq_some_iff.mpr ⟨?_, ?_⟩
  · obtain ⟨row, hrow, htime⟩ := hdb.row (h.length - 1) (by omega)
    exact List.mem_map.mpr ⟨_, Table.find_eq_some_iff.mp hrow, htime⟩
  · intro time hmem
    obtain ⟨⟨k, row⟩, hrow, rfl⟩ := List.mem_map.mp hmem
    have hfind := Table.find_eq_some_iff.mpr hrow
    obtain ⟨b, hb, rfl⟩ := hdb.blocks k (Table.contains_eq_true_iff.mpr ⟨row, hfind⟩)
    obtain ⟨row', hrow', htime⟩ := hdb.row b hb
    obtain rfl := Option.some.inj (hfind.symm.trans hrow')
    rw [htime, tipTime]
    rcases Nat.lt_or_ge b (h.length - 1) with hlt | hge
    · exact (hclock.rises b _ hlt (by omega)).le
    · rw [show b = h.length - 1 by omega]

/-- **The versions in a window of the query.** -/
theorem versionsInWindow_eq (hv : h.Valid) (hdb : db.IndexedAll chain h bs) (hne : h ≠ [])
    (hclock : chain.ClockRuns h.length)
    (hasc : h.applyAll .empty (List.range h.length) = .ok db.ats) :
    Queries.versionsInWindow db window = notOlder chain h window := by
  -- Whether a row counts is read off the block it names.
  have hwindow : Queries.inWindow db window = fun v =>
      (db.blocks.find v.blockNum).elim false fun block =>
        decide (tipTime chain h - window ≤ block.timestampMs) := by
    funext v
    rw [Queries.inWindow, latestTimestamp_eq hdb hne hclock]
    cases db.blocks.find v.blockNum <;> rfl
  let counts := fun r : (ℤ ×ₗ ℤ) × ℤ => (db.blocks.find r.2).elim false fun block =>
    decide (tipTime chain h - window ≤ block.timestampMs)
  have hrows : Queries.versionsInWindow db window =
      (db.ats.children.rows.map fun r => (r.1, r.2.blockNum)).countP counts := by
    rw [Queries.versionsInWindow, hwindow, List.countP_map]
    rfl
  rw [hrows, (hv.versions_perm hasc).countP_eq, List.countP_map, notOlder]
  refine List.countP_congr fun a ha => ?_
  obtain ⟨row, hrow, htime⟩ := hdb.row a.block (block_lt_of_mem (mem_livingAdditions.mp ha).1)
  simp only [Function.comp_apply, counts, versionEntry, hrow, Option.elim_some, htime]

/-- **The oldest block of the registry** is that of its first live id. -/
theorem min?_createdBlock (hlen : h.length ≤ u32Max + 1) {registry : List AtsRegistryEntry}
    (hperm : List.Perm registry (h.living.map fun c => (h.registryEntry c).2)) :
    (registry.map (·.createdBlock)).min? = h.living.head?.map fun c => (c.block : ℤ) := by
  have hblock : ∀ c ∈ h.living, (h.registryEntry c).2.createdBlock = c.block := fun c hc =>
    asI64_block hlen (block_lt_of_living hc)
  have hmap : List.Perm (registry.map (·.createdBlock)) (h.living.map fun c => (c.block : ℤ)) := by
    refine (hperm.map _).trans (List.Perm.of_eq ?_)
    rw [List.map_map]
    exact List.map_congr_left hblock
  have hpairwise : h.living.Pairwise fun c c' => c.block ≤ c'.block :=
    pairwise_creations.sublist List.filter_sublist
  cases hliving : h.living with
  | nil =>
    rw [hliving] at hmap
    rw [hmap.eq_nil]
    rfl
  | cons c living =>
    rw [hliving] at hmap hpairwise
    refine List.min?_eq_some_iff.mpr ⟨hmap.mem_iff.mpr List.mem_cons_self, ?_⟩
    intro num hnum
    rcases List.mem_cons.mp (hmap.mem_iff.mp hnum) with rfl | hlater
    · exact le_rfl
    · obtain ⟨c', hc', rfl⟩ := List.mem_map.mp hlater
      exact Int.ofNat_le.mpr ((List.pairwise_cons.mp hpairwise).1 c' hc')

/-- **What the query reports** of tables as ascending order leaves them. -/
theorem atsStats_eq (hv : h.Valid) (hne : h ≠ []) (hlen : h.length ≤ u32Max + 1)
    (hclock : chain.ClockRuns h.length) (hdb : db.IndexedAll chain h bs)
    (hasc : h.applyAll .empty (List.range h.length) = .ok db.ats) :
    let s := Queries.atsStats db
    s.total = wrapU32 h.living.length ∧
      s.totalVersions = wrapU32 (storedVersions h) ∧
      s.uniqueOwners = wrapU32 (h.living.map (·.owner)).toFinset.card ∧
      s.last24h = wrapU32 (notOlder chain h h24Ms) ∧
      s.last7d = wrapU32 (notOlder chain h d7Ms) ∧
      s.last30d = wrapU32 (notOlder chain h d30Ms) ∧
      s.genesisBlock = (h.living.head?.map (·.block)).getD 0 ∧
      s.firstRegisteredAtMs = (h.living.head?.map fun c => chain.time c.block).getD 0 ∧
      s.totalDeposited = Token.satMulU128 (wrapU32 (storedVersions h)) versionDeposit := by
  have hperm : List.Perm (db.ats.parents.rows.map Prod.snd)
      (h.living.map fun c => (h.registryEntry c).2) := by
    refine ((hv.registry_perm hasc).map Prod.snd).trans (List.Perm.of_eq ?_)
    rw [List.map_map]
    rfl
  have hversions : ((db.ats.parents.rows.map Prod.snd).map (·.versionCount)).sum =
      (storedVersions h : ℤ) := by
    rw [(hperm.map _).sum_eq, List.map_map, storedVersions, Nat.cast_list_sum, List.map_map]
    refine congrArg List.sum (List.map_congr_left fun c _ => ?_)
    simp only [Function.comp_apply, registryEntry, storedCount, Nat.cast_min]
  have howners : ((db.ats.parents.rows.map Prod.snd).map (·.owner)).toFinset =
      (h.living.map (·.owner)).toFinset := by
    refine (List.toFinset_eq_of_perm _ _ (hperm.map _)).trans ?_
    rw [List.map_map]
    rfl
  have hgenesis := min?_createdBlock hlen hperm
  have hwindow (window : ℤ) : Queries.versionsInWindow db window = notOlder chain h window :=
    versionsInWindow_eq hv hdb hne hclock hasc
  refine ⟨?_, ?_, ?_, ?_, ?_, ?_, ?_, ?_, ?_⟩
  · change Queries.countU32 (db.ats.parents.rows.map Prod.snd).length = _
    rw [countU32_natCast, hperm.length_eq, List.length_map]
  · change Queries.countU32 ((db.ats.parents.rows.map Prod.snd).map (·.versionCount)).sum = _
    rw [hversions, countU32_natCast]
  · change Queries.countU32 ((db.ats.parents.rows.map Prod.snd).map (·.owner)).toFinset.card = _
    rw [howners, countU32_natCast]
  · change Queries.countU32 (Queries.versionsInWindow db h24Ms) = _
    rw [hwindow, countU32_natCast]
  · change Queries.countU32 (Queries.versionsInWindow db d7Ms) = _
    rw [hwindow, countU32_natCast]
  · change Queries.countU32 (Queries.versionsInWindow db d30Ms) = _
    rw [hwindow, countU32_natCast]
  · change asU64
      (max ((((db.ats.parents.rows.map Prod.snd).map (·.createdBlock)).min?).getD 0) 0) = _
    rw [hgenesis]
    cases hliving : h.living with
    | nil => rfl
    | cons c living =>
      have hlt := block_lt_of_living (hliving ▸ List.mem_cons_self : c ∈ h.living)
      simp only [List.head?_cons, Option.map_some, Option.getD_some, asU64, u32Max] at *
      omega
  · change ((((db.ats.parents.rows.map Prod.snd).map (·.createdBlock)).min?.bind fun num =>
      db.blocks.find num).map fun row => row.timestampMs).getD 0 = _
    rw [hgenesis]
    cases hliving : h.living with
    | nil => rfl
    | cons c living =>
      have hlt := block_lt_of_living (hliving ▸ List.mem_cons_self : c ∈ h.living)
      obtain ⟨row, hrow, htime⟩ := hdb.row c.block hlt
      rw [asI64_block hlen hlt] at hrow
      simp only [List.head?_cons, Option.map_some, Option.bind_some, Option.getD_some, hrow, htime]
  · change Token.satMulU128 (Queries.countU32
      ((db.ats.parents.rows.map Prod.snd).map (·.versionCount)).sum) versionDeposit = _
    rw [hversions, countU32_natCast]

/-! ## The records -/

/-- What the statistics take of a record. -/
structure RecordFigures where
  owner : String
  versionCount : ℕ
  totalDeposit : ℕ
  created : ℤ × ℕ
  times : List ℤ

/-- The figures of a record. -/
def recordFigures (rec : AtsRecord) : RecordFigures :=
  { owner := rec.owner
    versionCount := rec.versionCount
    totalDeposit := rec.totalDeposit
    created := (rec.createdAtMs, rec.createdAtBlock)
    times := rec.versions.map (·.createdAtMs) }

/-- The figures of a live id, off the history. -/
def figuresOf (net : Network) (chain : Chain) (h : AtsHistory) (c : Creation) : RecordFigures :=
  { owner := net.encodeSs58 c.owner
    versionCount := (h.additionsOf c.id).length
    totalDeposit := (h.additionsOf c.id).length * versionDeposit
    created := (chain.time c.block, c.block)
    times := (h.additionsOf c.id).map fun a => chain.time a.block }

/-- No version number is past `u32::MAX`. -/
theorem length_additionsOf_le (hv : h.Valid) (x : UInt64) :
    (h.additionsOf x).length ≤ u32Max + 1 := by
  by_contra hlong
  obtain ⟨b, w, -, hw⟩ := hv.adds_iff.mpr (show u32Max + 1 < (h.additionsOf x).length by omega)
  have hle := toNat_le_u32Max w
  omega

/-- **The versions of a live id, sorted**, are those of the history in
chain order. -/
theorem sortedVersions_eq (hv : h.Valid) (hnode : node.Keeps chain h) (hc : c ∈ h.living) :
    (sortedVersions node c.id.toNat).map (fun e => (e.1, e.2.createdAt)) =
      (h.additionsOf c.id).map fun a => (a.version.toNat, a.block) := by
  have hperm : List.Perm
      ((sortedVersions node c.id.toNat).map fun e => (e.1, e.2.createdAt))
      ((h.additionsOf c.id).map fun a => (a.version.toNat, a.block)) :=
    ((List.mergeSort_perm _ _).map _).trans (hnode.versions c hc)
  have hversions : ((h.additionsOf c.id).map fun a => (a.version.toNat, a.block)).Pairwise
      fun a b => a.1 < b.1 := by
    rw [← List.pairwise_map (f := Prod.fst), List.map_map]
    change ((h.additionsOf c.id).map (·.version.toNat)).Pairwise (· < ·)
    rw [hv.versions_additionsOf]
    exact List.pairwise_lt_range
  have hsorted : ((sortedVersions node c.id.toNat).map fun e => (e.1, e.2.createdAt)).Pairwise
      fun a b => a.1 ≤ b.1 := List.pairwise_map.mpr (pairwise_mergeSort_asc Prod.fst _)
  -- No two have one number, so the sorted list is strictly so.
  refine List.Perm.eq_of_pairwise ?_ hsorted (hversions.imp fun hlt => hlt.le) hperm
  intro a b ha hb hab hba
  have hkeys : (((h.additionsOf c.id).map fun a => (a.version.toNat, a.block)).map
      Prod.fst).Nodup := List.pairwise_map.mpr (hversions.imp fun hlt => hlt.ne)
  exact List.inj_on_of_nodup_map hkeys (hperm.mem_iff.mp ha) hb (by omega)

/-- The time of a record is that of its version 0, where no other has the
number. -/
theorem createdAtMs_foldl (net : Network) (node : AtsNode) (id : ℕ) (owner : AccountId)
    {raw : List (ℕ × VersionInfoView)} {st : ℤ × List AtsVersion} (h : ∀ e ∈ raw, e.1 ≠ 0) :
    (raw.foldl (buildVersion net node id owner) st).1 = st.1 := by
  induction raw generalizing st with
  | nil => rfl
  | cons e raw ih =>
    rw [List.foldl_cons, ih fun e' he' => h e' (List.mem_cons_of_mem e he')]
    exact if_neg (h e List.mem_cons_self)

theorem createdAtMs_cons (net : Network) (node : AtsNode) (id : ℕ) (owner : AccountId)
    {e : ℕ × VersionInfoView} {raw : List (ℕ × VersionInfoView)} (hzero : e.1 = 0)
    (h : ∀ e ∈ raw, e.1 ≠ 0) :
    ((e :: raw).foldl (buildVersion net node id owner) (0, [])).1 = versionTime node e.2 := by
  rw [List.foldl_cons, createdAtMs_foldl net node id owner h]
  refine (if_pos hzero).trans ?_
  rw [versionTime]
  cases node.atBlock e.2.createdAt with
  | none => rfl
  | some blk =>
    simp only [fetchVersionExtras, Option.map_some, Option.getD_some]
    split <;> rfl

/-- The sorted versions of a live id are in blocks of the history. -/
theorem createdAt_lt (hv : h.Valid) (hnode : node.Keeps chain h) (hc : c ∈ h.living)
    {e : ℕ × VersionInfoView} (he : e ∈ sortedVersions node c.id.toNat) :
    e.2.createdAt < h.length := by
  have hmem : (e.1, e.2.createdAt) ∈
      (sortedVersions node c.id.toNat).map fun e => (e.1, e.2.createdAt) :=
    List.mem_map.mpr ⟨e, he, rfl⟩
  rw [sortedVersions_eq hv hnode hc] at hmem
  obtain ⟨a, ha, heq⟩ := List.mem_map.mp hmem
  rw [← (Prod.mk.inj heq).2]
  exact block_lt_of_mem (mem_additionsOf.mp ha).1

theorem versionTime_eq (hv : h.Valid) (hnode : node.Keeps chain h) (hc : c ∈ h.living)
    {e : ℕ × VersionInfoView} (he : e ∈ sortedVersions node c.id.toNat) :
    versionTime node e.2 = chain.time e.2.createdAt := by
  rw [versionTime, hnode.served _ (createdAt_lt hv hnode hc he)]
  rfl

/-- **The first of them is version 0**, of the block that creates the
id. -/
theorem sortedVersions_cons (hv : h.Valid) (hnode : node.Keeps chain h) (hc : c ∈ h.living) :
    ∃ e raw, sortedVersions node c.id.toNat = e :: raw ∧ e.1 = 0 ∧ e.2.createdAt = c.block ∧
      ∀ e' ∈ raw, e'.1 ≠ 0 := by
  have hsorted := sortedVersions_eq hv hnode hc
  have hrange := hv.versions_additionsOf c.id
  obtain ⟨later, hfirst⟩ := hv.head_additionsOf (mem_living.mp hc).1
  rw [hfirst, List.map_cons] at hsorted
  rw [hfirst, List.map_cons, List.length_cons, List.range_succ_eq_map] at hrange
  cases hraw : sortedVersions node c.id.toNat with
  | nil =>
    rw [hraw] at hsorted
    cases hsorted
  | cons e raw =>
    rw [hraw, List.map_cons] at hsorted
    obtain ⟨he, hlater⟩ := List.cons.inj hsorted
    obtain ⟨hzero, hblock⟩ := Prod.mk.inj he
    refine ⟨e, raw, rfl, hzero, hblock, fun e' he' hzero' => ?_⟩
    -- The versions after it are those from 1 on.
    have hmem : (e'.1, e'.2.createdAt) ∈ later.map fun a => (a.version.toNat, a.block) :=
      hlater ▸ List.mem_map.mpr ⟨e', he', rfl⟩
    obtain ⟨a, ha, heq⟩ := List.mem_map.mp hmem
    have hsucc : a.version.toNat ∈ (List.range later.length).map Nat.succ :=
      (List.cons.inj hrange).2 ▸ List.mem_map.mpr ⟨a, ha, rfl⟩
    obtain ⟨m, -, hm⟩ := List.mem_map.mp hsucc
    have hversion := (Prod.mk.inj heq).1
    omega

/-- **The times of a record.** -/
theorem times_record (hv : h.Valid) (hnode : node.Keeps chain h) (hc : c ∈ h.living)
    {rec : AtsRecord} (hrec : buildAtsRecord net node c.id.toNat = some rec) :
    rec.versions.map (·.createdAtMs) = (h.additionsOf c.id).map fun a => chain.time a.block := by
  obtain ⟨-, hview⟩ := versionView_record hrec
  have hshown := congrArg (List.map fun v : ℕ × ℕ × ℤ => v.2.2) hview
  have hblocks := congrArg (List.map fun v : ℕ × ℕ => chain.time v.2)
    (sortedVersions_eq hv hnode hc)
  rw [List.map_map, List.map_map] at hshown hblocks
  refine hshown.trans (Eq.trans (List.map_congr_left fun e he => ?_) hblocks)
  exact versionTime_eq hv hnode hc he

/-- **A live id has a record with its figures.** -/
theorem recordFigures_eq (net : Network) (hv : h.Valid) (hnode : node.Keeps chain h)
    (hc : c ∈ h.living) :
    (buildAtsRecord net node c.id.toNat).map recordFigures = some (figuresOf net chain h c) := by
  obtain ⟨⟨owner, createdAt, versionCount, deposits⟩, hentry, howner, hcount, hdeposits⟩ :=
    hnode.entry c hc
  obtain rfl : owner = c.owner := howner
  obtain rfl : versionCount = _ := hcount
  obtain ⟨e, raw, hraw, hzero, hblock, hnext⟩ := sortedVersions_cons hv hnode hc
  obtain ⟨rec, hrec⟩ : ∃ rec, buildAtsRecord net node c.id.toNat = some rec :=
    Option.isSome_iff_exists.mp (by rw [buildAtsRecord, Option.isSome_map, hentry]; rfl)
  have htimes := times_record hv hnode hc hrec
  have htime : versionTime node e.2 = chain.time c.block := by
    rw [versionTime_eq hv hnode hc (hraw ▸ List.mem_cons_self), hblock]
  have hdeposit : (h.additionsOf c.id).length * versionDeposit % (u128Max + 1) =
      (h.additionsOf c.id).length * versionDeposit := by
    have hle := length_additionsOf_le hv c.id
    refine Nat.mod_eq_of_lt ?_
    simp only [versionDeposit, u128Max, u32Max] at *
    omega
  rw [hrec, Option.map_some, recordFigures, htimes, figuresOf]
  rw [buildAtsRecord, hentry, Option.map_some, Option.some.injEq] at hrec
  obtain rfl := hrec
  have hsort : ((node.atsVersions c.id.toNat).mergeSort fun a b => decide (a.1 ≤ b.1)) =
    e :: raw := hraw
  have hcreated := createdAtMs_cons net node c.id.toNat c.owner hzero hnext
  simp only [hsort, hcreated, htime, hdeposits, hdeposit, List.head?_cons, Option.map_some,
    Option.getD_some, hblock]

/-- **The records of the node are those of the live ids**, newest
first. -/
theorem figures_records (net : Network) (hv : h.Valid) (hnode : node.Keeps chain h) :
    ((List.range node.nextAtsId).reverse.filterMap (buildAtsRecord net node)).map recordFigures =
      h.living.reverse.map (figuresOf net chain h) := by
  -- The ids with an entry, ascending.
  have hids : (List.range node.nextAtsId).filter (fun id => (node.atsRegistry id).isSome) =
      h.living.map (·.id.toNat) := by
    have hrange : ((List.range node.nextAtsId).filter
        fun id => (node.atsRegistry id).isSome).Pairwise (· < ·) :=
      List.pairwise_lt_range.sublist List.filter_sublist
    have hliving : (h.living.map (·.id.toNat)).Pairwise (· < ·) :=
      List.pairwise_map.mpr hnode.ascending
    refine List.Perm.eq_of_pairwise ?_ hrange hliving ((List.perm_ext_iff_of_nodup
      (hrange.imp fun hlt => hlt.ne) (hliving.imp fun hlt => hlt.ne)).mpr fun id => ?_)
    · exact fun a b _ _ hab hba => absurd hab hba.asymm
    rw [List.mem_filter, List.mem_range, List.mem_map, Option.isSome_iff_ne_none]
    constructor
    · exact fun ⟨hlt, hsome⟩ => hnode.registered id hlt hsome
    · rintro ⟨c, hc, rfl⟩
      obtain ⟨record, hentry, -⟩ := hnode.entry c hc
      exact ⟨hnode.next c hc, by rw [hentry]; exact Option.some_ne_none record⟩
  have hfigures : (List.range node.nextAtsId).filterMap
      (fun id => (buildAtsRecord net node id).map recordFigures) =
      h.living.map (figuresOf net chain h) := by
    have hnone : ∀ id, (node.atsRegistry id).isSome = false →
        (buildAtsRecord net node id).map recordFigures = none := by
      intro id hid
      rw [buildAtsRecord, Option.isSome_eq_false_iff.mp hid |> Option.isNone_iff_eq_none.mp]
      rfl
    have hkept : (List.range node.nextAtsId).filterMap
        (fun id => (buildAtsRecord net node id).map recordFigures) =
        ((List.range node.nextAtsId).filter fun id => (node.atsRegistry id).isSome).filterMap
          fun id => (buildAtsRecord net node id).map recordFigures := by
      rw [List.filterMap_filter]
      refine List.filterMap_congr fun id _ => ?_
      cases hid : (node.atsRegistry id).isSome with
      | true => rfl
      | false => exact hnone id hid
    rw [hkept, hids, List.filterMap_map, ← List.filterMap_eq_map]
    exact List.filterMap_congr fun c hc => recordFigures_eq net hv hnode hc
  rw [List.map_filterMap, List.filterMap_reverse, hfigures, List.map_reverse]

/-! ## The scan -/

/-- How many live versions are younger than a window. -/
def younger (chain : Chain) (h : AtsHistory) (window : ℤ) : ℕ :=
  h.livingAdditions.countP fun a => decide (tipTime chain h - window < chain.time a.block)

/-- A window's counter, over the times of all versions. -/
theorem countYounger_foldl (now : ℤ) (rs : List AtsRecord) :
    rs.foldl (fun last r => countYounger now window r.versions last) 0 =
      wrapU32 (((rs.map recordFigures).flatMap (·.times)).countP
        fun time => decide (now - time < window)) := by
  have hflat : rs.foldl (fun last r => countYounger now window r.versions last) 0 =
      ((rs.map recordFigures).flatMap (·.times)).foldl
        (fun last time => if decide (now - time < window) then (last + 1) % 4294967296 else last)
        0 := by
    rw [List.foldl_flatMap, List.foldl_map]
    refine congrArg (fun g => rs.foldl g 0) (funext fun last => funext fun r => ?_)
    simp only [recordFigures, List.foldl_map, countYounger, wrapU32, decide_eq_true_eq]
  rw [hflat, Aggregate.foldl_wrapping (by decide), Nat.zero_add]
  rfl

/-- **What the scan of records counts.** -/
theorem tally_eq (now : ℤ) (rs : List AtsRecord) :
    let tally := rs.foldl (StatsTally.step now) {}
    let fs := rs.map recordFigures
    tally.total = min fs.length u32Max ∧
      tally.totalVersions = min (fs.map (·.versionCount)).sum u32Max ∧
      tally.uniqueOwners = (fs.map (·.owner)).toFinset ∧
      tally.totalDeposited = min (fs.map (·.totalDeposit)).sum u128Max ∧
      tally.last24h = wrapU32 ((fs.flatMap (·.times)).countP fun t => decide (now - t < h24Ms)) ∧
      tally.last7d = wrapU32 ((fs.flatMap (·.times)).countP fun t => decide (now - t < d7Ms)) ∧
      tally.last30d = wrapU32 ((fs.flatMap (·.times)).countP fun t => decide (now - t < d30Ms)) ∧
      (tally.firstRegisteredAtMs, tally.genesisBlock) =
        (fs.map (·.created)).foldl Aggregate.keepEarlier (0, 0) := by
  -- Each counter is a scan of its own.
  have hcounter : ∀ {β : Type} (field : StatsTally → β) (g : β → AtsRecord → β),
      (∀ tally r, g (field tally) r = field (tally.step now r)) →
      field (rs.foldl (StatsTally.step now) {}) = rs.foldl g (field {}) := fun field g hstep =>
    (List.foldl_hom field hstep).symm
  refine ⟨?_, ?_, ?_, ?_, ?_, ?_, ?_, ?_⟩
  · rw [hcounter StatsTally.total (fun n _ => min (n + 1) u32Max) fun _ _ => rfl,
      Aggregate.foldl_saturating (f := fun _ => 1) (Nat.zero_le _), List.length_map,
      List.map_const', List.sum_replicate_nat, Nat.mul_one]
    exact congrArg (min · u32Max) (Nat.zero_add _)
  · rw [hcounter StatsTally.totalVersions (fun n r => min (n + r.versionCount) u32Max)
        fun _ _ => rfl,
      Aggregate.foldl_saturating (f := AtsRecord.versionCount) (Nat.zero_le _), List.map_map]
    exact congrArg (min · u32Max) (Nat.zero_add _)
  · rw [hcounter StatsTally.uniqueOwners (fun s r => insert r.owner s) fun _ _ => rfl,
      Aggregate.foldl_insert, List.map_map]
    exact Finset.empty_union _
  · rw [hcounter StatsTally.totalDeposited (fun n r => min (n + r.totalDeposit) u128Max)
        fun _ _ => rfl,
      Aggregate.foldl_saturating (f := AtsRecord.totalDeposit) (Nat.zero_le _), List.map_map]
    exact congrArg (min · u128Max) (Nat.zero_add _)
  · rw [hcounter StatsTally.last24h (fun last r => countYounger now h24Ms r.versions last)
      fun _ _ => rfl]
    exact countYounger_foldl now rs
  · rw [hcounter StatsTally.last7d (fun last r => countYounger now d7Ms r.versions last)
      fun _ _ => rfl]
    exact countYounger_foldl now rs
  · rw [hcounter StatsTally.last30d (fun last r => countYounger now d30Ms r.versions last)
      fun _ _ => rfl]
    exact countYounger_foldl now rs
  · rw [hcounter (fun tally => (tally.firstRegisteredAtMs, tally.genesisBlock))
      (fun first r => Aggregate.keepEarlier first (r.createdAtMs, r.createdAtBlock)) ?_,
      List.map_map, List.foldl_map]
    · rfl
    · intro tally r
      simp only [Aggregate.keepEarlier, StatsTally.step, Bool.or_eq_true, decide_eq_true_eq]
      split <;> rfl

/-- **The versions of the live ids**, id by id, are the live versions. -/
theorem livingAdditions_perm (hv : h.Valid) :
    List.Perm h.livingAdditions (h.living.flatMap fun c => h.additionsOf c.id) := by
  have hkeys : ∀ a ∈ h.livingAdditions, a.id ∈ h.living.map (·.id) := by
    intro a ha
    obtain ⟨hadded, hnever⟩ := mem_livingAdditions.mp ha
    obtain ⟨p, hp, hid, -⟩ := mem_additions.mp hadded
    obtain ⟨b, hb⟩ := hv.exists_creates hp
    obtain ⟨c, hc, -, hcid⟩ := hb.exists_mem
    have hsame : c.id = a.id := hcid.trans hid
    exact List.mem_map.mpr ⟨c, mem_living.mpr ⟨hc, hsame ▸ hnever⟩, hsame⟩
  refine (Aggregate.perm_flatMap_filter hv.nodup_living hkeys).trans ?_
  rw [List.flatMap_map]
  refine List.Perm.of_eq (List.flatMap_congr fun c hc => ?_)
  -- Of a live id all versions are live.
  rw [livingAdditions, List.filter_filter, additionsOf]
  refine List.filter_congr fun a _ => ?_
  by_cases hid : a.id = c.id
  · have hnot : h.isRevoked a.id = false := by
      rw [← Bool.not_eq_true, isRevoked_iff, hid]
      exact not_exists.mpr (mem_living.mp hc).2
    rw [decide_eq_true hid, hnot]
    rfl
  · rw [decide_eq_false hid]
    rfl

/-- The versions younger than a window, off the figures. -/
theorem countP_figures (hv : h.Valid) (net : Network) (window : ℤ) :
    (((h.living.reverse.map (figuresOf net chain h)).flatMap (·.times)).countP
      fun t => decide (tipTime chain h - t < window)) = younger chain h window := by
  have htimes : List.Perm
      ((h.living.reverse.map (figuresOf net chain h)).flatMap (·.times))
      (h.livingAdditions.map fun a => chain.time a.block) := by
    rw [List.flatMap_map]
    refine ((List.reverse_perm _).flatMap_right _).trans ?_
    refine List.Perm.trans ?_ ((livingAdditions_perm hv).map _).symm
    rw [List.map_flatMap]
    rfl
  rw [htimes.countP_eq, List.countP_map, younger]
  refine List.countP_congr fun a _ => ?_
  simp only [Function.comp_apply, decide_eq_true_eq]
  omega

/-- **The first live id** is the one created first, and scanned last. -/
theorem earliest_figures (net : Network) (hclock : chain.ClockRuns h.length) :
    ((h.living.reverse.map (figuresOf net chain h)).map (·.created)).foldl
      Aggregate.keepEarlier (0, 0) =
        (h.living.head?.map fun c => (chain.time c.block, c.block)).getD (0, 0) := by
  rw [List.map_map, List.map_reverse, ← List.head?_map]
  refine Aggregate.foldl_keepEarlier (List.pairwise_map.mpr ?_)
  refine (pairwise_creations.sublist List.filter_sublist).imp_of_mem ?_
  intro c c' _ hc' hle
  rcases Nat.lt_or_eq_of_le hle with hlt | heq
  · exact .inl (hclock.rises _ _ hlt (block_lt_of_living hc'))
  · exact .inr (congrArg (fun b => (chain.time b, b)) heq)

theorem sum_length_additionsOf (hv : h.Valid) :
    (h.living.map fun c => (h.additionsOf c.id).length).sum = h.livingAdditions.length := by
  rw [(livingAdditions_perm hv).length_eq, List.length_flatMap]

/-- **What the mapper reports** of a node at the tip. -/
theorem buildAtsStats_eq (hv : h.Valid) (hclock : chain.ClockRuns h.length)
    (hnode : node.Keeps chain h) (hss58 : Function.Injective net.encodeSs58) :
    let s := buildAtsStats net node (chain (h.length - 1))
    s.total = min h.living.length u32Max ∧
      s.totalVersions = min h.livingAdditions.length u32Max ∧
      s.uniqueOwners = wrapU32 (h.living.map (·.owner)).toFinset.card ∧
      s.last24h = wrapU32 (younger chain h h24Ms) ∧
      s.last7d = wrapU32 (younger chain h d7Ms) ∧
      s.last30d = wrapU32 (younger chain h d30Ms) ∧
      s.genesisBlock = (h.living.head?.map (·.block)).getD 0 ∧
      s.firstRegisteredAtMs = (h.living.head?.map fun c => chain.time c.block).getD 0 ∧
      s.totalDeposited = Token.satMulU128 h.livingAdditions.length versionDeposit := by
  obtain ⟨htotal, hversions, howners, hdeposited, h24, h7, h30, hfirst⟩ :=
    tally_eq (tipTime chain h)
      ((List.range node.nextAtsId).reverse.filterMap (buildAtsRecord net node))
  rw [figures_records net hv hnode] at htotal hversions howners hdeposited h24 h7 h30 hfirst
  rw [earliest_figures net hclock] at hfirst
  refine ⟨?_, ?_, ?_, ?_, ?_, ?_, ?_, ?_, ?_⟩
  · rw [List.length_map, List.length_reverse] at htotal
    exact htotal
  · refine hversions.trans ?_
    rw [List.map_map, List.map_reverse, List.sum_reverse]
    exact congrArg (min · u32Max) (sum_length_additionsOf hv)
  · refine (congrArg (fun s => wrapU32 (Finset.card s)) howners).trans ?_
    rw [List.map_map, List.map_reverse, List.toFinset_reverse,
      ← Finset.card_image_of_injective _ hss58]
    congr 2
    ext address
    simp [figuresOf]
  · exact h24.trans (congrArg wrapU32 (countP_figures hv net h24Ms))
  · exact h7.trans (congrArg wrapU32 (countP_figures hv net d7Ms))
  · exact h30.trans (congrArg wrapU32 (countP_figures hv net d30Ms))
  · refine (congrArg Prod.snd hfirst).trans ?_
    cases h.living <;> rfl
  · refine (congrArg Prod.fst hfirst).trans ?_
    cases h.living <;> rfl
  · refine hdeposited.trans ?_
    rw [List.map_map, List.map_reverse, List.sum_reverse]
    change min (h.living.map fun c => (h.additionsOf c.id).length * versionDeposit).sum u128Max = _
    rw [List.sum_map_mul_right, sum_length_additionsOf hv]
    rfl

/-! ## The two compared -/

/-- **The statistics agree.** -/
structure StatsAgree (s s' : AtsStats) : Prop where
  total : s.total = s'.total
  totalVersions : s.totalVersions = s'.totalVersions
  uniqueOwners : s.uniqueOwners = s'.uniqueOwners
  last24h : s.last24h = s'.last24h
  last7d : s.last7d = s'.last7d
  last30d : s.last30d = s'.last30d
  genesisBlock : s.genesisBlock = s'.genesisBlock
  firstRegisteredAtMs : s.firstRegisteredAtMs = s'.firstRegisteredAtMs
  totalDeposited : s.totalDeposited = s'.totalDeposited

/-- No live version is exactly as old as a window. -/
def OffEdge (chain : Chain) (h : AtsHistory) (window : ℤ) : Prop :=
  ∀ a ∈ h.livingAdditions, chain.time a.block ≠ tipTime chain h - window

/-- **Where the two count alike**: no live version is on the edge of a
window, and neither the versions of an id nor all of them overflow. -/
structure CountAlike (chain : Chain) (h : AtsHistory) : Prop where
  day : OffEdge chain h h24Ms
  week : OffEdge chain h d7Ms
  month : OffEdge chain h d30Ms
  versions : h.livingAdditions.length ≤ u32Max
  counts : ∀ c ∈ h.living, (h.additionsOf c.id).length ≤ i32Max

/-- **A window of the query and one of the mapper** differ by the versions
on the edge. -/
theorem notOlder_eq_younger_iff :
    notOlder chain h window = younger chain h window ↔ OffEdge chain h window := by
  unfold notOlder younger
  rw [Aggregate.countP_le_eq fun a : Addition => chain.time a.block, Nat.add_eq_left,
    List.countP_eq_zero]
  simp only [decide_eq_true_eq]
  rfl

theorem notOlder_le : notOlder chain h window ≤ h.livingAdditions.length := List.countP_le_length

theorem younger_le : younger chain h window ≤ h.livingAdditions.length := List.countP_le_length

/-- **The counts of the columns add up to the versions** where they all
fit. -/
theorem storedVersions_eq_iff (hv : h.Valid) :
    storedVersions h = h.livingAdditions.length ↔
      ∀ c ∈ h.living, (h.additionsOf c.id).length ≤ i32Max := by
  rw [← sum_length_additionsOf hv, storedVersions]
  induction h.living with
  | nil => simp
  | cons c cs ih =>
    have hle : (cs.map fun c => min (h.additionsOf c.id).length i32Max).sum ≤
        (cs.map fun c => (h.additionsOf c.id).length).sum :=
      List.sum_le_sum fun c _ => min_le_left _ _
    rw [List.map_cons, List.map_cons, List.sum_cons, List.sum_cons, List.forall_mem_cons, ← ih]
    omega

theorem storedVersions_le (hv : h.Valid) : storedVersions h ≤ h.livingAdditions.length := by
  rw [← sum_length_additionsOf hv, storedVersions]
  exact List.sum_le_sum fun c _ => min_le_left _ _

/-- Every live id has a version. -/
theorem length_living_le (hv : h.Valid) : h.living.length ≤ h.livingAdditions.length := by
  rw [← sum_length_additionsOf hv]
  refine le_trans (le_of_eq ?_) (List.sum_le_sum fun c hc =>
    hv.one_le_additionsOf (mem_living.mp hc).1)
  rw [List.map_const', List.sum_replicate_nat, Nat.mul_one]

/-- A count that a `u32` holds deposits less than one it does not. -/
theorem deposited_lt {m : ℕ} (hn : n ≤ u32Max) (hm : u32Max < m) :
    Token.satMulU128 n versionDeposit < Token.satMulU128 m versionDeposit := by
  have hmul : n * versionDeposit < m * versionDeposit :=
    Nat.mul_lt_mul_of_pos_right (hn.trans_lt hm) (by decide)
  have hroom : n * versionDeposit < u128Max :=
    (Nat.mul_le_mul_right _ hn).trans_lt (by decide)
  exact (min_le_left _ _).trans_lt (lt_min hmul hroom)

/-- **Of tables as ascending order leaves them**, the two agree exactly
where they count alike. -/
theorem statsAgree_iff_of_ascending (hv : h.Valid) (hne : h ≠ []) (hlen : h.length ≤ u32Max + 1)
    (hclock : chain.ClockRuns h.length) (hdb : db.IndexedAll chain h bs)
    (hasc : h.applyAll .empty (List.range h.length) = .ok db.ats) (hnode : node.Keeps chain h)
    (hss58 : Function.Injective net.encodeSs58) :
    StatsAgree (Queries.atsStats db) (buildAtsStats net node (chain (h.length - 1))) ↔
      CountAlike chain h := by
  obtain ⟨qtotal, qversions, qowners, q24, q7, q30, qgenesis, qfirst, qdeposited⟩ :=
    atsStats_eq hv hne hlen hclock hdb hasc
  obtain ⟨mtotal, mversions, mowners, m24, m7, m30, mgenesis, mfirst, mdeposited⟩ :=
    buildAtsStats_eq hv hclock hnode hss58
  have hwindow : h.livingAdditions.length ≤ u32Max → ∀ window,
      wrapU32 (notOlder chain h window) = wrapU32 (younger chain h window) ↔
        OffEdge chain h window := by
    intro hfits window
    rw [wrapU32_of_le (notOlder_le.trans hfits), wrapU32_of_le (younger_le.trans hfits),
      notOlder_eq_younger_iff]
  constructor
  · intro hagree
    have hdeposited := hagree.totalDeposited
    rw [qdeposited, mdeposited] at hdeposited
    -- Past `u32` the mapper's deposits are more than the query can report.
    have hfits : h.livingAdditions.length ≤ u32Max := by
      by_contra hover
      exact (deposited_lt (wrapU32_le (storedVersions h)) (Nat.lt_of_not_le hover)).ne hdeposited
    have hversions := hagree.totalVersions
    rw [qversions, mversions, min_eq_left hfits,
      wrapU32_of_le ((storedVersions_le hv).trans hfits)] at hversions
    exact
      { day := (hwindow hfits h24Ms).mp (q24 ▸ m24 ▸ hagree.last24h)
        week := (hwindow hfits d7Ms).mp (q7 ▸ m7 ▸ hagree.last7d)
        month := (hwindow hfits d30Ms).mp (q30 ▸ m30 ▸ hagree.last30d)
        versions := hfits
        counts := (storedVersions_eq_iff hv).mp hversions }
  · intro halike
    have hfits := halike.versions
    have hstored := (storedVersions_eq_iff hv).mpr halike.counts
    have hliving := (length_living_le hv).trans hfits
    exact
      { total := by rw [qtotal, mtotal, wrapU32_of_le hliving, min_eq_left hliving]
        totalVersions := by rw [qversions, mversions, hstored, wrapU32_of_le hfits,
          min_eq_left hfits]
        uniqueOwners := qowners.trans mowners.symm
        last24h := q24.trans (((hwindow hfits h24Ms).mpr halike.day).trans m24.symm)
        last7d := q7.trans (((hwindow hfits d7Ms).mpr halike.week).trans m7.symm)
        last30d := q30.trans (((hwindow hfits d30Ms).mpr halike.month).trans m30.symm)
        genesisBlock := qgenesis.trans mgenesis.symm
        firstRegisteredAtMs := qfirst.trans mfirst.symm
        totalDeposited := by rw [qdeposited, mdeposited, hstored, wrapU32_of_le hfits] }

/-- **An id that came back has a row of its own**, besides those of the
live ids; and all the rows are of ids created. -/
theorem length_registry_of_back (hv : h.Valid) (hdb : db.IndexedAll chain h bs)
    (hback : ¬ h.NoneBack bs) :
    h.living.length < db.ats.parents.rows.length ∧
      db.ats.parents.rows.length ≤ h.creations.length := by
  unfold NoneBack at hback
  push Not at hback
  obtain ⟨x, c, r, hc, hr, hcr, hlast⟩ := hback
  have hcbs : c ∈ bs := by
    obtain ⟨p, hp, -⟩ := hc
    exact hdb.all c (lt_length_of_mem hp)
  have hthere : db.ats.parents.contains (atsKey x) = true := by
    rw [hv.contains_iff_lastOf hc hr hcr hdb.applied]
    exact (lastOf_of_mem hcbs).resolve_right hlast
  have hfresh : atsKey x ∉ h.living.map fun c => atsKey c.id := by
    intro hmem
    obtain ⟨c', hc', hkey⟩ := List.mem_map.mp hmem
    exact (mem_living.mp hc').2 r (asI64_toNat_inj.mp hkey ▸ hr)
  have hrows : ∀ k ∈ atsKey x :: h.living.map (fun c => atsKey c.id), k ∈ db.ats.parents.keys := by
    intro k hk
    rw [Table.mem_keys_iff]
    rcases List.mem_cons.mp hk with rfl | hk
    · exact hthere
    · obtain ⟨c', hc', rfl⟩ := List.mem_map.mp hk
      obtain ⟨hcreation, hnever⟩ := mem_living.mp hc'
      exact (hv.contains_iff_mem (creates_of_mem hcreation) hnever hdb.applied).mpr
        (hdb.all _ (block_lt_of_creation hcreation))
  have hcreated : ∀ k ∈ db.ats.parents.keys, k ∈ h.creations.map fun c => atsKey c.id := by
    intro k hk
    obtain ⟨y, rfl, b, -, hb⟩ := exists_creates_of_contains hdb.applied (Table.mem_keys_iff.mp hk)
    obtain ⟨c', hc', -, rfl⟩ := hb.exists_mem
    exact List.mem_map.mpr ⟨c', hc', rfl⟩
  have hmore := (List.subperm_of_subset (List.nodup_cons.mpr ⟨hfresh, hv.nodup_keys⟩)
    hrows).length_le
  have hfew := (List.subperm_of_subset db.ats.parents.nodup_keys hcreated).length_le
  rw [List.length_cons, List.length_map, Table.keys, List.length_map] at hmore
  rw [List.length_map, Table.keys, List.length_map] at hfew
  exact ⟨hmore, hfew⟩

/-- **The two agree exactly where no id comes back and they count
alike.** -/
theorem atsStats_agree_iff (hv : h.Valid) (hne : h ≠ []) (hlen : h.length ≤ u32Max + 1)
    (hclock : chain.ClockRuns h.length) (hdb : db.IndexedAll chain h bs)
    (hnode : node.Keeps chain h) (hss58 : Function.Injective net.encodeSs58)
    (hids : h.NoneBack bs ∨ h.creations.length ≤ u32Max) :
    StatsAgree (Queries.atsStats db) (buildAtsStats net node (chain (h.length - 1))) ↔
      h.NoneBack bs ∧ CountAlike chain h := by
  by_cases hback : h.NoneBack bs
  · obtain ⟨asc, hasc, hsame⟩ := replay_eq_ascending_iff hv hdb.all hdb.applied
    obtain rfl := hsame.mpr hback
    rw [statsAgree_iff_of_ascending hv hne hlen hclock hdb hasc hnode hss58]
    exact ⟨fun halike => ⟨hback, halike⟩, fun hboth => hboth.2⟩
  · refine iff_of_false (fun hagree => ?_) fun hboth => hback hboth.1
    obtain ⟨hmore, hfew⟩ := length_registry_of_back hv hdb hback
    have hfits := hfew.trans (hids.resolve_left hback)
    have hrows : (Queries.atsStats db).total = db.ats.parents.rows.length := by
      change Queries.countU32 (db.ats.parents.rows.map Prod.snd).length = _
      rw [countU32_natCast, List.length_map, wrapU32_of_le hfits]
    have hrecords := (buildAtsStats_eq hv hclock hnode hss58).1
    have htotal := hagree.total
    rw [hrows, hrecords] at htotal
    omega

/-! ## Three creations, an update and a revocation -/

/-- Block 1 is at time 1, block 2 the gap later. -/
def gapChain (gap : ℕ) : Chain := fun b =>
  { bareChain b with now := if b = 0 then none else some (1 + (b - 1) * gap) }

/-- Block 1 creates ids 0 and 1; block 2 updates the one, revokes the
other and creates id 2. -/
def threeCreations : AtsHistory :=
  [[], [(0, .created 0 (.fill 1) (.fill 2) 1), (1, .created 1 (.fill 1) (.fill 3) 1)],
    [(0, .updated 0 1 (.fill 4) 1), (1, .revoked 1), (2, .created 2 (.fill 5) (.fill 6) 1)]]

/-- The node after them, the versions of id 0 in the order of storage. -/
def threeCreated (gap : ℕ) : AtsNode where
  nextAtsId := 3
  next_le := three_le_u64Max
  atsRegistry id :=
    if id = 0 then some ⟨.fill 1, 1, 2, [⟨.fill 1, versionDeposit⟩, ⟨.fill 1, versionDeposit⟩]⟩
    else if id = 2 then some ⟨.fill 5, 2, 1, [⟨.fill 5, versionDeposit⟩]⟩
    else none
  atsVersions id :=
    if id = 0 then [(1, ⟨2, .fill 4, 1⟩), (0, ⟨1, .fill 2, 1⟩)]
    else if id = 2 then [(0, ⟨2, .fill 6, 1⟩)]
    else []
  atBlock b := some (gapChain gap b)

theorem threeCreations_valid : threeCreations.Valid := valid_of_named (by decide)

theorem living_threeCreations :
    threeCreations.living = [⟨1, 0, 0, .fill 1⟩, ⟨2, 2, 2, .fill 5⟩] := by decide

theorem additions_threeCreations :
    threeCreations.livingAdditions = [⟨1, 0, 0⟩, ⟨2, 0, 1⟩, ⟨2, 2, 0⟩] ∧
      threeCreations.additionsOf 0 = [⟨1, 0, 0⟩, ⟨2, 0, 1⟩] ∧
      threeCreations.additionsOf 2 = [⟨2, 2, 0⟩] := by
  decide

theorem gapChain_time {gap : ℕ} (hgap : gap ≤ u32Max) :
    (gapChain gap).time 0 = 0 ∧ (gapChain gap).time 1 = 1 ∧ (gapChain gap).time 2 = 1 + gap := by
  refine ⟨rfl, ?_, ?_⟩
  · change asI64 (1 + (1 - 1) * gap) = 1
    rw [Nat.sub_self, Nat.zero_mul]
    rfl
  · change asI64 (1 + (2 - 1) * gap) = 1 + gap
    rw [asI64_of_le (by simp only [u32Max, i64Max] at *; omega)]
    omega

theorem gapChain_clock {gap : ℕ} (hpos : 1 ≤ gap) (hgap : gap ≤ u32Max) :
    (gapChain gap).ClockRuns threeCreations.length where
  start := (gapChain_time hgap).1.ge
  rises := by
    obtain ⟨h0, h1, h2⟩ := gapChain_time hgap
    intro b b' hlt hb'
    have hlength : threeCreations.length = 3 := rfl
    obtain ⟨rfl, rfl⟩ | ⟨rfl, rfl⟩ | ⟨rfl, rfl⟩ :
        (b = 0 ∧ b' = 1) ∨ (b = 0 ∧ b' = 2) ∨ (b = 1 ∧ b' = 2) := by omega
    · rw [h0, h1]
      decide
    · rw [h0, h2]
      omega
    · rw [h1, h2]
      omega

theorem threeCreated_keeps (gap : ℕ) : (threeCreated gap).Keeps (gapChain gap) threeCreations where
  ascending := by
    rw [living_threeCreations]
    decide
  next := by
    rw [living_threeCreations]
    change ∀ c ∈ [_, _], _ < 3
    decide
  registered := by
    intro id hid hentry
    rw [living_threeCreations]
    have hthree : id < 3 := hid
    obtain rfl | rfl | rfl : id = 0 ∨ id = 1 ∨ id = 2 := by omega
    · exact ⟨_, List.mem_cons_self, rfl⟩
    · exact absurd rfl hentry
    · exact ⟨_, List.mem_cons_of_mem _ List.mem_cons_self, rfl⟩
  entry := by
    obtain ⟨-, hfirst, hsecond⟩ := additions_threeCreations
    rw [living_threeCreations]
    simp only [List.forall_mem_cons, hfirst, hsecond]
    exact ⟨⟨_, rfl, rfl, rfl, rfl⟩, ⟨_, rfl, rfl, rfl, rfl⟩, nofun⟩
  versions := by
    obtain ⟨-, hfirst, hsecond⟩ := additions_threeCreations
    rw [living_threeCreations]
    simp only [List.forall_mem_cons, hfirst, hsecond]
    exact ⟨List.Perm.swap _ _ _, List.Perm.refl _, nofun⟩
  served := fun _ _ => rfl

/-- **Indexed in ascending order.** -/
theorem exists_indexed (gap : ℕ) :
    ∃ db : Db, db.IndexedAll (gapChain gap) threeCreations (List.range 3) := by
  obtain ⟨t, ht⟩ := threeCreations_valid.applyAll_range 3
  have hkeys : (((List.range 3).map fun b =>
      (asI64 b, Sink.blockRow (Blocks.map (gapChain gap b) b) none)).map Prod.fst).Nodup := by
    rw [List.map_map]
    change ((List.range 3).map asI64).Nodup
    decide
  refine ⟨{ Db.empty with
    blocks := Table.empty.insertAll ((List.range 3).map fun b =>
      (asI64 b, Sink.blockRow (Blocks.map (gapChain gap b) b) none))
    ats := t }, ht, fun b hb => List.mem_range.mpr hb, ?_, ?_⟩
  · intro k hk
    rw [Table.contains_insertAll, Bool.or_eq_true, Table.firstOffered_isSome_iff] at hk
    rcases hk with hold | hnew
    · cases hold
    · rw [List.map_map] at hnew
      obtain ⟨b, hb, rfl⟩ := List.mem_map.mp hnew
      exact ⟨b, List.mem_range.mp hb, rfl⟩
  · intro b hb
    refine ⟨Sink.blockRow (Blocks.map (gapChain gap b) b) none, ?_, rfl⟩
    rw [Table.find_insertAll, Table.find_empty, Option.none_or]
    exact Table.firstOffered_of_mem hkeys (List.mem_map.mpr ⟨b, List.mem_range.mpr hb, rfl⟩)

/-- The one id revoked was created a block before. -/
theorem noneBack_threeCreations : threeCreations.NoneBack (List.range 3) := by
  intro x c r hcreates ⟨p, hp, hid, hrevokes⟩ hcr
  have hlt : r < 3 := lt_length_of_mem hp
  have hrevoked : r = 2 := by
    have hearlier : ∀ b < 2, ∀ p ∈ threeCreations.block b, p.2.revokes = false := by decide
    by_contra hne
    exact absurd hrevokes (by rw [hearlier r (by omega) p hp]; decide)
  subst hrevoked
  have hc : c < 3 := by
    obtain ⟨q, hq, -⟩ := hcreates
    exact lt_length_of_mem hq
  obtain rfl | rfl : c = 0 ∨ c = 1 := by omega
  · rfl
  · rfl

theorem offEdge_threeCreations {gap : ℕ} (hgap : gap ≤ u32Max) (hwindow : 0 < window) :
    OffEdge (gapChain gap) threeCreations window ↔ (gap : ℤ) ≠ window := by
  obtain ⟨-, h1, h2⟩ := gapChain_time hgap
  unfold OffEdge tipTime
  rw [additions_threeCreations.1, show threeCreations.length - 1 = 2 from rfl]
  simp only [List.forall_mem_cons, h1, h2]
  constructor
  · rintro ⟨hfirst, -⟩
    omega
  · intro hne
    exact ⟨by omega, by omega, by omega, nofun⟩

/-- A tip five milliseconds after the first versions: they agree. -/
theorem atsStats_agree_five :
    ∃ db : Db, db.IndexedAll (gapChain 5) threeCreations (List.range 3) ∧
      StatsAgree (Queries.atsStats db)
        (buildAtsStats allfeatNetwork (threeCreated 5)
          (gapChain 5 (threeCreations.length - 1))) := by
  obtain ⟨db, hdb⟩ := exists_indexed 5
  obtain ⟨hall, hfirst, hsecond⟩ := additions_threeCreations
  refine ⟨db, hdb, (atsStats_agree_iff threeCreations_valid (by decide) (by decide)
    (gapChain_clock (by decide) (by decide)) hdb (threeCreated_keeps 5) allfeatNetwork_injective
    (.inl noneBack_threeCreations)).mpr ⟨noneBack_threeCreations, ?_⟩⟩
  exact
    { day := (offEdge_threeCreations (by decide) (by decide)).mpr (by decide)
      week := (offEdge_threeCreations (by decide) (by decide)).mpr (by decide)
      month := (offEdge_threeCreations (by decide) (by decide)).mpr (by decide)
      versions := by
        rw [hall]
        decide
      counts := by
        rw [living_threeCreations]
        simp only [List.forall_mem_cons, hfirst, hsecond]
        exact ⟨by decide, by decide, nofun⟩ }

/-- **A version exactly a day old** is in the last day of the query, and
not of the mapper. -/
theorem not_statsAgree_day :
    threeCreations.Valid ∧ (gapChain 86400000).ClockRuns threeCreations.length ∧
      (threeCreated 86400000).Keeps (gapChain 86400000) threeCreations ∧
      Function.Injective allfeatNetwork.encodeSs58 ∧
      ∃ db : Db, db.IndexedAll (gapChain 86400000) threeCreations (List.range 3) ∧
        ¬ StatsAgree (Queries.atsStats db) (buildAtsStats allfeatNetwork (threeCreated 86400000)
          (gapChain 86400000 (threeCreations.length - 1))) := by
  have hclock : (gapChain 86400000).ClockRuns threeCreations.length :=
    gapChain_clock (by decide) (by decide)
  obtain ⟨db, hdb⟩ := exists_indexed 86400000
  refine ⟨threeCreations_valid, hclock, threeCreated_keeps _, allfeatNetwork_injective, db, hdb,
    ?_⟩
  rw [statsAgree_iff_of_ascending threeCreations_valid (by decide) (by decide) hclock hdb
    hdb.applied (threeCreated_keeps _) allfeatNetwork_injective]
  exact fun halike =>
    (offEdge_threeCreations (by decide) (by decide)).mp halike.day (by decide)

end AllfeatExplorer
