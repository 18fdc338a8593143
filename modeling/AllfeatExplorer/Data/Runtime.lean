import AllfeatExplorer.Lib.StableSort
import AllfeatExplorer.Indexer.Finalized
import AllfeatExplorer.Indexer.Helpers.Applied
import AllfeatExplorer.Data.Model.Runtime

/-!
# What the timeline shows

The aggregate takes of each version the first block that is indexed. In a
run that is the block of the upgrade just if that block is indexed, and
never an earlier one; a version without an indexed block is not shown,
unless it is the one that runs. Where versions only go up the timeline
descends in both its columns.
-/

namespace AllfeatExplorer

open Distinct Projections Queries

variable {chain : Chain} {chunkSize : ℕ} {as : List Action} {s : Sys} {db : Db}
  {a b : ObservedVersion} {u v : RuntimeUpgrade} {m n current : ℕ}

/-! ## The aggregate -/

theorem pairwise_observedVersions : (observedVersions db).Pairwise fun a b => a.num < b.num :=
  List.pairwise_map.mpr db.blocks.sorted

theorem eq_of_num_eq (ha : a ∈ observedVersions db) (hb : b ∈ observedVersions db)
    (h : a.num = b.num) : a = b := by
  obtain ⟨r, hr, rfl⟩ := List.mem_map.mp ha
  obtain ⟨r', hr', rfl⟩ := List.mem_map.mp hb
  have hrows : r = r' := Table.eq_of_mem_rows hr hr' h
  rw [hrows]

theorem ordered_observedVersions :
    Ordered ObservedVersion.specVersion ObservedVersion.num
      ((observedVersions db).mergeSort fun a b =>
        decide (toLex (a.specVersion, a.num) ≤ toLex (b.specVersion, b.num))) := by
  have hnodup : ((observedVersions db).map fun a => toLex (a.specVersion, a.num)).Nodup := by
    refine List.pairwise_map.mpr (pairwise_observedVersions.imp fun {a b} hlt heq => ?_)
    have hnum := (Prod.mk.inj (toLex.injective heq)).2
    exact absurd hnum hlt.ne
  refine (pairwise_lt_mergeSort_asc hnodup).imp fun {a b} hlt => ?_
  exact Prod.Lex.toLex_lt_toLex.mp hlt

/-- **A version's first block** is the least number it has among the
rows. -/
theorem mem_firstBlocks_iff :
    a ∈ firstBlocks db ↔ a ∈ observedVersions db ∧
      ∀ b ∈ observedVersions db, b.specVersion = a.specVersion → a.num ≤ b.num := by
  unfold firstBlocks
  rw [mem_distinctOn_iff ordered_observedVersions, List.mem_mergeSort]
  refine and_congr_right fun _ => forall_congr' fun b => ?_
  rw [List.mem_mergeSort]

theorem firstBlocks_inj (ha : a ∈ firstBlocks db) (hb : b ∈ firstBlocks db)
    (h : a.specVersion = b.specVersion) : a = b := by
  obtain ⟨hmem, hleast⟩ := mem_firstBlocks_iff.mp ha
  obtain ⟨hmem', hleast'⟩ := mem_firstBlocks_iff.mp hb
  exact eq_of_num_eq hmem hmem' (le_antisymm (hleast b hmem' h.symm) (hleast' a hmem h))

/-- The rows of the timeline, before they are shown. -/
theorem pairwise_timeline :
    ((firstBlocks db).mergeSort fun a b => decide (b.num ≤ a.num)).Pairwise
      fun a b => b.num < a.num := by
  refine pairwise_lt_mergeSort_desc (List.pairwise_map.mpr ?_)
  have hspecs : (firstBlocks db).Pairwise fun a b => a.specVersion < b.specVersion :=
    pairwise_distinctOn ordered_observedVersions
  refine hspecs.imp_of_mem fun {a b} ha hb hlt heq => ?_
  have hsame := eq_of_num_eq (mem_firstBlocks_iff.mp ha).1 (mem_firstBlocks_iff.mp hb).1 heq
  rw [hsame] at hlt
  exact lt_irrefl _ hlt

theorem mem_runtimeUpgrades_iff :
    u ∈ Queries.runtimeUpgrades db ↔ ∃ a ∈ firstBlocks db, rowToUpgrade a = u := by
  unfold Queries.runtimeUpgrades
  rw [List.mem_map]
  exact exists_congr fun a => and_congr_left fun _ => List.mem_mergeSort

/-! ## The blocks of a run -/

/-- What the timeline shows of block `n`. -/
def upgradeAt (chain : Chain) (n : ℕ) : RuntimeUpgrade where
  specVersion := (chain n).specVersion
  firstBlock := some n
  firstBlockTimestampMs :=
    if fetchTimestamp (chain n) > 0 then some (fetchTimestamp (chain n)) else none
  isCurrent := false

/-- **The numbers of the indexed blocks fit**: the block's its `BIGINT`
and its version's its `INT`. -/
def VersionsFit (chain : Chain) (db : Db) : Prop :=
  ∀ n ≤ u64Max, db.hasBlock n → n ≤ i64Max ∧ (chain n).specVersion ≤ i32Max

/-- A version seen is an indexed block's. -/
theorem mem_observedVersions_run
    (h : run (Sys.step chain chunkSize) (Sys.start Db.empty) as = some s)
    (hfits : VersionsFit chain s.db) :
    a ∈ observedVersions s.db ↔ ∃ n ≤ u64Max, s.db.hasBlock n ∧
      a = ⟨(chain n).specVersion, n, fetchTimestamp (chain n)⟩ := by
  obtain ⟨bs, hbs⟩ := applied_run h
  have hrow : ∀ n ≤ u64Max, s.db.hasBlock n → ∃ row, s.db.blocks.find (n : ℤ) = some row ∧
      row.specVersion = (chain n).specVersion ∧ row.timestampMs = fetchTimestamp (chain n) := by
    intro n hn hthere
    obtain ⟨hnum, hspec⟩ := hfits n hn hthere
    obtain ⟨authorId, hfind⟩ := hbs.row n ((hbs.hasBlock_iff hn).mp hthere)
    rw [asI64_of_le hnum] at hfind
    refine ⟨_, hfind, ?_, rfl⟩
    change asI32 (chain n).specVersion = (chain n).specVersion
    rw [asI32_of_le hspec]
  constructor
  · intro hmem
    obtain ⟨⟨k, row⟩, hr, rfl⟩ := List.mem_map.mp hmem
    have hfind := Table.find_eq_some_iff.mpr hr
    obtain ⟨n, hn, rfl⟩ := (hbs.blocks k).mp (Table.contains_eq_true_iff.mpr ⟨row, hfind⟩)
    have hn64 := hbs.bound n hn
    have hthere : s.db.hasBlock n := (hbs.hasBlock_iff hn64).mpr hn
    obtain ⟨row', hfind', hspec, htime⟩ := hrow n hn64 hthere
    rw [asI64_of_le (hfits n hn64 hthere).1] at hfind ⊢
    obtain rfl := Option.some.inj (hfind.symm.trans hfind')
    exact ⟨n, hn64, hthere, by rw [hspec, htime]⟩
  · rintro ⟨n, hn, hthere, rfl⟩
    obtain ⟨row, hfind, hspec, htime⟩ := hrow n hn hthere
    refine List.mem_map.mpr ⟨(n, row), Table.find_eq_some_iff.mp hfind, ?_⟩
    rw [hspec, htime]

/-- **The timeline of a run** shows of each version the first block that
is indexed. -/
theorem mem_runtimeUpgrades_run
    (h : run (Sys.step chain chunkSize) (Sys.start Db.empty) as = some s)
    (hfits : VersionsFit chain s.db) :
    u ∈ Queries.runtimeUpgrades s.db ↔ ∃ n ≤ u64Max, s.db.hasBlock n ∧
      (∀ m ≤ u64Max, s.db.hasBlock m → (chain m).specVersion = (chain n).specVersion → n ≤ m) ∧
      u = upgradeAt chain n := by
  rw [mem_runtimeUpgrades_iff]
  have hshown : ∀ n : ℕ,
      rowToUpgrade ⟨(chain n).specVersion, n, fetchTimestamp (chain n)⟩ = upgradeAt chain n := by
    intro n
    simp [rowToUpgrade, upgradeAt]
  constructor
  · rintro ⟨a, ha, rfl⟩
    obtain ⟨hmem, hleast⟩ := mem_firstBlocks_iff.mp ha
    obtain ⟨n, hn, hthere, rfl⟩ := (mem_observedVersions_run h hfits).mp hmem
    refine ⟨n, hn, hthere, fun m hm hthere' hspec => ?_, hshown n⟩
    have hle := hleast _ ((mem_observedVersions_run h hfits).mpr ⟨m, hm, hthere', rfl⟩)
      (congrArg Nat.cast hspec)
    exact Int.ofNat_le.mp hle
  · rintro ⟨n, hn, hthere, hleast, rfl⟩
    refine ⟨_, mem_firstBlocks_iff.mpr
      ⟨(mem_observedVersions_run h hfits).mpr ⟨n, hn, hthere, rfl⟩, ?_⟩, hshown n⟩
    intro b hb hspec
    obtain ⟨m, hm, hthere', rfl⟩ := (mem_observedVersions_run h hfits).mp hb
    exact Int.ofNat_le.mpr (hleast m hm hthere' (Int.ofNat.inj hspec))

/-- Where versions only go up, so do their first blocks. -/
theorem pairwise_runtimeUpgrades_run
    (h : run (Sys.step chain chunkSize) (Sys.start Db.empty) as = some s)
    (hfits : VersionsFit chain s.db) (hmono : Monotone fun n => (chain n).specVersion) :
    (Queries.runtimeUpgrades s.db).Pairwise fun u v => v.specVersion < u.specVersion := by
  unfold Queries.runtimeUpgrades
  refine List.pairwise_map.mpr (pairwise_timeline.imp_of_mem fun {a b} ha hb hlt => ?_)
  rw [List.mem_mergeSort] at ha hb
  obtain ⟨n, -, -, rfl⟩ := (mem_observedVersions_run h hfits).mp (mem_firstBlocks_iff.mp ha).1
  obtain ⟨m, -, -, rfl⟩ := (mem_observedVersions_run h hfits).mp (mem_firstBlocks_iff.mp hb).1
  have hmn : m < n := Int.ofNat_lt.mp hlt
  have hle : (chain m).specVersion ≤ (chain n).specVersion := hmono hmn.le
  have hne : (chain m).specVersion ≠ (chain n).specVersion := by
    intro heq
    have hsame := firstBlocks_inj hb ha (congrArg Nat.cast heq)
    have hnum : (m : ℤ) = n := (ObservedVersion.mk.inj hsame).2.1
    omega
  simp only [rowToUpgrade]
  omega

/-- **The timeline of a run.** It descends, and shows each version that
some indexed block has, from the first such block on: that is the block of
the upgrade just if that block is indexed, and a later one otherwise. -/
theorem runtimeUpgrades_run
    (h : run (Sys.step chain chunkSize) (Sys.start Db.empty) as = some s)
    (hfits : VersionsFit chain s.db) (hmono : Monotone fun n => (chain n).specVersion) :
    (Queries.runtimeUpgrades s.db).Pairwise (fun u v => v.specVersion < u.specVersion) ∧
    (∀ n ≤ u64Max, s.db.hasBlock n →
      ∃ u ∈ Queries.runtimeUpgrades s.db, u.specVersion = (chain n).specVersion) ∧
    ∀ u ∈ Queries.runtimeUpgrades s.db, ∃ n ≤ u64Max, s.db.hasBlock n ∧ u = upgradeAt chain n ∧
      ∀ first, IsLeast {m | (chain m).specVersion = (chain n).specVersion} first →
        first ≤ n ∧ (first = n ↔ s.db.hasBlock first) := by
  refine ⟨pairwise_runtimeUpgrades_run h hfits hmono, fun n hn hthere => ?_, fun u hu => ?_⟩
  · -- The least indexed block of the version of block `n`.
    have hex : ∃ m, m ≤ u64Max ∧ s.db.hasBlock m ∧
        (chain m).specVersion = (chain n).specVersion := ⟨n, hn, hthere, rfl⟩
    classical
    obtain ⟨hm, hthere', hspec⟩ := Nat.find_spec hex
    refine ⟨upgradeAt chain (Nat.find hex), ?_, hspec⟩
    refine (mem_runtimeUpgrades_run h hfits).mpr ⟨_, hm, hthere', fun k hk hthere'' hk' => ?_, rfl⟩
    exact Nat.find_min' hex ⟨hk, hthere'', hk'.trans hspec⟩
  · obtain ⟨n, hn, hthere, hleast, rfl⟩ := (mem_runtimeUpgrades_run h hfits).mp hu
    refine ⟨n, hn, hthere, rfl, fun first hfirst => ?_⟩
    have hle : first ≤ n := hfirst.2 rfl
    refine ⟨hle, fun heq => heq ▸ hthere, fun hthere' => ?_⟩
    exact le_antisymm hle (hleast first (hle.trans hn) hthere' hfirst.1)

/-- An upgrade to version 2 in block 11. -/
def upgradedChain : Chain := fun n => { bareChain n with specVersion := if n < 11 then 1 else 2 }

theorem upgradedChain_mono : Monotone fun n => (upgradedChain n).specVersion := by
  intro m n hmn
  simp only [upgradedChain]
  split <;> split <;> omega

/-- The blocks 10, 11 and 12 are indexed. -/
theorem upgradedChain_followed :
    ∃ s, run (Sys.step upgradedChain 1) (Sys.start Db.empty) followed = some s ∧
      VersionsFit upgradedChain s.db ∧ s.db.hasBlock 11 := by
  have hrun : (run (Sys.step upgradedChain 1) (Sys.start Db.empty) followed).map
      (fun s => decide (s.db.hasBlock 11)) = some true := by decide
  obtain ⟨s, hs, hthere⟩ := Option.map_eq_some_iff.mp hrun
  refine ⟨s, hs, fun n hn hn' => ?_, of_decide_eq_true hthere⟩
  have hle : n ≤ 12 := by
    refine le_of_hasBlock_run hs (fun head hmem => ?_) hn hn'
    simp only [followed, List.mem_cons, Action.publish.injEq, reduceCtorEq, List.not_mem_nil,
      or_false, false_or] at hmem
    rcases hmem with rfl | rfl <;> decide
  have hspec : (upgradedChain n).specVersion ≤ 2 := by
    simp only [upgradedChain]
    split <;> omega
  simp only [i64Max, i32Max]
  omega

/-- Block 11 is indexed, so it is the block version 2 is shown with. -/
theorem runtimeUpgrades_run_followed :
    ∃ s, run (Sys.step upgradedChain 1) (Sys.start Db.empty) followed = some s ∧
      upgradeAt upgradedChain 11 ∈ Queries.runtimeUpgrades s.db := by
  obtain ⟨s, hs, hfits, hthere⟩ := upgradedChain_followed
  obtain ⟨-, hshown, hrows⟩ := runtimeUpgrades_run hs hfits upgradedChain_mono
  obtain ⟨u, hu, hspec⟩ := hshown 11 (by decide) hthere
  obtain ⟨n, -, -, rfl, hfirst⟩ := hrows u hu
  have hspec' : (upgradedChain n).specVersion = 2 := hspec
  have hleast : IsLeast {m | (upgradedChain m).specVersion = (upgradedChain n).specVersion} 11 := by
    refine ⟨hspec'.symm, fun m hm => ?_⟩
    have hm' : (if m < 11 then 1 else 2) = 2 := hm.trans hspec'
    split at hm' <;> omega
  rw [(hfirst 11 hleast).2.mpr hthere]
  exact ⟨s, hs, hu⟩

/-! ## What runs now -/

end AllfeatExplorer
