import AllfeatExplorer.Data.Versions

/-!
# The ids and versions of a history

What a history says is there at its end, as lists: its creations, the
versions it adds, and of both those whose id is never revoked. In a valid
history an id has one creation and the versions from 0 on, the first of
them its creation's. The tables that its blocks in ascending order leave
are these lists (`registry_perm`, `versions_perm`).
-/

namespace AllfeatExplorer

open Projections DecodedAtsEvent

namespace AtsHistory

/-- A creation of a history. -/
structure Creation where
  block : ℕ
  extIdx : ℕ
  id : UInt64
  owner : AccountId
deriving DecidableEq

/-- A version that a history adds to an id. -/
structure Addition where
  block : ℕ
  id : UInt64
  version : UInt32
deriving DecidableEq

/-- The creation that an event of block `b` is. -/
def creationOf : ℕ × ℕ × DecodedAtsEvent → Option Creation
  | (b, extIdx, .created id owner _ _) => some ⟨b, extIdx, id, owner⟩
  | _ => none

/-- The version that an event of block `b` adds. -/
def additionOf (p : ℕ × ℕ × DecodedAtsEvent) : Option Addition :=
  p.2.2.version.map fun v => ⟨p.1, p.2.2.atsId, v⟩

/-- The creations, in chain order. -/
def creations (h : AtsHistory) : List Creation := h.timeline.filterMap creationOf

/-- The versions added, in chain order. -/
def additions (h : AtsHistory) : List Addition := h.timeline.filterMap additionOf

/-- Some block revokes the id. -/
def isRevoked (h : AtsHistory) (x : UInt64) : Bool :=
  h.timeline.any fun p => p.2.2.revokes && decide (p.2.2.atsId = x)

/-- **The ids there are at the end**: created and never revoked. -/
def living (h : AtsHistory) : List Creation := h.creations.filter fun c => !h.isRevoked c.id

/-- The versions of those ids. -/
def livingAdditions (h : AtsHistory) : List Addition :=
  h.additions.filter fun a => !h.isRevoked a.id

/-- The versions of one id, in chain order. -/
def additionsOf (h : AtsHistory) (x : UInt64) : List Addition :=
  h.additions.filter fun a => decide (a.id = x)

variable {h : AtsHistory} {b : ℕ} {x : UInt64} {c : Creation} {a : Addition} {t : AtsTables}
  {k : ℤ}

/-! ## Members -/

theorem of_creationOf_eq_some {p : ℕ × ℕ × DecodedAtsEvent} (hc : creationOf p = some c) :
    ∃ commitment pv, p = (c.block, c.extIdx, .created c.id c.owner commitment pv) := by
  obtain ⟨b, extIdx, evt⟩ := p
  cases evt with
  | created id owner commitment pv =>
    obtain rfl := Option.some.inj hc
    exact ⟨commitment, pv, rfl⟩
  | updated | revoked => cases hc

theorem mem_creations : c ∈ h.creations ↔
    ∃ commitment pv, (c.extIdx, .created c.id c.owner commitment pv) ∈ h.block c.block := by
  unfold creations
  rw [List.mem_filterMap]
  constructor
  · rintro ⟨p, hp, hc⟩
    obtain ⟨commitment, pv, rfl⟩ := of_creationOf_eq_some hc
    exact ⟨commitment, pv, mem_timeline.mp hp⟩
  · rintro ⟨commitment, pv, hp⟩
    exact ⟨_, mem_timeline.mpr hp, rfl⟩

theorem mem_additions : a ∈ h.additions ↔ h.Adds a.block a.id a.version := by
  unfold additions
  rw [List.mem_filterMap]
  constructor
  · rintro ⟨⟨b, p⟩, hp, ha⟩
    obtain ⟨v, hv, rfl⟩ := Option.map_eq_some_iff.mp ha
    exact ⟨p, mem_timeline.mp hp, rfl, hv⟩
  · rintro ⟨p, hp, hid, hv⟩
    refine ⟨(a.block, p), mem_timeline.mpr hp, ?_⟩
    rw [additionOf, hv, hid]
    rfl

theorem isRevoked_iff : h.isRevoked x = true ↔ ∃ r, h.Revokes r x := by
  unfold isRevoked
  rw [List.any_eq_true]
  constructor
  · rintro ⟨⟨r, p⟩, hp, hx⟩
    rw [Bool.and_eq_true, decide_eq_true_eq] at hx
    exact ⟨r, p, mem_timeline.mp hp, hx.2, hx.1⟩
  · rintro ⟨r, p, hp, hid, hr⟩
    refine ⟨(r, p), mem_timeline.mpr hp, ?_⟩
    rw [Bool.and_eq_true, decide_eq_true_eq]
    exact ⟨hr, hid⟩

theorem mem_living : c ∈ h.living ↔ c ∈ h.creations ∧ ∀ r, ¬ h.Revokes r c.id := by
  rw [living, List.mem_filter, Bool.not_eq_true', ← Bool.not_eq_true, isRevoked_iff, not_exists]

theorem mem_livingAdditions :
    a ∈ h.livingAdditions ↔ a ∈ h.additions ∧ ∀ r, ¬ h.Revokes r a.id := by
  rw [livingAdditions, List.mem_filter, Bool.not_eq_true', ← Bool.not_eq_true, isRevoked_iff,
    not_exists]

theorem creates_of_mem (hc : c ∈ h.creations) : h.Creates c.block c.id := by
  obtain ⟨commitment, pv, hp⟩ := mem_creations.mp hc
  exact ⟨_, hp, rfl, rfl⟩

theorem Creates.exists_mem (hx : h.Creates b x) : ∃ c ∈ h.creations, c.block = b ∧ c.id = x := by
  obtain ⟨⟨extIdx, evt⟩, hp, rfl, hcreates⟩ := hx
  cases evt with
  | created id owner commitment pv =>
    exact ⟨⟨b, extIdx, id, owner⟩, mem_creations.mpr ⟨commitment, pv, hp⟩, rfl, rfl⟩
  | updated | revoked => cases hcreates

/-- A creation adds version 0. -/
theorem mem_additions_of_creation (hc : c ∈ h.creations) : ⟨c.block, c.id, 0⟩ ∈ h.additions := by
  obtain ⟨commitment, pv, hp⟩ := mem_creations.mp hc
  exact mem_additions.mpr ⟨_, hp, rfl, rfl⟩

theorem block_lt_of_mem (ha : a ∈ h.additions) : a.block < h.length := by
  obtain ⟨p, hp, -⟩ := mem_additions.mp ha
  exact lt_length_of_mem hp

theorem block_lt_of_creation (hc : c ∈ h.creations) : c.block < h.length :=
  block_lt_of_mem (mem_additions_of_creation hc)

theorem block_lt_of_living (hc : c ∈ h.living) : c.block < h.length :=
  block_lt_of_creation (mem_living.mp hc).1

/-! ## One creation, and the versions from 0 on -/

/-- Creations come in the order of their blocks. -/
theorem pairwise_creations : h.creations.Pairwise fun c c' => c.block ≤ c'.block := by
  refine List.pairwise_filterMap.mpr (pairwise_timeline.imp ?_)
  intro p q hle c hc c' hc'
  obtain ⟨_, _, rfl⟩ := of_creationOf_eq_some hc
  obtain ⟨_, _, rfl⟩ := of_creationOf_eq_some hc'
  exact hle

/-- **An id is created once.** -/
theorem Valid.nodup_creations (hv : h.Valid) : (h.creations.map (·.id)).Nodup := by
  refine List.pairwise_map.mpr (List.pairwise_filterMap.mpr (hv.pairwise_precedes.imp ?_))
  intro p q hpre c hc c' hc' hid
  obtain ⟨_, _, rfl⟩ := of_creationOf_eq_some hc
  obtain ⟨_, _, rfl⟩ := of_creationOf_eq_some hc'
  have hlater := (hpre hid).later
  cases hlater

/-- **A version of an id is added once.** -/
theorem Valid.nodup_additions (hv : h.Valid) :
    (h.additions.map fun a => (a.id, a.version)).Nodup := by
  refine List.pairwise_map.mpr (List.pairwise_filterMap.mpr (hv.pairwise_precedes.imp ?_))
  intro p q hpre a ha a' ha' heq
  obtain ⟨v, hpv, rfl⟩ := Option.map_eq_some_iff.mp ha
  obtain ⟨w, hqw, rfl⟩ := Option.map_eq_some_iff.mp ha'
  obtain ⟨hid, rfl⟩ := Prod.mk.inj heq
  exact absurd ((hpre hid).versions v v hpv hqw) (lt_irrefl _)

theorem Valid.nodup_living (hv : h.Valid) : (h.living.map (·.id)).Nodup :=
  hv.nodup_creations.sublist (List.filter_sublist.map _)

end AtsHistory

/-- **The versions of a live id** go on from the next one. -/
theorem Life.versions_live {es : List DecodedAtsEvent} {l : Life} {next : ℕ}
    (h : run Life.step (.live next) es = some l) :
    (es.filterMap DecodedAtsEvent.version).map UInt32.toNat =
      List.range' next (es.filterMap DecodedAtsEvent.version).length := by
  induction es generalizing next with
  | nil => rfl
  | cons e es ih =>
    obtain ⟨l₁, hl₁, hrest⟩ := run_cons_eq_some.mp h
    rcases Life.step_cases hl₁ with ⟨hl, -⟩ | ⟨_, v, hl, hv, hnext, -, -, rfl⟩ |
      ⟨_, hl, -, -, hv, rfl⟩
    · cases hl
    · obtain rfl := Life.live.inj hl
      rw [List.filterMap_cons_some hv, List.map_cons, List.length_cons, List.range'_succ,
        ih hrest, hnext]
    · obtain rfl := Life.run_dead hrest
      rw [List.filterMap_cons_none hv]
      rfl

/-- **The versions of an id** are 0, 1, … -/
theorem Life.versions_unborn {es : List DecodedAtsEvent} {l : Life}
    (h : run Life.step .unborn es = some l) :
    (es.filterMap DecodedAtsEvent.version).map UInt32.toNat =
      List.range (es.filterMap DecodedAtsEvent.version).length := by
  cases es with
  | nil => rfl
  | cons e es =>
    obtain ⟨l₁, hl₁, hrest⟩ := run_cons_eq_some.mp h
    rcases Life.step_cases hl₁ with ⟨-, -, hv, rfl⟩ | ⟨_, _, hl, -⟩ | ⟨_, hl, -⟩
    · rw [List.filterMap_cons_some hv, List.map_cons, List.length_cons,
        Life.versions_live hrest, List.range_succ_eq_map, List.range'_eq_map_range]
      refine congrArg _ (List.map_congr_left fun n _ => ?_)
      exact Nat.add_comm 1 n
    · cases hl
    · cases hl

namespace AtsHistory

variable {h : AtsHistory} {b : ℕ} {x : UInt64} {c : Creation} {a : Addition} {t : AtsTables}
  {k : ℤ}

theorem mem_additionsOf : a ∈ h.additionsOf x ↔ a ∈ h.additions ∧ a.id = x := by
  rw [additionsOf, List.mem_filter, decide_eq_true_eq]

/-- The versions of an id, read off its events. -/
theorem map_version_additionsOf :
    (h.additionsOf x).map (·.version) = (h.eventsOf x).filterMap DecodedAtsEvent.version := by
  unfold additionsOf additions eventsOf
  rw [List.filter_map, List.filterMap_map]
  -- One event more, kept by neither or by both.
  induction h.timeline with
  | nil => rfl
  | cons p ps ih =>
    rcases hv : p.2.2.version with - | v
    · have hnone : additionOf p = none := by rw [additionOf, hv]; rfl
      rw [List.filterMap_cons_none hnone, ih]
      by_cases hid : p.2.2.atsId = x
      · rw [List.filter_cons_of_pos (by simpa using hid),
          List.filterMap_cons_none (show (version ∘ fun p => p.2.2) p = none from hv)]
      · rw [List.filter_cons_of_neg (by simpa using hid)]
    · have hsome : additionOf p = some ⟨p.1, p.2.2.atsId, v⟩ := by rw [additionOf, hv]; rfl
      rw [List.filterMap_cons_some hsome]
      by_cases hid : p.2.2.atsId = x
      · rw [List.filter_cons_of_pos (by simpa using hid), List.map_cons, ih,
          List.filter_cons_of_pos (by simpa using hid),
          List.filterMap_cons_some (show (version ∘ fun p => p.2.2) p = some v from hv)]
      · rw [List.filter_cons_of_neg (by simpa using hid), ih,
          List.filter_cons_of_neg (by simpa using hid)]

/-- **The versions of an id are 0, 1, …**, in chain order. -/
theorem Valid.versions_additionsOf (hv : h.Valid) (x : UInt64) :
    (h.additionsOf x).map (·.version.toNat) = List.range (h.additionsOf x).length := by
  obtain ⟨l, hl⟩ := hv x
  have hversions := Life.versions_unborn hl
  rw [← map_version_additionsOf, List.map_map, List.length_map] at hversions
  exact hversions

/-- **The first version of an id is its creation's.** -/
theorem Valid.head_additionsOf (hv : h.Valid) (hc : c ∈ h.creations) :
    ∃ later, h.additionsOf c.id = ⟨c.block, c.id, 0⟩ :: later := by
  have hmem : ⟨c.block, c.id, 0⟩ ∈ h.additionsOf c.id :=
    mem_additionsOf.mpr ⟨mem_additions_of_creation hc, rfl⟩
  have hversions := hv.versions_additionsOf c.id
  cases hlist : h.additionsOf c.id with
  | nil =>
    rw [hlist] at hmem
    cases hmem
  | cons first later =>
    rw [hlist, List.map_cons, List.length_cons, List.range_succ_eq_map] at hversions
    obtain ⟨hzero, -⟩ := List.cons.inj hversions
    obtain ⟨hfirst, hid⟩ :=
      mem_additionsOf.mp (hlist ▸ List.mem_cons_self : first ∈ h.additionsOf c.id)
    -- Version 0 is added by one event, in one block.
    obtain ⟨p, hp, hpid, hpv⟩ := mem_additions.mp hfirst
    obtain ⟨q, hq, hqid, hqv⟩ := mem_additions.mp (mem_additions_of_creation hc)
    have hversion : first.version = 0 := UInt32.toNat_inj.mp hzero
    rw [hversion] at hpv
    obtain ⟨hblock, -⟩ := hv.version_unique hp hq (hpid.trans (hid.trans hqid.symm)) hpv hqv
    refine ⟨later, ?_⟩
    obtain ⟨firstBlock, firstId, firstVersion⟩ := first
    obtain rfl : firstBlock = c.block := hblock
    obtain rfl : firstId = c.id := hid
    obtain rfl : firstVersion = 0 := hversion
    rfl

theorem Valid.one_le_additionsOf (hv : h.Valid) (hc : c ∈ h.creations) :
    1 ≤ (h.additionsOf c.id).length := by
  obtain ⟨later, hlist⟩ := hv.head_additionsOf hc
  rw [hlist, List.length_cons]
  omega

/-- **Which versions an id has.** -/
theorem Valid.adds_iff (hv : h.Valid) {n : ℕ} :
    (∃ b w, h.Adds b x w ∧ w.toNat = n) ↔ n < (h.additionsOf x).length := by
  rw [← List.mem_range, ← hv.versions_additionsOf x, List.mem_map]
  constructor
  · rintro ⟨b, w, hw, rfl⟩
    exact ⟨⟨b, x, w⟩, mem_additionsOf.mpr ⟨mem_additions.mpr hw, rfl⟩, rfl⟩
  · rintro ⟨a, ha, rfl⟩
    obtain ⟨hmem, rfl⟩ := mem_additionsOf.mp ha
    exact ⟨a.block, a.version, mem_additions.mp hmem, rfl⟩

theorem Valid.lt_of_adds (hv : h.Valid) {w : UInt32} (hw : h.Adds b x w) :
    w.toNat < (h.additionsOf x).length :=
  hv.adds_iff.mp ⟨b, w, hw, rfl⟩

/-! ## The registry -/

/-- The count an id's row ends at, an `INT`. -/
def storedCount (h : AtsHistory) (x : UInt64) : ℤ := min (h.additionsOf x).length i32Max

/-- The registry row of a creation, once all its versions are in. -/
def registryEntry (h : AtsHistory) (c : Creation) : ℤ × AtsRegistryEntry :=
  (atsKey c.id,
    { owner := c.owner
      createdBlock := asI64 c.block
      createdExtIdx := asI32 c.extIdx
      versionCount := h.storedCount c.id })

/-- The block of a creation offers its row, with the first count. -/
theorem registryRow_mem (hc : c ∈ h.creations) :
    (atsKey c.id, { (h.registryEntry c).2 with versionCount := 1 }) ∈
      (h.ops c.block).registryRows := by
  obtain ⟨commitment, pv, hp⟩ := mem_creations.mp hc
  rw [registryRows_ops, List.mem_flatMap]
  exact ⟨_, hp, List.mem_singleton.mpr rfl⟩

/-- **The counts an id is given**: one past each of its versions. -/
theorem Valid.mem_counts_iff (hv : h.Valid) (hc : c ∈ h.creations) {m : ℤ} :
    m ∈ h.counts (List.range h.length) (atsKey c.id) ↔
      ∃ n < (h.additionsOf c.id).length, m = asI32 (satAddU32 n 1) := by
  have hone : (1 : ℤ) = asI32 (satAddU32 0 1) := by decide
  constructor
  · rintro ⟨b, -, hm | ⟨row, hrow, rfl⟩⟩
    · obtain ⟨w, hw, rfl⟩ := mem_countsAt hm
      exact ⟨w.toNat, hv.lt_of_adds hw, rfl⟩
    · exact ⟨0, hv.one_le_additionsOf hc, (registryRow_initial hrow).1.trans hone⟩
  · rintro ⟨n, hn, rfl⟩
    obtain ⟨b, w, hw, rfl⟩ := hv.adds_iff.mpr hn
    rcases count_mem_countsAt hw with rfl | hm
    · have hlt : c.block < h.length := block_lt_of_creation hc
      exact ⟨c.block, List.mem_range.mpr hlt, .inr ⟨_, registryRow_mem hc, hone.symm⟩⟩
    · obtain ⟨p, hp, -⟩ := hw
      exact ⟨b, List.mem_range.mpr (lt_length_of_mem hp), .inl hm⟩

theorem Valid.isGreatest_storedCount (hv : h.Valid) (hc : c ∈ h.creations) :
    IsGreatest (h.counts (List.range h.length) (atsKey c.id)) (h.storedCount c.id) := by
  have hpos := hv.one_le_additionsOf hc
  unfold storedCount
  constructor
  · rw [hv.mem_counts_iff hc]
    refine ⟨min (h.additionsOf c.id).length i32Max - 1, by simp only [i32Max]; omega, ?_⟩
    have hsum : satAddU32 (min (h.additionsOf c.id).length i32Max - 1) 1 =
        min (h.additionsOf c.id).length i32Max := by
      simp only [satAddU32, i32Max, u32Max]
      omega
    rw [hsum, asI32_of_le (min_le_right _ _), Nat.cast_min]
  · intro m hm
    obtain ⟨n, hn, rfl⟩ := (hv.mem_counts_iff hc).mp hm
    have hle := asI32_le (satAddU32 n 1)
    have hsum : satAddU32 n 1 ≤ n + 1 := min_le_left _ _
    exact le_min (by omega) (asI32_le_max _)

/-- **The row of a live id.** -/
theorem Valid.find_registry (hv : h.Valid) (ht : h.applyAll .empty (List.range h.length) = .ok t)
    (hc : c ∈ h.living) : t.parents.find (atsKey c.id) = some (h.registryEntry c).2 := by
  obtain ⟨hcreation, hnever⟩ := mem_living.mp hc
  have hlt : c.block < h.length := block_lt_of_creation hcreation
  have hthere := (hv.contains_iff_mem (creates_of_mem hcreation) hnever ht).mpr
    (List.mem_range.mpr hlt)
  obtain ⟨row, hrow⟩ := Table.contains_eq_true_iff.mp hthere
  have hkept := hv.kept ht fun r => mem_revokedKeys_atsKey_iff.not.mpr (hnever r)
  obtain ⟨⟨b, -, row₀, hoffered, hsame⟩, hgreatest⟩ := hkept.registry row hrow
  obtain rfl := hv.registryRow_unique hoffered (registryRow_mem hcreation)
  rw [hrow, hsame, hgreatest.unique (hv.isGreatest_storedCount hcreation)]
  rfl

/-- Only the live ids have one. -/
theorem Valid.exists_living (hv : h.Valid) (ht : h.applyAll .empty (List.range h.length) = .ok t)
    (hk : t.parents.contains k = true) : ∃ c ∈ h.living, k = atsKey c.id := by
  obtain ⟨x, rfl, b, -, hb⟩ := exists_creates_of_contains ht hk
  obtain ⟨c, hc, rfl, rfl⟩ := hb.exists_mem
  refine ⟨c, mem_living.mpr ⟨hc, fun r hr => ?_⟩, rfl⟩
  by_cases hcr : c.block = r
  · rw [hv.not_contains hb (hcr ▸ hr) ht] at hk
    cases hk
  · obtain ⟨p, hp, hid, -⟩ := id hr
    have hlt : c.block < r := lt_of_le_of_ne (hv.creates_le hb hp hid) hcr
    rw [hv.contains_iff_lastOf hb hr hcr ht, lastOf_range hlt (lt_length_of_mem hp)] at hk
    exact hcr (Option.some.inj hk).symm

theorem Valid.nodup_keys (hv : h.Valid) : (h.living.map fun c => atsKey c.id).Nodup := by
  have hkeys : h.living.map (fun c => atsKey c.id) = (h.living.map (·.id)).map atsKey := by
    rw [List.map_map]
    rfl
  rw [hkeys]
  exact hv.nodup_living.map fun _ _ heq => asI64_toNat_inj.mp heq

/-- **The registry is the list of live ids.** -/
theorem Valid.registry_perm (hv : h.Valid)
    (ht : h.applyAll .empty (List.range h.length) = .ok t) :
    List.Perm t.parents.rows (h.living.map h.registryEntry) := by
  have hnodup : (h.living.map h.registryEntry).Nodup := by
    refine List.Nodup.of_map Prod.fst ?_
    rw [List.map_map]
    exact hv.nodup_keys
  refine (List.perm_ext_iff_of_nodup t.parents.nodup_rows hnodup).mpr ?_
  rintro ⟨k, row⟩
  rw [← Table.find_eq_some_iff, List.mem_map]
  constructor
  · intro hrow
    obtain ⟨c, hc, rfl⟩ := hv.exists_living ht (Table.contains_eq_true_iff.mpr ⟨row, hrow⟩)
    rw [hv.find_registry ht hc] at hrow
    exact ⟨c, hc, congrArg _ (Option.some.inj hrow)⟩
  · rintro ⟨c, hc, heq⟩
    obtain ⟨rfl, rfl⟩ := Prod.mk.inj heq
    exact hv.find_registry ht hc

/-! ## The versions -/

/-- The key of a version's row, and the block the row names. -/
def versionEntry (a : Addition) : (ℤ ×ₗ ℤ) × ℤ :=
  (toLex (atsKey a.id, asI32 a.version.toNat), asI64 a.block)

/-- The rows a block offers name the block. -/
theorem blockNum_of_versionRow {k' : ℤ ×ₗ ℤ} {e : AtsVersionEntry}
    (he : (k', e) ∈ (h.ops b).versionRows) :
    ∃ a ∈ h.additions, a.block = b ∧ versionEntry a = (k', e.blockNum) := by
  obtain ⟨⟨extIdx, evt⟩, hp, v, hv, rfl, hrow⟩ := mem_versionRows_iff.mp he
  refine ⟨⟨b, evt.atsId, v⟩, mem_additions.mpr ⟨_, hp, rfl, hv⟩, rfl, ?_⟩
  cases evt with
  | created | updated =>
    obtain ⟨-, rfl⟩ := Prod.mk.inj (List.mem_singleton.mp hrow)
    rfl
  | revoked => cases hv

/-- **The version rows are those of the live ids.** -/
theorem Valid.versions_perm (hv : h.Valid)
    (ht : h.applyAll .empty (List.range h.length) = .ok t) :
    List.Perm (t.children.rows.map fun r => (r.1, r.2.blockNum))
      (h.livingAdditions.map versionEntry) := by
  have hkept : ∀ {x : UInt64}, (∀ r, ¬ h.Revokes r x) →
      h.Kept (List.range h.length) (atsKey x) t := fun hnever =>
    hv.kept ht fun r => mem_revokedKeys_atsKey_iff.not.mpr (hnever r)
  have hrows : (t.children.rows.map fun r => (r.1, r.2.blockNum)).Nodup := by
    refine List.Nodup.of_map Prod.fst ?_
    rw [List.map_map]
    exact t.children.nodup_keys
  have hentries : (h.livingAdditions.map versionEntry).Nodup := by
    have hadded : (h.livingAdditions.map fun a => (a.id, a.version)).Nodup :=
      hv.nodup_additions.sublist (List.filter_sublist.map _)
    refine List.pairwise_map.mpr ((List.pairwise_map.mp hadded).imp fun hne heq => hne ?_)
    obtain ⟨hkey, -⟩ := Prod.mk.inj heq
    obtain ⟨hid, hversion⟩ := Prod.mk.inj (toLex_inj.mp hkey)
    rw [asI64_toNat_inj.mp hid, asI32_toNat_inj.mp hversion]
  refine (List.perm_ext_iff_of_nodup hrows hentries).mpr ?_
  rintro ⟨k', num⟩
  rw [List.mem_map, List.mem_map]
  constructor
  · rintro ⟨⟨_, e⟩, hr, heq⟩
    obtain ⟨rfl, rfl⟩ := Prod.mk.inj heq
    have hfind : t.children.find _ = some e := Table.find_eq_some_iff.mpr hr
    have hregistered := t.fk _ (Table.contains_eq_true_iff.mpr ⟨e, hfind⟩)
    obtain ⟨c, hc, hkey⟩ := hv.exists_living ht hregistered
    obtain ⟨b, -, he⟩ := ((hkept (mem_living.mp hc).2).versions _ e hkey).mp hfind
    obtain ⟨a, ha, -, hentry⟩ := blockNum_of_versionRow he
    have hid : a.id = c.id := asI64_toNat_inj.mp
      ((congrArg (fun q => (ofLex q.1).1) hentry).trans hkey)
    exact ⟨a, mem_livingAdditions.mpr ⟨ha, hid ▸ (mem_living.mp hc).2⟩, hentry⟩
  · rintro ⟨a, ha, hentry⟩
    obtain ⟨hadded, hnever⟩ := mem_livingAdditions.mp ha
    obtain ⟨p, hp, hid, hversion⟩ := mem_additions.mp hadded
    obtain ⟨e, he⟩ := exists_versionRow hp hversion
    obtain ⟨a', ha', hblock, hentry'⟩ := blockNum_of_versionRow he
    have hfind := ((hkept hnever).versions _ e (by rw [hid]; rfl)).mpr
      ⟨a.block, List.mem_range.mpr (lt_length_of_mem hp), he⟩
    refine ⟨_, Table.find_eq_some_iff.mp hfind, ?_⟩
    rw [← hentry, versionEntry, ← hid]
    refine Prod.ext rfl ?_
    change e.blockNum = asI64 a.block
    rw [← hblock]
    exact (congrArg Prod.snd hentry').symm

end AtsHistory

end AllfeatExplorer
