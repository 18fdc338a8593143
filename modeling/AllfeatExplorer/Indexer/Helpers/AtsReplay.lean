import AllfeatExplorer.Indexer.Helpers.AtsBlocks
import Mathlib.Order.Bounds.Basic

/-!
# Applying the blocks of a history

Blocks of a history applied in some order, any of them any number of
times. Whether an id has a registry row turns on which of the blocks that
create and revoke it came last (`Valid.contains_iff`); an id that is never
revoked has exactly what the blocks applied so far say of it (`Kept`); and
a block is refused for the ids it updates that have no registry row
(`orphaned_iff`).
-/

namespace AllfeatExplorer

open Projections

/-- Which of `c` and `r` came last. -/
def lastOf (c r : ℕ) (bs : List ℕ) : Option ℕ := (bs.filter fun b => b = c ∨ b = r).getLast?

variable {h : AtsHistory} {t t' : AtsTables} {b c r : ℕ} {x : UInt64} {bs bs' : List ℕ} {k : ℤ}
  {k' : ℤ ×ₗ ℤ}

/-! ## Which came last -/

theorem lastOf_snoc :
    lastOf c r (bs ++ [b]) = if b = c ∨ b = r then some b else lastOf c r bs := by
  unfold lastOf
  by_cases hb : b = c ∨ b = r
  · rw [List.filter_append, List.filter_singleton, if_pos hb]
    simp [hb]
  · rw [List.filter_append, List.filter_singleton, if_neg hb]
    simp [hb]

/-- Once one of them has come, one of them is last. -/
theorem lastOf_of_mem (hc : c ∈ bs) : lastOf c r bs = some c ∨ lastOf c r bs = some r := by
  have hne : bs.filter (fun b => b = c ∨ b = r) ≠ [] :=
    List.ne_nil_of_mem (List.mem_filter.mpr ⟨hc, by simp⟩)
  have hlast := List.getLast_mem hne
  rw [List.mem_filter] at hlast
  unfold lastOf
  rw [List.getLast?_eq_some_getLast hne]
  rcases of_decide_eq_true hlast.2 with heq | heq
  · exact .inl (by rw [heq])
  · exact .inr (by rw [heq])

theorem mem_of_lastOf (hlast : lastOf c r bs = some b) : b ∈ bs :=
  (List.mem_filter.mp (List.mem_of_getLast? hlast)).1

/-- In ascending order the later block comes last. -/
theorem lastOf_range (hcr : c < r) {n : ℕ} (hn : r < n) : lastOf c r (List.range n) = some r := by
  induction n, hn using Nat.le_induction with
  | base => rw [List.range_succ, lastOf_snoc, if_pos (.inr rfl)]
  | succ n hn ih => rw [List.range_succ, lastOf_snoc, if_neg (by omega), ih]

namespace AtsHistory

/-! ## Which ids have a registry row -/

theorem contains_apply (hb : h.apply t b = .ok t') :
    t'.parents.contains (atsKey x) = true ↔
      ¬ h.Revokes b x ∧ (t.parents.contains (atsKey x) = true ∨ h.Creates b x) := by
  have hrevoked : atsKey x ∈ (h.ops b).revokedKeys ↔ h.Revokes b x := by
    rw [mem_revokedKeys_iff]
    constructor
    · rintro ⟨y, hy, hkey⟩
      rwa [asI64_toNat_inj.mp hkey]
    · exact fun hx => ⟨x, hx, rfl⟩
  have hcreated : atsKey x ∈ (h.ops b).registryRows.map Prod.fst ↔ h.Creates b x := by
    rw [mem_registryKeys_iff]
    constructor
    · rintro ⟨y, hy, hkey⟩
      rwa [asI64_toNat_inj.mp hkey]
    · exact fun hx => ⟨x, hx, rfl⟩
  rw [(applyAts_ok hb).contains, hrevoked, hcreated]

/-- Only ids the history creates have one. -/
theorem exists_creates_of_contains (hbs : h.applyAll .empty bs = .ok t)
    (hk : t.parents.contains k = true) : ∃ x, k = atsKey x ∧ ∃ c ∈ bs, h.Creates c x := by
  induction bs using List.reverseRecOn generalizing t with
  | nil =>
    obtain rfl := Except.ok.inj hbs
    cases hk
  | append_singleton bs b ih =>
    obtain ⟨u, hu, hb⟩ := applyAll_snoc hbs
    rcases (((applyAts_ok hb).contains k).mp hk).2 with hold | hnew
    · obtain ⟨x, hx, c, hc, hcreates⟩ := ih hu hold
      exact ⟨x, hx, c, List.mem_append_left [b] hc, hcreates⟩
    · obtain ⟨x, hcreates, hx⟩ := mem_registryKeys_iff.mp hnew
      exact ⟨x, hx, b, List.mem_append_right bs List.mem_cons_self, hcreates⟩

/-- **An id that is revoked in a later block** has a registry row just if
the block that creates it came after the one that revokes it. -/
theorem Valid.contains_iff_lastOf (hv : h.Valid) (hc : h.Creates c x) (hr : h.Revokes r x)
    (hcr : c ≠ r) (hbs : h.applyAll .empty bs = .ok t) :
    t.parents.contains (atsKey x) = true ↔ lastOf c r bs = some c := by
  induction bs using List.reverseRecOn generalizing t with
  | nil =>
    obtain rfl := Except.ok.inj hbs
    exact ⟨nofun, nofun⟩
  | append_singleton bs b ih =>
    obtain ⟨u, hu, hb⟩ := applyAll_snoc hbs
    have hold : u.parents.contains (atsKey x) = true ↔ lastOf c r bs = some c := ih hu
    rw [contains_apply hb, hold, hv.creates_iff hc, hv.revokes_iff hr, lastOf_snoc]
    by_cases hbc : b = c
    · simp [hbc, hcr]
    · by_cases hbr : b = r
      · simp [hbr, Ne.symm hcr]
      · simp [hbc, hbr]

/-- An id that is never revoked has one from its creation on. -/
theorem Valid.contains_iff_mem (hv : h.Valid) (hc : h.Creates c x) (hr : ∀ r, ¬ h.Revokes r x)
    (hbs : h.applyAll .empty bs = .ok t) :
    t.parents.contains (atsKey x) = true ↔ c ∈ bs := by
  induction bs using List.reverseRecOn generalizing t with
  | nil =>
    obtain rfl := Except.ok.inj hbs
    exact ⟨nofun, nofun⟩
  | append_singleton bs b ih =>
    obtain ⟨u, hu, hb⟩ := applyAll_snoc hbs
    have hold : u.parents.contains (atsKey x) = true ↔ c ∈ bs := ih hu
    rw [contains_apply hb, hold, hv.creates_iff hc]
    simp [hr b, eq_comm]

/-- An id revoked in the block that creates it never has one. -/
theorem Valid.not_contains (hv : h.Valid) (hc : h.Creates c x) (hr : h.Revokes c x)
    (hbs : h.applyAll .empty bs = .ok t) : t.parents.contains (atsKey x) = false := by
  induction bs using List.reverseRecOn generalizing t with
  | nil =>
    obtain rfl := Except.ok.inj hbs
    rfl
  | append_singleton bs b ih =>
    obtain ⟨u, hu, hb⟩ := applyAll_snoc hbs
    have hnone := ih hu
    rw [← Bool.not_eq_true, contains_apply hb, hnone]
    rintro ⟨hkept, hold | hcreates⟩
    · cases hold
    · exact hkept (hv.creates_unique hcreates hc ▸ hr)

/-- **Once the block that creates an id has been applied**, its registry
row is missing just if the block that revokes it came last. -/
theorem Valid.contains_eq_false_iff (hv : h.Valid) (hc : h.Creates c x) (hdone : c ∈ bs)
    (hbs : h.applyAll .empty bs = .ok t) :
    t.parents.contains (atsKey x) = false ↔ ∃ r, h.Revokes r x ∧ lastOf c r bs = some r := by
  rw [← Bool.not_eq_true]
  by_cases hr : ∃ r, h.Revokes r x
  · obtain ⟨r, hr⟩ := hr
    have hone : (∃ r', h.Revokes r' x ∧ lastOf c r' bs = some r') ↔ lastOf c r bs = some r := by
      constructor
      · rintro ⟨r', hr', hlast⟩
        obtain rfl := hv.revokes_unique hr hr'
        exact hlast
      · exact fun hlast => ⟨r, hr, hlast⟩
    rw [hone]
    by_cases hcr : c = r
    · subst hcr
      rw [hv.not_contains hc hr hbs]
      rcases lastOf_of_mem (r := c) hdone with hlast | hlast <;> simp [hlast]
    · rw [hv.contains_iff_lastOf hc hr hcr hbs]
      rcases lastOf_of_mem (r := r) hdone with hlast | hlast
      · simp [hlast, hcr]
      · simp [hlast, Ne.symm hcr]
  · rw [hv.contains_iff_mem hc (not_exists.mp hr) hbs]
    constructor
    · exact fun hmissing => absurd hdone hmissing
    · rintro ⟨r, hrevokes, -⟩
      exact absurd ⟨r, hrevokes⟩ hr

/-! ## Refusals -/

/-- **The version insert is refused on account of id `x`**: a version row
of it would land without its registry row. -/
def Orphaned (t : AtsTables) (ops : AtsOps) (x : UInt64) : Prop :=
  ∃ row ∈ ops.orphans t, (ofLex row.1).1 = atsKey x

/-- **A block is refused on account of an id** just if it updates the id,
does not create it, and the id has no registry row. -/
theorem orphaned_iff :
    Orphaned t (h.ops b) x ↔
      h.Updates b x ∧ ¬ h.Creates b x ∧ t.parents.contains (atsKey x) = false := by
  have hkeys : ∀ k, (t.insertParents (h.ops b).registryRows).parents.contains k = true ↔
      t.parents.contains k = true ∨ ∃ y, h.Creates b y ∧ k = atsKey y := by
    intro k
    rw [Linked.insertParents, Table.contains_insertAll, Bool.or_eq_true,
      Table.firstOffered_isSome_iff, mem_registryKeys_iff]
  have horphan : ∀ row, row ∈ (h.ops b).orphans t ↔ row ∈ (h.ops b).versionRows ∧
      t.children.contains row.1 = false ∧
      ¬ (t.parents.contains (ofLex row.1).1 = true ∨
        ∃ y, h.Creates b y ∧ (ofLex row.1).1 = atsKey y) := by
    intro row
    rw [← hkeys, AtsOps.orphans, Linked.orphans, List.mem_filter, Bool.and_eq_true,
      Bool.not_eq_true', Bool.not_eq_true', Linked.children_insertParents, Bool.not_eq_true]
  constructor
  · rintro ⟨⟨k', e⟩, hrow, hk⟩
    obtain ⟨hoffered, -, hnone⟩ := (horphan _).mp hrow
    obtain ⟨p, hp, v, hpv, rfl, -⟩ := mem_versionRows_iff.mp hoffered
    have hid : p.2.atsId = x := asI64_toNat_inj.mp hk
    subst hid
    have hnot : ¬ h.Creates b p.2.atsId := fun hc => hnone (.inr ⟨_, hc, rfl⟩)
    refine ⟨⟨p, hp, rfl, ?_⟩, hnot, Bool.eq_false_iff.mpr fun hc => hnone (.inl hc)⟩
    obtain ⟨extIdx, evt⟩ := p
    cases evt with
    | created => exact absurd ⟨_, hp, rfl, rfl⟩ hnot
    | updated => rfl
    | revoked => cases hpv
  · rintro ⟨⟨⟨extIdx, evt⟩, hp, rfl, hu⟩, hnot, hnone⟩
    cases evt with
    | updated id v commitment pv =>
      obtain ⟨e, he⟩ := exists_versionRow hp rfl
      refine ⟨_, (horphan _).mpr ⟨he, ?_, ?_⟩, rfl⟩
      · -- A version row that is there would have its registry row.
        exact Table.contains_eq_false_iff.mpr
          (Linked.child_none_of_parent_none (Table.contains_eq_false_iff.mp hnone))
      · rintro (hthere | ⟨y, hy, hkey⟩)
        · exact Bool.eq_false_iff.mp hnone hthere
        · exact hnot (asI64_toNat_inj.mp hkey ▸ hy)
    | created | revoked => cases hu

/-- **A block fails just if it is refused on account of an id.** -/
theorem apply_isOk_iff : (∃ t', h.apply t b = .ok t') ↔ ∀ x, ¬ Orphaned t (h.ops b) x := by
  rw [apply, applyAts_isOk_iff, List.eq_nil_iff_forall_not_mem]
  constructor
  · rintro hnone x ⟨row, hrow, -⟩
    exact hnone row hrow
  · rintro hnone ⟨k', e⟩ hrow
    have hoffered : (k', e) ∈ (h.ops b).versionRows := (List.mem_filter.mp hrow).1
    obtain ⟨p, -, v, -, rfl, -⟩ := mem_versionRows_iff.mp hoffered
    exact hnone p.2.atsId ⟨_, hrow, rfl⟩

/-- **In ascending order every block goes through.** -/
theorem Valid.applyAll_range (hv : h.Valid) (n : ℕ) :
    ∃ t, h.applyAll .empty (List.range n) = .ok t := by
  induction n with
  | zero => exact ⟨_, rfl⟩
  | succ n ih =>
    obtain ⟨t, ht⟩ := ih
    have hfine : ∀ x, ¬ Orphaned t (h.ops n) x := by
      intro x hx
      obtain ⟨⟨p, hp, hid, -⟩, hnot, hnone⟩ := orphaned_iff.mp hx
      obtain ⟨c, hc⟩ := hv.exists_creates hp
      rw [hid] at hc
      have hcn : c ≠ n := fun heq => hnot (heq ▸ hc)
      have hlt : c < n := lt_of_le_of_ne (hv.creates_le hc hp hid) hcn
      refine Bool.eq_false_iff.mp hnone ?_
      by_cases hr : ∃ r, h.Revokes r x
      -- The revoking block is still to come, so the creating one came last.
      · obtain ⟨r, hr⟩ := hr
        have hge : n ≤ r := hv.le_revokes hr hp hid
        rw [hv.contains_iff_lastOf hc hr (by omega) ht]
        rcases lastOf_of_mem (r := r) (List.mem_range.mpr hlt) with hlast | hlast
        · exact hlast
        · have hmem := List.mem_range.mp (mem_of_lastOf hlast)
          omega
      · exact (hv.contains_iff_mem hc (not_exists.mp hr) ht).mpr (List.mem_range.mpr hlt)
    obtain ⟨t', ht'⟩ := apply_isOk_iff.mpr hfine
    refine ⟨t', ?_⟩
    rw [List.range_succ, applyAll, foldlM_snoc (show List.foldlM h.apply .empty _ = _ from ht)]
    exact ht'

/-! ## An id that is never revoked -/

/-- The counts the blocks `bs` give the id under `k`. -/
def counts (h : AtsHistory) (bs : List ℕ) (k : ℤ) : Set ℤ :=
  {m | ∃ b ∈ bs, m ∈ (h.ops b).countsAt k ∨
    ∃ row, (k, row) ∈ (h.ops b).registryRows ∧ m = row.versionCount}

/-- **The rows under `k` say what the blocks `bs` do**: a version row for
each version they add, and the registry row of the creation, at the
greatest of their counts. -/
structure Kept (h : AtsHistory) (bs : List ℕ) (k : ℤ) (t : AtsTables) : Prop where
  versions : ∀ k' e, (ofLex k').1 = k →
    (t.children.find k' = some e ↔ ∃ b ∈ bs, (k', e) ∈ (h.ops b).versionRows)
  registry : ∀ row, t.parents.find k = some row →
    (∃ b ∈ bs, ∃ row₀, (k, row₀) ∈ (h.ops b).registryRows ∧
      row = { row₀ with versionCount := row.versionCount }) ∧
    IsGreatest (h.counts bs k) row.versionCount

/-- What the blocks applied mention has a registry row. -/
theorem Kept.find_ne_none (hk : h.Kept bs k t) (hb : b ∈ bs)
    (hoffered : ∃ k' e, (ofLex k').1 = k ∧ (k', e) ∈ (h.ops b).versionRows) :
    t.parents.find k ≠ none := by
  obtain ⟨k', e, hkey, he⟩ := hoffered
  have hchild := (hk.versions k' e hkey).mpr ⟨b, hb, he⟩
  intro hnone
  rw [← hkey] at hnone
  rw [Linked.child_none_of_parent_none hnone] at hchild
  cases hchild

theorem isGreatest_foldl_max {S : Set ℤ} {m : ℤ} (hm : IsGreatest S m) (ms : List ℤ) :
    IsGreatest (S ∪ {m | m ∈ ms}) (ms.foldl max m) := by
  induction ms generalizing S m with
  | nil => simpa using hm
  | cons m' ms ih =>
    have hstep := ih (hm.insert m')
    rw [max_comm] at hstep
    rw [List.foldl_cons]
    convert hstep using 1
    ext y
    simp only [List.mem_cons, Set.mem_union, Set.mem_ofPred_eq, Set.mem_insert_iff]
    tauto

/-- The counts with one more block, where the rows for `k` are all one. -/
theorem Valid.counts_snoc (hv : h.Valid) {row : AtsRegistryEntry} {S : Set ℤ}
    (hrow : (k, row) ∈ (h.ops c).registryRows) (hcount : row.versionCount ∈ S)
    (hS : ∀ m, m ∈ S ↔ m ∈ h.counts bs k ∨ c = b ∧ m = row.versionCount) (hc : c = b ∨ c ∈ bs) :
    S ∪ {m | m ∈ (h.ops b).countsAt k} = h.counts (bs ++ [b]) k := by
  ext m
  simp only [Set.mem_union, Set.mem_ofPred_eq, hS]
  constructor
  · rintro ((⟨b₀, hb₀, hm⟩ | ⟨rfl, rfl⟩) | hm)
    · exact ⟨b₀, List.mem_append_left [b] hb₀, hm⟩
    · exact ⟨c, List.mem_append_right bs List.mem_cons_self, .inr ⟨row, hrow, rfl⟩⟩
    · exact ⟨b, List.mem_append_right bs List.mem_cons_self, .inl hm⟩
  · rintro ⟨b₀, hb₀, hm⟩
    rcases List.mem_append.mp hb₀ with hold | hnew
    · exact .inl (.inl ⟨b₀, hold, hm⟩)
    · obtain rfl := List.mem_singleton.mp hnew
      rcases hm with hm | ⟨row', hrow', rfl⟩
      · exact .inr hm
      · obtain rfl := hv.registryRow_unique hrow hrow'
        exact .inl ((hS _).mp hcount)

/-- The version rows after a block that does not revoke the id. -/
theorem Kept.versions_of_apply (hv : h.Valid) (hk : h.Kept bs k t) (hb : h.apply t b = .ok t')
    (hnever : k ∉ (h.ops b).revokedKeys) (e : AtsVersionEntry) (hkey : (ofLex k').1 = k) :
    t'.children.find k' = some e ↔ ∃ b₁ ∈ bs ++ [b], (k', e) ∈ (h.ops b₁).versionRows := by
  subst hkey
  rw [(applyAts_ok hb).versions, if_neg hnever]
  cases hold : t.children.find k' with
  | some e₀ =>
    -- The insert skips a version that is there, and any block offers it alike.
    obtain ⟨b₀, hb₀, hoffered⟩ := (hk.versions k' e₀ rfl).mp hold
    rw [Option.some_or, Option.some.injEq]
    constructor
    · rintro rfl
      exact ⟨b₀, List.mem_append_left [b] hb₀, hoffered⟩
    · rintro ⟨b₁, -, hoffered'⟩
      exact hv.versionRow_unique hoffered hoffered'
  | none =>
    rw [Option.none_or]
    constructor
    · intro hfirst
      exact ⟨b, List.mem_append_right bs List.mem_cons_self, Table.mem_of_firstOffered hfirst⟩
    · rintro ⟨b₁, hb₁, hoffered⟩
      rcases List.mem_append.mp hb₁ with hmem | hnew
      · rw [(hk.versions k' e rfl).mpr ⟨b₁, hmem, hoffered⟩] at hold
        cases hold
      · obtain rfl := List.mem_singleton.mp hnew
        obtain ⟨e₁, he₁⟩ := Option.isSome_iff_exists.mp
          (Table.firstOffered_isSome_iff.mpr (List.mem_map_of_mem (f := Prod.fst) hoffered))
        rw [he₁, hv.versionRow_unique (Table.mem_of_firstOffered he₁) hoffered]

/-- The registry row after a block that does not revoke the id. -/
theorem Kept.registry_of_apply (hv : h.Valid) (hk : h.Kept bs k t) (hb : h.apply t b = .ok t')
    (hnever : k ∉ (h.ops b).revokedKeys) (row : AtsRegistryEntry)
    (hrow : t'.parents.find k = some row) :
    (∃ c ∈ bs ++ [b], ∃ row₀, (k, row₀) ∈ (h.ops c).registryRows ∧
      row = { row₀ with versionCount := row.versionCount }) ∧
    IsGreatest (h.counts (bs ++ [b]) k) row.versionCount := by
  rw [(applyAts_ok hb).registry, if_neg hnever] at hrow
  obtain ⟨row₁, hfound, rfl⟩ := Option.map_eq_some_iff.mp hrow
  cases hold : t.parents.find k with
  | some row₂ =>
    -- The row is there: it is raised by the block's bumps.
    rw [hold, Option.some_or] at hfound
    obtain rfl := Option.some.inj hfound
    obtain ⟨⟨c, hc, row₀, hoffered, hsame⟩, hgreatest⟩ := hk.registry row₂ hold
    refine ⟨⟨c, List.mem_append_left [b] hc, row₀, hoffered, ?_⟩, ?_⟩
    · rw [hsame]
      rfl
    · have hfold := isGreatest_foldl_max hgreatest ((h.ops b).countsAt k)
      have hcount : row₀.versionCount ∈ h.counts bs k := ⟨c, hc, .inr ⟨row₀, hoffered, rfl⟩⟩
      rw [hv.counts_snoc hoffered hcount ?_ (.inr hc)] at hfold
      · exact hfold
      · intro m
        refine ⟨.inl, ?_⟩
        rintro (hm | ⟨-, rfl⟩)
        · exact hm
        · exact hcount
  | none =>
    -- The block creates it, and none before spoke of the id.
    rw [hold, Option.none_or] at hfound
    have hoffered := Table.mem_of_firstOffered hfound
    have hfresh : ∀ m, m ∉ h.counts bs k := by
      rintro m ⟨b₀, hb₀, hm | ⟨row₀, hrow₀, -⟩⟩
      · exact hk.find_ne_none hb₀ (exists_versionRow_of_count hm) hold
      · exact hk.find_ne_none hb₀ (exists_versionRow_of_registry hrow₀) hold
    refine ⟨⟨b, List.mem_append_right bs List.mem_cons_self, row₁, hoffered, rfl⟩, ?_⟩
    have hfold := isGreatest_foldl_max
      (isGreatest_singleton (a := row₁.versionCount)) ((h.ops b).countsAt k)
    rw [hv.counts_snoc hoffered (Set.mem_singleton _) ?_ (.inl rfl)] at hfold
    · exact hfold
    · intro m
      simp [hfresh m]

/-- **A block applied keeps it so**, if it does not revoke the id. -/
theorem Kept.of_apply (hv : h.Valid) (hk : h.Kept bs k t) (hb : h.apply t b = .ok t')
    (hnever : k ∉ (h.ops b).revokedKeys) : h.Kept (bs ++ [b]) k t' :=
  ⟨fun _ e hkey => hk.versions_of_apply hv hb hnever e hkey, hk.registry_of_apply hv hb hnever⟩

/-- **What blocks applied in any order leave** of an id none of them
revokes. -/
theorem Valid.kept (hv : h.Valid) (hbs : h.applyAll .empty bs = .ok t)
    (hnever : ∀ b, k ∉ (h.ops b).revokedKeys) : h.Kept bs k t := by
  induction bs using List.reverseRecOn generalizing t with
  | nil =>
    obtain rfl := Except.ok.inj hbs
    exact ⟨fun k' e _ => ⟨nofun, fun ⟨b, hb, _⟩ => absurd hb List.not_mem_nil⟩, nofun⟩
  | append_singleton bs b ih =>
    obtain ⟨u, hu, hb⟩ := applyAll_snoc hbs
    exact (ih hu).of_apply hv hb (hnever b)

/-- A block that offers a row is one of the history's. -/
theorem lt_length_of_versionRow {e : AtsVersionEntry} (he : (k', e) ∈ (h.ops b).versionRows) :
    b < h.length := by
  obtain ⟨p, hp, -⟩ := mem_versionRows_iff.mp he
  exact lt_length_of_mem hp

theorem lt_length_of_registryRow {row : AtsRegistryEntry}
    (hrow : (k, row) ∈ (h.ops b).registryRows) : b < h.length := by
  obtain ⟨k', e, -, he⟩ := exists_versionRow_of_registry hrow
  exact lt_length_of_versionRow he

theorem counts_mono (hsub : ∀ b < h.length, b ∈ bs → b ∈ bs') : h.counts bs k ⊆ h.counts bs' k := by
  rintro m ⟨b, hb, hm | ⟨row, hrow, rfl⟩⟩
  · obtain ⟨k', e, -, he⟩ := exists_versionRow_of_count hm
    exact ⟨b, hsub b (lt_length_of_versionRow he) hb, .inl hm⟩
  · exact ⟨b, hsub b (lt_length_of_registryRow hrow) hb, .inr ⟨row, hrow, rfl⟩⟩

/-- The same blocks leave the same registry row. -/
theorem Kept.find_of_find (hv : h.Valid) (hk : h.Kept bs k t) (hk' : h.Kept bs' k t')
    (hsame : ∀ b < h.length, b ∈ bs ↔ b ∈ bs') {row : AtsRegistryEntry}
    (hrow : t.parents.find k = some row) : t'.parents.find k = some row := by
  obtain ⟨⟨b, hb, row₀, hoffered, hrow₀⟩, hgreatest⟩ := hk.registry row hrow
  have hb' : b ∈ bs' := (hsame b (lt_length_of_registryRow hoffered)).mp hb
  have hthere := hk'.find_ne_none hb' (exists_versionRow_of_registry hoffered)
  obtain ⟨row', hrow'⟩ := Option.ne_none_iff_exists'.mp hthere
  obtain ⟨⟨b', -, row₁, hoffered', hrow₁⟩, hgreatest'⟩ := hk'.registry row' hrow'
  obtain rfl := hv.registryRow_unique hoffered hoffered'
  have hcounts : h.counts bs k = h.counts bs' k :=
    (counts_mono fun b hb => (hsame b hb).mp).antisymm (counts_mono fun b hb => (hsame b hb).mpr)
  rw [hcounts] at hgreatest
  rw [hrow', hrow₁, hrow₀, hgreatest.unique hgreatest']

/-- **The blocks determine the rows.** -/
theorem Kept.unique (hv : h.Valid) (hk : h.Kept bs k t) (hk' : h.Kept bs' k t')
    (hsame : ∀ b < h.length, b ∈ bs ↔ b ∈ bs') :
    t.parents.find k = t'.parents.find k ∧
      ∀ k', (ofLex k').1 = k → t.children.find k' = t'.children.find k' := by
  constructor
  · ext row
    exact ⟨hk.find_of_find hv hk' hsame,
      hk'.find_of_find hv hk fun b hb => (hsame b hb).symm⟩
  · intro k' hkey
    ext e
    rw [hk.versions k' e hkey, hk'.versions k' e hkey]
    constructor
    · rintro ⟨b, hb, he⟩
      exact ⟨b, (hsame b (lt_length_of_versionRow he)).mp hb, he⟩
    · rintro ⟨b, hb, he⟩
      exact ⟨b, (hsame b (lt_length_of_versionRow he)).mpr hb, he⟩

end AtsHistory

end AllfeatExplorer
