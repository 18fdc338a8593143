import AllfeatExplorer.Indexer.Helpers.Ats
import AllfeatExplorer.Indexer.Helpers.AtsHistory

/-!
# What a block of a history offers

The rows and keys of a block's ops, in terms of its events; and in a
valid history one registry row for an id, and one row for each version
of it.
-/

namespace AllfeatExplorer

open Projections

/-- The key an id is stored under. -/
def atsKey (x : UInt64) : ℤ := asI64 x.toNat

variable {h : AtsHistory} {t t' : AtsTables} {b c : ℕ} {bs : List ℕ} {k : ℤ} {k' : ℤ ×ₗ ℤ}

/-! ## Applying blocks -/

namespace AtsHistory

/-- The ops of block `b`. -/
def ops (h : AtsHistory) (b : ℕ) : AtsOps := Ats.project (h.block b) b

/-- Block `b` applied. -/
def apply (h : AtsHistory) (t : AtsTables) (b : ℕ) : Except DataError AtsTables :=
  Sink.applyAts t (h.ops b)

/-- The blocks, one after the other, until one fails. -/
def applyAll (h : AtsHistory) (t : AtsTables) (bs : List ℕ) : Except DataError AtsTables :=
  bs.foldlM h.apply t

theorem applyAll_snoc (hbs : h.applyAll t (bs ++ [b]) = .ok t') :
    ∃ u, h.applyAll t bs = .ok u ∧ h.apply u b = .ok t' := by
  cases hu : h.applyAll t bs with
  | error e =>
    rw [applyAll, List.foldlM_append, show List.foldlM h.apply t bs = _ from hu] at hbs
    cases hbs
  | ok u =>
    rw [applyAll, foldlM_snoc (show List.foldlM h.apply t bs = _ from hu)] at hbs
    exact ⟨u, rfl, hbs⟩

/-! ## The rows a block offers -/

theorem registryRows_ops :
    (h.ops b).registryRows = (h.block b).flatMap fun p => (AtsOps.push b {} p).registryRows := by
  rw [ops, project_eq, AtsOps.registryRows, List.map_flatMap]
  rfl

theorem versionRows_ops :
    (h.ops b).versionRows = (h.block b).flatMap fun p => (AtsOps.push b {} p).versionRows := by
  rw [ops, project_eq, AtsOps.versionRows, List.map_flatMap]
  rfl

theorem revokedKeys_ops :
    (h.ops b).revokedKeys = (h.block b).flatMap fun p => (AtsOps.push b {} p).revokedKeys := by
  rw [ops, project_eq, AtsOps.revokedKeys, List.map_flatMap]
  rfl

theorem countsAt_ops :
    (h.ops b).countsAt k = (h.block b).flatMap fun p => (AtsOps.push b {} p).countsAt k := by
  rw [ops, project_eq, AtsOps.countsAt, List.filter_flatMap, List.map_flatMap]
  rfl

/-- **The registry keys a block offers** are those of the ids it
creates. -/
theorem mem_registryKeys_iff :
    k ∈ (h.ops b).registryRows.map Prod.fst ↔ ∃ x, h.Creates b x ∧ k = atsKey x := by
  rw [registryRows_ops, List.map_flatMap, List.mem_flatMap]
  constructor
  · rintro ⟨⟨extIdx, evt⟩, hp, hk⟩
    cases evt with
    | created id owner commitment pv =>
      exact ⟨id, ⟨_, hp, rfl, rfl⟩, List.mem_singleton.mp hk⟩
    | updated | revoked => simp [AtsOps.push, AtsOps.registryRows] at hk
  · rintro ⟨x, ⟨⟨extIdx, evt⟩, hp, rfl, hc⟩, rfl⟩
    refine ⟨_, hp, ?_⟩
    cases evt with
    | created => simp [AtsOps.push, AtsOps.registryRows, Sink.registryRow, atsKey,
        DecodedAtsEvent.atsId]
    | updated | revoked => cases hc

/-- **The keys a block deletes** are those of the ids it revokes. -/
theorem mem_revokedKeys_iff :
    k ∈ (h.ops b).revokedKeys ↔ ∃ x, h.Revokes b x ∧ k = atsKey x := by
  rw [revokedKeys_ops, List.mem_flatMap]
  constructor
  · rintro ⟨⟨extIdx, evt⟩, hp, hk⟩
    cases evt with
    | revoked id =>
      exact ⟨id, ⟨_, hp, rfl, rfl⟩, List.mem_singleton.mp hk⟩
    | updated | created => simp [AtsOps.push, AtsOps.revokedKeys] at hk
  · rintro ⟨x, ⟨⟨extIdx, evt⟩, hp, rfl, hr⟩, rfl⟩
    refine ⟨_, hp, ?_⟩
    cases evt with
    | revoked => simp [AtsOps.push, AtsOps.revokedKeys, atsKey, DecodedAtsEvent.atsId]
    | updated | created => cases hr

/-- **The version rows a block offers**: one for each event that adds a
version. -/
theorem mem_versionRows_iff {e : AtsVersionEntry} :
    (k', e) ∈ (h.ops b).versionRows ↔ ∃ p ∈ h.block b, ∃ v, p.2.version = some v ∧
      k' = toLex (atsKey p.2.atsId, asI32 v.toNat) ∧
      (k', e) ∈ (AtsOps.push b {} p).versionRows := by
  rw [versionRows_ops, List.mem_flatMap]
  constructor
  · rintro ⟨⟨extIdx, evt⟩, hp, hk⟩
    refine ⟨_, hp, ?_⟩
    cases evt with
    | created id owner commitment pv =>
      refine ⟨0, rfl, ?_, hk⟩
      have hrow := List.mem_singleton.mp hk
      exact (Prod.mk.inj hrow).1
    | updated id v commitment pv =>
      refine ⟨v, rfl, ?_, hk⟩
      have hrow := List.mem_singleton.mp hk
      exact (Prod.mk.inj hrow).1
    | revoked id => simp [AtsOps.push, AtsOps.versionRows] at hk
  · rintro ⟨p, hp, v, -, -, hk⟩
    exact ⟨p, hp, hk⟩

/-- An event that adds a version offers a row for it. -/
theorem exists_versionRow {p : ℕ × DecodedAtsEvent} {v : UInt32} (hp : p ∈ h.block b)
    (hv : p.2.version = some v) :
    ∃ e, (toLex (atsKey p.2.atsId, asI32 v.toNat), e) ∈ (h.ops b).versionRows := by
  obtain ⟨extIdx, evt⟩ := p
  cases evt with
  | created id owner commitment pv =>
    obtain rfl := Option.some.inj hv
    exact ⟨_, mem_versionRows_iff.mpr ⟨_, hp, 0, rfl, rfl, List.mem_singleton.mpr rfl⟩⟩
  | updated id v' commitment pv =>
    obtain rfl := Option.some.inj hv
    exact ⟨_, mem_versionRows_iff.mpr ⟨_, hp, v', rfl, rfl, List.mem_singleton.mpr rfl⟩⟩
  | revoked id => cases hv

/-- A block that offers a registry row, or a count, offers a version row
under the same registry key. -/
theorem exists_versionRow_of_registry {row : AtsRegistryEntry}
    (hrow : (k, row) ∈ (h.ops b).registryRows) :
    ∃ k' e, (ofLex k').1 = k ∧ (k', e) ∈ (h.ops b).versionRows := by
  obtain ⟨x, ⟨⟨extIdx, evt⟩, hp, rfl, hc⟩, rfl⟩ :=
    mem_registryKeys_iff.mp (List.mem_map_of_mem (f := Prod.fst) hrow)
  cases evt with
  | created id owner commitment pv =>
    obtain ⟨e, he⟩ := exists_versionRow hp rfl
    exact ⟨_, e, rfl, he⟩
  | updated | revoked => cases hc

theorem exists_versionRow_of_count {m : ℤ} (hm : m ∈ (h.ops b).countsAt k) :
    ∃ k' e, (ofLex k').1 = k ∧ (k', e) ∈ (h.ops b).versionRows := by
  rw [countsAt_ops, List.mem_flatMap] at hm
  obtain ⟨⟨extIdx, evt⟩, hp, hm⟩ := hm
  cases evt with
  | updated id v commitment pv =>
    obtain ⟨e, he⟩ := exists_versionRow hp rfl
    refine ⟨_, e, ?_, he⟩
    simp only [AtsOps.push, AtsOps.countsAt, List.nil_append, List.mem_map, List.mem_filter,
      List.mem_singleton, decide_eq_true_eq] at hm
    obtain ⟨bump, ⟨rfl, hk⟩, -⟩ := hm
    exact hk
  | created | revoked => simp [AtsOps.push, AtsOps.countsAt] at hm

/-- **A valid history offers one row for a version** of an id. -/
theorem Valid.versionRow_unique (hv : h.Valid) {e e' : AtsVersionEntry}
    (he : (k', e) ∈ (h.ops b).versionRows) (he' : (k', e') ∈ (h.ops c).versionRows) : e = e' := by
  obtain ⟨p, hp, v, hpv, hk, hrow⟩ := mem_versionRows_iff.mp he
  obtain ⟨q, hq, w, hqw, hk', hrow'⟩ := mem_versionRows_iff.mp he'
  have hkeys := Prod.mk.inj (toLex_inj.mp (hk.symm.trans hk'))
  have hid : p.2.atsId = q.2.atsId := asI64_toNat_inj.mp hkeys.1
  obtain rfl : v = w := asI32_toNat_inj.mp hkeys.2
  obtain ⟨rfl, rfl⟩ := hv.version_unique hp hq hid hpv hqw
  -- One event offers at most one row.
  obtain ⟨extIdx, evt⟩ := p
  cases evt with
  | created | updated =>
    have heq := List.mem_singleton.mp hrow
    have heq' := List.mem_singleton.mp hrow'
    exact (Prod.mk.inj (heq.trans heq'.symm)).2
  | revoked => cases hpv

/-- **A valid history offers one registry row for an id.** -/
theorem Valid.registryRow_unique (hv : h.Valid) {row row' : AtsRegistryEntry}
    (hrow : (k, row) ∈ (h.ops b).registryRows) (hrow' : (k, row') ∈ (h.ops c).registryRows) :
    row = row' := by
  have hevent : ∀ {b row}, (k, row) ∈ (h.ops b).registryRows → ∃ p ∈ h.block b,
      p.2.version = some 0 ∧ k = atsKey p.2.atsId ∧
        (AtsOps.push b {} p).registryRows = [(k, row)] := by
    intro b row hrow
    rw [registryRows_ops, List.mem_flatMap] at hrow
    obtain ⟨⟨extIdx, evt⟩, hp, hrow⟩ := hrow
    cases evt with
    | created id owner commitment pv =>
      have heq := List.mem_singleton.mp hrow
      exact ⟨_, hp, rfl, (Prod.mk.inj heq).1, by rw [heq]; rfl⟩
    | updated | revoked => simp [AtsOps.push, AtsOps.registryRows] at hrow
  obtain ⟨p, hp, hpv, hk, hone⟩ := hevent hrow
  obtain ⟨q, hq, hqv, hk', hone'⟩ := hevent hrow'
  have hid : p.2.atsId = q.2.atsId := asI64_toNat_inj.mp (hk.symm.trans hk')
  obtain ⟨rfl, rfl⟩ := hv.version_unique hp hq hid hpv hqv
  rw [hone] at hone'
  exact (Prod.mk.inj (List.singleton_inj.mp hone')).2

end AtsHistory

end AllfeatExplorer
