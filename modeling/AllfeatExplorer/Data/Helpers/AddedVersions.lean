import AllfeatExplorer.Data.Helpers.AtsCensus

/-!
# The versions of an id, as their events say

What a history adds to one id, with all that the events carry
(`AtsHistory.versionsOf`), and the rows that the database has of it once
the blocks are applied: of an id that is never revoked, one row for each
version and no other, in the order of the versions, whatever the order of
the blocks.
-/

namespace AllfeatExplorer

open Projections

namespace AtsHistory

/-- A version, as the event that adds it says. -/
structure AddedVersion where
  block : ℕ
  extIdx : ℕ
  version : UInt32
  commitment : Bytes32
  protocolVersion : ℕ
deriving DecidableEq

/-- The version of id `x` that an event adds. -/
def addedVersion (x : UInt64) : ℕ × ℕ × DecodedAtsEvent → Option AddedVersion
  | (b, extIdx, .created id _ commitment pv) =>
    if id = x then some ⟨b, extIdx, 0, commitment, pv⟩ else none
  | (b, extIdx, .updated id version commitment pv) =>
    if id = x then some ⟨b, extIdx, version, commitment, pv⟩ else none
  | (_, _, .revoked _) => none

/-- **The versions of id `x`**, in chain order. -/
def versionsOf (h : AtsHistory) (x : UInt64) : List AddedVersion :=
  h.timeline.filterMap (addedVersion x)

/-- The row of a version. -/
def versionRowOf (x : UInt64) (a : AddedVersion) : (ℤ ×ₗ ℤ) × AtsVersionEntry :=
  Sink.versionRow
    { atsId := x
      version := a.version
      blockNum := a.block
      extIdx := a.extIdx
      commitment := a.commitment
      protocolVersion := a.protocolVersion }

variable {h : AtsHistory} {b : ℕ} {x : UInt64} {a : AddedVersion} {t : AtsTables} {bs : List ℕ}
  {k' : ℤ ×ₗ ℤ} {e : AtsVersionEntry}

/-! ## Events and versions -/

/-- What the event of a version is. -/
theorem of_addedVersion_eq_some {p : ℕ × ℕ × DecodedAtsEvent} (ha : addedVersion x p = some a) :
    p.1 = a.block ∧ p.2.1 = a.extIdx ∧ p.2.2.atsId = x ∧ p.2.2.version = some a.version ∧
      (AtsOps.push p.1 {} p.2).versionRows = [versionRowOf x a] := by
  obtain ⟨b, extIdx, evt⟩ := p
  cases evt with
  | created id owner commitment pv | updated id version commitment pv =>
    rw [addedVersion] at ha
    split at ha
    · rename_i hid
      subst hid
      obtain rfl := Option.some.inj ha
      exact ⟨rfl, rfl, rfl, rfl, rfl⟩
    · cases ha
  | revoked id => cases ha

/-- What holds of the version of each event holds of those of each id. -/
theorem forall_versionsOf {P : AddedVersion → Prop}
    (hP : ∀ p ∈ h.timeline, ∀ a ∈ addedVersion p.2.2.atsId p, P a) (x : UInt64) :
    ∀ a ∈ h.versionsOf x, P a := by
  intro a ha
  obtain ⟨p, hp, hadded⟩ := List.mem_filterMap.mp ha
  obtain ⟨-, -, rfl, -⟩ := of_addedVersion_eq_some hadded
  exact hP p hp a hadded

/-- An event of the id that has a version adds one. -/
theorem exists_addedVersion {p : ℕ × ℕ × DecodedAtsEvent} {v : UInt32} (hid : p.2.2.atsId = x)
    (hv : p.2.2.version = some v) : ∃ a, addedVersion x p = some a ∧ a.version = v := by
  obtain ⟨b, extIdx, evt⟩ := p
  subst hid
  cases evt with
  | created id owner commitment pv | updated id version commitment pv =>
    obtain rfl := Option.some.inj hv
    exact ⟨_, if_pos rfl, rfl⟩
  | revoked id => cases hv

theorem mem_versionsOf : a ∈ h.versionsOf x ↔
    ∃ p ∈ h.block a.block, addedVersion x (a.block, p) = some a := by
  unfold versionsOf
  rw [List.mem_filterMap]
  constructor
  · rintro ⟨⟨b, p⟩, hp, ha⟩
    obtain rfl := (of_addedVersion_eq_some ha).1
    exact ⟨p, mem_timeline.mp hp, ha⟩
  · rintro ⟨p, hp, ha⟩
    exact ⟨_, mem_timeline.mpr hp, ha⟩

theorem block_lt_of_versionsOf (ha : a ∈ h.versionsOf x) : a.block < h.length := by
  obtain ⟨p, hp, -⟩ := mem_versionsOf.mp ha
  exact lt_length_of_mem hp

/-- The event that adds a version is of its id, and of its extrinsic. -/
theorem exists_event_of_versionsOf (ha : a ∈ h.versionsOf x) :
    ∃ evt, (a.extIdx, evt) ∈ h.block a.block ∧ evt.atsId = x ∧
      evt.version = some a.version := by
  obtain ⟨⟨extIdx, evt⟩, hp, hadded⟩ := mem_versionsOf.mp ha
  obtain ⟨-, rfl, hid, hv, -⟩ := of_addedVersion_eq_some hadded
  exact ⟨evt, hp, hid, hv⟩

/-- **They are the additions of the id**, with what the events carry. -/
theorem additionsOf_eq_map :
    h.additionsOf x = (h.versionsOf x).map fun a => ⟨a.block, x, a.version⟩ := by
  unfold additionsOf additions versionsOf
  rw [← List.filterMap_eq_filter, List.filterMap_filterMap, ← List.filterMap_eq_map,
    List.filterMap_filterMap]
  refine List.filterMap_congr fun p _ => ?_
  obtain ⟨b, extIdx, evt⟩ := p
  cases evt with
  | created id owner commitment pv | updated id version commitment pv =>
    by_cases hid : id = x
    · subst hid
      simp [additionOf, addedVersion, DecodedAtsEvent.version, DecodedAtsEvent.atsId]
    · simp [additionOf, addedVersion, DecodedAtsEvent.version, DecodedAtsEvent.atsId, hid]
  | revoked id => rfl

theorem length_versionsOf : (h.versionsOf x).length = (h.additionsOf x).length := by
  rw [additionsOf_eq_map, List.length_map]

/-- **Their numbers are 0, 1, …** -/
theorem Valid.map_version_versionsOf (hv : h.Valid) :
    (h.versionsOf x).map (·.version.toNat) = List.range (h.versionsOf x).length := by
  have hversions := hv.versions_additionsOf x
  rwa [← length_versionsOf, additionsOf_eq_map, List.map_map] at hversions

theorem Valid.pairwise_versionsOf (hv : h.Valid) :
    (h.versionsOf x).Pairwise fun a a' => a.version.toNat < a'.version.toNat := by
  rw [← List.pairwise_map (f := fun a : AddedVersion => a.version.toNat),
    hv.map_version_versionsOf]
  exact List.pairwise_lt_range

theorem Valid.version_lt_of_versionsOf (hv : h.Valid) (ha : a ∈ h.versionsOf x) :
    a.version.toNat < (h.versionsOf x).length := by
  have hmem : a.version.toNat ∈ (h.versionsOf x).map (·.version.toNat) := List.mem_map_of_mem ha
  rwa [hv.map_version_versionsOf, List.mem_range] at hmem

/-- **The first is version 0**, in the block of the creation. -/
theorem Valid.head_versionsOf (hv : h.Valid) {c : Creation} (hc : c ∈ h.creations) :
    ∃ first later, h.versionsOf c.id = first :: later ∧ first.block = c.block ∧
      first.version = 0 ∧ ∀ a ∈ later, a.version.toNat ≠ 0 := by
  obtain ⟨additions, hadditions⟩ := hv.head_additionsOf hc
  rw [additionsOf_eq_map] at hadditions
  obtain ⟨first, later, hlist, hfirst, -⟩ := List.map_eq_cons_iff.mp hadditions
  obtain ⟨hblock, -, hzero⟩ := Addition.mk.inj hfirst
  refine ⟨first, later, hlist, hblock, hzero, fun a ha => ?_⟩
  have hpairwise := hv.pairwise_versionsOf (x := c.id)
  rw [hlist] at hpairwise
  have hlt := (List.pairwise_cons.mp hpairwise).1 a ha
  omega

/-! ## The rows -/

/-- The rows offered under an id are those of its versions. -/
theorem mem_map_versionRowOf (hk : (ofLex k').1 = atsKey x) :
    (k', e) ∈ (h.versionsOf x).map (versionRowOf x) ↔
      ∃ b, (k', e) ∈ (h.ops b).versionRows := by
  rw [List.mem_map]
  constructor
  · rintro ⟨a, ha, hrow⟩
    obtain ⟨p, hp, hadded⟩ := mem_versionsOf.mp ha
    obtain ⟨-, -, -, -, hrows⟩ := of_addedVersion_eq_some hadded
    refine ⟨a.block, ?_⟩
    rw [versionRows_ops, List.mem_flatMap]
    exact ⟨p, hp, by rw [hrows, hrow]; exact List.mem_singleton_self _⟩
  · rintro ⟨b, he⟩
    obtain ⟨p, hp, v, hv, rfl, hrow⟩ := mem_versionRows_iff.mp he
    have hid : p.2.atsId = x := asI64_toNat_inj.mp hk
    obtain ⟨a, hadded, -⟩ := exists_addedVersion (p := (b, p)) hid hv
    obtain ⟨hblock, -, -, -, hrows⟩ := of_addedVersion_eq_some hadded
    obtain rfl : b = a.block := hblock
    refine ⟨a, mem_versionsOf.mpr ⟨p, hp, hadded⟩, ?_⟩
    rw [hrows] at hrow
    exact (List.mem_singleton.mp hrow).symm

/-- **The version rows of an id that is never revoked**, once the blocks
of the history are applied in any order, are those of its versions. -/
theorem Valid.versionRows_eq (hv : h.Valid) (ht : h.applyAll .empty bs = .ok t)
    (hall : ∀ b < h.length, b ∈ bs) (hnever : ∀ r, ¬ h.Revokes r x)
    (hfit : (h.versionsOf x).length ≤ i32Max) :
    (t.children.rows.filter fun r => decide ((ofLex r.1).1 = atsKey x)) =
      (h.versionsOf x).map (versionRowOf x) := by
  have hkept := hv.kept ht fun r => mem_revokedKeys_atsKey_iff.not.mpr (hnever r)
  have hsorted : ((h.versionsOf x).map (versionRowOf x)).Pairwise fun r r' => r.1 < r'.1 := by
    refine List.pairwise_map.mpr (hv.pairwise_versionsOf.imp_of_mem fun {a a'} ha ha' hlt => ?_)
    have hle := hv.version_lt_of_versionsOf ha
    have hle' := hv.version_lt_of_versionsOf ha'
    change toLex (atsKey x, asI32 a.version.toNat) < toLex (atsKey x, asI32 a'.version.toNat)
    rw [asI32_of_le (by omega), asI32_of_le (by omega)]
    exact Prod.Lex.toLex_lt_toLex.mpr (.inr ⟨rfl, Int.ofNat_lt.mpr hlt⟩)
  have hkeys : (((h.versionsOf x).map (versionRowOf x)).map Prod.fst).Nodup :=
    List.pairwise_map.mpr (hsorted.imp fun hlt => ne_of_lt hlt)
  refine Table.filter_rows_eq (p := fun k => decide ((ofLex k).1 = atsKey x)) hsorted ?_ ?_
  · intro r hr
    obtain ⟨a, -, rfl⟩ := List.mem_map.mp hr
    exact decide_eq_true rfl
  · intro k' hk'
    have hkey : (ofLex k').1 = atsKey x := of_decide_eq_true hk'
    ext e
    rw [hkept.versions k' e hkey]
    constructor
    · rintro ⟨b, -, he⟩
      exact Table.firstOffered_of_mem hkeys ((mem_map_versionRowOf hkey).mpr ⟨b, he⟩)
    · intro he
      obtain ⟨b, hb⟩ := (mem_map_versionRowOf hkey).mp (Table.mem_of_firstOffered he)
      exact ⟨b, hall b (lt_length_of_versionRow hb), hb⟩

/-- **The registry row of a live id**, likewise. -/
theorem Valid.find_living (hv : h.Valid) (ht : h.applyAll .empty bs = .ok t)
    (hall : ∀ b < h.length, b ∈ bs) {c : Creation} (hc : c ∈ h.living) :
    t.parents.find (atsKey c.id) = some (h.registryEntry c).2 := by
  obtain ⟨u, hu⟩ := hv.applyAll_range h.length
  have hnever : ∀ r, atsKey c.id ∉ (h.ops r).revokedKeys := fun r =>
    mem_revokedKeys_atsKey_iff.not.mpr ((mem_living.mp hc).2 r)
  have hsame : ∀ b < h.length, b ∈ bs ↔ b ∈ List.range h.length := fun b hb =>
    iff_of_true (hall b hb) (List.mem_range.mpr hb)
  rw [((hv.kept ht hnever).unique hv (hv.kept hu hnever) hsame).1]
  exact hv.find_registry hu hc

end AtsHistory

end AllfeatExplorer
