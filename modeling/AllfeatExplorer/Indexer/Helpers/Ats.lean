import AllfeatExplorer.Indexer.Model.Sink

/-!
# What one `apply_ats` leaves behind

The statement is refused for orphans and nothing else. Where it goes
through, each row of the two tables is a function of the row it had and
of the block's own ops (`AtsApplied`): a registry row is inserted where
there is none, raised by the block's bumps, and gone if the block revokes
its id.
-/

namespace AllfeatExplorer

open Projections

variable {t t' : AtsTables} {ops : AtsOps} {k : ℤ} {k' : ℤ ×ₗ ℤ}

/-! ## The ops of a block -/

/-- Every event adds what it would push onto no ops. -/
theorem foldl_push (blockNum : ℕ) (evs : List (ℕ × DecodedAtsEvent)) (ops : AtsOps) :
    evs.foldl (AtsOps.push blockNum) ops =
      { registryInserts := ops.registryInserts ++
          evs.flatMap fun p => (AtsOps.push blockNum {} p).registryInserts
        versionInserts := ops.versionInserts ++
          evs.flatMap fun p => (AtsOps.push blockNum {} p).versionInserts
        versionCountBumps := ops.versionCountBumps ++
          evs.flatMap fun p => (AtsOps.push blockNum {} p).versionCountBumps
        revocations := ops.revocations ++
          evs.flatMap fun p => (AtsOps.push blockNum {} p).revocations } := by
  induction evs generalizing ops with
  | nil => simp
  | cons p evs ih =>
    rw [List.foldl_cons, ih]
    obtain ⟨extIdx, evt⟩ := p
    cases evt <;> simp [AtsOps.push]

/-- **A block's ops are its events' ops**, one event after the other. -/
theorem project_eq (evs : List (ℕ × DecodedAtsEvent)) (blockNum : ℕ) :
    Ats.project evs blockNum =
      { registryInserts := evs.flatMap fun p => (AtsOps.push blockNum {} p).registryInserts
        versionInserts := evs.flatMap fun p => (AtsOps.push blockNum {} p).versionInserts
        versionCountBumps := evs.flatMap fun p => (AtsOps.push blockNum {} p).versionCountBumps
        revocations := evs.flatMap fun p => (AtsOps.push blockNum {} p).revocations } := by
  unfold Ats.project
  rw [foldl_push]
  rfl

namespace Projections.AtsOps

/-- The rows offered to `ats_registry`. -/
def registryRows (ops : AtsOps) : List (ℤ × AtsRegistryEntry) :=
  ops.registryInserts.map Sink.registryRow

/-- The rows offered to `ats_versions`. -/
def versionRows (ops : AtsOps) : List ((ℤ ×ₗ ℤ) × AtsVersionEntry) :=
  ops.versionInserts.map Sink.versionRow

/-- The counts the registry row under `k` is raised to. -/
def countsAt (ops : AtsOps) (k : ℤ) : List ℤ :=
  (ops.versionCountBumps.filter fun bump => asI64 bump.atsId.toNat = k).map
    fun bump => asI32 bump.versionCount

/-- The registry keys deleted. -/
def revokedKeys (ops : AtsOps) : List ℤ :=
  ops.revocations.map fun id => asI64 id.toNat

/-- The version rows that would land without a registry row, once the
block's own registry rows are in. -/
def orphans (t : AtsTables) (ops : AtsOps) : List ((ℤ ×ₗ ℤ) × AtsVersionEntry) :=
  (t.insertParents ops.registryRows).orphans ops.versionRows

end Projections.AtsOps

/-! ## The statements -/

/-- A registry row raised to each of the counts. -/
def AtsRegistryEntry.raise (row : AtsRegistryEntry) (counts : List ℤ) : AtsRegistryEntry :=
  { row with versionCount := counts.foldl max row.versionCount }

theorem find_foldl_bump (bumps : List AtsVersionCountBump) :
    (bumps.foldl Sink.bumpVersionCount t).parents.find k = (t.parents.find k).map fun row =>
      row.raise ((bumps.filter fun bump => asI64 bump.atsId.toNat = k).map
        fun bump => asI32 bump.versionCount) := by
  induction bumps generalizing t with
  | nil => simp [AtsRegistryEntry.raise]
  | cons bump bumps ih =>
    rw [List.foldl_cons, ih, Sink.bumpVersionCount, Linked.find_parents_updateParent]
    by_cases hk : asI64 bump.atsId.toNat = k
    · subst hk
      cases t.parents.find (asI64 bump.atsId.toNat) <;> simp [AtsRegistryEntry.raise]
    · rw [if_neg (Ne.symm hk), List.filter_cons_of_neg (by simpa using hk)]

theorem children_foldl_bump (bumps : List AtsVersionCountBump) :
    (bumps.foldl Sink.bumpVersionCount t).children = t.children := by
  induction bumps generalizing t with
  | nil => rfl
  | cons bump bumps ih => rw [List.foldl_cons, ih, Sink.bumpVersionCount,
      Linked.children_updateParent]

theorem find_foldl_revoke (ids : List UInt64) :
    (ids.foldl Sink.revokeAts t).parents.find k =
      if k ∈ ids.map (fun id => asI64 id.toNat) then none else t.parents.find k := by
  induction ids generalizing t with
  | nil => simp
  | cons id ids ih =>
    rw [List.foldl_cons, ih, Sink.revokeAts, Linked.find_parents_deleteParent]
    by_cases hk : k = asI64 id.toNat <;> simp [hk]

theorem find_children_foldl_revoke (ids : List UInt64) :
    (ids.foldl Sink.revokeAts t).children.find k' =
      if (ofLex k').1 ∈ ids.map (fun id => asI64 id.toNat) then none
      else t.children.find k' := by
  induction ids generalizing t with
  | nil => simp
  | cons id ids ih =>
    rw [List.foldl_cons, ih, Sink.revokeAts, Linked.find_children_deleteParent]
    by_cases hk : (ofLex k').1 = asI64 id.toNat <;> simp [hk]

/-- **What `apply_ats` leaves**, row by row. -/
structure AtsApplied (t : AtsTables) (ops : AtsOps) (t' : AtsTables) : Prop where
  orphans : ops.orphans t = []
  registry : ∀ k, t'.parents.find k =
    if k ∈ ops.revokedKeys then none
    else ((t.parents.find k).or (Table.firstOffered ops.registryRows k)).map fun row =>
      row.raise (ops.countsAt k)
  versions : ∀ k', t'.children.find k' =
    if (ofLex k').1 ∈ ops.revokedKeys then none
    else (t.children.find k').or (Table.firstOffered ops.versionRows k')

/-- **What a call that goes through leaves.** -/
theorem applyAts_ok (h : Sink.applyAts t ops = .ok t') : AtsApplied t ops t' := by
  unfold Sink.applyAts at h
  split at h
  · cases h
  · rename_i u hu
    obtain ⟨horphans, hparents, hchildren⟩ := Linked.insertChildren_eq_some.mp hu
    obtain rfl := Except.ok.inj h
    refine ⟨horphans, ?_, ?_⟩
    · intro k
      rw [find_foldl_revoke, find_foldl_bump, hparents, Linked.find_parents_insertParents]
      rfl
    · intro k'
      rw [find_children_foldl_revoke, children_foldl_bump, hchildren, Table.find_insertAll]
      rfl

/-- **A call goes through just if it has no orphan.** -/
theorem applyAts_isOk_iff : (∃ t', Sink.applyAts t ops = .ok t') ↔ ops.orphans t = [] := by
  constructor
  · rintro ⟨t', h⟩
    exact (applyAts_ok h).orphans
  · intro horphans
    unfold Sink.applyAts
    split
    · rename_i hnone
      exact absurd horphans (Linked.insertChildren_eq_none.mp hnone)
    · exact ⟨_, rfl⟩

theorem applyAts_error {e : DataError} (h : Sink.applyAts t ops = .error e) :
    e = ⟨.insertAtsVersion, .atsMissing⟩ ∧ ops.orphans t ≠ [] := by
  unfold Sink.applyAts at h
  split at h
  · rename_i hnone
    exact ⟨(Except.error.inj h).symm, Linked.insertChildren_eq_none.mp hnone⟩
  · cases h

/-- **Which keys have a registry row** after a call. -/
theorem AtsApplied.contains (h : AtsApplied t ops t') (k : ℤ) :
    t'.parents.contains k = true ↔
      k ∉ ops.revokedKeys ∧ (t.parents.contains k = true ∨ k ∈ ops.registryRows.map Prod.fst) := by
  rw [Table.contains, h.registry]
  by_cases hk : k ∈ ops.revokedKeys
  · simp [hk]
  · rw [if_neg hk, Option.isSome_map, Option.isSome_or, Bool.or_eq_true,
      Table.firstOffered_isSome_iff, Table.contains]
    exact ⟨fun hor => ⟨hk, hor⟩, fun hor => hor.2⟩

end AllfeatExplorer
