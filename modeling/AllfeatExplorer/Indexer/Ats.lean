import AllfeatExplorer.Indexer.Helpers.AtsReplay

/-!
# The ATS tables, in any order and again

Blocks of a valid history, applied in some order and any of them again.
The tables end as ascending order leaves them exactly when no id comes
back: the block that creates it must not be applied after the last
application of the block that revokes it. And once the block that creates
an id has been applied, another block is refused on the id's account
exactly when it updates the id while the revocation came last. Such a
block is refused for good, until the creation is applied again.
-/

namespace AllfeatExplorer

open Projections AtsHistory

variable {h : AtsHistory} {t t' asc : AtsTables} {b c r : ℕ} {x : UInt64}
  {bs attempts more : List ℕ} {k : ℤ}

/-! ## Order and replay -/

/-- A key that has no registry row on either side, or is never revoked. -/
theorem AtsHistory.Valid.settled (hv : h.Valid) (hbs : h.applyAll .empty bs = .ok t)
    (hasc : h.applyAll .empty (List.range h.length) = .ok asc)
    (hlast : ∀ x c r, h.Creates c x → h.Revokes r x → c ≠ r → lastOf c r bs = some r) (k : ℤ) :
    (t.parents.find k = none ∧ asc.parents.find k = none) ∨ ∀ b, k ∉ (h.ops b).revokedKeys := by
  by_cases hrow : t.parents.contains k = true ∨ asc.parents.contains k = true
  · right
    obtain ⟨x, rfl, c, hc⟩ : ∃ x, k = atsKey x ∧ ∃ c, h.Creates c x := by
      rcases hrow with hthere | hthere
      · obtain ⟨x, hx, c, -, hc⟩ := exists_creates_of_contains hbs hthere
        exact ⟨x, hx, c, hc⟩
      · obtain ⟨x, hx, c, -, hc⟩ := exists_creates_of_contains hasc hthere
        exact ⟨x, hx, c, hc⟩
    intro r hr
    obtain ⟨y, hr, hkey⟩ := mem_revokedKeys_iff.mp hr
    obtain rfl := asI64_toNat_inj.mp hkey
    by_cases hcr : c = r
    · subst hcr
      rw [hv.not_contains hc hr hbs, hv.not_contains hc hr hasc] at hrow
      rcases hrow with hfalse | hfalse <;> cases hfalse
    · rw [hv.contains_iff_lastOf hc hr hcr hbs, hv.contains_iff_lastOf hc hr hcr hasc,
        hlast x c r hc hr hcr] at hrow
      obtain ⟨p, hp, hid, -⟩ := hr
      have hlt : c < r := lt_of_le_of_ne (hv.creates_le hc hp hid) hcr
      rw [lastOf_range hlt (lt_length_of_mem hp), or_self, Option.some.injEq] at hrow
      exact hcr hrow.symm
  · left
    push Not at hrow
    exact ⟨Table.contains_eq_false_iff.mp (Bool.eq_false_iff.mpr hrow.1),
      Table.contains_eq_false_iff.mp (Bool.eq_false_iff.mpr hrow.2)⟩

/-- **The tables are those of ascending order exactly when no id comes
back**: for every id created in one block and revoked in another, of the
applications of the two the last is one of the second. -/
theorem replay_eq_ascending_iff (hv : h.Valid) (hall : ∀ b < h.length, b ∈ bs)
    (hbs : h.applyAll .empty bs = .ok t) :
    ∃ asc, h.applyAll .empty (List.range h.length) = .ok asc ∧
      (t = asc ↔ ∀ x c r, h.Creates c x → h.Revokes r x → c ≠ r → lastOf c r bs = some r) := by
  obtain ⟨asc, hasc⟩ := hv.applyAll_range h.length
  refine ⟨asc, hasc, ?_, ?_⟩
  · rintro rfl x c r hc hr hcr
    have hcbs : c ∈ bs := by
      obtain ⟨p, hp, -⟩ := hc
      exact hall c (lt_length_of_mem hp)
    rcases lastOf_of_mem (r := r) hcbs with hlast | hlast
    · -- The id is back, but in ascending order it is gone.
      have hthere := (hv.contains_iff_lastOf hc hr hcr hbs).mpr hlast
      rw [hv.contains_iff_lastOf hc hr hcr hasc] at hthere
      obtain ⟨p, hp, hid, -⟩ := hr
      have hlt : c < r := lt_of_le_of_ne (hv.creates_le hc hp hid) hcr
      rw [lastOf_range hlt (lt_length_of_mem hp)] at hthere
      exact absurd (Option.some.inj hthere).symm hcr
    · exact hlast
  · intro hlast
    have hsame : ∀ b < h.length, b ∈ bs ↔ b ∈ List.range h.length := fun b hb =>
      ⟨fun _ => List.mem_range.mpr hb, fun _ => hall b hb⟩
    have hkeys : ∀ k, t.parents.find k = asc.parents.find k ∧
        ∀ k', (ofLex k').1 = k → t.children.find k' = asc.children.find k' := by
      intro k
      rcases hv.settled hbs hasc hlast k with ⟨hnone, hnone'⟩ | hnever
      · refine ⟨hnone.trans hnone'.symm, ?_⟩
        rintro k' rfl
        rw [Linked.child_none_of_parent_none hnone, Linked.child_none_of_parent_none hnone']
      · exact (hv.kept hbs hnever).unique hv (hv.kept hasc hnever) hsame
    exact Linked.ext_find (fun k => (hkeys k).1) fun k' => (hkeys _).2 k' rfl

/-- Id 7 is created in block 0 and revoked in block 1. -/
def createdThenRevoked : AtsHistory :=
  [[(0, .created 7 (.fill 1) (.fill 2) 0)], [(0, .revoked 7)]]

theorem createdThenRevoked_valid : createdThenRevoked.Valid :=
  valid_of_named (by decide)

/-- Applied in order, and the revocation once more. -/
theorem replay_eq_ascending_of_revoked_last :
    ∃ t asc, createdThenRevoked.applyAll .empty [0, 1, 1] = .ok t ∧
      createdThenRevoked.applyAll .empty (List.range 2) = .ok asc ∧ t = asc := by
  have hgoes : (createdThenRevoked.applyAll .empty [0, 1, 1]).isOk = true := by decide
  cases ht : createdThenRevoked.applyAll .empty [0, 1, 1] with
  | error e => rw [ht] at hgoes; cases hgoes
  | ok t =>
    obtain ⟨asc, hasc, hiff⟩ := replay_eq_ascending_iff createdThenRevoked_valid (by decide) ht
    refine ⟨t, asc, rfl, hasc, hiff.mpr ?_⟩
    rintro x c r ⟨p, hp, -, hcreates⟩ ⟨q, hq, -, hrevokes⟩ hcr
    have hc : c = 0 := by
      have hlt : c < 2 := lt_length_of_mem hp
      obtain rfl | rfl : c = 0 ∨ c = 1 := by omega
      · rfl
      · rw [List.mem_singleton.mp hp] at hcreates
        cases hcreates
    have hr : r = 1 := by
      have hlt : r < 2 := lt_length_of_mem hq
      omega
    rw [hc, hr]
    decide

/-- **A replayed creation brings a revoked id back**: after blocks 0, 1
and 0 the registry has a row that ascending order does not leave. -/
theorem not_replay_eq_ascending :
    createdThenRevoked.Valid ∧ (∀ b < createdThenRevoked.length, b ∈ [0, 1, 0]) ∧
      ∃ t asc, createdThenRevoked.applyAll .empty [0, 1, 0] = .ok t ∧
        createdThenRevoked.applyAll .empty (List.range createdThenRevoked.length) = .ok asc ∧
        t ≠ asc := by
  refine ⟨createdThenRevoked_valid, by decide, ?_⟩
  have hgoes : (createdThenRevoked.applyAll .empty [0, 1, 0]).map
      (fun t => t.parents.contains 7) = .ok true := by decide
  have hgone : (createdThenRevoked.applyAll .empty (List.range createdThenRevoked.length)).map
      (fun t => t.parents.contains 7) = .ok false := by decide
  cases ht : createdThenRevoked.applyAll .empty [0, 1, 0] with
  | error e => rw [ht] at hgoes; cases hgoes
  | ok t =>
    cases hasc : createdThenRevoked.applyAll .empty (List.range createdThenRevoked.length) with
    | error e => rw [hasc] at hgone; cases hgone
    | ok asc =>
      refine ⟨t, asc, rfl, rfl, ?_⟩
      rintro rfl
      rw [ht] at hgoes
      rw [hasc] at hgone
      have hsame := (Except.ok.inj hgoes).symm.trans (Except.ok.inj hgone)
      cases hsame

/-! ## Refused blocks -/

namespace AtsHistory

/-- `index_block` on the ATS tables: a refused block leaves them as they
were. -/
def attempt (h : AtsHistory) (t : AtsTables) (b : ℕ) : AtsTables :=
  match h.apply t b with
  | .ok t' => t'
  | .error _ => t

/-- The tables after the attempts. -/
def attemptAll (h : AtsHistory) (attempts : List ℕ) : AtsTables :=
  attempts.foldl h.attempt .empty

/-- The attempts that went through, from tables `t` on. -/
def committedFrom (h : AtsHistory) (t : AtsTables) : List ℕ → List ℕ
  | [] => []
  | b :: bs =>
    match h.apply t b with
    | .ok t' => b :: committedFrom h t' bs
    | .error _ => committedFrom h t bs

/-- The attempts that went through. -/
def committed (h : AtsHistory) (attempts : List ℕ) : List ℕ := h.committedFrom .empty attempts

/-- **Attempts leave what the ones that went through do.** -/
theorem applyAll_committedFrom (bs : List ℕ) (t : AtsTables) :
    h.applyAll t (h.committedFrom t bs) = .ok (bs.foldl h.attempt t) := by
  induction bs generalizing t with
  | nil => rfl
  | cons b bs ih =>
    rw [List.foldl_cons, committedFrom]
    -- Both go on from the same tables: the new ones, or the ones left as they were.
    cases hb : h.apply t b with
    | ok t' =>
      have hstep : h.attempt t b = t' := by rw [attempt, hb]
      simp only
      rw [hstep, applyAll, List.foldlM_cons, hb]
      exact ih t'
    | error e =>
      have hstep : h.attempt t b = t := by rw [attempt, hb]
      simp only
      rw [hstep]
      exact ih t

theorem applyAll_committed :
    h.applyAll .empty (h.committed attempts) = .ok (h.attemptAll attempts) :=
  applyAll_committedFrom attempts .empty

end AtsHistory

/-- **Once the block that creates an id has gone through, another block is
not refused on the id's account** exactly when it does not update the id,
or of the blocks that create and revoke it the last to go through is not
the second. -/
theorem not_orphaned_iff (hv : h.Valid) (hc : h.Creates c x) (hdone : c ∈ h.committed attempts)
    (hb : b ≠ c) :
    ¬ Orphaned (h.attemptAll attempts) (h.ops b) x ↔
      ¬ (h.Updates b x ∧ ∃ r, h.Revokes r x ∧ lastOf c r (h.committed attempts) = some r) := by
  refine not_congr ?_
  have hnot : ¬ h.Creates b x := fun hcb => hb (hv.creates_unique hcb hc)
  rw [orphaned_iff, hv.contains_eq_false_iff hc hdone applyAll_committed]
  exact ⟨fun ⟨hu, _, hlast⟩ => ⟨hu, hlast⟩, fun ⟨hu, hlast⟩ => ⟨hu, hnot, hlast⟩⟩

/-- Id 7 is created in block 0, updated in block 1 and revoked in block 2. -/
def createdUpdatedRevoked : AtsHistory :=
  [[(0, .created 7 (.fill 1) (.fill 2) 0)], [(0, .updated 7 1 (.fill 3) 0)], [(0, .revoked 7)]]

theorem createdUpdatedRevoked_valid : createdUpdatedRevoked.Valid :=
  valid_of_named (by decide)

/-- The creation went through again after the revocation: the update is
not refused. -/
theorem not_orphaned_of_created_again :
    ¬ Orphaned (createdUpdatedRevoked.attemptAll [0, 2, 0]) (createdUpdatedRevoked.ops 1) 7 := by
  refine (not_orphaned_iff (c := 0) createdUpdatedRevoked_valid (by decide) (by decide)
    (by decide)).mpr ?_
  rintro ⟨-, r, ⟨p, hp, -, hrevokes⟩, hlast⟩
  have hlt : r < 3 := lt_length_of_mem hp
  obtain rfl | rfl | rfl : r = 0 ∨ r = 1 ∨ r = 2 := by omega
  · rw [List.mem_singleton.mp hp] at hrevokes
    cases hrevokes
  · rw [List.mem_singleton.mp hp] at hrevokes
    cases hrevokes
  · have hzero : lastOf 0 2 (createdUpdatedRevoked.committed [0, 2, 0]) = some 0 := by decide
    rw [hzero] at hlast
    cases hlast

/-- **A block applied late is refused**: the creation and the revocation
have gone through, and the update between them fails on its id. -/
theorem orphaned_createdUpdatedRevoked :
    createdUpdatedRevoked.Valid ∧ createdUpdatedRevoked.Creates 0 7 ∧
      0 ∈ createdUpdatedRevoked.committed [0, 2] ∧
      Orphaned (createdUpdatedRevoked.attemptAll [0, 2]) (createdUpdatedRevoked.ops 1) 7 ∧
      createdUpdatedRevoked.apply (createdUpdatedRevoked.attemptAll [0, 2]) 1 =
        .error ⟨.insertAtsVersion, .atsMissing⟩ := by
  have horphaned :
      Orphaned (createdUpdatedRevoked.attemptAll [0, 2]) (createdUpdatedRevoked.ops 1) 7 :=
    orphaned_iff.mpr ⟨by decide, by decide, by decide⟩
  refine ⟨createdUpdatedRevoked_valid, by decide, by decide, horphaned, ?_⟩
  cases happly : createdUpdatedRevoked.apply (createdUpdatedRevoked.attemptAll [0, 2]) 1 with
  | ok t => exact absurd horphaned (apply_isOk_iff.mp ⟨t, happly⟩ 7)
  | error e => rw [(applyAts_error happly).1]

/-- An attempt at a block that does not create the id gives it no registry
row. -/
theorem not_contains_attempt (hb : ¬ h.Creates b x)
    (hnone : t.parents.contains (atsKey x) = false) :
    (h.attempt t b).parents.contains (atsKey x) = false := by
  unfold AtsHistory.attempt
  split
  · rename_i t' happly
    rw [← Bool.not_eq_true, contains_apply happly, hnone]
    rintro ⟨-, hfalse | hcreates⟩
    · cases hfalse
    · exact hb hcreates
  · exact hnone

/-- **A refused block stays refused** whatever else is tried, as long as
the creation is not. -/
theorem orphaned_foldl_attempt (hx : Orphaned t (h.ops b) x)
    (hmore : ∀ b' ∈ more, ¬ h.Creates b' x) :
    Orphaned (more.foldl h.attempt t) (h.ops b) x := by
  obtain ⟨hu, hnot, hnone⟩ := orphaned_iff.mp hx
  refine orphaned_iff.mpr ⟨hu, hnot, ?_⟩
  clear hx
  induction more generalizing t with
  | nil => exact hnone
  | cons b' more ih =>
    have hfirst := not_contains_attempt (hmore b' List.mem_cons_self) hnone
    exact ih (fun b'' hb'' => hmore b'' (List.mem_cons_of_mem b' hb'')) hfirst

end AllfeatExplorer
