import AllfeatExplorer.Indexer.Helpers.Movements
import Mathlib.Algebra.BigOperators.Group.List.Basic

/-!
# Movements conserve value

What the projection does with a block's balance events and what the
table then has of it. The debit and the credit of an event cancel, and
both are in the table as long as they are under two keys: a block loses
a movement exactly when one of its events has one account on both sides.
-/

namespace AllfeatExplorer

open Projections

variable {n i : ℕ} {decoded : List (ℕ × DecodedBalanceEvent)} {blocks : Table ℤ StoredBlock}
  {t t' : MovementTable} {src dst : AccountId} {amount : ℕ}

/-- The deltas stored for an event. -/
def storedDeltas (t : MovementTable) (n i : ℕ) : List ℤ :=
  (rowsOfEvent t n i).map fun r => r.2.delta

/-- **A block's movements are conserved**: their keys are distinct, the
table has each, and those of an event between accounts sum to nothing. -/
structure Conserved (t : MovementTable) (n : ℕ) (decoded : List (ℕ × DecodedBalanceEvent)) :
    Prop where
  distinct : ((Balances.project decoded n).map movementKey).Nodup
  stored : ∀ row ∈ Balances.project decoded n, t.find (movementKey row) = some (movementRow row).2
  cancel : ∀ i e, (i, e) ∈ decoded → ∀ src dst amount, e.moved = some (src, dst, amount) →
    (storedDeltas t n i).sum = 0

/-- No event moves funds from an account to itself. -/
def NoSelfMove (decoded : List (ℕ × DecodedBalanceEvent)) : Prop :=
  ∀ i e, (i, e) ∈ decoded → ∀ src dst amount, e.moved = some (src, dst, amount) → src ≠ dst

/-- A block without such an event is kept whole. -/
theorem keptOf_eq (h : NoSelfMove decoded) : keptOf n decoded = Balances.project decoded n := by
  unfold keptOf Balances.project
  refine List.flatMap_congr fun p hp => ?_
  exact kept_eq (h p.1 p.2 hp)

/-- **The two sides of an event cancel**, on amounts an `i128` has. -/
theorem sum_paired {kind : MovementKind}
    (h : amount < 170141183460469231731687303715884105728) :
    ((paired n i kind src dst amount).map BalanceMovementRow.delta).sum = 0 := by
  have hpos : asI128 amount = amount := by
    simp only [asI128]
    split <;> omega
  have hneg : negI128 (asI128 amount) = -amount := by
    rw [hpos, negI128, if_neg (by omega)]
  simp only [paired, List.map_cons, List.map_nil, List.sum_cons, List.sum_nil]
  rw [hneg, hpos]
  omega

/-- The deltas the table has of an event are those kept of it. -/
theorem sum_storedDeltas {e : DecodedBalanceEvent} (hnodup : (decoded.map Prod.fst).Nodup)
    (hidx : ∀ p ∈ decoded, p.1 ≤ u32Max) (hfresh : FreshAt n t) (hmem : (i, e) ∈ decoded) :
    (storedDeltas (t.insertAll ((keptOf n decoded).map movementRow)) n i).sum =
      ((kept n i e).map BalanceMovementRow.delta).sum := by
  have hperm := (rowsOfEvent_perm hnodup hidx hfresh hmem).map fun r => r.2.delta
  rw [List.map_map] at hperm
  exact hperm.sum_eq

/-- **A block with no self-transfer is conserved.** -/
theorem conserved_of_noSelfMove (hnodup : (decoded.map Prod.fst).Nodup)
    (hidx : ∀ p ∈ decoded, p.1 ≤ u32Max)
    (hamount : ∀ i e, (i, e) ∈ decoded → ∀ src dst amount, e.moved = some (src, dst, amount) →
      amount < 170141183460469231731687303715884105728)
    (hfresh : FreshAt n t) (h : NoSelfMove decoded) :
    Conserved (t.insertAll ((keptOf n decoded).map movementRow)) n decoded := by
  have hkeys := nodup_keys_keptOf (n := n) hnodup hidx
  refine ⟨?_, ?_, ?_⟩
  · rw [keptOf_eq h, List.map_map] at hkeys
    exact hkeys
  · intro row hrow
    have hnum : row.blockNum = n := by
      obtain ⟨p, -, hp⟩ := List.mem_flatMap.mp hrow
      exact (mem_movementsOf hp).1
    have hfree : t.find (movementKey row) = none :=
      hfresh _ (congrArg asI64 hnum)
    rw [Table.find_insertAll, hfree, Option.none_or]
    refine Table.firstOffered_of_mem hkeys ?_
    rw [keptOf_eq h]
    exact List.mem_map_of_mem hrow
  · intro i e hmem src dst amount hmoved
    rw [sum_storedDeltas hnodup hidx hfresh hmem, kept_eq (h i e hmem)]
    rcases movementsOf_cases n i e with ⟨kind, src', dst', amount', hmoved', hrows⟩ | ⟨hnone, -⟩
    · rw [hrows]
      exact sum_paired (hamount i e hmem src' dst' amount' hmoved')
    · rw [hmoved] at hnone
      cases hnone

/-- **And no other is**: the two rows of a self-transfer have one key. -/
theorem noSelfMove_of_distinct (h : ((Balances.project decoded n).map movementKey).Nodup) :
    NoSelfMove decoded := by
  rintro i e hmem src dst amount hmoved rfl
  have hpart : ((movementsOf n i e).map movementKey).Nodup := by
    rw [Balances.project, List.map_flatMap, List.nodup_flatMap] at h
    exact h.1 (i, e) hmem
  rcases movementsOf_cases n i e with ⟨kind, src', dst', amount', hmoved', hrows⟩ | ⟨hnone, -⟩
  · rw [hmoved] at hmoved'
    obtain ⟨rfl, rfl, rfl⟩ : src = src' ∧ src = dst' ∧ amount = amount' := by
      simpa using hmoved'
    rw [hrows] at hpart
    exact (List.nodup_cons.mp hpart).1 (List.mem_singleton.mpr rfl)
  · rw [hmoved] at hnone
    cases hnone

/-- **A first insert conserves a block's movements** exactly when no event
of the block moves funds from an account to itself. -/
theorem conserved_iff_noSelfMove (hnodup : (decoded.map Prod.fst).Nodup)
    (hidx : ∀ p ∈ decoded, p.1 ≤ u32Max)
    (hamount : ∀ i e, (i, e) ∈ decoded → ∀ src dst amount, e.moved = some (src, dst, amount) →
      amount < 170141183460469231731687303715884105728)
    (hblock : blocks.contains (asI64 n) = true) (hfresh : FreshAt n t) :
    ∃ t', Sink.insertBalanceMovements blocks t (Balances.project decoded n) = .ok t' ∧
      (Conserved t' n decoded ↔ NoSelfMove decoded) := by
  refine ⟨_, insertBalanceMovements_eq hblock, ?_⟩
  constructor
  · exact fun h => noSelfMove_of_distinct h.distinct
  · exact conserved_of_noSelfMove hnodup hidx hamount hfresh

/-! ## A transfer to oneself -/

/-- `blocks` with the row of block 1. -/
def blockOne : Table ℤ StoredBlock :=
  Table.empty.insertNew 1 (Sink.blockRow (Blocks.map (bareChain 1) 1) none)

/-- A transfer between two accounts is conserved. -/
theorem conserved_iff_noSelfMove_blockOne :
    ∃ t', Sink.insertBalanceMovements blockOne .empty
        (Balances.project [(0, .transfer (.fill 1) (.fill 2) 5)] 1) = .ok t' ∧
      (Conserved t' 1 [(0, .transfer (.fill 1) (.fill 2) 5)] ↔
        NoSelfMove [(0, .transfer (.fill 1) (.fill 2) 5)]) := by
  refine conserved_iff_noSelfMove (by decide) (by decide) ?_ (by decide) fun k _ => rfl
  intro i e hmem src dst amount hmoved
  obtain ⟨rfl, rfl⟩ := Prod.mk.inj (List.mem_singleton.mp hmem)
  cases hmoved
  decide

/-- **A transfer of 5 to oneself is stored as a loss of 5.** -/
theorem storedDeltas_selfTransfer :
    ∃ t', Sink.insertBalanceMovements blockOne .empty
        (Balances.project [(0, .transfer (.fill 1) (.fill 1) 5)] 1) = .ok t' ∧
      storedDeltas t' 1 0 = [-5] ∧ ¬ Conserved t' 1 [(0, .transfer (.fill 1) (.fill 1) 5)] := by
  refine ⟨_, insertBalanceMovements_eq (by decide), by decide, fun h => ?_⟩
  have hself := noSelfMove_of_distinct h.distinct
  exact hself 0 _ (List.mem_singleton.mpr rfl) (.fill 1) (.fill 1) 5 rfl rfl

end AllfeatExplorer
