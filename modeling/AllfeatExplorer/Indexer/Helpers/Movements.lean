import AllfeatExplorer.Indexer.Helpers.Rows

/-!
# The movements of a block, stored

A transfer is two movements, one a side, under keys that differ in the
account. Where both sides are one account the keys are one, and the
insert keeps the first of the two. So what is stored of a block is known
event by event (`kept`), the deltas of a transfer cancel where it has two
sides, and the insert is lossless on blocks in which every transfer has.
-/

namespace AllfeatExplorer

open Projections

/-- The accounts an event moves funds between, and how much: the three
events that project to two rows. -/
def Projections.DecodedBalanceEvent.moved :
    DecodedBalanceEvent → Option (AccountId × AccountId × ℕ)
  | .transfer src dst amount => some (src, dst, amount)
  | .transferAndHold src dst amount => some (src, dst, amount)
  | .transferOnHold src dst amount => some (src, dst, amount)
  | _ => none

/-- `balance_movements`. -/
abbrev MovementTable := Table (ℤ ×ₗ ℤ ×ₗ AccountId) StoredMovement

/-- The primary key of a movement. -/
def movementKey (row : BalanceMovementRow) : ℤ ×ₗ ℤ ×ₗ AccountId :=
  toLex (asI64 row.blockNum, toLex (asI32 row.eventIdx, row.account))

/-- The row `insert_balance_movements` binds, with its key. -/
def movementRow (row : BalanceMovementRow) : (ℤ ×ₗ ℤ ×ₗ AccountId) × StoredMovement :=
  (movementKey row, ⟨row.kind.asI16, row.delta, row.counterparty⟩)

/-- **What the insert keeps of one event's rows**: of two under one key
the first. -/
def kept (n i : ℕ) (e : DecodedBalanceEvent) : List BalanceMovementRow :=
  match e.moved with
  | some (src, dst, _) => if src = dst then (movementsOf n i e).take 1 else movementsOf n i e
  | none => movementsOf n i e

variable {n i : ℕ} {e : DecodedBalanceEvent} {decoded : List (ℕ × DecodedBalanceEvent)}
  {blocks : Table ℤ StoredBlock} {t : MovementTable}

/-! ## One event -/

/-- **An event projects to a pair of rows or to one.** -/
theorem movementsOf_cases (n i : ℕ) (e : DecodedBalanceEvent) :
    (∃ kind src dst amount, e.moved = some (src, dst, amount) ∧
      movementsOf n i e = paired n i kind src dst amount) ∨
    e.moved = none ∧ ∃ who kind delta, movementsOf n i e = [single n i who kind delta] := by
  cases e <;>
    first
    | exact .inl ⟨_, _, _, _, rfl, rfl⟩
    | exact .inr ⟨rfl, _, _, _, rfl⟩

/-- The rows of an event are the block's, at the event's index. -/
theorem mem_movementsOf {row : BalanceMovementRow} (h : row ∈ movementsOf n i e) :
    row.blockNum = n ∧ row.eventIdx = i := by
  rcases movementsOf_cases n i e with
    ⟨kind, src, dst, amount, -, hrows⟩ | ⟨-, who, kind, delta, hrows⟩
  · rw [hrows] at h
    rcases List.mem_cons.mp h with rfl | h
    · exact ⟨rfl, rfl⟩
    · obtain rfl := List.mem_singleton.mp h
      exact ⟨rfl, rfl⟩
  · rw [hrows] at h
    obtain rfl := List.mem_singleton.mp h
    exact ⟨rfl, rfl⟩

theorem kept_sublist : (kept n i e).Sublist (movementsOf n i e) := by
  unfold kept
  split
  · split
    · exact List.take_sublist 1 _
    · exact List.Sublist.refl _
  · exact List.Sublist.refl _

/-- Of an event between two accounts, or of no transfer, all is kept. -/
theorem kept_eq (h : ∀ src dst amount, e.moved = some (src, dst, amount) → src ≠ dst) :
    kept n i e = movementsOf n i e := by
  unfold kept
  split
  · rename_i src dst amount hmoved
    rw [if_neg (h src dst amount hmoved)]
  · rfl

/-- Of a transfer to oneself the debit is kept. -/
theorem kept_of_self {who : AccountId} {amount : ℕ} (h : e.moved = some (who, who, amount)) :
    ∃ kind, kept n i e = [⟨n, i, who, kind, negI128 (asI128 amount), some who⟩] := by
  rcases movementsOf_cases n i e with ⟨kind, src, dst, amount', hmoved, hrows⟩ | ⟨hnone, -⟩
  · rw [h] at hmoved
    obtain ⟨rfl, rfl, rfl⟩ : who = src ∧ who = dst ∧ amount = amount' := by
      simpa using hmoved
    refine ⟨kind, ?_⟩
    simp only [kept, h, if_pos]
    rw [hrows]
    rfl
  · rw [h] at hnone
    cases hnone

/-- The rows kept have keys of their own. -/
theorem nodup_keys_kept : ((kept n i e).map movementKey).Nodup := by
  rcases movementsOf_cases n i e with
    ⟨kind, src, dst, amount, hmoved, hrows⟩ | ⟨hnone, who, kind, delta, hrows⟩
  · by_cases hself : src = dst
    · subst hself
      obtain ⟨kind', hkept⟩ := kept_of_self (n := n) (i := i) hmoved
      rw [hkept]
      exact List.nodup_singleton _
    · rw [kept_eq, hrows]
      · simp only [paired, List.map_cons, List.map_nil, List.nodup_cons, List.mem_singleton,
          List.not_mem_nil, not_false_eq_true, List.nodup_nil, and_true]
        intro hkey
        exact hself (congrArg (fun k => (ofLex (ofLex k).2).2) hkey)
      · intro src' dst' amount' hmoved'
        rw [hmoved] at hmoved'
        obtain ⟨rfl, rfl, rfl⟩ : src = src' ∧ dst = dst' ∧ amount = amount' := by
          simpa using hmoved'
        exact hself
  · rw [kept_eq, hrows]
    · exact List.nodup_singleton _
    · intro src dst amount hmoved
      rw [hnone] at hmoved
      cases hmoved

/-- **The insert keeps what is kept**: for no key is another row offered
first. -/
theorem firstOffered_kept (k : ℤ ×ₗ ℤ ×ₗ AccountId) :
    Table.firstOffered ((movementsOf n i e).map movementRow) k =
      Table.firstOffered ((kept n i e).map movementRow) k := by
  unfold kept
  split
  swap
  · rfl
  rename_i src dst amount hmoved
  split
  swap
  · rfl
  rename_i hself
  subst hself
  rcases movementsOf_cases n i e with ⟨kind, src', dst', amount', hmoved', hrows⟩ | ⟨hnone, -⟩
  · rw [hmoved] at hmoved'
    obtain ⟨rfl, rfl, rfl⟩ : src = src' ∧ src = dst' ∧ amount = amount' := by
      simpa using hmoved'
    rw [hrows]
    -- The credit is under the key of the debit.
    simp only [paired, List.map_cons, List.map_nil, List.take_succ_cons, List.take_zero,
      Table.firstOffered, List.lookup_cons, movementRow, movementKey, List.lookup_nil]
    split <;> rfl
  · rw [hmoved] at hnone
    cases hnone

/-! ## One block -/

/-- **What is kept of a block's events.** -/
def keptOf (n : ℕ) (decoded : List (ℕ × DecodedBalanceEvent)) : List BalanceMovementRow :=
  decoded.flatMap fun p => kept n p.1 p.2

/-- The insert leaves what offering the kept rows leaves. -/
theorem insertAll_project :
    t.insertAll ((Balances.project decoded n).map movementRow) =
      t.insertAll ((keptOf n decoded).map movementRow) := by
  refine Table.ext_find fun k => ?_
  rw [Table.find_insertAll, Table.find_insertAll]
  simp only [Balances.project, keptOf, List.map_flatMap]
  rw [Table.firstOffered_flatMap_congr fun p _ => firstOffered_kept k]

/-- Movements of events at different indices have different keys. -/
theorem movementKey_ne {a b : BalanceMovementRow} (ha : a.eventIdx ≤ u32Max)
    (hb : b.eventIdx ≤ u32Max) (h : a.eventIdx ≠ b.eventIdx) : movementKey a ≠ movementKey b := by
  intro hkey
  exact h ((asI32_inj ha hb).mp (congrArg (fun k => (ofLex (ofLex k).2).1) hkey))

/-- **The kept rows of a block have keys of their own.** -/
theorem nodup_keys_keptOf (hnodup : (decoded.map Prod.fst).Nodup)
    (hidx : ∀ p ∈ decoded, p.1 ≤ u32Max) :
    (((keptOf n decoded).map movementRow).map Prod.fst).Nodup := by
  have hkeys : ((keptOf n decoded).map movementRow).map Prod.fst =
      decoded.flatMap fun p => (kept n p.1 p.2).map movementKey := by
    rw [List.map_map, keptOf, List.map_flatMap]
    rfl
  rw [hkeys, List.nodup_flatMap]
  refine ⟨fun p _ => nodup_keys_kept, ?_⟩
  refine (List.pairwise_map.mp hnodup).imp_of_mem fun {p q} hp hq hpq => ?_
  intro k hkp hkq
  obtain ⟨a, ha, rfl⟩ := List.mem_map.mp hkp
  obtain ⟨b, hb, hab⟩ := List.mem_map.mp hkq
  have hap := (mem_movementsOf (kept_sublist.subset ha)).2
  have hbq := (mem_movementsOf (kept_sublist.subset hb)).2
  refine movementKey_ne ?_ ?_ ?_ hab
  · exact hbq ▸ hidx q hq
  · exact hap ▸ hidx p hp
  · rw [hap, hbq]
    exact Ne.symm hpq

/-- **The insert goes through** where the block has its row. -/
theorem insertBalanceMovements_eq (hblock : blocks.contains (asI64 n) = true) :
    Sink.insertBalanceMovements blocks t (Balances.project decoded n) =
      .ok (t.insertAll ((keptOf n decoded).map movementRow)) := by
  rw [← insertAll_project]
  refine insertOfBlock_of_contains (by decide) fun r hr => ?_
  obtain ⟨row, hrow, rfl⟩ := List.mem_map.mp hr
  obtain ⟨p, hp, hmem⟩ := List.mem_flatMap.mp hrow
  have hnum := (mem_movementsOf hmem).1
  change blocks.contains (asI64 row.blockNum) = true
  rw [hnum]
  exact hblock

/-- The table has no row of block `n` yet. -/
def FreshAt (n : ℕ) (t : MovementTable) : Prop :=
  ∀ k, (ofLex k).1 = asI64 n → t.find k = none

/-- The rows of an event, in the table. -/
def rowsOfEvent (t : MovementTable) (n i : ℕ) : List ((ℤ ×ₗ ℤ ×ₗ AccountId) × StoredMovement) :=
  t.rows.filter fun r => (ofLex r.1).1 = asI64 n && (ofLex (ofLex r.1).2).1 = asI32 i

/-- One event's share of a list put together from events. -/
theorem flatMap_eq_of_mem {α β : Type*} {l : List (ℕ × α)} {f : ℕ × α → List β} {p : ℕ × α}
    (hnodup : (l.map Prod.fst).Nodup) (hp : p ∈ l) (h : ∀ q ∈ l, q.1 ≠ p.1 → f q = []) :
    l.flatMap f = f p := by
  obtain ⟨l₁, l₂, rfl⟩ := List.append_of_mem hp
  rw [List.map_append, List.map_cons, List.nodup_append, List.nodup_cons] at hnodup
  obtain ⟨-, ⟨hright, -⟩, hleft⟩ := hnodup
  have hl₁ : l₁.flatMap f = [] := by
    refine List.flatMap_eq_nil_iff.mpr fun q hq => h q (List.mem_append_left _ hq) fun heq => ?_
    exact hleft q.1 (List.mem_map_of_mem hq) p.1 List.mem_cons_self heq
  have hl₂ : l₂.flatMap f = [] := by
    refine List.flatMap_eq_nil_iff.mpr fun q hq => ?_
    refine h q (List.mem_append_right _ (List.mem_cons_of_mem _ hq)) fun heq => ?_
    exact hright (heq ▸ List.mem_map_of_mem hq)
  rw [List.flatMap_append, List.flatMap_cons, hl₁, hl₂, List.nil_append, List.append_nil]

/-- **An event's rows in the table** are those kept of it. -/
theorem rowsOfEvent_perm (hnodup : (decoded.map Prod.fst).Nodup)
    (hidx : ∀ p ∈ decoded, p.1 ≤ u32Max) (hfresh : FreshAt n t) (hmem : (i, e) ∈ decoded) :
    (rowsOfEvent (t.insertAll ((keptOf n decoded).map movementRow)) n i).Perm
      ((kept n i e).map movementRow) := by
  have hfree : ∀ k : ℤ ×ₗ ℤ ×ₗ AccountId,
      (decide ((ofLex k).1 = asI64 n) && decide ((ofLex (ofLex k).2).1 = asI32 i)) = true →
        t.find k = none := by
    intro k hk
    rw [Bool.and_eq_true, decide_eq_true_eq] at hk
    exact hfresh k hk.1
  have hperm := Table.filter_insertAll_perm (nodup_keys_keptOf (n := n) hnodup hidx) hfree
  refine hperm.trans (List.Perm.of_eq ?_)
  rw [keptOf, List.map_flatMap, List.filter_flatMap,
    flatMap_eq_of_mem (p := (i, e)) hnodup hmem]
  · refine List.filter_eq_self.mpr fun r hr => ?_
    obtain ⟨row, hrow, rfl⟩ := List.mem_map.mp hr
    obtain ⟨hn, hi⟩ := mem_movementsOf (kept_sublist.subset hrow)
    simp only [movementRow, movementKey, hn, hi, ofLex_toLex, decide_true, Bool.and_true]
  · rintro ⟨j, e'⟩ hq hne
    refine List.filter_eq_nil_iff.mpr fun r hr => ?_
    obtain ⟨row, hrow, rfl⟩ := List.mem_map.mp hr
    obtain ⟨-, hj⟩ := mem_movementsOf (kept_sublist.subset hrow)
    have hij : asI32 j ≠ asI32 i := fun heq => hne ((asI32_inj (hidx _ hq) (hidx _ hmem)).mp heq)
    simp only [movementRow, movementKey, hj, ofLex_toLex, hij, decide_false, Bool.and_false,
      Bool.false_eq_true, not_false_eq_true]

end AllfeatExplorer
