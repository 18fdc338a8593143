import AllfeatExplorer.Data.Model.Lists
import AllfeatExplorer.Indexer.Helpers.Movements

/-!
# What the list shows of a stored block

The transfers' list joins each debit to its event and to the extrinsic
the event came from. Over the tables of one block that is a function of
the block's events: nothing of an event that is no transfer of an
extrinsic, and of one that is, the debits the insert has kept
(`Db.HoldsOnly.probe_perm`). What those are depends on the amount's sign
as an `i128`.
-/

namespace AllfeatExplorer

open Projections Queries

/-- The events with a delta, under their indices. -/
def decodedOf (evts : List (ℕ × NodeEvent)) : List (ℕ × DecodedBalanceEvent) :=
  evts.filterMap fun p => (decodeBalanceEvent p.2 []).2.map fun d => (p.1, d)

/-- Whether the phase is that of an extrinsic of the block. -/
def appliesIn (blk : NodeBlock) : Phase → Bool
  | .applyExtrinsic x => decide (x < blk.extrinsics.length)
  | _ => false

/-- **A `Transfer` deposited by an extrinsic of the block**: from, to,
amount. -/
def transferIn (blk : NodeBlock) (evt : NodeEvent) : Option (AccountId × AccountId × ℕ) :=
  match evt.body with
  | .transfer src dst amount => if appliesIn blk evt.phase then some (src, dst, amount) else none
  | _ => none

/-- A transfer as it is listed, under its key. -/
structure ListedTransfer where
  fromAddr : String
  toAddr : String
  amount : ℕ
  block : ℕ
  eventIdx : ℕ
deriving DecidableEq

/-- What the list shows of a transfer, and its key. -/
def listed (p : Transfer × ℕ × ℕ) : ListedTransfer :=
  ⟨p.1.fromAddr, p.1.toAddr, p.1.amount, p.2.1, p.2.2⟩

/-- **The transfers of the block's extrinsics**, as they should be
listed. -/
def transfersOf (net : Network) (blk : NodeBlock) (n : ℕ) (evts : List (ℕ × NodeEvent)) :
    List ListedTransfer :=
  evts.filterMap fun p => (transferIn blk p.2).map fun m =>
    ⟨net.encodeSs58 m.1, net.encodeSs58 m.2.1, m.2.2, n, p.1⟩

/-- **An amount that comes back off its sign.** -/
def Representable (src dst : AccountId) (amount : ℕ) : Prop :=
  0 < amount ∧ (amount < 170141183460469231731687303715884105728 ∨
    amount = 170141183460469231731687303715884105728 ∧ src = dst)

variable {net : Network} {blk : NodeBlock} {n i : ℕ} {evt : NodeEvent}
  {evts : List (ℕ × NodeEvent)} {src dst : AccountId} {amount : ℕ}

/-! ## The sign of a delta -/

/-- A debit: account, counterparty and magnitude. -/
def debitOf (row : BalanceMovementRow) : Option (AccountId × AccountId × ℕ) :=
  if row.delta < 0 then row.counterparty.map fun c => (row.account, c, row.delta.natAbs) else none

/-- The debits among the rows of an event. -/
def debits (rows : List BalanceMovementRow) : List (AccountId × AccountId × ℕ) :=
  rows.filterMap debitOf

theorem debits_cons {row : BalanceMovementRow} {rows : List BalanceMovementRow} {c : AccountId}
    (hc : row.counterparty = some c) : debits (row :: rows) =
      (if row.delta < 0 then [(row.account, c, row.delta.natAbs)] else []) ++ debits rows := by
  unfold debits
  rw [List.filterMap_cons, debitOf, hc]
  by_cases h : row.delta < 0
  · rw [if_pos h, if_pos h]
    rfl
  · rw [if_neg h, if_neg h]
    rfl

theorem debits_nil : debits [] = [] := rfl

/-- The delta of a debit, by the size of the amount. -/
theorem negI128_asI128 (h : amount ≤ u128Max) : negI128 (asI128 amount) =
    if amount < 170141183460469231731687303715884105728 then -(amount : ℤ)
    else if amount = 170141183460469231731687303715884105728 then
      -170141183460469231731687303715884105728
    else 340282366920938463463374607431768211456 - amount := by
  simp only [u128Max] at h
  simp only [negI128, asI128]
  split <;> split <;> split <;> omega

/-- And that of a credit. -/
theorem asI128_of_le_u128Max (h : amount ≤ u128Max) : asI128 amount =
    if amount < 170141183460469231731687303715884105728 then (amount : ℤ)
    else amount - 340282366920938463463374607431768211456 := by
  simp only [u128Max] at h
  simp only [asI128]
  split <;> split <;> omega

/-- Of a transfer to oneself the first row may be a debit. -/
theorem debits_kept_self : debits (kept n i (.transfer src src amount)) =
    if negI128 (asI128 amount) < 0 then
      [(src, src, (negI128 (asI128 amount)).natAbs)] else [] := by
  simp only [kept, DecodedBalanceEvent.moved, if_pos, movementsOf, paired, List.take_succ_cons,
    List.take_zero]
  rw [debits_cons rfl, debits_nil, List.append_nil]

/-- Of a transfer between two accounts either row may be. -/
theorem debits_kept_of_ne (h : src ≠ dst) : debits (kept n i (.transfer src dst amount)) =
    (if negI128 (asI128 amount) < 0 then
      [(src, dst, (negI128 (asI128 amount)).natAbs)] else []) ++
    if asI128 amount < 0 then [(dst, src, (asI128 amount).natAbs)] else [] := by
  simp only [kept, DecodedBalanceEvent.moved, if_neg h, movementsOf, paired]
  rw [debits_cons rfl, debits_cons rfl, debits_nil, List.append_nil]

/-- **What is kept of a transfer has one debit**, the sender's, where the
amount comes back. -/
theorem debits_kept (hle : amount ≤ u128Max) (h : Representable src dst amount) :
    debits (kept n i (.transfer src dst amount)) = [(src, dst, amount)] := by
  obtain ⟨hpos, hsize⟩ := h
  have hdebit : negI128 (asI128 amount) = -(amount : ℤ) := by
    rw [negI128_asI128 hle]
    split
    · rfl
    · rw [if_pos (by omega)]
      omega
  have hneg : negI128 (asI128 amount) < 0 := by
    rw [hdebit]
    omega
  have habs : (negI128 (asI128 amount)).natAbs = amount := by
    rw [hdebit]
    omega
  by_cases hself : src = dst
  · subst hself
    rw [debits_kept_self, if_pos hneg, habs]
  · -- The credit is no debit: the amount is below the top of `i128`.
    have hbelow : amount < 170141183460469231731687303715884105728 :=
      hsize.resolve_right fun h => hself h.2
    have hcredit : ¬ asI128 amount < 0 := by
      rw [asI128_of_le_u128Max hle, if_pos hbelow]
      omega
    rw [debits_kept_of_ne hself, if_pos hneg, habs, if_neg hcredit, List.append_nil]

/-- **Otherwise it has none**, or one of another amount, or two. -/
theorem representable_of_debits (hle : amount ≤ u128Max)
    (h : (debits (kept n i (.transfer src dst amount))).map (fun d => d.2.2) = [amount]) :
    Representable src dst amount := by
  have htop : amount ≤ 340282366920938463463374607431768211455 := hle
  have hdebit := negI128_asI128 hle
  have hcredit := asI128_of_le_u128Max hle
  rcases lt_trichotomy amount 170141183460469231731687303715884105728 with hlt | heq | hgt
  · refine ⟨Nat.pos_of_ne_zero fun hzero => ?_, .inl hlt⟩
    -- Zero has no sign, so no row is a debit.
    rw [if_pos hlt] at hdebit hcredit
    have hneg : ¬ negI128 (asI128 amount) < 0 := by omega
    have hpos : ¬ asI128 amount < 0 := by omega
    by_cases hself : src = dst
    · subst hself
      rw [debits_kept_self, if_neg hneg] at h
      cases h
    · rw [debits_kept_of_ne hself, if_neg hneg, if_neg hpos] at h
      cases h
  · refine ⟨by omega, .inr ⟨heq, ?_⟩⟩
    by_contra hself
    -- `2^127` wraps to a negative number that is its own opposite.
    rw [if_neg (by omega), if_pos heq] at hdebit
    rw [if_neg (by omega)] at hcredit
    have hneg : negI128 (asI128 amount) < 0 := by omega
    have hpos : asI128 amount < 0 := by omega
    rw [debits_kept_of_ne hself, if_pos hneg, if_pos hpos] at h
    have hlen := congrArg List.length h
    simp at hlen
  · -- Past it the signs are swapped, and the magnitude is another.
    rw [if_neg (by omega), if_neg (by omega)] at hdebit
    rw [if_neg (by omega)] at hcredit
    have hneg : ¬ negI128 (asI128 amount) < 0 := by omega
    have hpos : asI128 amount < 0 := by omega
    by_cases hself : src = dst
    · subst hself
      rw [debits_kept_self, if_neg hneg] at h
      cases h
    · rw [debits_kept_of_ne hself, if_neg hneg, if_pos hpos, List.nil_append, List.map_cons,
        List.map_nil] at h
      have habs : (asI128 amount).natAbs = amount := (List.cons.inj h).1
      omega

/-! ## The joins -/

/-- The values of a block's events are those of their types, under
distinct indices. -/
structure EventsTyped (blk : NodeBlock) (evts : List (ℕ × NodeEvent)) : Prop where
  nodup : (evts.map Prod.fst).Nodup
  index_le : ∀ p ∈ evts, p.1 ≤ u32Max
  phase_le : ∀ p ∈ evts, ∀ x, p.2.phase = .applyExtrinsic x → x ≤ u32Max
  amount_le : ∀ p ∈ evts, ∀ src dst amount, p.2.body = .transfer src dst amount →
    amount ≤ u128Max
  extrinsics_le : blk.extrinsics.length ≤ u32Max

/-- **The tables hold one block**: its extrinsics, its events and the
movements of its events. -/
structure Db.HoldsOnly (db : Db) (blk : NodeBlock) (n : ℕ) (evts : List (ℕ × NodeEvent)) :
    Prop where
  extrinsics : db.extrinsics = Table.empty.insertAll
    ((Extrinsics.map blk n).map (Sink.extrinsicRow (fetchTimestamp blk)))
  events : db.events = Table.empty.insertAll
    ((evts.map fun p => Events.mapOne n p.1 p.2).map (Sink.eventRow (fetchTimestamp blk)))
  movements : db.balanceMovements =
    Table.empty.insertAll ((keptOf n (decodedOf evts)).map movementRow)

variable {db : Db} {row : BalanceMovementRow} {p : ℕ × NodeEvent}

/-- Keys that differ in an index differ. -/
theorem nodup_keys_of_index {α ρ : Type} {l : List (ℕ × α)} {f : ℕ × α → (ℤ ×ₗ ℤ) × ρ} {k : ℤ}
    (hkey : ∀ p ∈ l, (f p).1 = toLex (k, asI32 p.1)) (hnodup : (l.map Prod.fst).Nodup)
    (hle : ∀ p ∈ l, p.1 ≤ u32Max) : ((l.map f).map Prod.fst).Nodup := by
  rw [List.map_map]
  refine List.pairwise_map.mpr ((List.pairwise_map.mp hnodup).imp_of_mem fun {p q} hp hq hpq => ?_)
  intro heq
  rw [Function.comp_apply, Function.comp_apply, hkey p hp, hkey q hq] at heq
  exact hpq ((asI32_inj (hle p hp) (hle q hq)).mp (congrArg (fun k => (ofLex k).2) heq))

/-- **The row of an event** is found under its index. -/
theorem Db.HoldsOnly.find_events (h : db.HoldsOnly blk n evts) (ht : EventsTyped blk evts)
    (hp : p ∈ evts) : db.events.find (toLex (asI64 n, asI32 p.1)) =
      some (Sink.eventRow (fetchTimestamp blk) (Events.mapOne n p.1 p.2)).2 := by
  rw [h.events, Table.find_insertAll, Table.find_empty, Option.none_or, List.map_map]
  refine Table.firstOffered_of_mem ?_ (List.mem_map_of_mem hp)
  exact nodup_keys_of_index (k := asI64 n) (fun _ _ => rfl) ht.nodup ht.index_le

/-- **The row of an extrinsic** is found where the block has one. -/
theorem Db.HoldsOnly.find_extrinsics (h : db.HoldsOnly blk n evts) (ht : EventsTyped blk evts)
    {x : ℕ} (hx : x ≤ u32Max) : (db.extrinsics.find (toLex (asI64 n, asI32 x))).isSome =
      decide (x < blk.extrinsics.length) := by
  rw [h.extrinsics, Table.find_insertAll, Table.find_empty, Option.none_or, Bool.eq_iff_iff,
    Table.firstOffered_isSome_iff, decide_eq_true_eq, List.map_map, List.mem_map]
  constructor
  · rintro ⟨row, hrow, hkey⟩
    obtain ⟨j, hj, rfl⟩ := List.mem_mapIdx.mp hrow
    have hjx : asI32 j = asI32 x := congrArg (fun k => (ofLex k).2) hkey
    have hle := ht.extrinsics_le
    rwa [← (asI32_inj (by omega) hx).mp hjx]
  · intro hlt
    exact ⟨_, List.mem_mapIdx.mpr ⟨x, hlt, rfl⟩, rfl⟩

/-- A delta of an `i128` is read as it was written. -/
theorem parseI128_of_mem {e : DecodedBalanceEvent} (hrow : row ∈ movementsOf n i e) :
    parseI128 row.delta = some row.delta := by
  have hpos : ∀ a, parseI128 (asI128 a) = some (asI128 a) := by
    intro a
    refine if_pos ?_
    simp only [asI128]
    split <;> omega
  have hneg : ∀ a, parseI128 (negI128 (asI128 a)) = some (negI128 (asI128 a)) := by
    intro a
    refine if_pos ?_
    simp only [negI128, asI128]
    split <;> split <;> omega
  cases e <;>
    simp only [movementsOf, paired, single, List.mem_cons, List.not_mem_nil, or_false] at hrow <;>
    first
    | (subst hrow; exact hpos _)
    | (subst hrow; exact hneg _)
    | (rcases hrow with rfl | rfl; exact hneg _; exact hpos _)

/-- What the list shows of a stored movement, without a bound or a
filter. -/
def shownOf (net : Network) (db : Db) (m : (ℤ ×ₗ ℤ ×ₗ AccountId) × StoredMovement) :
    Option ListedTransfer :=
  if transferAdmitted none none none m then
    ((joinMovement db m).bind (probeTransfer net)).map listed
  else none

/-- A debit of event `i`, as it is listed. -/
def listedDebit (net : Network) (n i : ℕ) (d : AccountId × AccountId × ℕ) : ListedTransfer :=
  ⟨net.encodeSs58 d.1, net.encodeSs58 d.2.1, d.2.2, (max (asI64 n) 0).toNat,
    (max (asI32 i) 0).toNat⟩

/-- **A debit is joined** to the extrinsic its event came from, where the
block has it, and dropped elsewhere. -/
theorem Db.HoldsOnly.join_eq (h : db.HoldsOnly blk n evts) (ht : EventsTyped blk evts)
    {e : DecodedBalanceEvent} (hp : p ∈ evts) (hrow : row ∈ movementsOf n p.1 e)
    (hneg : row.delta < 0) :
    ((joinMovement db (movementRow row)).bind (probeTransfer net)).map listed =
      if appliesIn blk p.2.phase then (debitOf row).map (listedDebit net n p.1) else none := by
  obtain ⟨hnum, hidx⟩ := mem_movementsOf hrow
  have hevent : db.events.find (toLex (asI64 row.blockNum, asI32 row.eventIdx)) =
      some (Sink.eventRow (fetchTimestamp blk) (Events.mapOne n p.1 p.2)).2 := by
    rw [hnum, hidx]
    exact h.find_events ht hp
  have hdelta := parseI128_of_mem hrow
  simp only [joinMovement, movementRow, movementKey, ofLex_toLex, hevent, Option.bind_eq_bind,
    Option.bind_some, Sink.eventRow, Events.mapOne]
  rcases hphase : p.2.phase with x | - | -
  · have hfind := h.find_extrinsics ht (ht.phase_le p hp x hphase)
    rw [← hnum] at hfind
    simp only [encodePhase, Option.map_some, Option.bind_some]
    rcases hx : db.extrinsics.find (toLex (asI64 row.blockNum, asI32 x)) with - | extrinsic
    · have happlies : appliesIn blk (.applyExtrinsic x) = false := by
        rw [hx] at hfind
        exact hfind.symm
      simp only [happlies, Bool.false_eq_true, if_false]
      rfl
    · have happlies : appliesIn blk (.applyExtrinsic x) = true := by
        rw [hx] at hfind
        exact hfind.symm
      simp only [happlies, if_true, Option.bind_some, Option.pure_def, probeTransfer,
        rowToTransfer, Option.bind_eq_bind, hdelta, if_pos hneg, debitOf]
      rcases row.counterparty with - | c
      · rfl
      · rw [← hnum, ← hidx]
        rfl
  · rfl
  · rfl

/-- Only a transfer's rows are of the transfers' kind. -/
theorem eq_transfer_of_kind {e : DecodedBalanceEvent} (hrow : row ∈ movementsOf n i e)
    (hkind : row.kind.asI16 = MovementKind.transfer.asI16) :
    ∃ src dst amount, e = .transfer src dst amount := by
  cases e <;>
    simp only [movementsOf, paired, single, List.mem_cons, List.not_mem_nil, or_false] at hrow <;>
    first
    | exact ⟨_, _, _, rfl⟩
    | (subst hrow; simp [MovementKind.asI16] at hkind)
    | (rcases hrow with rfl | rfl <;> simp [MovementKind.asI16] at hkind)

/-- And those all are. -/
theorem kind_of_mem_transfer (hrow : row ∈ movementsOf n i (.transfer src dst amount)) :
    row.kind = .transfer := by
  simp only [movementsOf, paired, List.mem_cons, List.not_mem_nil, or_false] at hrow
  rcases hrow with rfl | rfl <;> rfl

/-- A transfer decodes to a transfer. -/
theorem decode_eq_transfer_iff : (decodeBalanceEvent evt []).2 = some (.transfer src dst amount) ↔
    evt.body = .transfer src dst amount := by
  unfold decodeBalanceEvent
  cases evt.body <;> simp

/-- **What the list shows of one event**: the debits kept of a transfer. -/
def shownEvent (net : Network) (blk : NodeBlock) (n : ℕ) (p : ℕ × NodeEvent) :
    List ListedTransfer :=
  match transferIn blk p.2 with
  | some m => (debits (kept n p.1 (.transfer m.1 m.2.1 m.2.2))).map (listedDebit net n p.1)
  | none => []

theorem Db.HoldsOnly.shown_event (h : db.HoldsOnly blk n evts) (ht : EventsTyped blk evts)
    (hp : p ∈ evts) {e : DecodedBalanceEvent} (he : (decodeBalanceEvent p.2 []).2 = some e) :
    ((kept n p.1 e).map movementRow).filterMap (shownOf net db) = shownEvent net blk n p := by
  unfold shownEvent
  have hrow : ∀ row ∈ kept n p.1 e, row ∈ movementsOf n p.1 e := kept_sublist.subset
  rw [List.filterMap_map]
  by_cases htransfer : ∃ src dst amount, e = .transfer src dst amount
  swap
  -- Of another event no row is admitted.
  · have hbody : transferIn blk p.2 = none := by
      unfold transferIn
      rcases hbody : p.2.body
      case transfer src dst amount =>
        rw [decode_eq_transfer_iff.mpr hbody] at he
        exact absurd ⟨src, dst, amount, (Option.some.inj he).symm⟩ htransfer
      all_goals rfl
    rw [hbody]
    refine List.filterMap_eq_nil_iff.mpr fun row hmem => ?_
    refine if_neg fun hadm => htransfer ?_
    simp only [transferAdmitted, Bool.and_eq_true, decide_eq_true_eq] at hadm
    exact eq_transfer_of_kind (hrow row hmem) hadm.1.1.1.1
  obtain ⟨src, dst, amount, rfl⟩ := htransfer
  have hbody : p.2.body = .transfer src dst amount := decode_eq_transfer_iff.mp he
  have hshown : ∀ row ∈ kept n p.1 (.transfer src dst amount),
      (shownOf net db ∘ movementRow) row =
        if appliesIn blk p.2.phase then (debitOf row).map (listedDebit net n p.1) else none := by
    intro row hmem
    have hkind := kind_of_mem_transfer (hrow row hmem)
    by_cases hneg : row.delta < 0
    · have hadm : transferAdmitted none none none (movementRow row) = true := by
        simp only [transferAdmitted, movementRow, hkind, hneg, decide_true, belowUpper,
          Option.all_none, Bool.and_true]
      rw [Function.comp_apply, shownOf, if_pos hadm]
      exact h.join_eq ht hp (hrow row hmem) hneg
    · have hadm : transferAdmitted none none none (movementRow row) = false := by
        simp only [transferAdmitted, movementRow, hneg, decide_false, Bool.and_false,
          Bool.false_and]
      rw [Function.comp_apply, shownOf, if_neg (ne_true_of_eq_false hadm), debitOf, if_neg hneg,
        Option.map_none, ite_self]
  rw [List.filterMap_congr hshown]
  simp only [transferIn, hbody]
  by_cases happlies : appliesIn blk p.2.phase = true
  · simp only [happlies, if_true, debits, List.map_filterMap]
  · simp only [happlies, if_false, Bool.false_eq_true]
    exact List.filterMap_eq_nil_iff.mpr fun _ _ => rfl

/-- An event without a delta is no transfer. -/
theorem shownEvent_of_decode_none (h : (decodeBalanceEvent p.2 []).2 = none) :
    shownEvent net blk n p = [] := by
  unfold shownEvent transferIn
  rcases hbody : p.2.body
  case transfer src dst amount =>
    rw [decode_eq_transfer_iff.mpr hbody] at h
    cases h
  all_goals rfl

/-- The events of a list, one after the other. -/
theorem Db.HoldsOnly.shown_events (h : db.HoldsOnly blk n evts) (ht : EventsTyped blk evts)
    {l : List (ℕ × NodeEvent)} (hl : ∀ p ∈ l, p ∈ evts) :
    ((keptOf n (decodedOf l)).map movementRow).filterMap (shownOf net db) =
      l.flatMap (shownEvent net blk n) := by
  induction l with
  | nil => rfl
  | cons p l ih =>
    have hrest := ih fun q hq => hl q (List.mem_cons_of_mem p hq)
    rw [List.flatMap_cons, ← hrest]
    cases hdecode : (decodeBalanceEvent p.2 []).2 with
    | none =>
      have hskip : decodedOf (p :: l) = decodedOf l := by
        rw [decodedOf, List.filterMap_cons, hdecode]
        rfl
      rw [hskip, shownEvent_of_decode_none hdecode, List.nil_append]
    | some e =>
      have hcons : decodedOf (p :: l) = (p.1, e) :: decodedOf l := by
        rw [decodedOf, List.filterMap_cons, hdecode]
        rfl
      rw [hcons, keptOf, List.flatMap_cons, List.map_append, List.filterMap_append,
        h.shown_event ht (hl p List.mem_cons_self) hdecode]
      rfl

/-- An event has two rows at most. -/
theorem length_keptOf_le (evts : List (ℕ × NodeEvent)) :
    (keptOf n (decodedOf evts)).length ≤ 2 * evts.length := by
  have hevent : ∀ q : ℕ × DecodedBalanceEvent, (kept n q.1 q.2).length ≤ 2 := by
    intro q
    refine le_trans kept_sublist.length_le ?_
    rcases movementsOf_cases n q.1 q.2 with
      ⟨kind, src, dst, amount, -, hrows⟩ | ⟨-, who, kind, delta, hrows⟩
    · rw [hrows]
      exact Nat.le_refl 2
    · rw [hrows]
      exact Nat.le_succ 1
  have hdecoded : (decodedOf evts).length ≤ evts.length := List.length_filterMap_le _ _
  have hsum : ∀ l : List (ℕ × DecodedBalanceEvent), (keptOf n l).length ≤ 2 * l.length := by
    intro l
    induction l with
    | nil => exact Nat.zero_le _
    | cons q l ih =>
      have hq := hevent q
      rw [keptOf, List.flatMap_cons, List.length_append, List.length_cons]
      change (kept n q.1 q.2).length + (keptOf n l).length ≤ 2 * (l.length + 1)
      omega
  have hlen := hsum (decodedOf evts)
  omega

/-- Indices of decoded events are those of the events. -/
theorem decodedOf_indices (ht : EventsTyped blk evts) :
    ((decodedOf evts).map Prod.fst).Nodup ∧ ∀ q ∈ decodedOf evts, q.1 ≤ u32Max := by
  constructor
  · refine List.pairwise_map.mpr (List.pairwise_filterMap.mpr ?_)
    refine (List.pairwise_map.mp ht.nodup).imp fun {p q} hpq => ?_
    intro d hd d' hd'
    obtain ⟨-, -, rfl⟩ := Option.map_eq_some_iff.mp hd
    obtain ⟨-, -, rfl⟩ := Option.map_eq_some_iff.mp hd'
    exact hpq
  · intro q hq
    obtain ⟨p, hp, hmap⟩ := List.mem_filterMap.mp hq
    obtain ⟨d, -, rfl⟩ := Option.map_eq_some_iff.mp hmap
    exact ht.index_le p hp

/-- The movements in the table are the rows kept. -/
theorem Db.HoldsOnly.movements_perm (h : db.HoldsOnly blk n evts) (ht : EventsTyped blk evts) :
    db.balanceMovements.rows.Perm ((keptOf n (decodedOf evts)).map movementRow) := by
  obtain ⟨hnodup, hle⟩ := decodedOf_indices ht
  have hperm := Table.filter_insertAll_perm (p := fun _ => true)
    (nodup_keys_keptOf (n := n) hnodup hle) fun k _ => Table.find_empty
  rw [List.filter_true, List.filter_true] at hperm
  rw [h.movements]
  exact hperm

/-- **What the list shows of the block**, in a page that is large enough:
no more rows than that, and event by event. -/
theorem Db.HoldsOnly.probe_perm (h : db.HoldsOnly blk n evts) (net : Network) (limit : ℕ)
    (ht : EventsTyped blk evts) (hlimit : 2 * evts.length ≤ limit) :
    (probeTransfers net db none none none limit).length ≤ 2 * evts.length ∧
      ((probeTransfers net db none none none limit).map listed).Perm
        (evts.flatMap (shownEvent net blk n)) := by
  have hrows := h.movements_perm ht
  have hlen : ((db.balanceMovements.rows.filter (transferAdmitted none none none)).filterMap
      (joinMovement db)).length ≤ 2 * evts.length := by
    refine le_trans (List.length_filterMap_le _ _) (le_trans (List.length_filter_le _ _) ?_)
    rw [hrows.length_eq, List.length_map]
    exact length_keptOf_le evts
  simp only [probeTransfers]
  rw [List.take_of_length_le (by rw [List.length_reverse]; omega)]
  constructor
  · refine le_trans (List.length_filterMap_le _ _) ?_
    rw [List.length_reverse]
    exact hlen
  · rw [List.map_filterMap]
    refine ((List.reverse_perm _).filterMap _).trans ?_
    rw [List.filterMap_filterMap, List.filterMap_filter]
    refine (hrows.filterMap _).trans (List.Perm.of_eq ?_)
    rw [← h.shown_events ht fun p hp => hp]
    refine List.filterMap_congr fun m _ => ?_
    unfold shownOf
    split
    · rw [Option.map_bind]
      rfl
    · rfl

end AllfeatExplorer
