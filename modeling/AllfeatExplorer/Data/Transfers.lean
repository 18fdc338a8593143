import AllfeatExplorer.Data.Helpers.Transfers

/-!
# Transfers, stored and listed

A transfer is stored as two signed deltas and listed again off the
negative one. The sign carries an amount as long as it is positive and
fits an `i128` with its opposite; an amount of zero has no negative side,
and one past the top of `i128` has it on the other. So a block's
transfers come back exactly when each of their amounts fits.
-/

namespace AllfeatExplorer

open Projections Queries

variable {net : Network} {db : Db} {blk : NodeBlock} {n i : ℕ} {p : ℕ × NodeEvent}
  {evts : List (ℕ × NodeEvent)} {src dst : AccountId} {amount : ℕ}

/-! ## When they come back -/

/-- A transfer as it should be listed. -/
def expected (net : Network) (n i : ℕ) (m : AccountId × AccountId × ℕ) : ListedTransfer :=
  ⟨net.encodeSs58 m.1, net.encodeSs58 m.2.1, m.2.2, n, i⟩

theorem transfersOf_eq_flatMap : transfersOf net blk n evts =
    evts.flatMap fun p => ((transferIn blk p.2).map (expected net n p.1)).toList :=
  List.filterMap_eq_flatMap_toList _ _

/-- **Every transfer of the block fits its columns**: its key does, and its
amount comes back off its sign. -/
def TransfersFit (blk : NodeBlock) (n : ℕ) (evts : List (ℕ × NodeEvent)) : Prop :=
  ∀ p ∈ evts, ∀ src dst amount, transferIn blk p.2 = some (src, dst, amount) →
    n ≤ i64Max ∧ p.1 ≤ i32Max ∧ Representable src dst amount

/-- What is listed of an event has its key as it is read back. -/
theorem key_of_mem_shownEvent {t : ListedTransfer} (h : t ∈ shownEvent net blk n p) :
    t.block = (max (asI64 n) 0).toNat ∧ t.eventIdx = (max (asI32 p.1) 0).toNat ∧
      ∃ src dst amount, transferIn blk p.2 = some (src, dst, amount) := by
  unfold shownEvent at h
  rcases hm : transferIn blk p.2 with - | ⟨src, dst, amount⟩
  · rw [hm] at h
    cases h
  · rw [hm] at h
    obtain ⟨d, -, rfl⟩ := List.mem_map.mp h
    exact ⟨rfl, rfl, src, dst, amount, rfl⟩

/-- A number a column holds is read back, and no other. -/
theorem toNat_asI64_le (n : ℕ) : (max (asI64 n) 0).toNat ≤ i64Max := by
  simp only [asI64, i64Max]
  split <;> omega

theorem toNat_asI32_le (n : ℕ) : (max (asI32 n) 0).toNat ≤ i32Max := by
  simp only [asI32, i32Max]
  split <;> omega

/-- The amount of a transfer fits `u128`. -/
theorem amount_le_of_transferIn (ht : EventsTyped blk evts) (hp : p ∈ evts)
    (hm : transferIn blk p.2 = some (src, dst, amount)) : amount ≤ u128Max := by
  unfold transferIn at hm
  rcases hbody : p.2.body
  case transfer src' dst' amount' =>
    rw [hbody] at hm
    simp only [Option.ite_none_right_eq_some, Option.some.injEq, Prod.mk.injEq] at hm
    obtain ⟨-, rfl, rfl, rfl⟩ := hm
    exact ht.amount_le p hp _ _ _ hbody
  all_goals
    rw [hbody] at hm
    cases hm

/-- **A transfer that fits is listed once**, as it is. -/
theorem shownEvent_of_fits (ht : EventsTyped blk evts) (hfit : TransfersFit blk n evts)
    (hp : p ∈ evts) :
    shownEvent net blk n p = ((transferIn blk p.2).map (expected net n p.1)).toList := by
  unfold shownEvent
  rcases hm : transferIn blk p.2 with - | ⟨src, dst, amount⟩
  · rfl
  · obtain ⟨hn, hi, hrep⟩ := hfit p hp src dst amount hm
    have hblock : (max (asI64 n) 0).toNat = n := by
      rw [asI64_of_le hn]
      omega
    have hidx : (max (asI32 p.1) 0).toNat = p.1 := by
      rw [asI32_of_le hi]
      omega
    simp only [debits_kept (amount_le_of_transferIn ht hp hm) hrep, List.map_cons, List.map_nil,
      listedDebit, hblock, hidx, Option.map_some, Option.toList_some, expected]

/-- **The list is the block's transfers** exactly when all of them fit. -/
theorem shownEvents_perm_iff (net : Network) (ht : EventsTyped blk evts) :
    (evts.flatMap (shownEvent net blk n)).Perm (transfersOf net blk n evts) ↔
      TransfersFit blk n evts := by
  constructor
  swap
  · intro hfit
    rw [transfersOf_eq_flatMap, List.flatMap_congr fun p hp => shownEvent_of_fits ht hfit hp]
  intro hperm
  -- The key of a transfer is listed, and what is listed has keys that fit.
  have hkey : ∀ p ∈ evts, ∀ src dst amount, transferIn blk p.2 = some (src, dst, amount) →
      n ≤ i64Max ∧ p.1 ≤ i32Max := by
    intro p hp src dst amount hm
    have hmem : expected net n p.1 (src, dst, amount) ∈ transfersOf net blk n evts :=
      List.mem_filterMap.mpr ⟨p, hp, by rw [hm]; rfl⟩
    obtain ⟨q, -, hq⟩ := List.mem_flatMap.mp (hperm.mem_iff.mpr hmem)
    obtain ⟨hblock, hidx, -⟩ := key_of_mem_shownEvent hq
    constructor
    · calc n = (max (asI64 n) 0).toNat := hblock
        _ ≤ i64Max := toNat_asI64_le n
    · calc p.1 = (max (asI32 q.1) 0).toNat := hidx
        _ ≤ i32Max := toNat_asI32_le q.1
  intro p hp src dst amount hm
  obtain ⟨hn, hi⟩ := hkey p hp src dst amount hm
  refine ⟨hn, hi, ?_⟩
  -- So a key tells the transfers of one event from the others'.
  have hlisted : (evts.flatMap (shownEvent net blk n)).filter (fun t => t.eventIdx = p.1) =
      shownEvent net blk n p := by
    rw [List.filter_flatMap, flatMap_eq_of_mem ht.nodup hp]
    · refine List.filter_eq_self.mpr fun t ht' => decide_eq_true ?_
      rw [(key_of_mem_shownEvent ht').2.1, asI32_of_le hi]
      omega
    · intro q hq hne
      refine List.filter_eq_nil_iff.mpr fun t ht' => ?_
      obtain ⟨-, hidx, src', dst', amount', hmq⟩ := key_of_mem_shownEvent ht'
      have hqi := (hkey q hq src' dst' amount' hmq).2
      rw [hidx, asI32_of_le hqi, decide_eq_true_eq]
      omega
  have hexpected : (transfersOf net blk n evts).filter (fun t => t.eventIdx = p.1) =
      [expected net n p.1 (src, dst, amount)] := by
    rw [transfersOf_eq_flatMap, List.filter_flatMap, flatMap_eq_of_mem ht.nodup hp]
    · simp only [hm, Option.map_some, Option.toList_some, expected, decide_true,
        List.filter_cons_of_pos, List.filter_nil]
    · intro q _ hne
      refine List.filter_eq_nil_iff.mpr fun t ht' => ?_
      obtain ⟨m, -, rfl⟩ := Option.map_eq_some_iff.mp (Option.mem_toList.mp ht')
      rw [decide_eq_true_eq]
      exact hne
  have hone := hperm.filter fun t => t.eventIdx = p.1
  rw [hlisted, hexpected, List.perm_singleton] at hone
  have hamounts := congrArg (List.map ListedTransfer.amount) hone
  simp only [shownEvent, hm, List.map_map, List.map_cons, List.map_nil, expected] at hamounts
  exact representable_of_debits (amount_le_of_transferIn ht hp hm) hamounts

/-! ## Stored and listed -/

/-- What the three sinks leave of a block holds the block. -/
theorem holdsOnly_of_inserts (blk : NodeBlock) (n : ℕ) (evts : List (ℕ × NodeEvent)) (db : Db) :
    Db.HoldsOnly
      { db with
        extrinsics := Table.empty.insertAll
          ((Extrinsics.map blk n).map (Sink.extrinsicRow (fetchTimestamp blk)))
        events := Table.empty.insertAll
          ((evts.map fun p => Events.mapOne n p.1 p.2).map (Sink.eventRow (fetchTimestamp blk)))
        balanceMovements := Table.empty.insertAll ((keptOf n (decodedOf evts)).map movementRow) }
      blk n evts :=
  ⟨rfl, rfl, rfl⟩

/-- **An unfiltered page that takes all rows** is all of them. -/
theorem listTransfersPageBounded_eq {parseSs58 : String → Option AccountId} {count : ℕ}
    (hcount : 0 < count)
    (hlen : (probeTransfers net db none none none (count + 1)).length ≤ count) :
    listTransfersPageBounded net parseSs58 db none ⟨none, none⟩ ⟨count, none⟩ =
      .ok ⟨(probeTransfers net db none none none (count + 1)).map Prod.fst,
        ⟨none, none, false⟩⟩ := by
  have htrim : trimProbe count (probeTransfers net db none none none (count + 1)) =
      (probeTransfers net db none none none (count + 1), false) :=
    if_neg (not_lt.mpr hlen)
  rw [listTransfersPageBounded, listProbedTransfers, if_neg (Nat.ne_of_gt hcount)]
  simp only [parseCursor, parseSs58Filter, ok_bind, tightest, htrim]
  rfl

/-- **A block's transfers, projected, stored and listed**, are listed once
each and nothing else is, exactly when all of them fit. -/
theorem transfers_listed_iff (net : Network) (parseSs58 : String → Option AccountId)
    (ht : EventsTyped blk evts) (hblock : db.blocks.contains (asI64 n) = true)
    (hextrinsics : db.extrinsics = .empty) (hevents : db.events = .empty)
    (hmovements : db.balanceMovements = .empty) :
    ∃ xs es ms,
      Sink.insertExtrinsics db.blocks db.extrinsics (fetchTimestamp blk) (Extrinsics.map blk n) =
        .ok xs ∧
      Sink.insertEvents db.blocks db.events (fetchTimestamp blk)
        (evts.map fun p => Events.mapOne n p.1 p.2) = .ok es ∧
      Sink.insertBalanceMovements db.blocks db.balanceMovements
        (Balances.project (decodedOf evts) n) = .ok ms ∧
      ∀ count, 2 * evts.length < count → ∃ probed,
        probed = probeTransfers net
          { db with extrinsics := xs, events := es, balanceMovements := ms } none none none
          (count + 1) ∧
        listTransfersPageBounded net parseSs58
          { db with extrinsics := xs, events := es, balanceMovements := ms } none ⟨none, none⟩
          ⟨count, none⟩ = .ok ⟨probed.map Prod.fst, ⟨none, none, false⟩⟩ ∧
        ((probed.map listed).Perm (transfersOf net blk n evts) ↔ TransfersFit blk n evts) := by
  rw [hextrinsics, hevents, hmovements]
  refine ⟨_, _, _, insertOfBlock_of_contains (by decide) ?_,
    insertOfBlock_of_contains (by decide) ?_, insertBalanceMovements_eq hblock, ?_⟩
  · intro r hr
    obtain ⟨row, hrow, rfl⟩ := List.mem_map.mp hr
    obtain ⟨j, hj, rfl⟩ := List.mem_mapIdx.mp hrow
    exact hblock
  · intro r hr
    obtain ⟨row, hrow, rfl⟩ := List.mem_map.mp hr
    obtain ⟨p, hp, rfl⟩ := List.mem_map.mp hrow
    exact hblock
  · intro count hcount
    obtain ⟨hlen, hperm⟩ :=
      (holdsOnly_of_inserts blk n evts db).probe_perm net (count + 1) ht (by omega)
    refine ⟨_, rfl, listTransfersPageBounded_eq (by omega) (by omega), ?_⟩
    rw [← shownEvents_perm_iff net ht]
    exact ⟨fun h => hperm.symm.trans h, fun h => hperm.trans h⟩

/-! ## One transfer -/

/-- A transfer of an amount, by the first extrinsic of its block. -/
def transferEvent (amount : ℕ) : NodeEvent :=
  ⟨.applyExtrinsic 0, .transfer (.fill 1) (.fill 2) amount, []⟩

/-- Block 1, with one extrinsic that transfers. -/
def transferBlock (amount : ℕ) : NodeBlock :=
  { bareChain 1 with
    extrinsics :=
      [{ hash := .fill 1
         palletName := "Balances"
         callName := "transfer"
         addressBytes := some (some (.id (.fill 1)))
         nonce := some 0
         tip := none
         callData := []
         byteLength := 5 }]
    events := [transferEvent amount] }

/-- A database with the row of that block and nothing else of it. -/
def transferDb (amount : ℕ) : Db :=
  { Db.empty with
    blocks := Table.empty.insertNew 1 (Sink.blockRow (Blocks.map (transferBlock amount) 1) none) }

theorem transferBlock_typed (h : amount ≤ u128Max) :
    EventsTyped (transferBlock amount) [(0, transferEvent amount)] where
  nodup := List.nodup_singleton _
  index_le := by
    intro p hp
    rw [List.mem_singleton.mp hp]
    exact Nat.zero_le _
  phase_le := by
    intro p hp x hx
    rw [List.mem_singleton.mp hp] at hx
    cases hx
    exact Nat.zero_le _
  amount_le := by
    intro p hp src dst amount' hbody
    rw [List.mem_singleton.mp hp] at hbody
    cases hbody
    exact h
  extrinsics_le := by
    have hlen : (transferBlock amount).extrinsics.length = 1 := rfl
    rw [hlen]
    decide

/-- A transfer of 5 fits, and is listed. -/
theorem transfer_of_five_listed :
    ∃ xs es ms, ∃ probed : List (Transfer × ℕ × ℕ),
      listTransfersPageBounded plainNetwork (fun _ => none)
        { transferDb 5 with extrinsics := xs, events := es, balanceMovements := ms } none
        ⟨none, none⟩ ⟨25, none⟩ = .ok ⟨probed.map Prod.fst, ⟨none, none, false⟩⟩ ∧
      (probed.map listed).Perm
        (transfersOf plainNetwork (transferBlock 5) 1 [(0, transferEvent 5)]) := by
  have hfit : TransfersFit (transferBlock 5) 1 [(0, transferEvent 5)] := by
    intro p hp src dst amount hm
    rw [List.mem_singleton.mp hp] at hm ⊢
    cases hm
    exact ⟨by decide, by decide, by decide, .inl (by decide)⟩
  have hblock : (transferDb 5).blocks.contains (asI64 1) = true := by decide
  have htyped : EventsTyped (transferBlock 5) [(0, transferEvent 5)] :=
    transferBlock_typed (by decide)
  obtain ⟨xs, es, ms, -, -, -, hpages⟩ := transfers_listed_iff plainNetwork (fun _ => none)
    htyped hblock rfl rfl rfl
  obtain ⟨probed, -, hlist, hiff⟩ := hpages 25 (by decide)
  exact ⟨xs, es, ms, probed, hlist, hiff.mpr hfit⟩

/-- **A transfer of 0 is stored and not listed.** -/
theorem zero_transfer_not_listed :
    transfersOf plainNetwork (transferBlock 0) 1 [(0, transferEvent 0)] =
      [⟨"account", "account", 0, 1, 0⟩] ∧
    ∃ xs es ms,
      Sink.insertExtrinsics (transferDb 0).blocks (transferDb 0).extrinsics
        (fetchTimestamp (transferBlock 0)) (Extrinsics.map (transferBlock 0) 1) = .ok xs ∧
      Sink.insertEvents (transferDb 0).blocks (transferDb 0).events
        (fetchTimestamp (transferBlock 0))
        ([(0, transferEvent 0)].map fun p => Events.mapOne 1 p.1 p.2) = .ok es ∧
      Sink.insertBalanceMovements (transferDb 0).blocks (transferDb 0).balanceMovements
        (Balances.project (decodedOf [(0, transferEvent 0)]) 1) = .ok ms ∧
      listTransfersPageBounded plainNetwork (fun _ => none)
        { transferDb 0 with extrinsics := xs, events := es, balanceMovements := ms } none
        ⟨none, none⟩ ⟨25, none⟩ = .ok ⟨[], ⟨none, none, false⟩⟩ :=
  ⟨rfl, _, _, _, rfl, rfl, rfl, rfl⟩

end AllfeatExplorer
