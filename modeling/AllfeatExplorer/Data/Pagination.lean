import AllfeatExplorer.Data.Helpers.Paging
import AllfeatExplorer.Lib.StableSort

/-!
# The database lists are paged by their keys

Extrinsics, transfers, ATS records and ATS versions: each list reads rows
below its cursor in the order of a key and takes the cursor to the next
page off the last row it keeps. Where the rows are as the indexer writes
them, so that each converts and is shown under its own key, a walk loses
none and repeats none, whatever is written between two pages.
-/

namespace AllfeatExplorer

open Projections Queries

variable {net : Network} {db : Db} {count : ℕ}

/-! ## Extrinsics -/

/-- The key of an extrinsic listed. -/
def extrinsicKey (e : Extrinsic) : ℕ ×ₗ ℕ := toLex (e.blockNumber, e.index)

/-- The keys of the rows that satisfy the filters, newest first. -/
def extrinsicKeys (filters : ExtrinsicFilters) (db : Db) : List (ℕ ×ₗ ℕ) :=
  ((db.extrinsics.rows.filter (extrinsicAdmitted filters)).reverse).map fun r => natKey r.1

/-- Extrinsics are under keys that are not negative. -/
def ExtrinsicsSound (db : Db) : Prop := ∀ r ∈ db.extrinsics.rows, KeyFits r.1

/-- Filling in events keeps the key. -/
theorem extrinsicKey_fillEvents {x : Extrinsic} {evs : Option (List EventRef)} :
    extrinsicKey (fillEvents x evs) = extrinsicKey x := by
  rcases evs with - | evs <;> rfl

theorem map_hydrateByPair {β : Type} {f : Extrinsic → β} (hf : ∀ x evs, f (fillEvents x evs) = f x)
    {byPair : Buckets (ℕ × ℕ) EventRef} {xts : List Extrinsic} :
    (hydrateByPair byPair xts).map f = xts.map f := by
  induction xts generalizing byPair with
  | nil => rfl
  | cons x xts ih => rw [hydrateByPair, List.map_cons, List.map_cons, hf, ih]

/-- **Hydration keeps what events do not touch.** -/
theorem map_hydrateEvents {β : Type} {f : Extrinsic → β} (hf : ∀ x evs, f (fillEvents x evs) = f x)
    {xts : List Extrinsic} : (hydrateEvents net db xts).map f = xts.map f := by
  unfold hydrateEvents
  split
  · rfl
  · split
    · rw [List.map_map]
      exact List.map_congr_left fun x _ => hf x _
    · exact map_hydrateByPair hf

theorem map_key_hydrateEvents {xts : List Extrinsic} :
    (hydrateEvents net db xts).map extrinsicKey = xts.map extrinsicKey :=
  map_hydrateEvents fun _ _ => extrinsicKey_fillEvents

/-- The text of an extrinsic's cursor. -/
def extrinsicCursorText (k : ℕ ×ₗ ℕ) : String := extrinsicCursor.toText (ofLex k)

/-- **The extrinsics' list** is paged by `(block, index)`. -/
theorem listExtrinsics_paged (net : Network) (filters : ExtrinsicFilters) :
    PagedByKey (fun db => listExtrinsicsPageBounded net db none filters) extrinsicKey
      (extrinsicKeys filters) ExtrinsicsSound := by
  refine .of_probe CursorFits extrinsicCursorText
    (fun db : Db => (db.extrinsics.rows.filter (extrinsicAdmitted filters)).reverse)
    (fun r => natKey r.1) ?_ ?_ ?_
  · intro count hcount db c hsound hc
    have hcursor : parseCursor extrinsicCursor ⟨count, c.map extrinsicCursorText⟩ =
        .ok (c.map ofLex) := parseCursor_lex extrinsicCursor_roundTrips hc
    -- The rows below the cursor, in the order of the list.
    have hrows : (db.extrinsics.rows.filter fun r =>
          extrinsicAdmitted filters r && belowUpper (tightest (c.map ofLex) none) r.1).reverse =
        ((db.extrinsics.rows.filter (extrinsicAdmitted filters)).reverse).filter
          fun r => below c (natKey r.1) := by
      rw [← List.filter_reverse, ← List.filter_reverse, List.filter_filter, tightest_none]
      refine List.filter_congr fun r hr => ?_
      rw [belowUpper_eq (hsound r (List.mem_reverse.mp hr)) hc, Bool.and_comm]
    generalize ((db.extrinsics.rows.filter (extrinsicAdmitted filters)).reverse).filter
      (fun r => below c (natKey r.1)) = kept at hrows ⊢
    have hpage : listExtrinsicsPageBounded net db none filters
          ⟨count, c.map extrinsicCursorText⟩ =
        .ok
          { items := hydrateEvents net db ((kept.take count).map (rowToExtrinsic net))
            pageInfo :=
              { total := none
                nextCursor := nextCursor (decide (count < kept.length))
                  (fun e => extrinsicCursorText (extrinsicKey e))
                  (hydrateEvents net db ((kept.take count).map (rowToExtrinsic net)))
                hasMore := decide (count < kept.length) } } := by
      rw [listExtrinsicsPageBounded, if_neg (by change ¬ count = 0; omega)]
      simp only [hcursor, ok_bind, hrows, trimProbe_map, trimProbe_take]
      rfl
    refine ⟨_, hpage, ?_, ?_⟩
    · rw [map_key_hydrateEvents, List.map_map]
      rfl
    · rw [nextCursor_eq extrinsicKey extrinsicCursorText]
      simp only [decide_eq_true_eq]
  · intro db hsound r hr
    exact (hsound r (List.mem_of_mem_filter (List.mem_reverse.mp hr))).cursorFits
  · intro db hsound
    refine List.pairwise_reverse.mpr ?_
    refine (db.extrinsics.sorted.filter _).imp_of_mem fun {a b} ha hb hab => ?_
    exact (natKey_lt_natKey (hsound a (List.mem_of_mem_filter ha))
      (hsound b (List.mem_of_mem_filter hb))).mpr hab

/-! ## Transfers -/

/-- The `(block, event_idx)` of a movement. -/
def eventKey (m : (ℤ ×ₗ ℤ ×ₗ AccountId) × StoredMovement) : ℤ ×ₗ ℤ :=
  toLex ((ofLex m.1).1, (ofLex (ofLex m.1).2).1)

/-- The rows that satisfy the filters, newest first. -/
def transferRows (fromBytes toBytes : Option AccountId) (db : Db) : List TransferRow :=
  ((db.balanceMovements.rows.filter (transferAdmitted fromBytes toBytes none)).filterMap
    (joinMovement db)).reverse

/-- The key of such a row, as it is shown. -/
def Queries.TransferRow.key (row : TransferRow) : ℕ ×ₗ ℕ :=
  natKey (toLex (row.blockNum, row.eventIdx))

/-- The key of a transfer listed. -/
def transferKey (p : Transfer × ℕ × ℕ) : ℕ ×ₗ ℕ := toLex p.2

/-- The text of a transfer's cursor. -/
def transferCursorText (k : ℕ ×ₗ ℕ) : String := transferCursor.toText (ofLex k)

/-- Whether a movement is the debit of a transfer. -/
def IsDebit (m : (ℤ ×ₗ ℤ ×ₗ AccountId) × StoredMovement) : Prop :=
  m.2.kind = MovementKind.transfer.asI16 ∧ m.2.delta < 0

instance : DecidablePred IsDebit := fun _ => inferInstanceAs (Decidable (_ ∧ _))

/-- **Movements are as the indexer writes them**: under keys that are not
negative, one debit an event, and a debit has a counterparty and a delta
that fits `i128`. -/
structure TransfersSound (db : Db) : Prop where
  fits : ∀ m ∈ db.balanceMovements.rows, KeyFits (eventKey m)
  unique : ∀ m ∈ db.balanceMovements.rows, ∀ m' ∈ db.balanceMovements.rows, IsDebit m →
    IsDebit m' → eventKey m = eventKey m' → m = m'
  counterparty : ∀ m ∈ db.balanceMovements.rows, IsDebit m → m.2.counterparty.isSome
  delta_ge : ∀ m ∈ db.balanceMovements.rows, IsDebit m →
    -170141183460469231731687303715884105728 ≤ m.2.delta

variable {fromBytes toBytes : Option AccountId}

/-- The bound is one more filter. -/
theorem transferAdmitted_eq {upper : Option (ℕ × ℕ)}
    {m : (ℤ ×ₗ ℤ ×ₗ AccountId) × StoredMovement} :
    transferAdmitted fromBytes toBytes upper m =
      (transferAdmitted fromBytes toBytes none m && belowUpper upper (eventKey m)) := by
  have hnone : ∀ k, belowUpper none k = true := fun _ => rfl
  unfold transferAdmitted eventKey
  rw [hnone, Bool.and_true]
  rcases belowUpper upper (toLex ((ofLex m.1).1, (ofLex (ofLex m.1).2).1)) with - | -
  · simp only [Bool.and_false, Bool.false_and]
  · simp only [Bool.and_true]

theorem isDebit_of_admitted {m : (ℤ ×ₗ ℤ ×ₗ AccountId) × StoredMovement}
    (h : transferAdmitted fromBytes toBytes none m = true) : IsDebit m := by
  simp only [transferAdmitted, Bool.and_eq_true, decide_eq_true_eq] at h
  exact ⟨h.1.1.1.1, h.1.1.1.2⟩

/-- What a joined row has of its movement. -/
theorem joinMovement_eq {m : (ℤ ×ₗ ℤ ×ₗ AccountId) × StoredMovement} {row : TransferRow}
    (h : joinMovement db m = some row) :
    toLex (row.blockNum, row.eventIdx) = eventKey m ∧ row.counterparty = m.2.counterparty ∧
      row.delta = m.2.delta ∧ row.phaseIdx.isSome := by
  simp only [joinMovement, Option.bind_eq_bind, Option.bind_eq_some_iff, Option.pure_def,
    Option.some.injEq] at h
  obtain ⟨event, -, phaseIdx, hphase, extrinsic, -, rfl⟩ := h
  exact ⟨rfl, rfl, rfl, by simp [hphase]⟩

/-- A row comes from a movement that satisfies the filters. -/
theorem exists_of_mem_transferRows {row : TransferRow}
    (h : row ∈ transferRows fromBytes toBytes db) :
    ∃ m ∈ db.balanceMovements.rows, transferAdmitted fromBytes toBytes none m = true ∧
      joinMovement db m = some row := by
  obtain ⟨m, hm, hjoin⟩ := List.mem_filterMap.mp (List.mem_reverse.mp h)
  obtain ⟨hmem, hadm⟩ := List.mem_filter.mp hm
  exact ⟨m, hmem, hadm, hjoin⟩

/-- **A sound row converts**, and is shown under its key. -/
theorem TransfersSound.probe (h : TransfersSound db) {row : TransferRow}
    (hrow : row ∈ transferRows fromBytes toBytes db) :
    ∃ p, probeTransfer net row = some p ∧ transferKey p = row.key := by
  obtain ⟨m, hm, hadm, hjoin⟩ := exists_of_mem_transferRows hrow
  obtain ⟨-, hcounterparty, hdelta, hphase⟩ := joinMovement_eq hjoin
  have hdebit := isDebit_of_admitted hadm
  obtain ⟨c, hc⟩ := Option.isSome_iff_exists.mp (h.counterparty m hm hdebit)
  obtain ⟨i, hi⟩ := Option.isSome_iff_exists.mp hphase
  have hparse : parseI128 row.delta = some row.delta := by
    have hlow := h.delta_ge m hm hdebit
    have hneg := hdebit.2
    rw [hdelta]
    exact if_pos ⟨hlow, by omega⟩
  simp only [probeTransfer, rowToTransfer, hi, hcounterparty, hc, hparse, Option.bind_eq_bind,
    Option.bind_some, Option.map_some, Option.pure_def]
  exact ⟨_, rfl, rfl⟩

/-- The rows below a cursor, in the order of the list. -/
theorem TransfersSound.rows_below (h : TransfersSound db) (fromBytes toBytes : Option AccountId)
    {c : Option (ℕ ×ₗ ℕ)} (hc : ∀ k ∈ c, CursorFits k) :
    ((db.balanceMovements.rows.filter
        (transferAdmitted fromBytes toBytes (tightest (c.map ofLex) none))).filterMap
        (joinMovement db)).reverse =
      (transferRows fromBytes toBytes db).filter fun row => below c row.key := by
  rw [transferRows, List.filter_reverse, List.filter_filterMap, List.filterMap_filter,
    List.filterMap_filter, tightest_none]
  refine congrArg List.reverse (List.filterMap_congr fun m hm => ?_)
  rw [transferAdmitted_eq, belowUpper_eq (h.fits m hm) hc]
  by_cases hadm : transferAdmitted fromBytes toBytes none m = true
  · rw [hadm, Bool.true_and, if_pos rfl]
    rcases hjoin : joinMovement db m with - | row
    · rw [ite_self]
      rfl
    · have hkey : row.key = natKey (eventKey m) := congrArg natKey (joinMovement_eq hjoin).1
      rw [← hkey, Option.filter_some]
  · rw [if_neg hadm, if_neg (by simp [hadm])]

/-- **The transfers' list** is paged by `(block, event index)`. -/
theorem listTransfers_paged (net : Network) {parseSs58 : String → Option AccountId}
    {filters : TransferFilters}
    (hfrom : parseSs58Filter parseSs58 "from" filters.fromAddr = .ok fromBytes)
    (hto : parseSs58Filter parseSs58 "to" filters.toAddr = .ok toBytes) :
    PagedByKey (fun db => listProbedTransfers net parseSs58 db none filters) transferKey
      (fun db => (transferRows fromBytes toBytes db).map TransferRow.key) TransfersSound := by
  refine .of_probe CursorFits transferCursorText (transferRows fromBytes toBytes)
    TransferRow.key ?_ ?_ ?_
  · intro count hcount db c hsound hc
    have hcursor : parseCursor transferCursor ⟨count, c.map transferCursorText⟩ =
        .ok (c.map ofLex) := parseCursor_lex transferCursor_roundTrips hc
    have hrows := hsound.rows_below fromBytes toBytes hc
    have hconverts : ∀ row ∈ (transferRows fromBytes toBytes db).filter fun row => below c row.key,
        ∃ p, probeTransfer net row = some p ∧ transferKey p = row.key :=
      fun row hrow => hsound.probe (List.mem_of_mem_filter hrow)
    generalize (transferRows fromBytes toBytes db).filter (fun row => below c row.key) = kept
      at hrows hconverts ⊢
    have hkeys : (probeTransfers net db fromBytes toBytes (tightest (c.map ofLex) none)
        (count + 1)).map transferKey = (kept.take (count + 1)).map TransferRow.key := by
      simp only [probeTransfers, hrows]
      rw [List.map_filterMap, ← List.filterMap_eq_map]
      refine List.filterMap_congr fun row hrow => ?_
      obtain ⟨p, hp, hkey⟩ := hconverts row (List.mem_of_mem_take hrow)
      rw [hp, Option.map_some, hkey]
      rfl
    obtain ⟨hitems, hmore⟩ := trimProbe_of_keys hkeys
    have hpage : listProbedTransfers net parseSs58 db none filters
          ⟨count, c.map transferCursorText⟩ =
        .ok
          { items := (trimProbe count (probeTransfers net db fromBytes toBytes
              (tightest (c.map ofLex) none) (count + 1))).1
            pageInfo :=
              { total := none
                nextCursor := nextCursor (decide (count < kept.length))
                  (fun p => transferCursorText (transferKey p))
                  (trimProbe count (probeTransfers net db fromBytes toBytes
                    (tightest (c.map ofLex) none) (count + 1))).1
                hasMore := decide (count < kept.length) } } := by
      rw [listProbedTransfers, if_neg (by change ¬ count = 0; omega)]
      simp only [hcursor, ok_bind, hfrom, hto]
      rw [← hmore]
      rfl
    refine ⟨_, hpage, hitems, ?_⟩
    rw [nextCursor_eq transferKey transferCursorText]
    simp only [decide_eq_true_eq]
  · intro db hsound row hrow
    obtain ⟨m, hm, -, hjoin⟩ := exists_of_mem_transferRows hrow
    rw [TransferRow.key, (joinMovement_eq hjoin).1]
    exact (hsound.fits m hm).cursorFits
  · intro db hsound
    refine List.pairwise_reverse.mpr (List.pairwise_filterMap.mpr ?_)
    refine (db.balanceMovements.sorted.filter _).imp_of_mem fun {m m'} hm hm' hlt => ?_
    intro row hjoin row' hjoin'
    obtain ⟨hmem, hadm⟩ := List.mem_filter.mp hm
    obtain ⟨hmem', hadm'⟩ := List.mem_filter.mp hm'
    rw [TransferRow.key, TransferRow.key, (joinMovement_eq hjoin).1, (joinMovement_eq hjoin').1,
      natKey_lt_natKey (hsound.fits m hmem) (hsound.fits m' hmem')]
    -- The keys ascend with the rows, and no two debits have one.
    have hle : eventKey m ≤ eventKey m' := by
      rw [Prod.Lex.lt_iff, Prod.Lex.lt_iff] at hlt
      rw [Prod.Lex.le_iff]
      rcases hlt with hlt | ⟨heq, hlt | ⟨heq', -⟩⟩
      · exact .inl hlt
      · exact .inr ⟨heq, le_of_lt hlt⟩
      · exact .inr ⟨heq, le_of_eq heq'⟩
    refine lt_of_le_of_ne hle fun heq => ?_
    have hsame := hsound.unique m hmem m' hmem' (isDebit_of_admitted hadm)
      (isDebit_of_admitted hadm') heq
    rw [hsame] at hlt
    exact lt_irrefl _ hlt

/-! ## ATS records -/

/-- The id of a registry row, as it is shown. -/
def registryKey (r : ℤ × AtsRegistryEntry) : ℕ := (max r.1 0).toNat

/-- The ids registered, newest first. -/
def registryKeys (db : Db) : List ℕ := db.ats.parents.rows.reverse.map registryKey

/-- Ids fit `u32`. -/
def RegistrySound (db : Db) : Prop := ∀ r ∈ db.ats.parents.rows, 0 ≤ r.1 ∧ r.1 ≤ u32Max

/-- Such an id is shown as it is. -/
theorem rowAtsId_of_le {id : ℤ} (h : id ≤ u32Max) : rowAtsId id = (max id 0).toNat := by
  unfold rowAtsId atsIdU32
  rw [if_pos (by omega)]

theorem map_atsId_hydrateById {byId : Buckets ℤ AtsVersion} {regs : List RegistryRow} :
    (hydrateById net byId regs).map AtsRecord.atsId = regs.map fun r => rowAtsId r.id := by
  induction regs generalizing byId with
  | nil => rfl
  | cons reg regs ih =>
    rw [hydrateById, List.map_cons, List.map_cons, ih]
    rfl

/-- **Hydration keeps the records.** -/
theorem map_atsId_hydrateRecords {regs : List RegistryRow} :
    (hydrateRecords net db regs).map AtsRecord.atsId = regs.map fun r => rowAtsId r.id := by
  unfold hydrateRecords
  split
  · rename_i hempty
    rw [List.isEmpty_iff.mp hempty]
    rfl
  · exact map_atsId_hydrateById

/-- **The records' list** is paged by the id. -/
theorem listAts_paged (net : Network) :
    PagedByKey (fun db => listAtsPage net db) AtsRecord.atsId registryKeys RegistrySound := by
  refine .of_probe (fun id => id ≤ u32Max) atsCursor.toText
    (fun db : Db => db.ats.parents.rows.reverse) registryKey ?_ ?_ ?_
  · intro count hcount db c hsound hc
    have hcursor : parseCursor atsCursor ⟨count, c.map atsCursor.toText⟩ = .ok c :=
      parseCursor_toText atsCursor_roundTrips hc
    have hrows : (db.ats.parents.rows.filter fun r =>
          c.all fun id => decide (r.1 < asI64 id)).reverse =
        db.ats.parents.rows.reverse.filter fun r => below c (registryKey r) := by
      rw [List.filter_reverse]
      refine congrArg List.reverse (List.filter_congr fun r hr => ?_)
      obtain ⟨hnonneg, -⟩ := hsound r hr
      rcases c with - | c
      · rfl
      · have hid : c ≤ i64Max := by
          have hle := hc c rfl
          simp only [u32Max] at hle
          simp only [i64Max]
          omega
        simp only [Option.all_some, below, registryKey, asI64_of_le hid]
        exact decide_eq_decide.mpr (by omega)
    have hids : ∀ r ∈ db.ats.parents.rows.reverse.filter fun r => below c (registryKey r),
        rowAtsId r.1 = registryKey r := by
      intro r hr
      exact rowAtsId_of_le (hsound r (List.mem_reverse.mp (List.mem_of_mem_filter hr))).2
    generalize db.ats.parents.rows.reverse.filter (fun r => below c (registryKey r)) = kept
      at hrows hids ⊢
    have hpage : listAtsPage net db ⟨count, c.map atsCursor.toText⟩ =
        .ok
          { items := hydrateRecords net db ((kept.take count).map (registryRow db))
            pageInfo :=
              { total := some (registryTotal db)
                nextCursor := nextCursor (decide (count < kept.length))
                  (fun r => atsCursor.toText (rowAtsId r.id))
                  ((kept.take count).map (registryRow db))
                hasMore := decide (count < kept.length) } } := by
      rw [listAtsPage, if_neg (by change ¬ count = 0; omega)]
      simp only [hcursor, ok_bind, hrows, trimProbe_map, trimProbe_take]
      rfl
    have hitems : ((kept.take count).map (registryRow db)).map (fun r => rowAtsId r.id) =
        (kept.take count).map registryKey := by
      rw [List.map_map]
      exact List.map_congr_left fun r hr => hids r (List.mem_of_mem_take hr)
    refine ⟨_, hpage, ?_, ?_⟩
    · exact map_atsId_hydrateRecords.trans hitems
    · rw [nextCursor_eq (fun r : RegistryRow => rowAtsId r.id) atsCursor.toText,
        map_atsId_hydrateRecords]
      simp only [decide_eq_true_eq]
  · intro db hsound r hr
    have hfit := hsound r (List.mem_reverse.mp hr)
    change (max r.1 0).toNat ≤ u32Max
    omega
  · intro db hsound
    refine List.pairwise_reverse.mpr (db.ats.parents.sorted.imp_of_mem fun {a b} ha hb hab => ?_)
    have hfit := hsound a ha
    have hfit' := hsound b hb
    change (max a.1 0).toNat < (max b.1 0).toNat
    omega

/-! ## ATS versions -/

/-- A `(block_num, ats_id, version)` as it is shown. -/
def natFeedKey (k : ℤ ×ₗ ℤ ×ₗ ℤ) : ℕ ×ₗ ℕ ×ₗ ℕ :=
  toLex ((max (ofLex k).1 0).toNat, natKey (ofLex k).2)

/-- The key of a version listed. -/
def feedKey (item : AtsFeedItem) : ℕ ×ₗ ℕ ×ₗ ℕ :=
  toLex (item.blockNumber, toLex (item.atsId, item.versionIndex))

/-- The order of the feed: newest first. -/
def feedOrder (a b : FeedRow) : Bool := decide (b.key ≤ a.key)

/-- The versions with their records, newest first. -/
def feedRows (db : Db) : List FeedRow :=
  (db.ats.children.rows.filterMap (feedRow db)).mergeSort feedOrder

/-- The keys of the versions, newest first. -/
def feedKeys (db : Db) : List (ℕ ×ₗ ℕ ×ₗ ℕ) := (feedRows db).map fun r => natFeedKey r.key

/-- **A key of the feed that fits its cursor.** -/
structure FeedFits (k : ℤ ×ₗ ℤ ×ₗ ℤ) : Prop where
  block_nonneg : 0 ≤ (ofLex k).1
  block_le : (ofLex k).1 ≤ i64Max
  id_nonneg : 0 ≤ (ofLex (ofLex k).2).1
  id_le : (ofLex (ofLex k).2).1 ≤ u32Max
  version_nonneg : 0 ≤ (ofLex (ofLex k).2).2
  version_le : (ofLex (ofLex k).2).2 ≤ i32Max

/-- Versions are under keys that fit. -/
def FeedSound (db : Db) : Prop :=
  ∀ v ∈ db.ats.children.rows, FeedFits (toLex (v.2.blockNum, v.1))

/-- A cursor of the feed whose numbers fit. -/
def FeedCursorFits (c : ℕ ×ₗ ℕ ×ₗ ℕ) : Prop :=
  (ofLex c).1 ≤ i64Max ∧ (ofLex (ofLex c).2).1 ≤ u32Max ∧ (ofLex (ofLex c).2).2 ≤ i32Max

/-- The parts of a cursor. -/
def feedParts (c : ℕ ×ₗ ℕ ×ₗ ℕ) : ℕ × ℕ × ℕ := ((ofLex c).1, ofLex (ofLex c).2)

/-- The text of a cursor. -/
def feedCursorText (c : ℕ ×ₗ ℕ ×ₗ ℕ) : String := atsFeedCursor.toText (feedParts c)

theorem FeedFits.cursorFits {k : ℤ ×ₗ ℤ ×ₗ ℤ} (h : FeedFits k) : FeedCursorFits (natFeedKey k) := by
  obtain ⟨h₁, h₂, h₃, h₄, h₅, h₆⟩ := h
  refine ⟨?_, ?_, ?_⟩
  · change (max (ofLex k).1 0).toNat ≤ i64Max
    omega
  · change (max (ofLex (ofLex k).2).1 0).toNat ≤ u32Max
    omega
  · change (max (ofLex (ofLex k).2).2 0).toNat ≤ i32Max
    omega

/-- Keys of the feed are shown in their order. -/
theorem natFeedKey_lt_natFeedKey {k k' : ℤ ×ₗ ℤ ×ₗ ℤ} (h : FeedFits k) (h' : FeedFits k') :
    natFeedKey k < natFeedKey k' ↔ k < k' := by
  have h₁ := h.block_nonneg
  have h₂ := h.id_nonneg
  have h₃ := h.version_nonneg
  have h₄ := h'.block_nonneg
  have h₅ := h'.id_nonneg
  have h₆ := h'.version_nonneg
  simp only [natFeedKey, natKey, Prod.Lex.lt_iff, ofLex_toLex]
  omega

/-- The `WHERE` of the feed compares the keys shown. -/
theorem feedBelow_eq {k : ℤ ×ₗ ℤ ×ₗ ℤ} {c : Option (ℕ ×ₗ ℕ ×ₗ ℕ)} (h : FeedFits k)
    (hc : ∀ k ∈ c, FeedCursorFits k) :
    ((c.map feedParts).all fun c =>
      decide (k < toLex (asI64 c.1, toLex ((c.2.1 : ℤ), asI32 c.2.2)))) =
      below c (natFeedKey k) := by
  rcases c with - | c
  · rfl
  · obtain ⟨hblock, -, hversion⟩ := hc c rfl
    have h₁ := h.block_nonneg
    have h₂ := h.id_nonneg
    have h₃ := h.version_nonneg
    simp only [Option.map_some, Option.all_some, below, feedParts, asI64_of_le hblock,
      asI32_of_le hversion]
    refine decide_eq_decide.mpr ?_
    simp only [natFeedKey, natKey, Prod.Lex.lt_iff, ofLex_toLex]
    omega

/-- What a row of the feed has of its version. -/
theorem feedRow_key {v : (ℤ ×ₗ ℤ) × AtsVersionEntry} {row : FeedRow}
    (h : feedRow db v = some row) : row.key = toLex (v.2.blockNum, v.1) := by
  obtain ⟨r, -, rfl⟩ := Option.map_eq_some_iff.mp h
  rfl

/-- **Sorting commutes with the `WHERE`.** -/
theorem mergeSort_filter_feed (p : FeedRow → Bool) :
    ((db.ats.children.rows.filterMap (feedRow db)).filter p).mergeSort feedOrder =
      (feedRows db).filter p :=
  mergeSort_filter_desc FeedRow.key p _

/-- A row of a sound table has a key that fits. -/
theorem FeedSound.fits (h : FeedSound db) {row : FeedRow} (hrow : row ∈ feedRows db) :
    FeedFits row.key := by
  obtain ⟨v, hv, hv'⟩ := List.mem_filterMap.mp (List.mem_mergeSort.mp hrow)
  rw [feedRow_key hv']
  exact h v hv

/-- **The feed descends.** -/
theorem feedRows_pairwise : (feedRows db).Pairwise fun a b => b.key < a.key := by
  refine pairwise_lt_mergeSort_desc ?_
  rw [List.Nodup, List.pairwise_map, List.pairwise_filterMap]
  refine db.ats.children.sorted.imp fun {v v'} hlt row hrow row' hrow' heq => ?_
  rw [feedRow_key hrow, feedRow_key hrow'] at heq
  exact absurd (Prod.mk.inj (congrArg ofLex heq)).2 (ne_of_lt hlt)

/-- A version is shown under its key. -/
theorem feedKey_feedRowToItem {row : FeedRow} (h : FeedFits row.key) :
    feedKey (feedRowToItem net row) = natFeedKey row.key := by
  have hid : row.atsId ≤ u32Max := h.id_le
  change toLex ((max row.blockNum 0).toNat, toLex (rowAtsId row.atsId, (max row.version 0).toNat)) =
    natFeedKey row.key
  rw [rowAtsId_of_le hid]
  rfl

/-- **The versions' feed** is paged by `(block, id, version)`. -/
theorem listAtsFeed_paged (net : Network) :
    PagedByKey (fun db => listAtsFeedPage net db) feedKey feedKeys FeedSound := by
  refine .of_probe FeedCursorFits feedCursorText feedRows (fun r => natFeedKey r.key) ?_ ?_ ?_
  · intro count hcount db c hsound hc
    have hcursor : parseCursor atsFeedCursor ⟨count, c.map feedCursorText⟩ =
        .ok (c.map feedParts) := by
      have hmap : c.map feedCursorText = (c.map feedParts).map atsFeedCursor.toText := by
        rw [Option.map_map]
        rfl
      rw [hmap]
      refine parseCursor_toText atsFeedCursor_roundTrips fun k hk => ?_
      obtain ⟨k', hk', rfl⟩ := Option.map_eq_some_iff.mp hk
      obtain ⟨hblock, hid, hversion⟩ := hc k' hk'
      refine ⟨?_, hid, ?_⟩
      · simp only [i64Max] at hblock
        simp only [feedParts, u64Max]
        omega
      · simp only [i32Max] at hversion
        simp only [feedParts, u32Max]
        omega
    have hrows : ((db.ats.children.rows.filterMap (feedRow db)).filter fun r =>
          (c.map feedParts).all fun c =>
            decide (r.key < toLex (asI64 c.1, toLex ((c.2.1 : ℤ), asI32 c.2.2)))).mergeSort
          (fun a b => decide (b.key ≤ a.key)) =
        (feedRows db).filter fun r => below c (natFeedKey r.key) := by
      refine (mergeSort_filter_feed _).trans (List.filter_congr fun r hr => ?_)
      exact feedBelow_eq (hsound.fits hr) hc
    have hkeys : ∀ r ∈ (feedRows db).filter fun r => below c (natFeedKey r.key),
        feedKey (feedRowToItem net r) = natFeedKey r.key :=
      fun r hr => feedKey_feedRowToItem (hsound.fits (List.mem_of_mem_filter hr))
    generalize (feedRows db).filter (fun r => below c (natFeedKey r.key)) = kept at hrows hkeys ⊢
    have hpage : listAtsFeedPage net db ⟨count, c.map feedCursorText⟩ =
        .ok
          { items := (kept.take count).map (feedRowToItem net)
            pageInfo :=
              { total := some (versionTotal db)
                nextCursor := nextCursor (decide (count < kept.length))
                  (fun item => feedCursorText (feedKey item))
                  ((kept.take count).map (feedRowToItem net))
                hasMore := decide (count < kept.length) } } := by
      rw [listAtsFeedPage, if_neg (by change ¬ count = 0; omega)]
      simp only [hcursor, ok_bind, hrows, trimProbe_map, trimProbe_take]
      rfl
    refine ⟨_, hpage, ?_, ?_⟩
    · rw [List.map_map]
      exact List.map_congr_left fun r hr => hkeys r (List.mem_of_mem_take hr)
    · rw [nextCursor_eq feedKey feedCursorText]
      simp only [decide_eq_true_eq]
  · intro db hsound r hr
    exact (hsound.fits hr).cursorFits
  · intro db hsound
    refine feedRows_pairwise.imp_of_mem fun {a b} ha hb hab => ?_
    exact (natFeedKey_lt_natFeedKey (hsound.fits hb) (hsound.fits ha)).mpr hab

/-! ## All four -/

/-- **The four lists are paged by their keys**: extrinsics, transfers (where
the two accounts asked for are addresses), ATS records and ATS versions. -/
theorem lists_paged (net : Network) (parseSs58 : String → Option AccountId)
    (xts : ExtrinsicFilters) (trs : TransferFilters) :
    PagedByKey (fun db => listExtrinsicsPageBounded net db none xts) extrinsicKey
        (extrinsicKeys xts) ExtrinsicsSound ∧
      (∀ fromBytes toBytes, parseSs58Filter parseSs58 "from" trs.fromAddr = .ok fromBytes →
        parseSs58Filter parseSs58 "to" trs.toAddr = .ok toBytes →
        PagedByKey (fun db => listProbedTransfers net parseSs58 db none trs) transferKey
          (fun db => (transferRows fromBytes toBytes db).map TransferRow.key) TransfersSound) ∧
      PagedByKey (fun db => listAtsPage net db) AtsRecord.atsId registryKeys RegistrySound ∧
      PagedByKey (fun db => listAtsFeedPage net db) feedKey feedKeys FeedSound :=
  ⟨listExtrinsics_paged net xts, fun _ _ hfrom hto => listTransfers_paged net hfrom hto,
    listAts_paged net, listAtsFeed_paged net⟩

/-- Blocks 1 to 3, each with a transfer of 5 from account 1; the one of
block 2 has another counterparty. -/
def threeTransfers (counterparty : Option AccountId) : Db :=
  { Db.empty with
    extrinsics := Table.empty.insertAll
      ([1, 2, 3].map fun n : ℤ =>
        (toLex (n, 0),
          ⟨.fill 1, "Balances", "transfer", some (.fill 1), none, 0, none, true, [], 0⟩))
    events := Table.empty.insertAll
      ([1, 2, 3].map fun n : ℤ =>
        (toLex (n, 0), ⟨phaseApplyExtrinsic, some 0, "Balances", "Transfer", [], 0⟩))
    balanceMovements := Table.empty.insertAll
      ([(1, some (.fill 2)), (2, counterparty), (3, some (.fill 2))].map
        fun p : ℤ × Option AccountId => (toLex (p.1, toLex (0, .fill 1)), ⟨0, -5, p.2⟩)) }

theorem threeTransfers_sound : TransfersSound (threeTransfers (some (.fill 2))) where
  fits := by
    intro m hm
    exact ⟨by revert m; decide, by revert m; decide, by revert m; decide, by revert m; decide⟩
  unique := by decide
  counterparty := by decide
  delta_ge := by decide

/-- Where every debit has its counterparty, a walk in pages of one lists
the three. -/
theorem lists_paged_threeTransfers :
    ∃ w, Walk (pageRead (fun db => listProbedTransfers plainNetwork (fun _ => none) db none
        ⟨none, none⟩) 1) none w ∧
      (w.flatMap fun x => x.2.items.map transferKey).Pairwise (· > ·) ∧
      ∀ k ∈ [toLex (3, 0), toLex (2, 0), toLex (1, 0)],
        k ∈ w.flatMap fun x => x.2.items.map transferKey := by
  have hpaged := (lists_paged plainNetwork (fun _ => none) ⟨none, none, none, none⟩
    ⟨none, none⟩).2.1 none none rfl rfl
  obtain ⟨w, hw, hfixed⟩ := hpaged.walks 1 le_rfl _ threeTransfers_sound
  have hsound : ∀ x ∈ w, TransfersSound x.1 := fun x hx => hfixed x hx ▸ threeTransfers_sound
  refine ⟨w, hw, hpaged.descending 1 le_rfl w hw hsound, fun k hk => ?_⟩
  refine hpaged.complete 1 le_rfl w hw hsound k fun x hx => ?_
  rw [hfixed x hx]
  revert k
  decide

/-- Two registry rows whose ids are past `u32::MAX`. -/
def wideIds : Db :=
  { Db.empty with
    ats := Linked.empty.insertParents
      [(4294967296, ⟨.fill 1, 1, 0, 1⟩), (4294967297, ⟨.fill 1, 1, 0, 1⟩)] }

/-- One extrinsic in each of some blocks. -/
def extrinsicsAt (blocks : List ℤ) : Db :=
  { Db.empty with
    extrinsics := Table.empty.insertAll (blocks.map fun n =>
      (toLex (n, 0),
        ⟨.fill 1, "Balances", "transfer", some (.fill 1), none, 0, none, true, [], 0⟩)) }

/-- **Rows that are not sound are lost, or listed twice.** A debit without a
counterparty ends the walk: the first page probes two rows, drops the
second and has no next cursor, while block 1's transfer is not listed. Of
two ids past `u32::MAX` the second is below no cursor. And a block below
zero is above its own cursor. -/
theorem lists_lose_unsound :
    (∃ page, Walk (pageRead (fun db => listProbedTransfers plainNetwork (fun _ => none) db none
          ⟨none, none⟩) 1) none [(threeTransfers none, page)] ∧
        toLex (1, 0) ∈ (transferRows none none (threeTransfers none)).map TransferRow.key ∧
        toLex (1, 0) ∉ page.items.map transferKey) ∧
      (∃ page page', Walk (pageRead (fun db => listAtsPage plainNetwork db) 1) none
          [(wideIds, page), (wideIds, page')] ∧
        registryKeys wideIds = [4294967297, 4294967296] ∧
        page.items.map AtsRecord.atsId = [4294967295] ∧ page'.items = []) ∧
      (∃ page page', Walk (pageRead (fun db => listExtrinsicsPageBounded plainNetwork db none
          ⟨none, none, none, none⟩) 1) none
          [(extrinsicsAt [-1, -2], page), (extrinsicsAt [-1], page')] ∧
        page.items.map extrinsicKey = page'.items.map extrinsicKey) := by
  refine ⟨⟨_, .last (pageRead_eq_some.mpr ⟨rfl, rfl⟩), by decide, by decide⟩,
    ⟨_, _, .next (pageRead_eq_some.mpr ⟨rfl, rfl⟩) (.last (pageRead_eq_some.mpr ⟨rfl, rfl⟩)),
      by decide, by decide, by decide⟩,
    ⟨_, _, .next (pageRead_eq_some.mpr ⟨rfl, rfl⟩) (.last (pageRead_eq_some.mpr ⟨rfl, rfl⟩)),
      by decide⟩⟩

end AllfeatExplorer
