import AllfeatExplorer.Data.AtsRecords
import AllfeatExplorer.Data.Below
import AllfeatExplorer.Data.Pagination
import AllfeatExplorer.Lib.Stitched

/-!
# The records of an owner

The lists load the versions of a page of records in one query and deal
them out; each record listed is still the one that its id alone would be
answered with. An owner's list is paged by the id like the list of all
records, and where the node's index and the database have the same blocks
behind them, a page of the one is a page of the other.
-/

namespace AllfeatExplorer

open Projections AtsHistory Queries

variable {chain : Chain} {net : Network} {node : AtsNode} {db : Db} {n count : ℕ}
  {owner : AccountId} {parseSs58 : String → Option AccountId} {address : String}
  {ownerIndex : AccountId → List ℕ} {req : PageRequest}

/-! ## Records loaded together -/

/-- The record of a registry row, its versions loaded for it alone. -/
def recordOf (net : Network) (db : Db) (reg : RegistryRow) : AtsRecord :=
  registryToRecord net reg (versionsForAts net db reg.id)

/-- **The versions dealt out are each record's own**, where no id comes
twice. -/
theorem hydrateById_eq {byId : Buckets ℤ AtsVersion} {regs : List RegistryRow}
    (hnodup : (regs.map RegistryRow.id).Nodup)
    (hown : ∀ reg ∈ regs, (byId.get reg.id).getD [] = versionsForAts net db reg.id) :
    hydrateById net byId regs = regs.map (recordOf net db) := by
  induction regs generalizing byId with
  | nil => rfl
  | cons reg regs ih =>
    rw [List.map_cons, List.nodup_cons] at hnodup
    rw [hydrateById, List.map_cons, recordOf, hown reg List.mem_cons_self, ih hnodup.2]
    intro reg' hreg'
    have hne : reg'.id ≠ reg.id := fun heq => hnodup.1 (heq ▸ List.mem_map_of_mem hreg')
    rw [Buckets.get_remove_of_ne hne]
    exact hown reg' (List.mem_cons_of_mem reg hreg')

/-- **Loading a page of records together** is loading each by itself. -/
theorem hydrateRecords_eq {regs : List RegistryRow} (hnodup : (regs.map RegistryRow.id).Nodup) :
    hydrateRecords net db regs = regs.map (recordOf net db) := by
  unfold hydrateRecords
  split
  · rename_i hempty
    rw [List.isEmpty_iff.mp hempty]
    rfl
  · refine hydrateById_eq hnodup fun reg hreg => ?_
    rw [Buckets.getD_ofRows, List.filter_filter, versionsForAts]
    refine congrArg (List.map _) (List.filter_congr fun v _ => ?_)
    rw [Bool.and_eq_left_iff_imp, decide_eq_true_eq, decide_eq_true_eq]
    intro hid
    rw [hid]
    exact List.mem_map_of_mem hreg

/-- Registry rows have ids of their own. -/
theorem nodup_registryRows {rows : List (ℤ × AtsRegistryEntry)}
    (hrows : (rows.map Prod.fst).Nodup) :
    ((rows.map (registryRow db)).map RegistryRow.id).Nodup := by
  rwa [List.map_map]

/-- **A row's record is its id's detail**, where ids fit. -/
theorem atsById_of_mem (net : Network) (hsound : RegistrySound db) {r : ℤ × AtsRegistryEntry}
    (hr : r ∈ db.ats.parents.rows) :
    atsById net db (registryKey r) = some (recordOf net db (registryRow db r)) ∧
      (recordOf net db (registryRow db r)).atsId = registryKey r := by
  obtain ⟨hnonneg, hle⟩ := hsound r hr
  have hkey : ((registryKey r : ℕ) : ℤ) = r.1 := by
    rw [registryKey]
    omega
  refine ⟨?_, rowAtsId_of_le hle⟩
  have hfind : db.ats.parents.find r.1 = some r.2 := Table.find_eq_some_iff.mpr hr
  rw [atsById, hkey, hfind]
  rfl

/-! ## A page of records -/

/-- The registry rows of an owner, newest first. -/
def ownerRows (owner : AccountId) (db : Db) : List (ℤ × AtsRegistryEntry) :=
  (db.ats.parents.rows.filter fun r => decide (r.2.owner = owner)).reverse

theorem ownerRows_sublist : List.Sublist (ownerRows owner db) db.ats.parents.rows.reverse :=
  List.filter_sublist.reverse

theorem mem_of_mem_ownerRows {r : ℤ × AtsRegistryEntry} (hr : r ∈ ownerRows owner db) :
    r ∈ db.ats.parents.rows ∧ r.2.owner = owner := by
  obtain ⟨hmem, howner⟩ := List.mem_filter.mp (List.mem_reverse.mp hr)
  exact ⟨hmem, of_decide_eq_true howner⟩

theorem nodup_ownerRows : ((ownerRows owner db).map Prod.fst).Nodup := by
  have hkeys : (db.ats.parents.rows.reverse.map Prod.fst).Nodup := by
    rw [List.map_reverse]
    exact List.nodup_reverse.mpr db.ats.parents.nodup_keys
  exact hkeys.sublist (ownerRows_sublist.map _)

/-- **A page of an owner's list**, below a cursor. -/
def ownerPage (net : Network) (parseSs58 : String → Option AccountId) (db : Db) (address : String)
    (owner : AccountId) (count : ℕ) (cursor : Option ℕ) : Page AtsRecord :=
  let kept := (ownerRows owner db).filter fun r => below cursor (registryKey r)
  { items := (kept.take count).map fun r => recordOf net db (registryRow db r)
    pageInfo :=
      { total := some (accountAtsCount parseSs58 db address)
        nextCursor :=
          if count < kept.length then
            ((kept.take count).map registryKey).getLast?.map atsCursor.toText
          else none
        hasMore := decide (count < kept.length) } }

/-- **What the list answers** to a cursor that parses. -/
theorem listAccountAtsPage_eq (hsound : RegistrySound db)
    (haddress : parseSs58 address = some owner) (hcount : req.count ≠ 0) {cursor : Option ℕ}
    (hcursor : parseCursor atsCursor req = .ok cursor)
    (hfit : ∀ id ∈ cursor, id ≤ u32Max) :
    listAccountAtsPage net parseSs58 db address req =
      .ok (ownerPage net parseSs58 db address owner req.count cursor) := by
  have hrows : (db.ats.parents.rows.filter fun r => decide (r.2.owner = owner) &&
        cursor.all fun id => decide (r.1 < asI64 id)).reverse =
      (ownerRows owner db).filter fun r => below cursor (registryKey r) := by
    rw [ownerRows, List.filter_reverse, List.filter_filter]
    refine congrArg List.reverse (List.filter_congr fun r hr => ?_)
    obtain ⟨hnonneg, -⟩ := hsound r hr
    rcases cursor with - | id
    · exact Bool.and_comm _ _
    · have hid : id ≤ i64Max := by
        have hle := hfit id rfl
        simp only [u32Max, i64Max] at *
        omega
      have hlt : decide (r.1 < asI64 id) = below (some id) (registryKey r) := by
        rw [asI64_of_le hid]
        exact decide_eq_decide.mpr (by rw [registryKey]; omega)
      rw [Option.all_some, hlt, Bool.and_comm]
  have hids : ∀ r ∈ (ownerRows owner db).filter fun r => below cursor (registryKey r),
      rowAtsId r.1 = registryKey r := fun r hr =>
    rowAtsId_of_le (hsound r (mem_of_mem_ownerRows (List.mem_of_mem_filter hr)).1).2
  have hnodup : (((ownerRows owner db).filter fun r =>
      below cursor (registryKey r)).map Prod.fst).Nodup :=
    nodup_ownerRows.sublist (List.filter_sublist.map _)
  rw [listAccountAtsPage, if_neg hcount, haddress, ownerPage]
  generalize (ownerRows owner db).filter (fun r => below cursor (registryKey r)) = kept
    at hrows hids hnodup ⊢
  have hitems : hydrateRecords net db ((kept.take req.count).map (registryRow db)) =
      (kept.take req.count).map fun r => recordOf net db (registryRow db r) := by
    have htaken : ((kept.take req.count).map Prod.fst).Nodup :=
      hnodup.sublist ((List.take_sublist _ _).map _)
    rw [hydrateRecords_eq (nodup_registryRows htaken), List.map_map]
    rfl
  have hnext : ((kept.take req.count).map (registryRow db)).map (fun r => rowAtsId r.id) =
      (kept.take req.count).map registryKey := by
    rw [List.map_map]
    exact List.map_congr_left fun r hr => hids r (List.mem_of_mem_take hr)
  simp only [hcursor, ok_bind, hrows, trimProbe_map, trimProbe_take, hitems]
  rw [nextCursor_eq (fun r : RegistryRow => rowAtsId r.id) atsCursor.toText, hnext]
  simp only [decide_eq_true_eq]
  rfl

/-- The ids of an owner, newest first. -/
def ownerKeys (owner : AccountId) (db : Db) : List ℕ := (ownerRows owner db).map registryKey

/-- Where ids fit they descend. -/
theorem pairwise_ownerRows (hsound : RegistrySound db) :
    (ownerRows owner db).Pairwise fun r r' => registryKey r' < registryKey r := by
  have hall : db.ats.parents.rows.reverse.Pairwise fun r r' => registryKey r' < registryKey r := by
    refine List.pairwise_reverse.mpr (db.ats.parents.sorted.imp_of_mem fun {a b} ha hb hab => ?_)
    have hfit := hsound a ha
    have hfit' := hsound b hb
    simp only [registryKey]
    omega
  exact hall.sublist ownerRows_sublist

/-- A page of the list is one of the owner's ids. -/
theorem listAccountAts_refines (net : Network) (haddress : parseSs58 address = some owner)
    (hcount : 1 ≤ count) :
    Refines (pageRead (fun db => listAccountAtsPage net parseSs58 db address) count)
      (keysetRead (ownerKeys owner) count) atsCursor.toText
      (fun page => page.items.map AtsRecord.atsId) RegistrySound fun id => id ≤ u32Max := by
  refine refines_of_probe ?_ ?_
  · intro db c hsound hc
    have hcursor : parseCursor atsCursor ⟨count, c.map atsCursor.toText⟩ = .ok c :=
      parseCursor_toText atsCursor_roundTrips hc
    have hpos : count ≠ 0 := by omega
    have hids : (((ownerRows owner db).filter fun r => below c (registryKey r)).take count).map
          (fun r => (recordOf net db (registryRow db r)).atsId) =
        (((ownerRows owner db).filter fun r => below c (registryKey r)).take count).map
          registryKey := by
      refine List.map_congr_left fun r hr => ?_
      have hmem := List.mem_of_mem_filter (List.mem_of_mem_take hr)
      exact (atsById_of_mem net hsound (mem_of_mem_ownerRows hmem).1).2
    refine ⟨_, listAccountAtsPage_eq hsound haddress hpos hcursor hc, ?_, ?_⟩
    · rw [ownerPage, List.map_map]
      exact hids
    · simp only [ownerPage, List.map_map, Function.comp_def, hids]
  · intro db hsound r hr
    have hfit := hsound r (mem_of_mem_ownerRows hr).1
    simp only [registryKey]
    omega

/-- **An owner's list is paged by the id**: a walk lists what is the
owner's throughout, nothing else and nothing twice, in full pages but the
last, and it ends, whatever is created and revoked between two pages. -/
theorem listAccountAts_paged (net : Network) (haddress : parseSs58 address = some owner) :
    PagedByKey (fun db => listAccountAtsPage net parseSs58 db address) AtsRecord.atsId
        (ownerKeys owner) RegistrySound ∧
      PagedWhileChanging (fun db => listAccountAtsPage net parseSs58 db address) AtsRecord.atsId
        (ownerKeys owner) RegistrySound := by
  have hrefines (count : ℕ) (hcount : 1 ≤ count) := listAccountAts_refines net haddress hcount
  have hsorted : ∀ db, RegistrySound db → (ownerKeys owner db).Pairwise (· > ·) :=
    fun db hsound => List.pairwise_map.mpr (pairwise_ownerRows hsound)
  exact ⟨.of_refines _ _ hrefines hsorted, .of_refines _ _ hrefines hsorted⟩

/-- Every text is the address of `[1; 32]`. -/
def parseOwner (_ : String) : Option AccountId := some (.fill 1)

/-- A registry of some ids, all of one owner. -/
def ownedIds (ids : List ℤ) : Db :=
  { Db.empty with ats := Linked.empty.insertParents (ids.map fun id => (id, ⟨.fill 1, 1, 0, 1⟩)) }

/-- The registry as a walk meets it: three ids at the first page, then a
fourth above them and the least revoked. -/
def changingIds (j : ℕ) : Db := if j = 0 then ownedIds [1, 2, 3] else ownedIds [2, 3, 4]

theorem changingIds_sound (j : ℕ) : RegistrySound (changingIds j) := by
  have hsmall : ∀ ids ∈ [[1, 2, 3], [2, 3, 4]], ∀ r ∈ (ownedIds ids).ats.parents.rows,
      0 ≤ r.1 ∧ r.1 ≤ u32Max := by decide
  unfold changingIds
  split
  · exact hsmall _ (by simp)
  · exact hsmall _ (by simp)

/-- A walk in pages of one over it ends, with the ids that are there
throughout. -/
theorem listAccountAts_paged_changing :
    ∃ w, Walk (pageRead (fun db => listAccountAtsPage plainNetwork parseOwner db "owner") 1)
        none w ∧
      w.map Prod.fst = (List.range w.length).map changingIds ∧
      ∀ k ∈ [2, 3], k ∈ w.flatMap fun x => x.2.items.map AtsRecord.atsId := by
  have haddress : parseOwner "owner" = some (.fill 1) := rfl
  obtain ⟨hpaged, hchanging⟩ := listAccountAts_paged plainNetwork haddress
  obtain ⟨w, hw, hstates⟩ := hchanging.walks 1 le_rfl changingIds changingIds_sound
  have hstate : ∀ x ∈ w, ∃ j, x.1 = changingIds j := by
    intro x hx
    have hmem := List.mem_map_of_mem (f := Prod.fst) hx
    rw [hstates] at hmem
    obtain ⟨j, -, hj⟩ := List.mem_map.mp hmem
    exact ⟨j, hj.symm⟩
  refine ⟨w, hw, hstates, fun k hk => hpaged.complete 1 le_rfl w hw (fun x hx => ?_) k ?_⟩
  · obtain ⟨j, hj⟩ := hstate x hx
    exact hj ▸ changingIds_sound j
  · intro x hx
    obtain ⟨j, hj⟩ := hstate x hx
    have hkeys : ∀ ids ∈ [[1, 2, 3], [2, 3, 4]], ∀ k ∈ [2, 3],
        k ∈ ownerKeys (.fill 1) (ownedIds ids) := by decide
    rw [hj, changingIds]
    split
    · exact hkeys _ (by simp) k hk
    · exact hkeys _ (by simp) k hk

/-! ## The list and the detail -/

/-- A record loaded with its page is its id's detail. -/
theorem atsById_of_hydrated (hsound : RegistrySound db) {rows : List (ℤ × AtsRegistryEntry)}
    (hrows : rows.Sublist db.ats.parents.rows.reverse) {rec : AtsRecord}
    (hrec : rec ∈ hydrateRecords net db (trimProbe count (rows.map (registryRow db))).1) :
    atsById net db rec.atsId = some rec ∧ ∃ r ∈ rows, rec.owner = net.encodeSs58 r.2.owner := by
  have hkept : (trimProbe count rows).1.Sublist rows := by
    rw [trimProbe_fst]
    exact List.take_sublist _ _
  have hnodup : ((trimProbe count rows).1.map Prod.fst).Nodup := by
    refine List.Nodup.sublist ((hkept.trans hrows).map _) ?_
    rw [List.map_reverse]
    exact List.nodup_reverse.mpr db.ats.parents.nodup_keys
  rw [trimProbe_map, hydrateRecords_eq (nodup_registryRows hnodup), List.map_map] at hrec
  obtain ⟨r, hr, rfl⟩ := List.mem_map.mp hrec
  have hmem := hkept.subset hr
  obtain ⟨hdetail, hid⟩ := atsById_of_mem net hsound
    (List.mem_reverse.mp (hrows.subset hmem))
  refine ⟨?_, r, hmem, rfl⟩
  change atsById net db (recordOf net db (registryRow db r)).atsId = _
  rw [hid, hdetail]
  rfl

/-- **Each record listed is the one its id is answered with**, in the list
of all records and in an owner's, whatever page is asked for; and of the
owner's list each is the owner's. -/
theorem listed_atsById (net : Network) (hsound : RegistrySound db) :
    (∀ req page, listAtsPage net db req = .ok page →
      ∀ rec ∈ page.items, atsById net db rec.atsId = some rec) ∧
    ∀ parseSs58 address owner req page, parseSs58 address = some owner →
      listAccountAtsPage net parseSs58 db address req = .ok page →
      ∀ rec ∈ page.items,
        atsById net db rec.atsId = some rec ∧ rec.owner = net.encodeSs58 owner := by
  constructor
  · intro req page hpage rec hrec
    unfold listAtsPage at hpage
    split at hpage
    · obtain rfl := Except.ok.inj hpage
      cases hrec
    · cases hcursor : parseCursor atsCursor req with
      | error e =>
        rw [hcursor] at hpage
        cases hpage
      | ok cursor =>
        rw [hcursor, ok_bind] at hpage
        obtain rfl := Except.ok.inj hpage
        refine (atsById_of_hydrated hsound ?_ hrec).1
        exact (List.take_sublist _ _).trans List.filter_sublist.reverse
  · intro parseSs58 address owner req page haddress hpage rec hrec
    unfold listAccountAtsPage at hpage
    rw [haddress] at hpage
    split at hpage
    · obtain rfl := Except.ok.inj hpage
      cases hrec
    · cases hcursor : parseCursor atsCursor req with
      | error e =>
        rw [hcursor] at hpage
        cases hpage
      | ok cursor =>
        rw [hcursor] at hpage
        obtain rfl := Except.ok.inj hpage
        have hrows := (List.take_sublist (req.count + 1) (db.ats.parents.rows.filter fun r =>
          decide (r.2.owner = owner) &&
            cursor.all fun id => decide (r.1 < asI64 id)).reverse)
        obtain ⟨hdetail, r, hr, howner⟩ := atsById_of_hydrated hsound
          (hrows.trans List.filter_sublist.reverse) hrec
        refine ⟨hdetail, ?_⟩
        have hadmitted := (List.mem_filter.mp (List.mem_reverse.mp (hrows.subset hr))).2
        rw [Bool.and_eq_true, decide_eq_true_eq] at hadmitted
        rw [howner, hadmitted.1]

/-! ## The node's list -/

theorem le_of_atsCursor {s : String} {id : ℕ} (h : atsCursor.fromStr s = .ok id) :
    id ≤ u32Max := by
  simp only [atsCursor] at h
  split at h
  · rename_i id' hread
    exact Except.ok.inj h ▸ Below.readDec_le hread
  · cases h

/-- A cursor that parses fits. -/
theorem le_of_parseCursor {cursor : Option ℕ} (h : parseCursor atsCursor req = .ok cursor) :
    ∀ id ∈ cursor, id ≤ u32Max := by
  intro id hid
  unfold parseCursor at h
  split at h
  · obtain rfl := Except.ok.inj h
    cases hid
  · split at h
    · rename_i c hread
      obtain rfl := Except.ok.inj h
      obtain rfl := Option.mem_some_iff.mp hid
      exact le_of_atsCursor hread
    · cases h

/-- A page, its items mapped. -/
def Page.map {α β : Type*} (f : α → β) (page : Page α) : Page β :=
  { items := page.items.map f
    pageInfo := page.pageInfo }

/-- The first `count` of the records, and the cursor past them. -/
def firstPage (total count : ℕ) (records : List AtsRecord) : Page AtsRecord :=
  { items := records.take count
    pageInfo :=
      { total := some total
        nextCursor :=
          if count < records.length then
            (records.take count).getLast?.map fun rec => atsCursor.toText rec.atsId
          else none
        hasMore := decide (count < records.length) } }

/-- **The node's page** is the first of the records below the cursor. -/
theorem Rpc.accountAts_eq_firstPage (hcount : req.count ≠ 0) {cursor : Option ℕ}
    (hcursor : parseCursor atsCursor req = .ok cursor) :
    Rpc.accountAts net parseSs58 node ownerIndex address req =
      .ok (firstPage (Rpc.buildAccountAtsCount parseSs58 ownerIndex address) req.count
        ((Rpc.buildAccountAts net parseSs58 node ownerIndex address
          (Rpc.buildAccountAtsCount parseSs58 ownerIndex address)).filter
            fun rec => below cursor rec.atsId)) := by
  have hcut : ∀ records : List AtsRecord,
      (if req.count < records.length then records.take req.count else records) =
        records.take req.count := by
    intro records
    split
    · rfl
    · rename_i hle
      exact (List.take_of_length_le (Nat.le_of_not_lt hle)).symm
  rw [Rpc.accountAts, if_neg hcount, hcursor, ok_bind]
  simp only [decide_eq_true_eq, hcut, firstPage]
  rfl

/-- **A page of the database's rows** is the first of the records that
become theirs. -/
theorem ownerPage_eq_map {records : List AtsRecord} {cursor : Option ℕ}
    (hids : ∀ r ∈ ownerRows owner db,
      (recordOf net db (registryRow db r)).atsId = registryKey r)
    (hrecords : records.map AtsRecord.ownerDeposit =
      ((ownerRows owner db).filter fun r => below cursor (registryKey r)).map
        fun r => recordOf net db (registryRow db r)) :
    ownerPage net parseSs58 db address owner count cursor =
      (firstPage (accountAtsCount parseSs58 db address) count records).map
        AtsRecord.ownerDeposit := by
  have hids' : ∀ r ∈ (ownerRows owner db).filter fun r => below cursor (registryKey r),
      (recordOf net db (registryRow db r)).atsId = registryKey r := fun r hr =>
    hids r (List.mem_of_mem_filter hr)
  rw [ownerPage]
  generalize (ownerRows owner db).filter (fun r => below cursor (registryKey r)) = kept
    at hrecords hids' ⊢
  have hlength : records.length = kept.length := by
    have h := congrArg List.length hrecords
    rwa [List.length_map, List.length_map] at h
  have hitems : (records.take count).map AtsRecord.ownerDeposit =
      (kept.take count).map fun r => recordOf net db (registryRow db r) := by
    rw [List.map_take, hrecords, List.map_take]
  have hkeys : (records.take count).map AtsRecord.atsId = (kept.take count).map registryKey := by
    have h := congrArg (List.map AtsRecord.atsId) hitems
    rw [List.map_map, List.map_map] at h
    refine h.trans (List.map_congr_left fun r hr => ?_)
    exact hids' r (List.mem_of_mem_take hr)
  have hlast : (records.take count).getLast?.map (fun rec => atsCursor.toText rec.atsId) =
      ((kept.take count).map registryKey).getLast?.map atsCursor.toText := by
    rw [← hkeys, List.getLast?_map, Option.map_map]
    rfl
  simp only [Page.map, firstPage, hitems, hlast, hlength]

/-- **The pallet's index of owners** has each owner's live ids, in some
order, as many as a `u32` counts. -/
structure OwnerIndexed (ownerIndex : AccountId → List ℕ) (h : AtsHistory) : Prop where
  ids : ∀ owner, List.Perm (ownerIndex owner)
    ((h.living.filter fun c => decide (c.owner = owner)).map fun c => c.id.toNat)
  count_le : ∀ owner, (ownerIndex owner).length ≤ u32Max

/-- No revoked id has its row back. -/
def Db.NoRevokedRow (db : Db) (h : AtsHistory) : Prop :=
  ∀ x r, h.Revokes r x → db.ats.parents.contains (atsKey x) = false

/-- **The registry of the database** is the list of live ids, where no
revoked one is back. -/
theorem mem_registry_iff (hdb : db.IndexedTo chain n) (hv : (chain.history n).Valid)
    (hgone : db.NoRevokedRow (chain.history n)) {r : ℤ × AtsRegistryEntry} :
    r ∈ db.ats.parents.rows ↔
      ∃ c ∈ (chain.history n).living, (chain.history n).registryEntry c = r := by
  obtain ⟨bs, hall⟩ := hdb.indexedAll
  obtain ⟨k, row⟩ := r
  rw [← Table.find_eq_some_iff]
  constructor
  · intro hrow
    have hthere : db.ats.parents.contains k = true :=
      Table.contains_eq_true_iff.mpr ⟨row, hrow⟩
    obtain ⟨x, rfl, b, -, hb⟩ := exists_creates_of_contains hall.applied hthere
    obtain ⟨c, hc, -, rfl⟩ := hb.exists_mem
    have hliving : c ∈ (chain.history n).living := by
      refine mem_living.mpr ⟨hc, fun r hr => ?_⟩
      rw [hgone c.id r hr] at hthere
      cases hthere
    rw [hv.find_living hall.applied hall.all hliving] at hrow
    exact ⟨c, hliving, Prod.ext rfl (Option.some.inj hrow)⟩
  · rintro ⟨c, hc, heq⟩
    obtain ⟨rfl, rfl⟩ := Prod.mk.inj heq
    exact hv.find_living hall.applied hall.all hc

/-- The key of a live id's row is the id. -/
theorem registryKey_registryEntry {h : AtsHistory} {c : Creation} (hid : c.id.toNat ≤ u32Max) :
    (h.registryEntry c).1 = (c.id.toNat : ℤ) ∧ registryKey (h.registryEntry c) = c.id.toNat := by
  have hkey : (h.registryEntry c).1 = (c.id.toNat : ℤ) := atsKey_of_le hid
  refine ⟨hkey, ?_⟩
  rw [registryKey, hkey]
  omega

/-- **The ids of the database fit** where those created do. -/
theorem Db.IndexedTo.registrySound (hdb : db.IndexedTo chain n)
    (hids : ∀ c ∈ (chain.history n).creations, c.id.toNat ≤ u32Max) : RegistrySound db := by
  obtain ⟨bs, hall⟩ := hdb.indexedAll
  intro r hr
  have hthere : db.ats.parents.contains r.1 = true :=
    Table.contains_eq_true_iff.mpr ⟨r.2, Table.find_eq_some_iff.mpr hr⟩
  obtain ⟨x, hx, b, -, hb⟩ := exists_creates_of_contains hall.applied hthere
  obtain ⟨c, hc, -, rfl⟩ := hb.exists_mem
  have hle := hids c hc
  rw [hx, atsKey_of_le hle]
  omega

/-- **The ids of an owner**, newest first, are those of the pallet's
index, sorted. -/
theorem ownerKeys_eq (owner : AccountId) (hdb : db.IndexedTo chain n) (hv : (chain.history n).Valid)
    (hgone : db.NoRevokedRow (chain.history n))
    (hids : ∀ c ∈ (chain.history n).creations, c.id.toNat ≤ u32Max)
    (hindex : OwnerIndexed ownerIndex (chain.history n)) :
    ownerKeys owner db = (ownerIndex owner).mergeSort fun a b => decide (b ≤ a) := by
  have hsound := hdb.registrySound hids
  have hnodup : ((ownerIndex owner).map id).Nodup := by
    rw [List.map_id, (hindex.ids owner).nodup_iff]
    have hliving : ((chain.history n).living.map fun c => c.id.toNat).Nodup := by
      refine List.pairwise_map.mpr ((List.pairwise_map.mp hv.nodup_living).imp ?_)
      exact fun hne heq => hne (UInt64.toNat_inj.mp heq)
    exact hliving.sublist (List.filter_sublist.map _)
  refine eq_of_mem_iff (List.pairwise_map.mpr (pairwise_ownerRows hsound))
    (pairwise_lt_mergeSort_desc hnodup) fun id => ?_
  rw [List.mem_mergeSort, (hindex.ids owner).mem_iff, ownerKeys, List.mem_map, List.mem_map]
  constructor
  · rintro ⟨r, hr, rfl⟩
    obtain ⟨hmem, howner⟩ := mem_of_mem_ownerRows hr
    obtain ⟨c, hc, rfl⟩ := (mem_registry_iff hdb hv hgone).mp hmem
    exact ⟨c, List.mem_filter.mpr ⟨hc, decide_eq_true howner⟩,
      (registryKey_registryEntry (hids c (mem_living.mp hc).1)).2.symm⟩
  · rintro ⟨c, hc, rfl⟩
    obtain ⟨hliving, howner⟩ := List.mem_filter.mp hc
    refine ⟨(chain.history n).registryEntry c, ?_,
      (registryKey_registryEntry (hids c (mem_living.mp hliving).1)).2⟩
    exact List.mem_reverse.mpr (List.mem_filter.mpr
      ⟨(mem_registry_iff hdb hv hgone).mpr ⟨c, hliving, rfl⟩, howner⟩)

/-- **All the records of an owner**, from either path. -/
theorem buildAccountAts_eq (net : Network) (hdb : db.IndexedTo chain n)
    (hv : (chain.history n).Valid) (hsigned : chain.SignedVersions (chain.history n))
    (hnode : node.Stores chain (chain.history n)) (hgone : db.NoRevokedRow (chain.history n))
    (hids : ∀ c ∈ (chain.history n).creations, c.id.toNat ≤ u32Max)
    (hfit : ∀ x, ((chain.history n).versionsOf x).length ≤ i32Max)
    (hindex : OwnerIndexed ownerIndex (chain.history n))
    (haddress : parseSs58 address = some owner) :
    (Rpc.buildAccountAts net parseSs58 node ownerIndex address
        (Rpc.buildAccountAtsCount parseSs58 ownerIndex address)).map AtsRecord.ownerDeposit =
      (ownerRows owner db).map fun r => recordOf net db (registryRow db r) := by
  have hsound := hdb.registrySound hids
  have hkeys := ownerKeys_eq owner hdb hv hgone hids hindex
  have hcount : Rpc.buildAccountAtsCount parseSs58 ownerIndex address =
      (ownerIndex owner).length := by
    rw [Rpc.buildAccountAtsCount, haddress]
    exact wrapU32_of_le (hindex.count_le owner)
  have hall : Rpc.buildAccountAts net parseSs58 node ownerIndex address
      (Rpc.buildAccountAtsCount parseSs58 ownerIndex address) =
        (ownerKeys owner db).filterMap (Rpc.buildAtsRecord net node) := by
    rw [hkeys, hcount, Rpc.buildAccountAts, haddress]
    split
    · rename_i hzero
      rw [List.length_eq_zero_iff.mp hzero, List.mergeSort_nil]
      rfl
    · change List.filterMap _ (List.take _ _) = _
      rw [List.take_of_length_le (List.length_mergeSort _).le]
  rw [hall, List.map_filterMap, ownerKeys, List.filterMap_map, ← List.filterMap_eq_map]
  refine List.filterMap_congr fun r hr => ?_
  obtain ⟨hmem, -⟩ := mem_of_mem_ownerRows hr
  have hle : registryKey r ≤ u32Max := by
    have hfits := hsound r hmem
    rw [registryKey]
    omega
  have hsame := (atsById_eq_iff net hdb hv hsigned hnode hle hfit).mpr
    fun x r _ hr => hgone x r hr
  exact hsame.symm.trans (atsById_of_mem net hsound hmem).1

/-- **A page of an owner's records** is the same from either path, up to
the deposits, whatever the request: the records, the cursor to the next
page, the total, and the refusal of a cursor that does not parse. -/
theorem accountAts_eq (net : Network) (hdb : db.IndexedTo chain n)
    (hv : (chain.history n).Valid) (hsigned : chain.SignedVersions (chain.history n))
    (hnode : node.Stores chain (chain.history n)) (hgone : db.NoRevokedRow (chain.history n))
    (hids : ∀ c ∈ (chain.history n).creations, c.id.toNat ≤ u32Max)
    (hfit : ∀ x, ((chain.history n).versionsOf x).length ≤ i32Max)
    (hindex : OwnerIndexed ownerIndex (chain.history n))
    (haddress : parseSs58 address = some owner) (req : PageRequest) :
    listAccountAtsPage net parseSs58 db address req =
      (Rpc.accountAts net parseSs58 node ownerIndex address req).map
        (Page.map AtsRecord.ownerDeposit) := by
  have hsound := hdb.registrySound hids
  by_cases hzero : req.count = 0
  · rw [listAccountAtsPage, if_pos hzero, Rpc.accountAts, if_pos hzero]
    rfl
  cases hcursor : parseCursor atsCursor req with
  | error e =>
    rw [listAccountAtsPage, if_neg hzero, haddress, Rpc.accountAts, if_neg hzero, hcursor]
    rfl
  | ok cursor =>
    rw [listAccountAtsPage_eq hsound haddress hzero hcursor (le_of_parseCursor hcursor),
      Rpc.accountAts_eq_firstPage hzero hcursor]
    have hraw := buildAccountAts_eq net hdb hv hsigned hnode hgone hids hfit hindex haddress
    have htotal : accountAtsCount parseSs58 db address =
        Rpc.buildAccountAtsCount parseSs58 ownerIndex address := by
      have hlength := congrArg List.length (ownerKeys_eq owner hdb hv hgone hids hindex)
      rw [ownerKeys, List.length_map, ownerRows, List.length_reverse, List.length_mergeSort,
        ← List.countP_eq_length_filter] at hlength
      rw [accountAtsCount, Rpc.buildAccountAtsCount, haddress]
      change countU32 (List.countP _ _ : ℕ) = wrapU32 _
      rw [countU32_natCast, hlength]
    generalize Rpc.buildAccountAts net parseSs58 node ownerIndex address
      (Rpc.buildAccountAtsCount parseSs58 ownerIndex address) = raw at hraw ⊢
    have hids' : ∀ r ∈ ownerRows owner db,
        (recordOf net db (registryRow db r)).atsId = registryKey r := fun r hr =>
      (atsById_of_mem net hsound (mem_of_mem_ownerRows hr).1).2
    -- Both keep the ids below the cursor, the node of the records it built.
    have hkept : (raw.filter fun rec => below cursor rec.atsId).map AtsRecord.ownerDeposit =
        ((ownerRows owner db).filter fun r => below cursor (registryKey r)).map
          fun r => recordOf net db (registryRow db r) := by
      calc (raw.filter fun rec => below cursor rec.atsId).map AtsRecord.ownerDeposit
        _ = (raw.map AtsRecord.ownerDeposit).filter fun rec => below cursor rec.atsId :=
            by rw [List.filter_map]; rfl
        _ = ((ownerRows owner db).filter fun r =>
              below cursor (recordOf net db (registryRow db r)).atsId).map
                fun r => recordOf net db (registryRow db r) := by
            rw [hraw, List.filter_map]
            rfl
        _ = _ := by
            refine congrArg (List.map _) (List.filter_congr fun r hr => ?_)
            rw [hids' r hr]
    rw [ownerPage_eq_map hids' hkept, htotal]
    rfl

/-- **What is no address** has an empty page of the database, with no
total; of the node a total of 0, or its cursor refused. -/
theorem accountAts_ne (haddress : parseSs58 address = none) (hcount : req.count ≠ 0) :
    listAccountAtsPage net parseSs58 db address req ≠
      (Rpc.accountAts net parseSs58 node ownerIndex address req).map
        (Page.map AtsRecord.ownerDeposit) := by
  have hdb : listAccountAtsPage net parseSs58 db address req = .ok .empty := by
    rw [listAccountAtsPage, if_neg hcount, haddress]
  rw [hdb]
  cases hcursor : parseCursor atsCursor req with
  | error e =>
    rw [Rpc.accountAts, if_neg hcount, hcursor]
    intro heq
    cases heq
  | ok cursor =>
    rw [Rpc.accountAts_eq_firstPage hcount hcursor]
    intro heq
    have htotal := congrArg (fun page => page.pageInfo.total) (Except.ok.inj heq)
    cases htotal

end AllfeatExplorer
