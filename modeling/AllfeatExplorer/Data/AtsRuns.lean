import AllfeatExplorer.Data.AccountAts
import AllfeatExplorer.Data.Accounts

/-!
# The records in a run

What the workers left behind after a run, against the node at the tip of
what they indexed: the record of an id, and the list of an owner.
-/

namespace AllfeatExplorer

open Projections AtsHistory Queries

variable {chain : Chain} {net : Network} {node : AtsNode} {chunkSize tip id : ℕ}
  {as : List Action} {s : Sys} {owner : AccountId} {parseSs58 : String → Option AccountId}
  {address : String} {ownerIndex : AccountId → List ℕ}

/-- **The blocks up to the tip**: they fit their columns, the runtime's
life of an id is theirs, versions are added by signed calls, ids are those
a `u32` counts, and of none are there more versions than an `INT`. -/
structure Chain.RecordsTo (chain : Chain) (tip : ℕ) : Prop where
  fits : ∀ b ≤ tip, chain.Fits b
  typed : ∀ b ≤ tip, (chain b).Typed
  valid : (chain.history (tip + 1)).Valid
  signed : chain.SignedVersions (chain.history (tip + 1))
  ids_le : ∀ c ∈ (chain.history (tip + 1)).creations, c.id.toNat ≤ u32Max
  versions_le : ∀ x, ((chain.history (tip + 1)).versionsOf x).length ≤ i32Max

/-- **A run that reaches the tip** has indexed the blocks up to it. -/
theorem indexedTo_run (h : run (Sys.step chain chunkSize) (Sys.start Db.empty) as = some s)
    (hchain : chain.RecordsTo tip) (hup : s.db.IndexedUpTo tip) :
    s.db.IndexedTo chain (tip + 1) := by
  have htip : tip ≤ u64Max := by
    have hfits := (hchain.fits tip le_rfl).num
    simp only [i64Max, u64Max] at *
    omega
  obtain ⟨bs, hbs⟩ := applied_run h
  refine ⟨⟨bs, hbs, fun b => ?_⟩, fun b hb => hchain.fits b (Nat.le_of_lt_succ hb),
    fun b hb => hchain.typed b (Nat.le_of_lt_succ hb)⟩
  rw [hup.mem_iff htip hbs, Nat.lt_succ_iff]

/-- **The record of an id, after a run**, is from the database what it is
from the node, up to the deposits, just if the id is not a revoked one
whose row a block indexed again brought back. -/
theorem atsById_run (net : Network)
    (h : run (Sys.step chain chunkSize) (Sys.start Db.empty) as = some s)
    (hchain : chain.RecordsTo tip) (hup : s.db.IndexedUpTo tip)
    (hnode : node.Stores chain (chain.history (tip + 1))) (hid : id ≤ u32Max) :
    atsById net s.db id = (Rpc.buildAtsRecord net node id).map AtsRecord.ownerDeposit ↔
      ∀ x r, x.toNat = id → (chain.history (tip + 1)).Revokes r x →
        s.db.ats.parents.contains (atsKey x) = false :=
  atsById_eq_iff net (indexedTo_run h hchain hup) hchain.valid hchain.signed hnode hid
    hchain.versions_le

/-- **Each record listed, after a run, is its id's detail**, in the list
of all records and in an owner's, of which each is the owner's. -/
theorem listed_atsById_run (net : Network)
    (h : run (Sys.step chain chunkSize) (Sys.start Db.empty) as = some s)
    (hchain : chain.RecordsTo tip) (hup : s.db.IndexedUpTo tip) :
    (∀ req page, listAtsPage net s.db req = .ok page →
      ∀ rec ∈ page.items, atsById net s.db rec.atsId = some rec) ∧
    ∀ parseSs58 address owner req page, parseSs58 address = some owner →
      listAccountAtsPage net parseSs58 s.db address req = .ok page →
      ∀ rec ∈ page.items,
        atsById net s.db rec.atsId = some rec ∧ rec.owner = net.encodeSs58 owner :=
  listed_atsById net ((indexedTo_run h hchain hup).registrySound hchain.ids_le)

/-- **A page of an owner's records, after a run**, is the same from either
path, up to the deposits, where no revoked id has its row back: the
records, the cursor to the next page, the total and the refusal of a
cursor. It is another just at what is no address, unless nothing is asked
for. -/
theorem accountAts_run (net : Network) (parseSs58 : String → Option AccountId) (address : String)
    (req : PageRequest) (h : run (Sys.step chain chunkSize) (Sys.start Db.empty) as = some s)
    (hchain : chain.RecordsTo tip) (hup : s.db.IndexedUpTo tip)
    (hnode : node.Stores chain (chain.history (tip + 1)))
    (hindex : OwnerIndexed ownerIndex (chain.history (tip + 1)))
    (hgone : s.db.NoRevokedRow (chain.history (tip + 1))) :
    listAccountAtsPage net parseSs58 s.db address req =
        (Rpc.accountAts net parseSs58 node ownerIndex address req).map
          (Page.map AtsRecord.ownerDeposit) ↔
      req.count = 0 ∨ ∃ owner, parseSs58 address = some owner := by
  constructor
  · intro hsame
    by_contra hother
    obtain ⟨hcount, hnone⟩ := not_or.mp hother
    refine accountAts_ne (Option.eq_none_iff_forall_ne_some.mpr fun owner howner => ?_) hcount
      hsame
    exact hnone ⟨owner, howner⟩
  · rintro (hzero | ⟨owner, haddress⟩)
    · rw [listAccountAtsPage, if_pos hzero, Rpc.accountAts, if_pos hzero]
      rfl
    · exact accountAts_eq net (indexedTo_run h hchain hup) hchain.valid hchain.signed hnode hgone
        hchain.ids_le hchain.versions_le hindex haddress req

/-! ## Two records, and a revoked one -/

/-- A call of the ATS pallet, signed by `[1; 32]`. -/
def atsCall (callName : String) : NodeExtrinsic :=
  ⟨.fill 1, "Ats", callName, some (some (.id (.fill 1))), some 0, some 0, [], 1⟩

/-- Block 1 creates ids 0 and 1; block 2 updates the one, revokes the
other and creates id 2. -/
def recordChain : Chain := fun b =>
  if b = 1 then
    { bareChain 1 with
      extrinsics := [atsCall "create", atsCall "create"]
      events :=
        [⟨.applyExtrinsic 0, .atsCreated 0 (.fill 1) (.fill 2) 1, []⟩,
          ⟨.applyExtrinsic 1, .atsCreated 1 (.fill 1) (.fill 3) 1, []⟩] }
  else if b = 2 then
    { bareChain 2 with
      extrinsics := [atsCall "update", atsCall "revoke", atsCall "create"]
      events :=
        [⟨.applyExtrinsic 0, .atsUpdated 0 1 (.fill 4) 1, []⟩,
          ⟨.applyExtrinsic 1, .atsRevoked 1, []⟩,
          ⟨.applyExtrinsic 2, .atsCreated 2 (.fill 1) (.fill 6) 1, []⟩] }
  else bareChain b

/-- The node after them, the versions of id 0 in the order of storage. -/
def recordNode : AtsNode where
  nextAtsId := 3
  next_le := Rpc.three_le_u64Max
  atsRegistry id :=
    if id = 0 then some ⟨.fill 1, 1, 2, [⟨.fill 1, versionDeposit⟩, ⟨.fill 1, versionDeposit⟩]⟩
    else if id = 2 then some ⟨.fill 1, 2, 1, [⟨.fill 1, versionDeposit⟩]⟩
    else none
  atsVersions id :=
    if id = 0 then [(1, ⟨2, .fill 4, 1⟩), (0, ⟨1, .fill 2, 1⟩)]
    else if id = 2 then [(0, ⟨2, .fill 6, 1⟩)]
    else []
  atBlock b := some (recordChain b)

theorem history_recordChain :
    recordChain.history 3 =
      [[], [(0, .created 0 (.fill 1) (.fill 2) 1), (1, .created 1 (.fill 1) (.fill 3) 1)],
        [(0, .updated 0 1 (.fill 4) 1), (1, .revoked 1),
          (2, .created 2 (.fill 1) (.fill 6) 1)]] := by
  decide

theorem living_recordChain :
    (recordChain.history 3).living = [⟨1, 0, 0, .fill 1⟩, ⟨2, 2, 2, .fill 1⟩] := by
  rw [history_recordChain]
  decide

theorem versionsOf_recordChain :
    (recordChain.history 3).versionsOf 0 = [⟨1, 0, 0, .fill 2, 1⟩, ⟨2, 0, 1, .fill 4, 1⟩] ∧
      (recordChain.history 3).versionsOf 2 = [⟨2, 2, 0, .fill 6, 1⟩] := by
  rw [history_recordChain]
  decide

/-- Id 1 is the one revoked. -/
theorem eq_one_of_revokes {r : ℕ} {x : UInt64} (hr : (recordChain.history 3).Revokes r x) :
    x = 1 := by
  have hone : ∀ p ∈ (recordChain.history 3).timeline, p.2.2.revokes = true → p.2.2.atsId = 1 := by
    rw [history_recordChain]
    decide
  obtain ⟨p, hp, rfl, hrevokes⟩ := hr
  exact hone _ (mem_timeline.mpr hp) hrevokes

theorem recordChain_recordsTo : recordChain.RecordsTo 2 where
  fits := by
    intro b hb
    obtain rfl | rfl | rfl : b = 0 ∨ b = 1 ∨ b = 2 := by omega
    · exact ⟨by decide, by decide, by decide, by simp [recordChain, bareChain]⟩
    · exact ⟨by decide, by decide, by decide, by simp [recordChain, i32Max]⟩
    · exact ⟨by decide, by decide, by decide, by simp [recordChain, i32Max]⟩
  typed := by
    intro b hb
    obtain rfl | rfl | rfl : b = 0 ∨ b = 1 ∨ b = 2 := by omega
    · exact ⟨by decide, by simp [recordChain, bareChain], by simp [recordChain, bareChain]⟩
    · exact ⟨by decide, by simp [recordChain, atsCall, u128Max], by simp [recordChain]⟩
    · exact ⟨by decide, by simp [recordChain, atsCall, u128Max], by simp [recordChain]⟩
  valid := by
    rw [history_recordChain]
    exact valid_of_named (by decide)
  signed :=
    { signed := by
        have haddress : ∀ x, ∀ a ∈ (recordChain.history 3).versionsOf x,
            (recordChain a.block).extrinsics[a.extIdx]?.bind (·.addressBytes) =
              some (some (.id (.fill 1))) :=
          forall_versionsOf (by rw [history_recordChain]; decide)
        intro x a ha
        obtain ⟨ext, hext, hbytes⟩ := Option.bind_eq_some_iff.mp (haddress x a ha)
        exact ⟨ext, .fill 1, hext, hbytes⟩
      protocol := forall_versionsOf (by rw [history_recordChain]; decide) }
  ids_le := by
    rw [history_recordChain]
    decide
  versions_le := by
    intro x
    refine (List.length_filterMap_le _ _).trans ?_
    rw [history_recordChain]
    decide

theorem recordNode_stores : recordNode.Stores recordChain (recordChain.history 3) where
  registered := by
    intro id hid
    rw [living_recordChain]
    by_cases hzero : id = 0
    · exact ⟨_, List.mem_cons_self, hzero.symm⟩
    · have htwo : id = 2 := by
        by_contra hne
        exact hid ((if_neg hzero).trans (if_neg hne))
      exact ⟨_, List.mem_cons_of_mem _ List.mem_cons_self, htwo.symm⟩
  entry := by
    obtain ⟨hfirst, hsecond⟩ := versionsOf_recordChain
    rw [living_recordChain]
    simp only [List.forall_mem_cons, hfirst, hsecond]
    exact ⟨⟨_, rfl, rfl, rfl, rfl⟩, ⟨_, rfl, rfl, rfl, rfl⟩, nofun⟩
  versions := by
    obtain ⟨hfirst, hsecond⟩ := versionsOf_recordChain
    rw [living_recordChain]
    simp only [List.forall_mem_cons, hfirst, hsecond]
    exact ⟨List.Perm.swap _ _ _, List.Perm.refl _, nofun⟩
  served := fun _ _ => rfl

/-- Indexed, and no row of the revoked id is there. -/
theorem recordChain_backfilled :
    ∃ s, run (Sys.step recordChain 100) (Sys.start Db.empty) (backfilled 2) = some s ∧
      s.db.IndexedUpTo 2 ∧ s.db.NoRevokedRow (recordChain.history 3) := by
  have hindexed : ∃ s,
      run (Sys.step recordChain 100) (Sys.start Db.empty) (backfilled 2) = some s ∧
        s.db.IndexedUpTo 2 :=
    backfilled_indexedUpTo (by decide +kernel)
  have hgone : (run (Sys.step recordChain 100) (Sys.start Db.empty) (backfilled 2)).map
      (fun s => s.db.ats.parents.contains (atsKey 1)) = some false := by
    decide +kernel
  obtain ⟨s, hs, hup⟩ := hindexed
  rw [hs] at hgone
  refine ⟨s, hs, hup, fun x r hr => ?_⟩
  rw [eq_one_of_revokes hr]
  exact Option.some.inj hgone

/-- The owner's ids, as the pallet indexes them. -/
def recordOwnerIndex (account : AccountId) : List ℕ := if account = .fill 1 then [2, 0] else []

theorem recordOwnerIndex_indexed : OwnerIndexed recordOwnerIndex (recordChain.history 3) where
  ids := by
    intro owner
    rw [living_recordChain, recordOwnerIndex]
    by_cases howner : owner = .fill 1
    · subst howner
      exact List.Perm.swap _ _ _
    · rw [if_neg howner, List.filter_eq_nil_iff.mpr]
      · exact List.Perm.refl _
      · simp only [List.forall_mem_cons, decide_eq_true_eq]
        exact ⟨Ne.symm howner, Ne.symm howner, nofun⟩
  count_le := by
    intro owner
    rw [recordOwnerIndex]
    split <;> decide

/-- Id 0 with its two versions, from the database and from the node; of
the revoked id neither has a record. -/
theorem atsById_run_backfilled :
    ∃ s rec, run (Sys.step recordChain 100) (Sys.start Db.empty) (backfilled 2) = some s ∧
      Rpc.buildAtsRecord plainNetwork recordNode 0 = some rec ∧ rec.versionCount = 2 ∧
      atsById plainNetwork s.db 0 = some rec.ownerDeposit ∧
      atsById plainNetwork s.db 1 = none := by
  obtain ⟨s, hs, hup, hgone⟩ := recordChain_backfilled
  have hsame : ∀ id ≤ u32Max, atsById plainNetwork s.db id =
      (Rpc.buildAtsRecord plainNetwork recordNode id).map AtsRecord.ownerDeposit := fun id hid =>
    (atsById_run plainNetwork hs recordChain_recordsTo hup recordNode_stores hid).mpr
      fun x r _ hr => hgone x r hr
  exact ⟨s, _, hs, rfl, rfl, hsame 0 (by decide), hsame 1 (by decide)⟩

/-- The node's page of the owner's records, as the database shows it. -/
theorem accountAts_recordNode :
    ∃ page, (Rpc.accountAts plainNetwork parseOwner recordNode recordOwnerIndex "owner"
        ⟨10, none⟩).map (Page.map AtsRecord.ownerDeposit) = .ok page ∧
      page.items.map AtsRecord.atsId = [2, 0] ∧ page.pageInfo = ⟨some 2, none, false⟩ := by
  have hrecords : Rpc.buildAccountAts plainNetwork parseOwner recordNode recordOwnerIndex
      "owner" 2 = [2, 0].filterMap (Rpc.buildAtsRecord plainNetwork recordNode) := by
    change (([2, 0].mergeSort _).take 2).filterMap _ = _
    rw [List.mergeSort_of_pairwise (by decide)]
    rfl
  have hcount : Rpc.buildAccountAtsCount parseOwner recordOwnerIndex "owner" = 2 := rfl
  rw [Rpc.accountAts_eq_firstPage (by decide) rfl, hcount, hrecords]
  exact ⟨_, rfl, rfl, rfl⟩

/-- The owner's page of the database, which is the node's. -/
theorem listAccountAtsPage_backfilled {s : Sys}
    (h : run (Sys.step recordChain 100) (Sys.start Db.empty) (backfilled 2) = some s)
    (hup : s.db.IndexedUpTo 2) (hgone : s.db.NoRevokedRow (recordChain.history 3)) :
    ∃ page, listAccountAtsPage plainNetwork parseOwner s.db "owner" ⟨10, none⟩ = .ok page ∧
      page.items.map AtsRecord.atsId = [2, 0] := by
  obtain ⟨page, hpage, hids, -⟩ := accountAts_recordNode
  have hchain := recordChain_recordsTo
  have hsame : listAccountAtsPage plainNetwork parseOwner s.db "owner" ⟨10, none⟩ =
      (Rpc.accountAts plainNetwork parseOwner recordNode recordOwnerIndex "owner"
        ⟨10, none⟩).map (Page.map AtsRecord.ownerDeposit) :=
    accountAts_eq plainNetwork (indexedTo_run h hchain hup) hchain.valid hchain.signed
      recordNode_stores hgone hchain.ids_le hchain.versions_le recordOwnerIndex_indexed rfl _
  exact ⟨page, hsame.trans hpage, hids⟩

/-- Two records of the owner, each its id's detail. -/
theorem listed_atsById_run_backfilled :
    ∃ s page, run (Sys.step recordChain 100) (Sys.start Db.empty) (backfilled 2) = some s ∧
      listAccountAtsPage plainNetwork parseOwner s.db "owner" ⟨10, none⟩ = .ok page ∧
      page.items.map AtsRecord.atsId = [2, 0] ∧
      ∀ rec ∈ page.items, atsById plainNetwork s.db rec.atsId = some rec := by
  obtain ⟨s, hs, hup, hgone⟩ := recordChain_backfilled
  obtain ⟨page, hpage, hids⟩ := listAccountAtsPage_backfilled hs hup hgone
  have hlisted := listed_atsById_run plainNetwork hs recordChain_recordsTo hup
  exact ⟨s, page, hs, hpage, hids, fun rec hrec => (hlisted.2 _ _ _ _ page rfl hpage rec hrec).1⟩

/-- A page with the two records, and the total. -/
theorem accountAts_run_backfilled :
    ∃ s page, run (Sys.step recordChain 100) (Sys.start Db.empty) (backfilled 2) = some s ∧
      listAccountAtsPage plainNetwork parseOwner s.db "owner" ⟨10, none⟩ = .ok page ∧
      page.items.map AtsRecord.atsId = [2, 0] ∧ page.pageInfo = ⟨some 2, none, false⟩ := by
  obtain ⟨s, hs, hup, hgone⟩ := recordChain_backfilled
  obtain ⟨page, hpage, hids, hinfo⟩ := accountAts_recordNode
  have hsame := (accountAts_run plainNetwork parseOwner "owner" ⟨10, none⟩ hs
    recordChain_recordsTo hup recordNode_stores recordOwnerIndex_indexed hgone).mpr
      (.inr ⟨_, rfl⟩)
  exact ⟨s, page, hs, hsame.trans hpage, hids, hinfo⟩

end AllfeatExplorer
