import AllfeatExplorer.Data.Helpers.AddedVersions
import AllfeatExplorer.Data.IndexedRuns
import AllfeatExplorer.Data.Model.AtsRecords
import AllfeatExplorer.Data.Stats

/-!
# The record of an id, from either path

The database puts a record together from four tables that the workers
filled block by block, in any order; the node reads the pallet's storage
and walks the blocks its versions name. Once the same blocks are indexed,
both show one record of every id that was not revoked, its versions with
their fees and signers included, up to the deposits, of which the
database makes one.
-/

namespace AllfeatExplorer

open Projections AtsHistory Queries Rpc

variable {chain : Chain} {net : Network} {node : AtsNode} {db : Db} {bs : List ℕ}
  {n b id : ℕ} {x : UInt64} {a : AddedVersion} {c : Creation}

/-! ## What the pallet stores -/

/-- The pallet's entry of a version. -/
def versionInfo (a : AddedVersion) : ℕ × VersionInfoView :=
  (a.version.toNat,
    { createdAt := a.block
      commitment := a.commitment
      protocolVersion := a.protocolVersion })

/-- **The pallet's storage after the history**, and the blocks the node
serves: a live id has its entry, under its owner and with a deposit for
each version, and all its versions. -/
structure AtsNode.Stores (node : AtsNode) (chain : Chain) (h : AtsHistory) : Prop where
  registered : ∀ id, node.atsRegistry id ≠ none → ∃ c ∈ h.living, c.id.toNat = id
  entry : ∀ c ∈ h.living, ∃ record, node.atsRegistry c.id.toNat = some record ∧
    record.owner = c.owner ∧ record.versionCount = (h.versionsOf c.id).length ∧
    (record.deposits.map DepositEntryView.amount).sum =
      (h.versionsOf c.id).length * versionDeposit
  versions : ∀ c ∈ h.living, List.Perm (node.atsVersions c.id.toNat)
    ((h.versionsOf c.id).map versionInfo)
  served : ∀ b < h.length, node.atBlock b = some (chain b)

/-- **The calls that add versions**: each is in its block and signed by an
account, and its protocol version is a `u8`. -/
structure Chain.SignedVersions (chain : Chain) (h : AtsHistory) : Prop where
  signed : ∀ x, ∀ a ∈ h.versionsOf x, ∃ ext account,
    (chain a.block).extrinsics[a.extIdx]? = some ext ∧
      ext.addressBytes = some (some (.id account))
  protocol : ∀ x, ∀ a ∈ h.versionsOf x, a.protocolVersion < 256

/-- **The database has indexed the first `n` blocks**, in some order, and
they fit their columns. -/
structure Db.IndexedTo (db : Db) (chain : Chain) (n : ℕ) : Prop where
  applied : ∃ bs, db.Applied chain bs ∧ ∀ b, b ∈ bs ↔ b < n
  fits : ∀ b < n, chain.Fits b
  typed : ∀ b < n, (chain b).Typed

/-! ## What is shown -/

/-- A version, off the history and the chain. -/
def shownVersion (net : Network) (chain : Chain) (a : AddedVersion) : AtsVersion :=
  let ext := (mapExtrinsics net a.block (chain a.block))[a.extIdx]?
  { versionIndex := a.version.toNat
    commitment := hexBytes a.commitment.bytes
    protocolVersion := a.protocolVersion
    createdAtMs := chain.time a.block
    blockNumber := a.block
    extrinsicIndex := a.extIdx
    extrinsicId := extrinsicId a.block a.extIdx
    fee := (ext.map Extrinsic.fee).getD 0
    signer := (ext.bind Extrinsic.signer).getD "" }

/-- The record of a live id, off the history and the chain. -/
def shownRecord (net : Network) (chain : Chain) (h : AtsHistory) (c : Creation) : AtsRecord :=
  let deposit := (h.versionsOf c.id).length * versionDeposit
  { atsId := c.id.toNat
    owner := net.encodeSs58 c.owner
    createdAtMs := chain.time c.block
    createdAtBlock := c.block
    versionCount := (h.versionsOf c.id).length
    deposits := [⟨net.encodeSs58 c.owner, deposit⟩]
    totalDeposit := deposit
    versions := (h.versionsOf c.id).map (shownVersion net chain) }

/-- A record with its deposits made into one, of the owner. -/
def AtsRecord.ownerDeposit (rec : AtsRecord) : AtsRecord :=
  { rec with deposits := [⟨rec.owner, rec.totalDeposit⟩] }

/-! ## The history of a chain -/

theorem Chain.length_history (chain : Chain) (n : ℕ) : (chain.history n).length = n := by
  rw [Chain.history, List.length_map, List.length_range]

theorem Chain.block_history (hb : b < n) :
    (chain.history n).block b = Ats.decodeBlock (chain b) := by
  rw [AtsHistory.block, Chain.history, List.getElem?_map, List.getElem?_range hb]
  rfl

/-- The extrinsic of a version is one of its block. -/
theorem Chain.SignedVersions.exists_extrinsic (net : Network)
    (h : chain.SignedVersions (chain.history n)) (ha : a ∈ (chain.history n).versionsOf x) :
    ∃ hi : a.extIdx < (chain a.block).extrinsics.length, ∃ account,
      (mapExtrinsic net a.block (chain a.block) a.extIdx
        (chain a.block).extrinsics[a.extIdx]).signer = some (net.encodeSs58 account) := by
  obtain ⟨ext, account, hget, haddr⟩ := h.signed x a ha
  obtain ⟨hi, rfl⟩ := List.getElem?_eq_some_iff.mp hget
  refine ⟨hi, account, ?_⟩
  change (if (chain a.block).extrinsics[a.extIdx].isSigned then
    decodeSignerSs58 net (chain a.block).extrinsics[a.extIdx].address else none) = _
  rw [NodeExtrinsic.isSigned, NodeExtrinsic.address, haddr]
  rfl

/-- **What a version shows of its extrinsic.** -/
theorem shownVersion_of_lt (hi : a.extIdx < (chain a.block).extrinsics.length) :
    shownVersion net chain a =
      let ext := mapExtrinsic net a.block (chain a.block) a.extIdx
        (chain a.block).extrinsics[a.extIdx]
      { versionIndex := a.version.toNat
        commitment := hexBytes a.commitment.bytes
        protocolVersion := a.protocolVersion
        createdAtMs := chain.time a.block
        blockNumber := a.block
        extrinsicIndex := a.extIdx
        extrinsicId := extrinsicId a.block a.extIdx
        fee := ext.fee
        signer := ext.signer.getD "" } := by
  simp only [shownVersion, mapExtrinsics, List.getElem?_mapIdx, List.getElem?_eq_getElem hi,
    Option.map_some, Option.getD_some, Option.bind_some]

/-! ## The database's record -/

theorem Db.IndexedTo.indexedAll (h : db.IndexedTo chain n) :
    ∃ bs, db.IndexedAll chain (chain.history n) bs := by
  obtain ⟨bs, happlied, hbs⟩ := h.applied
  exact ⟨bs, happlied.indexedAll hbs⟩

theorem Db.IndexedTo.fullyStored (h : db.IndexedTo chain n) (hb : b < n) :
    db.FullyStored (chain b) b := by
  obtain ⟨bs, happlied, hbs⟩ := h.applied
  exact happlied.fullyStored ((hbs b).mpr hb) (h.fits b hb)

/-- **One version row reads back** as the version it stores. -/
theorem rowToVersion_versionRowOf (hdb : db.IndexedTo chain n)
    (hsigned : chain.SignedVersions (chain.history n))
    (ha : a ∈ (chain.history n).versionsOf x) (hv : a.version.toNat ≤ i32Max) :
    rowToVersion net db (versionRowOf x a) = shownVersion net chain a := by
  have hb : a.block < n := by
    rw [← chain.length_history n]
    exact block_lt_of_versionsOf ha
  have hstored := hdb.fullyStored hb
  obtain ⟨hi, -⟩ := hsigned.exists_extrinsic plainNetwork ha
  have hidx : a.extIdx ≤ i32Max := hi.le.trans hstored.count_le
  have hprotocol : (max (a.protocolVersion : ℤ) 0).toNat % 256 = a.protocolVersion := by
    have hlt := hsigned.protocol x a ha
    omega
  obtain ⟨authorId, hblock⟩ := hstored.block
  have htime : ((db.blocks.find (asI64 a.block)).map StoredBlock.timestampMs).getD 0 =
      chain.time a.block := by
    rw [hblock]
    rfl
  -- The row of its extrinsic has the fee and the signer of the mapper's.
  have hread : (rowToExtrinsic net (Sink.extrinsicRow (fetchTimestamp (chain a.block))
        (Extrinsics.mapOne (chain a.block) a.block a.extIdx
          (chain a.block).extrinsics[a.extIdx]))).setEvents
        (shownEvents net (chain a.block) a.extIdx) =
      (mapExtrinsic net a.block (chain a.block) a.extIdx
        (chain a.block).extrinsics[a.extIdx]).reflag :=
    rowToExtrinsic_extrinsicRow (hdb.typed a.block hb) (List.getElem_mem hi) hstored.num_le hidx
  have hfee := congrArg Extrinsic.fee hread
  have hsigner := congrArg Extrinsic.signer hread
  have hrow := find_extrinsics hstored hi
  rw [shownVersion_of_lt hi]
  simp only [rowToVersion, versionRowOf, Sink.versionRow, ofLex_toLex, hprotocol, htime, hrow,
    toNat_max_asI32 hv, toNat_max_asI32 hidx, toNat_max_asI64 hstored.num_le, Option.bind_some]
  congr 1
  rw [← show _ = (mapExtrinsic net a.block (chain a.block) a.extIdx
    (chain a.block).extrinsics[a.extIdx]).signer from hsigner]
  rfl

/-- **The versions of a live id, read back.** -/
theorem versionsForAts_eq (hdb : db.IndexedTo chain n) (hv : (chain.history n).Valid)
    (hsigned : chain.SignedVersions (chain.history n))
    (hnever : ∀ r, ¬ (chain.history n).Revokes r x)
    (hfit : ((chain.history n).versionsOf x).length ≤ i32Max) :
    versionsForAts net db (atsKey x) =
      ((chain.history n).versionsOf x).map (shownVersion net chain) := by
  obtain ⟨bs, hall⟩ := hdb.indexedAll
  rw [versionsForAts, hv.versionRows_eq hall.applied hall.all hnever hfit, List.map_map]
  refine List.map_congr_left fun a ha => ?_
  have hlt := hv.version_lt_of_versionsOf ha
  exact rowToVersion_versionRowOf hdb hsigned ha (by omega)

/-- The key of an id that is a `u32`. -/
theorem atsKey_of_le (hid : x.toNat ≤ u32Max) : atsKey x = (x.toNat : ℤ) :=
  asI64_of_le (by simp only [u32Max, i64Max] at *; omega)

/-- **The database's record of a live id.** -/
theorem atsById_living (hdb : db.IndexedTo chain n) (hv : (chain.history n).Valid)
    (hsigned : chain.SignedVersions (chain.history n)) (hc : c ∈ (chain.history n).living)
    (hid : c.id.toNat ≤ u32Max) (hfit : ((chain.history n).versionsOf c.id).length ≤ i32Max) :
    atsById net db c.id.toNat = some (shownRecord net chain (chain.history n) c) := by
  obtain ⟨bs, hall⟩ := hdb.indexedAll
  have hfind := hv.find_living hall.applied hall.all hc
  have hcreation := (mem_living.mp hc).1
  have hb : c.block < n := by
    rw [← chain.length_history n]
    exact block_lt_of_living hc
  have hstored := hdb.fullyStored hb
  obtain ⟨authorId, hblock⟩ := hstored.block
  have hcount : (max ((chain.history n).storedCount c.id) 0).toNat =
      ((chain.history n).versionsOf c.id).length := by
    rw [storedCount, ← length_versionsOf]
    omega
  have hpos : 0 < ((chain.history n).versionsOf c.id).length := by
    rw [length_versionsOf]
    exact hv.one_le_additionsOf hcreation
  have hdeposit : min (((chain.history n).versionsOf c.id).length * versionDeposit) u128Max =
      ((chain.history n).versionsOf c.id).length * versionDeposit := by
    refine min_eq_left ?_
    simp only [versionDeposit, u128Max, i32Max] at *
    omega
  have hversions : versionsForAts net db (c.id.toNat : ℤ) =
      ((chain.history n).versionsOf c.id).map (shownVersion net chain) := by
    rw [← atsKey_of_le hid]
    exact versionsForAts_eq hdb hv hsigned (mem_living.mp hc).2 hfit
  have hshown : rowAtsId (c.id.toNat : ℤ) = c.id.toNat := by
    rw [rowAtsId, atsIdU32, Int.max_eq_left (Int.natCast_nonneg _), Int.toNat_natCast, if_pos hid]
  rw [atsKey_of_le hid] at hfind
  rw [atsById, hfind, Option.map_some, shownRecord]
  simp only [registryToRecord, registryRow, registryEntry, hcount, hdeposit, hversions, hshown,
    gt_iff_lt, if_pos hpos, hblock, Option.map_some, Option.getD_some,
    toNat_max_asI64 hstored.num_le]
  rfl

/-- **An id that is not live has a record** just if it was revoked and its
row is there all the same. -/
theorem atsById_eq_none_iff (hdb : db.IndexedTo chain n) (hid : id ≤ u32Max)
    (hnone : ∀ c ∈ (chain.history n).living, c.id.toNat ≠ id) :
    atsById net db id = none ↔ ∀ x r, x.toNat = id → (chain.history n).Revokes r x →
      db.ats.parents.contains (atsKey x) = false := by
  obtain ⟨bs, hall⟩ := hdb.indexedAll
  rw [atsById, Option.map_eq_none_iff, ← Table.contains_eq_false_iff]
  constructor
  · rintro hmissing x r rfl -
    rw [atsKey_of_le hid]
    exact hmissing
  · intro hgone
    refine Bool.eq_false_iff.mpr fun hthere => ?_
    obtain ⟨x, hx, b, -, hb⟩ := exists_creates_of_contains hall.applied hthere
    obtain ⟨c, hc, -, rfl⟩ := hb.exists_mem
    have heq : c.id.toNat = id := by
      have hle := toNat_le_u64Max c.id
      have hkey := (asI64_inj (m := id) (by simp only [u32Max, u64Max] at *; omega) hle).mp
      rw [asI64_of_le (by simp only [u32Max, i64Max] at *; omega)] at hkey
      exact (hkey hx).symm
    refine hnone c (mem_living.mpr ⟨hc, fun r hr => ?_⟩) heq
    rw [hx, hgone c.id r heq hr] at hthere
    cases hthere

/-! ## The node's record -/

/-- An event that makes a version decodes to one that adds it. -/
theorem exists_of_makesVersion {evt : NodeEvent} {v : UInt32}
    (h : makesVersion x.toNat v.toNat evt.body = true) :
    ∃ d, decodeAtsEvent evt = some d ∧ d.atsId = x ∧ d.version = some v := by
  obtain ⟨phase, body, fieldBytes⟩ := evt
  cases body with
  | atsCreated id owner commitment pv =>
    obtain ⟨hzero, hid⟩ : v.toNat = 0 ∧ id.toNat = x.toNat := by simpa [makesVersion] using h
    obtain rfl : v = 0 := UInt32.toNat_inj.mp hzero
    exact ⟨_, rfl, UInt64.toNat_inj.mp hid, rfl⟩
  | atsUpdated id version commitment pv =>
    obtain ⟨⟨-, hid⟩, hversion⟩ : (0 < v.toNat ∧ id.toNat = x.toNat) ∧
        version.toNat = v.toNat := by simpa [makesVersion] using h
    obtain rfl : version = v := UInt32.toNat_inj.mp hversion
    exact ⟨_, rfl, UInt64.toNat_inj.mp hid, rfl⟩
  | _ => cases h

/-- And one that adds a version makes it, an update one past 0. -/
theorem makesVersion_of_decode {evt : NodeEvent} {d : DecodedAtsEvent} {v : UInt32}
    (hd : decodeAtsEvent evt = some d) (hid : d.atsId = x) (hversion : d.version = some v)
    (hupdate : d.updates = true → v ≠ 0) : makesVersion x.toNat v.toNat evt.body = true := by
  obtain ⟨phase, body, fieldBytes⟩ := evt
  subst hid
  cases body with
  | atsCreated id owner commitment pv =>
    obtain rfl := Option.some.inj hd
    obtain rfl := Option.some.inj hversion
    simp [makesVersion, DecodedAtsEvent.atsId]
  | atsUpdated id version commitment pv =>
    obtain rfl := Option.some.inj hd
    obtain rfl := Option.some.inj hversion
    have hne : version.toNat ≠ 0 := fun hzero => hupdate rfl (UInt32.toNat_inj.mp hzero)
    simp only [makesVersion, DecodedAtsEvent.atsId, decide_true, Bool.and_true, decide_eq_true_eq]
    omega
  | atsRevoked id =>
    obtain rfl := Option.some.inj hd
    cases hversion
  | _ => cases hd

/-- **No update is numbered 0**: that is the creation. -/
theorem AtsHistory.Valid.updates_ne_zero {h : AtsHistory} (hv : h.Valid)
    {p : ℕ × DecodedAtsEvent} {v : UInt32} (hp : p ∈ h.block b)
    (hversion : p.2.version = some v) (hupdate : p.2.updates = true) : v ≠ 0 := by
  rintro rfl
  obtain ⟨c, q, hq, hid, hcreates⟩ := hv.exists_creates hp
  have hzero : q.2.version = some 0 := by
    obtain ⟨extIdx, evt⟩ := q
    cases evt with
    | created => rfl
    | updated | revoked => cases hcreates
  obtain ⟨-, rfl⟩ := hv.version_unique hp hq hid.symm hversion hzero
  obtain ⟨extIdx, evt⟩ := p
  cases evt with
  | updated => cases hcreates
  | created | revoked => cases hupdate

/-- **The mapper finds the extrinsic of a version**: a block adds it in
one event. -/
theorem extrinsicOfVersion_eq (hv : (chain.history n).Valid)
    (ha : a ∈ (chain.history n).versionsOf x) :
    extrinsicOfVersion (chain a.block) x.toNat a.version.toNat = some a.extIdx := by
  have hb : a.block < n := by
    rw [← chain.length_history n]
    exact block_lt_of_versionsOf ha
  obtain ⟨d, hadds, hid, hversion⟩ := exists_event_of_versionsOf ha
  have hmem := hadds
  rw [Chain.block_history hb, Ats.decodeBlock, List.mem_filterMap] at hmem
  obtain ⟨evt, hevt, hdecoded⟩ := hmem
  cases hfound : extrinsicOfVersion (chain a.block) x.toNat a.version.toNat with
  | none =>
    rw [extrinsicOfVersion, List.findSome?_eq_none_iff] at hfound
    have hmiss := hfound evt hevt
    cases hphase : evt.phase with
    | applyExtrinsic idx =>
      rw [hphase] at hdecoded hmiss
      obtain ⟨d', hd', heq⟩ := Option.map_eq_some_iff.mp hdecoded
      obtain ⟨rfl, rfl⟩ := Prod.mk.inj heq
      have hmakes := makesVersion_of_decode hd' hid hversion
        (hv.updates_ne_zero hadds hversion)
      cases (if_pos hmakes).symm.trans hmiss
    | finalization | initialization =>
      rw [hphase] at hdecoded
      cases hdecoded
  | some idx =>
    obtain ⟨evt', hevt', hidx⟩ := List.exists_of_findSome?_eq_some hfound
    cases hphase : evt'.phase with
    | applyExtrinsic idx' =>
      rw [hphase] at hidx
      change (if makesVersion x.toNat a.version.toNat evt'.body then some idx' else none) = _
        at hidx
      split at hidx
      · rename_i hmakes
        obtain rfl := Option.some.inj hidx
        obtain ⟨d', hd', hid', hversion'⟩ := exists_of_makesVersion hmakes
        have hother : (idx', d') ∈ (chain.history n).block a.block := by
          rw [Chain.block_history hb, Ats.decodeBlock, List.mem_filterMap]
          exact ⟨evt', hevt', by rw [hphase, hd']; rfl⟩
        obtain ⟨-, heq⟩ := hv.version_unique hother hadds (hid'.trans hid.symm) hversion' hversion
        rw [(Prod.mk.inj heq).1]
      · cases hidx
    | finalization | initialization =>
      rw [hphase] at hidx
      cases hidx

/-- An extrinsic is found under its index. -/
theorem find?_mapExtrinsics {blk : NodeBlock} {i : ℕ} (hi : i < blk.extrinsics.length) :
    (mapExtrinsics net b blk).find? (fun e => decide (e.index = i)) =
      some (mapExtrinsic net b blk i blk.extrinsics[i]) := by
  have hlen : i < (mapExtrinsics net b blk).length := by
    rwa [mapExtrinsics, List.length_mapIdx]
  have hget : ∀ j (hj : j < (mapExtrinsics net b blk).length),
      ((mapExtrinsics net b blk)[j]).index = j := by
    intro j hj
    simp only [mapExtrinsics, List.getElem_mapIdx]
    rfl
  refine List.find?_eq_some_iff_getElem.mpr ⟨decide_eq_true rfl, i, hlen, ?_, ?_⟩
  · simp only [mapExtrinsics, List.getElem_mapIdx]
  · intro j hj
    rw [hget j (hj.trans hlen), Bool.not_eq_true', decide_eq_false_iff_not]
    omega

/-- **One turn of the version loop** adds the version. -/
theorem buildVersion_versionInfo (hv : (chain.history n).Valid)
    (hsigned : chain.SignedVersions (chain.history n))
    (hnode : node.Stores chain (chain.history n)) (ha : a ∈ (chain.history n).versionsOf x)
    (owner : AccountId) (st : ℤ × List AtsVersion) :
    (buildVersion net node x.toNat owner st (versionInfo a)).2 =
      st.2 ++ [shownVersion net chain a] := by
  obtain ⟨hi, account, hsigner⟩ := hsigned.exists_extrinsic net ha
  have hserved := hnode.served a.block (block_lt_of_versionsOf ha)
  rw [shownVersion_of_lt hi]
  simp only [buildVersion, versionInfo, hserved, fetchVersionExtras, extrinsicOfVersion_eq hv ha,
    find?_mapExtrinsics hi, Option.map_some, Option.getD_some, Option.bind_some, hsigner]
  rfl

theorem versions_foldl (net : Network) (hv : (chain.history n).Valid)
    (hsigned : chain.SignedVersions (chain.history n))
    (hnode : node.Stores chain (chain.history n)) (owner : AccountId)
    {vs : List AddedVersion} (hvs : ∀ a ∈ vs, a ∈ (chain.history n).versionsOf x)
    (st : ℤ × List AtsVersion) :
    ((vs.map versionInfo).foldl (buildVersion net node x.toNat owner) st).2 =
      st.2 ++ vs.map (shownVersion net chain) := by
  induction vs generalizing st with
  | nil => exact (List.append_nil _).symm
  | cons a vs ih =>
    rw [List.map_cons, List.foldl_cons, ih fun a' ha' => hvs a' (List.mem_cons_of_mem a ha'),
      buildVersion_versionInfo hv hsigned hnode (hvs a List.mem_cons_self), List.append_assoc,
      List.map_cons, List.singleton_append]

/-- The versions under a live id, sorted, are those of the history. -/
theorem sortedVersions_eq_map (hv : (chain.history n).Valid)
    (hnode : node.Stores chain (chain.history n)) (hc : c ∈ (chain.history n).living) :
    sortedVersions node c.id.toNat = ((chain.history n).versionsOf c.id).map versionInfo := by
  have hperm := (List.mergeSort_perm (node.atsVersions c.id.toNat) fun a b =>
    decide (a.1 ≤ b.1)).trans (hnode.versions c hc)
  have hversions : (((chain.history n).versionsOf c.id).map versionInfo).Pairwise
      fun e e' => e.1 < e'.1 := List.pairwise_map.mpr hv.pairwise_versionsOf
  have hkeys : ((((chain.history n).versionsOf c.id).map versionInfo).map Prod.fst).Nodup :=
    List.pairwise_map.mpr (hversions.imp fun hlt => hlt.ne)
  refine List.Perm.eq_of_pairwise ?_ (pairwise_mergeSort_asc Prod.fst _)
    (hversions.imp fun hlt => hlt.le) hperm
  -- No two have one number.
  intro e e' he he' hle hle'
  exact List.inj_on_of_nodup_map hkeys (hperm.mem_iff.mp he) he' (by omega)

/-- **The node's record of a live id**, its deposits made into one. -/
theorem buildAtsRecord_living (hv : (chain.history n).Valid)
    (hsigned : chain.SignedVersions (chain.history n))
    (hnode : node.Stores chain (chain.history n)) (hc : c ∈ (chain.history n).living)
    (hid : c.id.toNat ≤ u32Max) (hfit : ((chain.history n).versionsOf c.id).length ≤ i32Max) :
    (buildAtsRecord net node c.id.toNat).map AtsRecord.ownerDeposit =
      some (shownRecord net chain (chain.history n) c) := by
  obtain ⟨⟨owner, createdAt, versionCount, deposits⟩, hentry, howner, hcount, hdeposits⟩ :=
    hnode.entry c hc
  obtain rfl : owner = c.owner := howner
  obtain rfl : versionCount = _ := hcount
  have hsorted : ((node.atsVersions c.id.toNat).mergeSort fun a b => decide (a.1 ≤ b.1)) =
      ((chain.history n).versionsOf c.id).map versionInfo := sortedVersions_eq_map hv hnode hc
  obtain ⟨first, later, hfirst, hblock, hzero, hnext⟩ :=
    hv.head_versionsOf (mem_living.mp hc).1
  have hversions := versions_foldl net hv hsigned hnode c.owner
    (fun a (ha : a ∈ (chain.history n).versionsOf c.id) => ha) (0, [])
  have htime : ((((chain.history n).versionsOf c.id).map versionInfo).foldl
      (buildVersion net node c.id.toNat c.owner) (0, [])).1 = chain.time c.block := by
    have hserved := hnode.served c.block (block_lt_of_living hc)
    rw [hfirst, List.map_cons, createdAtMs_cons net node _ _ (by rw [versionInfo, hzero]; rfl) ?_]
    · rw [versionTime, versionInfo, hblock, hserved]
      rfl
    · intro e he
      obtain ⟨a, ha, rfl⟩ := List.mem_map.mp he
      exact hnext a ha
  have hdeposit : ((chain.history n).versionsOf c.id).length * versionDeposit % (u128Max + 1) =
      ((chain.history n).versionsOf c.id).length * versionDeposit := by
    refine Nat.mod_eq_of_lt ?_
    simp only [versionDeposit, u128Max, i32Max] at *
    omega
  have hcreated : ((((chain.history n).versionsOf c.id).map versionInfo).head?.map
      fun v => v.2.createdAt).getD createdAt = c.block := by
    rw [hfirst, List.map_cons, List.head?_cons, Option.map_some, Option.getD_some, versionInfo,
      hblock]
  rw [buildAtsRecord, hentry, Option.map_some, Option.map_some, shownRecord]
  simp only [AtsRecord.ownerDeposit, hsorted, hversions, htime, hdeposits, hdeposit, hcreated,
    atsIdU32, if_pos hid, List.nil_append]

/-! ## The two compared -/

/-- **The record of an id, from either path**, is one and the same, up to
the deposits, just if the id is not a revoked one whose row came back. -/
theorem atsById_eq_iff (net : Network) (hdb : db.IndexedTo chain n) (hv : (chain.history n).Valid)
    (hsigned : chain.SignedVersions (chain.history n))
    (hnode : node.Stores chain (chain.history n)) (hid : id ≤ u32Max)
    (hfit : ∀ x, ((chain.history n).versionsOf x).length ≤ i32Max) :
    atsById net db id = (buildAtsRecord net node id).map AtsRecord.ownerDeposit ↔
      ∀ x r, x.toNat = id → (chain.history n).Revokes r x →
        db.ats.parents.contains (atsKey x) = false := by
  by_cases hlive : ∃ c ∈ (chain.history n).living, c.id.toNat = id
  · obtain ⟨c, hc, rfl⟩ := hlive
    refine iff_of_true ?_ fun x r hx hr => ?_
    · rw [atsById_living hdb hv hsigned hc hid (hfit c.id),
        buildAtsRecord_living hv hsigned hnode hc hid (hfit c.id)]
    · obtain rfl := UInt64.toNat_inj.mp hx
      exact absurd hr ((mem_living.mp hc).2 r)
  · have hnone : ∀ c ∈ (chain.history n).living, c.id.toNat ≠ id := fun c hc heq =>
      hlive ⟨c, hc, heq⟩
    have hnode' : buildAtsRecord net node id = none := by
      rw [buildAtsRecord, Option.map_eq_none_iff]
      by_contra hsome
      exact hlive (hnode.registered id hsome)
    rw [hnode', Option.map_none, atsById_eq_none_iff hdb hid hnone]

end AllfeatExplorer
