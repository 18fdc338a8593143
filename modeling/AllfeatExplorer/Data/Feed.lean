import AllfeatExplorer.Data.Model.Feed
import AllfeatExplorer.Data.Registry
import AllfeatExplorer.Data.Helpers.Enumerate
import AllfeatExplorer.Data.Helpers.Paging
import AllfeatExplorer.Lib.StableSort

/-!
# Walking the node's ATS feed

A page looks at the buffer's worth of versions from the newest id down,
whatever its cursor, and pages through them. So the walk enumerates that
much of the registry, and all of it exactly when there is no more.
-/

namespace AllfeatExplorer

open Projections Queries

namespace Rpc

variable {net : Network} {node : AtsNode} {count id n : ℕ} {item a b : AtsFeedItem}

/-! ## The loops -/

/-- The items of a record, newest version first. -/
def recordItems (rec : AtsRecord) : List AtsFeedItem := rec.versions.reverse.map (feedItem rec)

/-- **The versions of the live records**, from the newest id down. -/
def feedItems (net : Network) (node : AtsNode) : List AtsFeedItem :=
  (liveRecords (buildAtsRecord net node) node.nextAtsId).flatMap recordItems

/-- **What a feed of `n` versions holds**: the first `n` of them by id,
in the order of time. -/
def newestFeed (net : Network) (node : AtsNode) (n : ℕ) : List AtsFeedItem :=
  ((feedItems net node).take n).mergeSort newestFirst

/-- All of them. -/
def allVersions (net : Network) (node : AtsNode) : List AtsFeedItem :=
  (feedItems net node).mergeSort newestFirst

theorem feedVersions_eq (rec : AtsRecord) (versions : List AtsVersion) {skipped : ℕ}
    {out : List AtsFeedItem} (h : out.length ≤ count) :
    feedVersions count 0 rec versions (skipped, out) =
      (skipped, out ++ (versions.map (feedItem rec)).take (count - out.length)) := by
  induction versions generalizing out with
  | nil => rw [feedVersions, List.map_nil, List.take_nil, List.append_nil]
  | cons v versions ih =>
    rw [feedVersions, if_neg (Nat.not_lt_zero _)]
    split
    · rename_i hfull
      rw [show count - out.length = 0 by omega, List.take_zero, List.append_nil]
    · rename_i hroom
      have hlen : (out ++ [feedItem rec v]).length = out.length + 1 := by simp
      have hleft : count - out.length = count - (out.length + 1) + 1 := by omega
      rw [ih (by omega), hlen, hleft, List.map_cons, List.take_succ_cons, List.append_assoc,
        List.singleton_append]

/-- **The loop takes the first `count` versions.** -/
theorem feedRecords_eq (stream : List (Option AtsRecord)) {out : List AtsFeedItem}
    (h : out.length ≤ count) :
    feedRecords count 0 stream (0, out) =
      out ++ ((stream.filterMap fun r => r).flatMap recordItems).take (count - out.length) := by
  induction stream generalizing out with
  | nil => simp [feedRecords]
  | cons rec stream ih =>
    rcases rec with - | rec
    · rw [feedRecords, ih h, List.filterMap_cons_none rfl]
    · have hcons : (some rec :: stream).filterMap (fun r => r) =
          rec :: stream.filterMap fun r => r := rfl
      rw [feedRecords, feedVersions_eq rec _ h, hcons, List.flatMap_cons, List.take_append]
      change (let st := (0, out ++ (recordItems rec).take (count - out.length))
        if count ≤ st.2.length then st.2 else feedRecords count 0 stream st) = _
      have hlen : (out ++ (recordItems rec).take (count - out.length)).length =
          out.length + min (count - out.length) (recordItems rec).length := by
        rw [List.length_append, List.length_take]
      simp only
      split
      · rename_i hfull
        rw [show count - out.length - (recordItems rec).length = 0 by omega, List.take_zero,
          List.append_nil]
      · rename_i hroom
        rw [ih (by omega), hlen, List.append_assoc]
        congr 3
        omega

/-- **`build_ats_feed`** from the start. -/
theorem buildAtsFeed_eq (hcount : 1 ≤ count) :
    buildAtsFeed net node count 0 = newestFeed net node count := by
  rw [buildAtsFeed, if_neg (by omega), newestFeed, feedItems]
  split
  · rename_i hnext
    rw [hnext, liveRecords, List.range_zero, List.reverse_nil, List.filterMap_nil,
      List.flatMap_nil, List.take_nil, List.mergeSort_nil]
  · rw [feedRecords_eq _ (Nat.zero_le _), List.nil_append, List.length_nil, Nat.sub_zero,
      List.filterMap_map]
    rfl

/-! ## The versions of a record -/

/-- The timestamp a version is shown at. -/
def versionTime (node : AtsNode) (info : VersionInfoView) : ℤ :=
  ((node.atBlock info.createdAt).map fetchTimestamp).getD 0

/-- The versions under an id, ascending. -/
def sortedVersions (node : AtsNode) (id : ℕ) : List (ℕ × VersionInfoView) :=
  (node.atsVersions id).mergeSort fun a b => decide (a.1 ≤ b.1)

/-- What the feed goes by in a version. -/
def versionView (v : AtsVersion) : ℕ × ℕ × ℤ := (v.versionIndex, v.blockNumber, v.createdAtMs)

theorem versionView_foldl (owner : AccountId) (raw : List (ℕ × VersionInfoView))
    (st : ℤ × List AtsVersion) :
    (raw.foldl (buildVersion net node id owner) st).2.map versionView =
      st.2.map versionView ++ raw.map fun e => (e.1, e.2.createdAt, versionTime node e.2) := by
  induction raw generalizing st with
  | nil => simp
  | cons e raw ih =>
    obtain ⟨v, info⟩ := e
    have hstep : (buildVersion net node id owner st (v, info)).2.map versionView =
        st.2.map versionView ++ [(v, info.createdAt, versionTime node info)] := by
      simp only [buildVersion, List.map_append, List.map_cons, List.map_nil, versionView,
        versionTime]
      cases node.atBlock info.createdAt with
      | none => rfl
      | some blk =>
        simp only [fetchVersionExtras, Option.map_some, Option.getD_some]
        split <;> rfl
    rw [List.foldl_cons, ih, hstep, List.map_cons, List.append_assoc, List.singleton_append]

/-- **The versions of a record** are those stored under its id. -/
theorem versionView_record {rec : AtsRecord} (h : buildAtsRecord net node id = some rec) :
    rec.atsId = atsIdU32 id ∧ rec.versions.map versionView =
      (sortedVersions node id).map fun e => (e.1, e.2.createdAt, versionTime node e.2) := by
  rw [buildAtsRecord, Option.map_eq_some_iff] at h
  obtain ⟨record, -, rfl⟩ := h
  exact ⟨rfl, by rw [versionView_foldl]; rfl⟩

/-! ## The order of the feed -/

/-- **A registry as the pallet and the node keep it**: ids are shown as
they are, a version is stored once, its numbers are `u32`s, and the node
serves the block of every version, with later timestamps in later
blocks. -/
structure FeedSound (node : AtsNode) : Prop where
  ids : ∀ id, id < node.nextAtsId → node.atsRegistry id ≠ none → id ≤ u32Max
  once : ∀ id, ((node.atsVersions id).map Prod.fst).Nodup
  fit : ∀ id, ∀ e ∈ node.atsVersions id, e.1 ≤ u32Max ∧ e.2.createdAt ≤ u32Max
  served : ∀ id, node.atsRegistry id ≠ none → ∀ e ∈ node.atsVersions id,
    (node.atBlock e.2.createdAt).isSome = true
  times : ∀ b b' blk blk', node.atBlock b = some blk → node.atBlock b' = some blk' → b < b' →
    fetchTimestamp blk < fetchTimestamp blk'

/-- **Where an item comes from.** -/
theorem mem_recordItems {rec : AtsRecord} (h : buildAtsRecord net node id = some rec)
    (hitem : item ∈ recordItems rec) :
    item.atsId = atsIdU32 id ∧ ∃ e ∈ node.atsVersions id, item.versionIndex = e.1 ∧
      item.blockNumber = e.2.createdAt ∧ item.timestampMs = versionTime node e.2 := by
  obtain ⟨hid, hview⟩ := versionView_record h
  obtain ⟨v, hv, rfl⟩ := List.mem_map.mp hitem
  have hmem : versionView v ∈ rec.versions.map versionView :=
    List.mem_map_of_mem (List.mem_reverse.mp hv)
  rw [hview] at hmem
  obtain ⟨e, he, heq⟩ := List.mem_map.mp hmem
  obtain ⟨hindex, hrest⟩ := Prod.mk.inj heq
  obtain ⟨hblock, htime⟩ := Prod.mk.inj hrest
  exact ⟨hid, e, (List.mergeSort_perm _ _).mem_iff.mp he, hindex.symm, hblock.symm, htime.symm⟩

theorem exists_recordItem {rec : AtsRecord} (h : buildAtsRecord net node id = some rec)
    {e : ℕ × VersionInfoView} (he : e ∈ node.atsVersions id) :
    ∃ item ∈ recordItems rec, item.atsId = atsIdU32 id ∧ item.versionIndex = e.1 ∧
      item.blockNumber = e.2.createdAt := by
  obtain ⟨hid, hview⟩ := versionView_record h
  have hmem : (e.1, e.2.createdAt, versionTime node e.2) ∈ rec.versions.map versionView := by
    rw [hview]
    exact List.mem_map.mpr ⟨e, (List.mergeSort_perm _ _).mem_iff.mpr he, rfl⟩
  obtain ⟨v, hv, heq⟩ := List.mem_map.mp hmem
  obtain ⟨hindex, hrest⟩ := Prod.mk.inj heq
  exact ⟨feedItem rec v, List.mem_map_of_mem (List.mem_reverse.mpr hv), hid, hindex,
    (Prod.mk.inj hrest).1⟩

/-- Newest id first, and newest version of an id first. -/
def ById (a b : AtsFeedItem) : Prop :=
  toLex (b.atsId, b.versionIndex) < toLex (a.atsId, a.versionIndex)

theorem recordItems_pairwise (h : FeedSound node) {rec : AtsRecord}
    (hrec : buildAtsRecord net node id = some rec) : (recordItems rec).Pairwise ById := by
  obtain ⟨-, hview⟩ := versionView_record hrec
  have hsorted : (sortedVersions node id).Pairwise fun a b => a.1 < b.1 := by
    exact pairwise_lt_mergeSort_asc (h.once id)
  have hversions : rec.versions.Pairwise fun a b => a.versionIndex < b.versionIndex := by
    have hviews : (rec.versions.map versionView).Pairwise fun a b => a.1 < b.1 := by
      rw [hview]
      exact List.pairwise_map.mpr hsorted
    exact (List.pairwise_map.mp hviews).imp fun hlt => hlt
  refine List.pairwise_map.mpr ((List.pairwise_reverse.mpr hversions).imp fun {v w} hlt => ?_)
  rw [ById, Prod.Lex.toLex_lt_toLex]
  exact .inr ⟨rfl, hlt⟩

theorem feedItems_pairwise (net : Network) (h : FeedSound node) :
    (feedItems net node).Pairwise ById := by
  refine List.pairwise_flatMap.mpr ⟨fun rec hrec => ?_, ?_⟩
  · obtain ⟨id, -, hid⟩ := List.mem_filterMap.mp hrec
    exact recordItems_pairwise h hid
  · rw [liveRecords, List.pairwise_filterMap]
    refine (List.pairwise_reverse.mpr List.pairwise_lt_range).imp_of_mem ?_
    intro i j hi hj hji rec hrec rec' hrec' a ha b hb
    have hbound : ∀ {i rec}, i ∈ (List.range node.nextAtsId).reverse →
        buildAtsRecord net node i = some rec → atsIdU32 i = i := by
      intro i rec hi hrec
      refine if_pos (h.ids i (List.mem_range.mp (List.mem_reverse.mp hi)) fun hnone => ?_)
      rw [buildAtsRecord, hnone] at hrec
      cases hrec
    have hida := (mem_recordItems hrec ha).1
    have hidb := (mem_recordItems hrec' hb).1
    rw [hbound hi hrec] at hida
    rw [hbound hj hrec'] at hidb
    rw [ById, Prod.Lex.toLex_lt_toLex, hida, hidb]
    exact .inl hji

/-- An item of a live record, with its id as it is. -/
theorem of_mem_feedItems (h : FeedSound node) (hitem : item ∈ feedItems net node) :
    ∃ id < node.nextAtsId, node.atsRegistry id ≠ none ∧ item.atsId = id ∧ id ≤ u32Max ∧
      ∃ e ∈ node.atsVersions id, item.versionIndex = e.1 ∧ item.blockNumber = e.2.createdAt ∧
        ∃ blk, node.atBlock e.2.createdAt = some blk ∧ item.timestampMs = fetchTimestamp blk := by
  obtain ⟨rec, hrec, hmem⟩ := List.mem_flatMap.mp hitem
  obtain ⟨id, hid, hbuilt⟩ := List.mem_filterMap.mp hrec
  rw [List.mem_reverse, List.mem_range] at hid
  have hlive : node.atsRegistry id ≠ none := by
    intro hnone
    rw [buildAtsRecord, hnone] at hbuilt
    cases hbuilt
  obtain ⟨hatsId, e, he, hindex, hblock, htime⟩ := mem_recordItems hbuilt hmem
  have hle := h.ids id hid hlive
  obtain ⟨blk, hblk⟩ := Option.isSome_iff_exists.mp (h.served id hlive e he)
  refine ⟨id, hid, hlive, by rw [hatsId, atsIdU32, if_pos hle], hle, e, he, hindex, hblock, blk,
    hblk, ?_⟩
  rw [htime, versionTime, hblk]
  rfl

/-- **Time goes with the block number.** -/
theorem timestamp_le_iff (h : FeedSound node) (ha : a ∈ feedItems net node)
    (hb : b ∈ feedItems net node) :
    b.timestampMs ≤ a.timestampMs ↔ b.blockNumber ≤ a.blockNumber := by
  obtain ⟨-, -, -, -, -, e, -, -, hblock, blk, hblk, htime⟩ := of_mem_feedItems h ha
  obtain ⟨-, -, -, -, -, e', -, -, hblock', blk', hblk', htime'⟩ := of_mem_feedItems h hb
  rw [hblock, hblock', htime, htime']
  rcases lt_trichotomy e.2.createdAt e'.2.createdAt with hlt | heq | hgt
  · have htimes := h.times _ _ blk blk' hblk hblk' hlt
    omega
  · rw [heq, hblk'] at hblk
    obtain rfl := Option.some.inj hblk
    omega
  · have htimes := h.times _ _ blk' blk hblk' hblk hgt
    omega

/-- **The feed descends** by block, id and version. -/
theorem pairwise_mergeSort_feed (h : FeedSound node) {l : List AtsFeedItem}
    (hl : l.Sublist (feedItems net node)) :
    (l.mergeSort newestFirst).Pairwise fun a b => feedKey b < feedKey a := by
  have hby := (feedItems_pairwise net h).sublist hl
  have hnodup : l.Nodup := hby.imp fun {a b} hab heq => by
    subst heq
    exact lt_irrefl _ hab
  have hsorted := pairwise_mergeSort_stable newestFirst (desc_trans AtsFeedItem.timestampMs)
    (desc_total AtsFeedItem.timestampMs) hby hnodup
  refine hsorted.imp_of_mem ?_
  rintro a b ha hb ⟨hle, hsame⟩
  have ha' := hl.subset ((List.mergeSort_perm _ _).mem_iff.mp ha)
  have hb' := hl.subset ((List.mergeSort_perm _ _).mem_iff.mp hb)
  simp only [newestFirst, decide_eq_true_eq] at hle hsame
  rw [timestamp_le_iff h ha' hb'] at hle
  rw [timestamp_le_iff h hb' ha'] at hsame
  rw [feedKey, feedKey, Prod.Lex.toLex_lt_toLex]
  rcases Nat.lt_or_eq_of_le hle with hlt | heq
  · exact .inl hlt
  · exact .inr ⟨heq, hsame heq.ge⟩

/-! ## The walk -/

/-- **The pages of the feed** are those of the buffer. -/
theorem atsVersionFeed_enumerates (net : Network) (hcount : 1 ≤ count) (h : FeedSound node) :
    Enumerates (atsVersionFeed net) count node (newestFeed net node (feedBuffer count)) := by
  have hmem : ∀ a ∈ newestFeed net node (feedBuffer count), a ∈ feedItems net node := fun a ha =>
    List.mem_of_mem_take ((List.mergeSort_perm _ _).mem_iff.mp ha)
  have hbuffer : 1 ≤ feedBuffer count := by
    simp only [feedBuffer]
    omega
  refine .of_pages (fun a => atsFeedCursor.toText (a.blockNumber, a.atsId, a.versionIndex))
    (fun a => a ∈ feedItems net node) hcount
    (pairwise_mergeSort_feed h (List.take_sublist _ _)) ?_ ?_
  · intro c hc
    have hparse : parseCursor atsFeedCursor ⟨count, c.map fun a =>
        atsFeedCursor.toText (a.blockNumber, a.atsId, a.versionIndex)⟩ =
        .ok (c.map fun a => (a.blockNumber, a.atsId, a.versionIndex)) := by
      have hmap : (c.map fun a => atsFeedCursor.toText (a.blockNumber, a.atsId, a.versionIndex)) =
          (c.map fun a => (a.blockNumber, a.atsId, a.versionIndex)).map atsFeedCursor.toText := by
        rw [Option.map_map]
        rfl
      rw [hmap]
      refine parseCursor_toText atsFeedCursor_roundTrips fun k hk => ?_
      obtain ⟨a, ha, rfl⟩ := Option.map_eq_some_iff.mp hk
      obtain ⟨id, -, -, hid, hle, e, he, hindex, hblock, -⟩ := of_mem_feedItems h (hc a ha)
      have hfit := h.fit id e he
      simp only [hid, hindex, hblock, u32Max, u64Max] at *
      omega
    have hfilter : ((newestFeed net node (feedBuffer count)).filter fun item =>
        (c.map fun a => (a.blockNumber, a.atsId, a.versionIndex)).all fun c =>
          decide (feedKey item < toLex (c.1, toLex (c.2.1, c.2.2)))) =
        olderThan feedKey (newestFeed net node (feedBuffer count)) (c.map feedKey) := by
      rcases c with - | a <;> rfl
    refine PageAfter.of_trim none
      (olderThan feedKey (newestFeed net node (feedBuffer count)) (c.map feedKey)) ?_ rfl
    rw [atsVersionFeed, if_neg (by change ¬ count = 0; omega), hparse, ok_bind]
    simp only [buildAtsFeed_eq hbuffer, hfilter]
    rfl
  · intro c _ _ a ha
    exact hmem a (List.mem_of_mem_filter (List.mem_of_mem_take (List.mem_of_getLast? ha)))

/-- **It is the whole registry** exactly when that fits the buffer. -/
theorem atsVersionFeed_complete_iff (net : Network) (hcount : 1 ≤ count) (h : FeedSound node) :
    Enumerates (atsVersionFeed net) count node (allVersions net node) ↔
      (allVersions net node).length ≤ feedBuffer count := by
  have hwalk := atsVersionFeed_enumerates net hcount h
  have hlen : (allVersions net node).length = (feedItems net node).length :=
    (List.mergeSort_perm _ _).length_eq
  constructor
  · intro hall
    have heq : (newestFeed net node (feedBuffer count)).length = (allVersions net node).length :=
      congrArg List.length (hwalk.unique hall)
    rw [newestFeed, (List.mergeSort_perm _ _).length_eq, List.length_take] at heq
    omega
  · intro hfits
    have hsame : newestFeed net node (feedBuffer count) = allVersions net node := by
      rw [newestFeed, List.take_of_length_le (by omega), allVersions]
    rw [← hsame]
    exact hwalk

/-- **The versions of the live records**, each under its own key. -/
theorem mem_allVersions_key (net : Network) (h : FeedSound node) (k : ℕ ×ₗ ℕ ×ₗ ℕ) :
    k ∈ (allVersions net node).map feedKey ↔
      ∃ id < node.nextAtsId, node.atsRegistry id ≠ none ∧
        ∃ e ∈ node.atsVersions id, k = toLex (e.2.createdAt, toLex (id, e.1)) := by
  rw [List.mem_map]
  constructor
  · rintro ⟨item, hitem, rfl⟩
    obtain ⟨id, hid, hlive, hatsId, -, e, he, hindex, hblock, -⟩ :=
      of_mem_feedItems h ((List.mergeSort_perm _ _).mem_iff.mp hitem)
    refine ⟨id, hid, hlive, e, he, ?_⟩
    rw [feedKey, hatsId, hindex, hblock]
  · rintro ⟨id, hid, hlive, e, he, rfl⟩
    obtain ⟨rec, hrec⟩ : ∃ rec, buildAtsRecord net node id = some rec := by
      refine Option.isSome_iff_exists.mp ?_
      rw [buildAtsRecord, Option.isSome_map]
      exact Option.isSome_iff_ne_none.mpr hlive
    obtain ⟨item, hitem, hatsId, hindex, hblock⟩ := exists_recordItem hrec he
    have hmem : item ∈ feedItems net node := List.mem_flatMap.mpr
      ⟨rec, List.mem_filterMap.mpr ⟨id, List.mem_reverse.mpr (List.mem_range.mpr hid), hrec⟩, hitem⟩
    refine ⟨item, (List.mergeSort_perm _ _).mem_iff.mpr hmem, ?_⟩
    rw [feedKey, hatsId, hindex, hblock, atsIdU32, if_pos (h.ids id hid hlive)]

/-- **The feed, page by page.** All versions of the live records descend
by block, id and version. The walk enumerates the buffer's worth of them
from the newest id down, and all of them exactly when they fit the
buffer. -/
theorem atsFeed_enumerated (net : Network) (hcount : 1 ≤ count) (h : FeedSound node) :
    (∀ k, k ∈ (allVersions net node).map feedKey ↔
      ∃ id < node.nextAtsId, node.atsRegistry id ≠ none ∧
        ∃ e ∈ node.atsVersions id, k = toLex (e.2.createdAt, toLex (id, e.1))) ∧
    (allVersions net node).Pairwise (fun a b => feedKey b < feedKey a) ∧
    Enumerates (atsVersionFeed net) count node (newestFeed net node (feedBuffer count)) ∧
    (Enumerates (atsVersionFeed net) count node (allVersions net node) ↔
      (allVersions net node).length ≤ feedBuffer count) :=
  ⟨mem_allVersions_key net h, pairwise_mergeSort_feed h (List.Sublist.refl _),
    atsVersionFeed_enumerates net hcount h, atsVersionFeed_complete_iff net hcount h⟩

/-! ## A record of many versions -/

/-- Block `b`, at time `b`. -/
def blockAt (b : ℕ) : NodeBlock := { bareChain b with now := some b }

theorem one_le_u64Max : 1 ≤ u64Max := by decide

/-- One record with `n` versions, one a block from block 1 on. -/
def revisedNode (n : ℕ) : AtsNode where
  nextAtsId := 1
  next_le := one_le_u64Max
  atsRegistry id := if id = 0 then some ⟨.fill 1, 1, n, []⟩ else none
  atsVersions id := if id = 0 then (List.range n).map fun v => (v, ⟨v + 1, .fill 2, 0⟩) else []
  atBlock b := if b ≤ n then some (blockAt b) else none

theorem revisedNode_versions_of_ne (h : id ≠ 0) : (revisedNode n).atsVersions id = [] := if_neg h

theorem revisedNode_atBlock (b : ℕ) :
    (revisedNode n).atBlock b = if b ≤ n then some (blockAt b) else none := rfl

theorem mem_revisedNode_versions {e : ℕ × VersionInfoView}
    (h : e ∈ (revisedNode n).atsVersions id) : e.1 < n ∧ e.2.createdAt = e.1 + 1 := by
  by_cases hid : id = 0
  · subst hid
    obtain ⟨v, hv, rfl⟩ := List.mem_map.mp h
    exact ⟨List.mem_range.mp hv, rfl⟩
  · rw [revisedNode_versions_of_ne hid] at h
    cases h

theorem revisedNode_sound (hn : n ≤ u32Max) : FeedSound (revisedNode n) where
  ids := by
    intro id hid _
    have hzero : id < 1 := hid
    omega
  once := by
    intro id
    by_cases hid : id = 0
    · subst hid
      change (((List.range n).map fun v => (v, _)).map Prod.fst).Nodup
      rw [List.map_map]
      change ((List.range n).map fun v => v).Nodup
      rw [List.map_id']
      exact List.nodup_range
    · rw [revisedNode_versions_of_ne hid]
      exact List.nodup_nil
  fit := by
    intro id e he
    obtain ⟨hlt, hblock⟩ := mem_revisedNode_versions he
    omega
  served := by
    intro id _ e he
    obtain ⟨hlt, hblock⟩ := mem_revisedNode_versions he
    rw [hblock, revisedNode_atBlock, if_pos (show e.1 + 1 ≤ n from hlt)]
    rfl
  times := by
    intro b b' blk blk' hblk hblk' hlt
    have htime : ∀ {b blk}, (revisedNode n).atBlock b = some blk → fetchTimestamp blk = b := by
      intro b blk hblk
      rw [revisedNode_atBlock] at hblk
      by_cases hb : b ≤ n
      · rw [if_pos hb] at hblk
        obtain rfl := Option.some.inj hblk
        refine asI64_of_le ?_
        simp only [u32Max, i64Max] at *
        omega
      · rw [if_neg hb] at hblk
        cases hblk
    rw [htime hblk, htime hblk']
    exact Int.ofNat_lt.mpr hlt

theorem length_allVersions_revisedNode (net : Network) (n : ℕ) :
    (allVersions net (revisedNode n)).length = n := by
  have hrec : (buildAtsRecord net (revisedNode n) 0).isSome = true := rfl
  obtain ⟨rec, hrec⟩ := Option.isSome_iff_exists.mp hrec
  have hlive : liveRecords (buildAtsRecord net (revisedNode n)) 1 = [rec] := by
    rw [liveRecords, List.range_one, List.reverse_singleton, List.filterMap_cons_some hrec,
      List.filterMap_nil]
  have hlen := congrArg List.length (versionView_record hrec).2
  rw [List.length_map, List.length_map, sortedVersions, (List.mergeSort_perm _ _).length_eq] at hlen
  change rec.versions.length = ((List.range n).map fun v => (v, _)).length at hlen
  rw [List.length_map, List.length_range] at hlen
  rw [allVersions, (List.mergeSort_perm _ _).length_eq, feedItems,
    show (revisedNode n).nextAtsId = 1 from rfl, hlive, List.flatMap_singleton, recordItems,
    List.length_map, List.length_reverse, hlen]

/-- A record with two versions is listed, a version a page. -/
theorem atsFeed_enumerated_two :
    Enumerates (atsVersionFeed plainNetwork) 1 (revisedNode 2)
      (allVersions plainNetwork (revisedNode 2)) := by
  have hfeed := atsFeed_enumerated plainNetwork (le_refl 1)
    (revisedNode_sound (show 2 ≤ u32Max by decide))
  rw [length_allVersions_revisedNode] at hfeed
  exact hfeed.2.2.2.mpr (by decide)

/-- **Of 65 versions the walk lists 64**, one or more a page. -/
theorem not_atsFeed_enumerated_long :
    FeedSound (revisedNode 65) ∧
      ¬ Enumerates (atsVersionFeed plainNetwork) 1 (revisedNode 65)
        (allVersions plainNetwork (revisedNode 65)) := by
  have hsound : FeedSound (revisedNode 65) := revisedNode_sound (by decide)
  refine ⟨hsound, ?_⟩
  rw [atsVersionFeed_complete_iff plainNetwork le_rfl hsound, length_allVersions_revisedNode]
  decide

end Rpc

end AllfeatExplorer
