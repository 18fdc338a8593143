import AllfeatExplorer.Data.Model.AtsStream
import AllfeatExplorer.Data.Feed

/-!
# What the live feed of ATS versions broadcasts

A block's share of the feed is as long as `NextAtsId` grew, whatever
landed in it. So the stream broadcasts the versions that landed exactly
when every version that lands is the first of a new record.
-/

namespace AllfeatExplorer

open Projections

/-- Whether a call creates a record. -/
def AtsCall.creates : AtsCall → Bool
  | .create .. => true
  | .addVersion .. => false

namespace AtsNode

variable {number id : ℕ} {node node' : AtsNode} {call : AtsCall} {calls : List AtsCall}
  {landed : List (ℕ × ℕ)} {v : ℕ × ℕ}

/-! ## What a block lands -/

/-- A live id with a version. -/
def HasVersion (node : AtsNode) (id : ℕ) : Prop :=
  node.atsRegistry id ≠ none ∧ node.atsVersions id ≠ []

/-- A live id with no version but its first. -/
def HasOnlyFirst (node : AtsNode) (id : ℕ) : Prop :=
  node.atsRegistry id ≠ none ∧ ∃ info, node.atsVersions id = [(0, info)]

/-- **What one call does to the ids.** A creation takes `NextAtsId` and
leaves the others as they are; an addition leaves every version there. -/
theorem of_execute_eq_some (h : node.execute number call = some (node', v)) :
    (call.creates = true ∧ node'.nextAtsId = node.nextAtsId + 1 ∧ v = (node.nextAtsId, 0) ∧
      node'.HasOnlyFirst node.nextAtsId ∧
      ∀ id, id ≠ node.nextAtsId → node'.atsRegistry id = node.atsRegistry id ∧
        node'.atsVersions id = node.atsVersions id) ∨
    (call.creates = false ∧ node'.nextAtsId = node.nextAtsId ∧
      ∀ id, node.HasVersion id → node'.HasVersion id) := by
  cases call with
  | create owner deposits commitment protocolVersion =>
    rw [execute] at h
    split at h
    · obtain ⟨rfl, rfl⟩ := Prod.mk.inj (Option.some.inj h)
      refine .inl ⟨rfl, rfl, rfl, ⟨?_, ⟨number, commitment, protocolVersion⟩, ?_⟩, ?_⟩
      · simp only [Function.update_self]
        exact Option.some_ne_none _
      · simp only [Function.update_self]
      · intro id hid
        exact ⟨Function.update_of_ne hid _ _, Function.update_of_ne hid _ _⟩
    · cases h
  | addVersion atsId commitment protocolVersion =>
    rw [execute, Option.bind_eq_some_iff] at h
    obtain ⟨record, -, h⟩ := h
    split at h
    · obtain ⟨rfl, rfl⟩ := Prod.mk.inj (Option.some.inj h)
      refine .inr ⟨rfl, rfl, fun id hid => ?_⟩
      by_cases heq : id = atsId
      · subst heq
        constructor
        · simp only [Function.update_self]
          exact Option.some_ne_none _
        · simp only [Function.update_self]
          exact List.append_ne_nil_of_right_ne_nil _ (List.cons_ne_nil _ _)
      · constructor
        · simpa only [Function.update_of_ne heq] using hid.1
        · simpa only [Function.update_of_ne heq] using hid.2
    · cases h

theorem HasOnlyFirst.hasVersion (h : node.HasOnlyFirst id) : node.HasVersion id := by
  obtain ⟨hlive, info, hinfo⟩ := h
  exact ⟨hlive, hinfo ▸ List.cons_ne_nil _ _⟩

/-- A version that is there stays there. -/
theorem HasVersion.execute (hid : node.HasVersion id)
    (h : node.execute number call = some (node', v)) : node'.HasVersion id := by
  rcases of_execute_eq_some h with ⟨-, -, -, hfirst, hsame⟩ | ⟨-, -, hkeep⟩
  · by_cases heq : id = node.nextAtsId
    · rw [heq]
      exact hfirst.hasVersion
    · rw [HasVersion, (hsame id heq).1, (hsame id heq).2]
      exact hid
  · exact hkeep id hid

theorem executeAll_cons {p : AtsNode × List (ℕ × ℕ)}
    (h : node.executeAll number (call :: calls) = some p) :
    ∃ mid v landed, node.execute number call = some (mid, v) ∧
      mid.executeAll number calls = some (p.1, landed) ∧ p.2 = v :: landed := by
  rw [executeAll, Option.bind_eq_some_iff] at h
  obtain ⟨⟨mid, v⟩, hone, h⟩ := h
  obtain ⟨⟨last, landed⟩, hrest, rfl⟩ := Option.map_eq_some_iff.mp h
  exact ⟨mid, v, landed, hone, hrest, rfl⟩

/-- **What the calls of a block do**: they land a version each, and every
id they create is live with a version after them. -/
theorem executeAll_spec (h : node.executeAll number calls = some (node', landed)) :
    landed.length = calls.length ∧
      node'.nextAtsId = node.nextAtsId + calls.countP AtsCall.creates ∧
      (∀ id, node.HasVersion id → node'.HasVersion id) ∧
      ∀ id, node.nextAtsId ≤ id → id < node'.nextAtsId → node'.HasVersion id := by
  induction calls generalizing node landed with
  | nil =>
    rw [executeAll] at h
    obtain ⟨rfl, rfl⟩ := Prod.mk.inj (Option.some.inj h)
    refine ⟨rfl, rfl, fun id hid => hid, fun id hle hlt => ?_⟩
    omega
  | cons call calls ih =>
    obtain ⟨mid, v, rest, hone, hrest, rfl⟩ := executeAll_cons h
    obtain ⟨hlen, hnext, hkeep, hfresh⟩ := ih hrest
    have hall : ∀ id, node.HasVersion id → node'.HasVersion id :=
      fun id hid => hkeep id (hid.execute hone)
    rcases of_execute_eq_some hone with ⟨hcreates, hmid, -, hfirst, -⟩ | ⟨hcreates, hmid, -⟩
    · refine ⟨by rw [List.length_cons, List.length_cons, hlen], ?_, hall, fun id hle hlt => ?_⟩
      · rw [List.countP_cons, if_pos hcreates]
        omega
      · rcases Nat.eq_or_lt_of_le hle with rfl | hlt'
        · exact hkeep _ hfirst.hasVersion
        · exact hfresh id (by omega) hlt
    · refine ⟨by rw [List.length_cons, List.length_cons, hlen], ?_, hall, fun id hle hlt => ?_⟩
      · rw [List.countP_cons, if_neg (by rw [hcreates]; exact Bool.false_ne_true)]
        omega
      · exact hfresh id (by omega) hlt

/-- **Where every call creates a record**, they land the new ids, each
with its first version, which stays its only one. -/
theorem executeAll_creates (h : node.executeAll number calls = some (node', landed))
    (hcreates : ∀ call ∈ calls, call.creates = true) :
    node'.nextAtsId = node.nextAtsId + calls.length ∧
      landed = (List.range' node.nextAtsId calls.length).map (fun id => (id, 0)) ∧
      (∀ id < node.nextAtsId, node'.atsRegistry id = node.atsRegistry id ∧
        node'.atsVersions id = node.atsVersions id) ∧
      ∀ id, node.nextAtsId ≤ id → id < node'.nextAtsId → node'.HasOnlyFirst id := by
  induction calls generalizing node landed with
  | nil =>
    rw [executeAll] at h
    obtain ⟨rfl, rfl⟩ := Prod.mk.inj (Option.some.inj h)
    refine ⟨rfl, rfl, fun id _ => ⟨rfl, rfl⟩, fun id hle hlt => ?_⟩
    omega
  | cons call calls ih =>
    obtain ⟨mid, v, rest, hone, hrest, rfl⟩ := executeAll_cons h
    obtain ⟨hnext, hlanded, hsame, hfirst⟩ :=
      ih hrest fun c hc => hcreates c (List.mem_cons_of_mem _ hc)
    rcases of_execute_eq_some hone with ⟨-, hmid, rfl, hnew, hold⟩ | ⟨hfalse, -, -⟩
    · refine ⟨?_, ?_, fun id hid => ?_, fun id hle hlt => ?_⟩
      · rw [hnext, hmid, List.length_cons]
        omega
      · rw [hlanded, hmid, List.length_cons, List.range'_succ, List.map_cons]
      · obtain ⟨hreg, hver⟩ := hsame id (by omega)
        obtain ⟨hreg', hver'⟩ := hold id (by omega)
        exact ⟨hreg.trans hreg', hver.trans hver'⟩
      · rcases Nat.eq_or_lt_of_le hle with rfl | hlt'
        · obtain ⟨hreg, hver⟩ := hsame node.nextAtsId (by omega)
          rw [HasOnlyFirst, hreg, hver]
          exact hnew
        · exact hfirst id (by omega) hlt
    · have htrue := hcreates call List.mem_cons_self
      rw [hfalse] at htrue
      cases htrue

/-- **The storage after a block.** -/
theorem executeBlock_spec {block : AtsBlock} (h : node.executeBlock block = some (node', landed)) :
    landed.length = block.calls.length ∧
      node'.nextAtsId = node.nextAtsId + block.calls.countP AtsCall.creates ∧
      ∀ id, node.nextAtsId ≤ id → id < node'.nextAtsId → node'.HasVersion id := by
  obtain ⟨⟨last, l⟩, hall, heq⟩ := Option.map_eq_some_iff.mp h
  obtain ⟨rfl, rfl⟩ := Prod.mk.inj heq
  obtain ⟨hlen, hnext, -, hfresh⟩ := executeAll_spec hall
  exact ⟨hlen, hnext, hfresh⟩

/-- The same, of a block that only creates records. -/
theorem executeBlock_creates {block : AtsBlock}
    (h : node.executeBlock block = some (node', landed))
    (hcreates : ∀ call ∈ block.calls, call.creates = true) :
    node'.nextAtsId = node.nextAtsId + block.calls.length ∧
      landed = (List.range' node.nextAtsId block.calls.length).map (fun id => (id, 0)) ∧
      ∀ id, node.nextAtsId ≤ id → id < node'.nextAtsId → node'.HasOnlyFirst id := by
  obtain ⟨⟨last, l⟩, hall, heq⟩ := Option.map_eq_some_iff.mp h
  obtain ⟨rfl, rfl⟩ := Prod.mk.inj heq
  obtain ⟨hnext, hlanded, -, hfirst⟩ := executeAll_creates hall hcreates
  exact ⟨hnext, hlanded, hfirst⟩

end AtsNode

/-- **A block the feed keeps up with**: it only creates records, at most
`u32::MAX` of them. -/
def AtsBlock.KeptUp (block : AtsBlock) : Prop :=
  (∀ call ∈ block.calls, call.creates = true) ∧ block.calls.length ≤ u32Max

namespace Rpc

variable {net : Network} {node node' : AtsNode} {m n : ℕ}

/-! ## One block of the stream -/

/-- What tells the items of a feed apart: id and version. -/
def feedVersion (item : AtsFeedItem) : ℕ × ℕ := (item.atsId, item.versionIndex)

/-- The feed's items of the ids from `m` on. -/
def itemsSince (net : Network) (node : AtsNode) (m : ℕ) : List AtsFeedItem :=
  ((List.range' m (node.nextAtsId - m)).reverse.filterMap (buildAtsRecord net node)).flatMap
    recordItems

/-- The feed begins with the newest ids. -/
theorem feedItems_eq_append (net : Network) (h : m ≤ node.nextAtsId) :
    ∃ older, feedItems net node = itemsSince net node m ++ older := by
  have hsplit : List.range node.nextAtsId = List.range m ++ List.range' m (node.nextAtsId - m) := by
    rw [List.range_eq_range', List.range_eq_range']
    have happ := List.range'_append_1 (s := 0) (m := m) (n := node.nextAtsId - m)
    rw [Nat.zero_add, Nat.add_sub_cancel' h] at happ
    exact happ.symm
  refine ⟨((List.range m).reverse.filterMap (buildAtsRecord net node)).flatMap recordItems, ?_⟩
  rw [feedItems, liveRecords, hsplit, List.reverse_append, List.filterMap_append,
    List.flatMap_append, itemsSince]

/-- A live id has a record, with as many items as it has versions. -/
theorem exists_record (net : Network) {id : ℕ} (h : node.atsRegistry id ≠ none) :
    ∃ rec, buildAtsRecord net node id = some rec ∧
      (recordItems rec).length = (node.atsVersions id).length := by
  obtain ⟨record, hrecord⟩ := Option.ne_none_iff_exists'.mp h
  have hsome : (buildAtsRecord net node id).isSome = true := by
    rw [buildAtsRecord, hrecord]
    rfl
  obtain ⟨rec, hrec⟩ := Option.isSome_iff_exists.mp hsome
  have hview := congrArg List.length (versionView_record hrec).2
  rw [List.length_map, List.length_map, sortedVersions,
    (List.mergeSort_perm _ _).length_eq] at hview
  exact ⟨rec, hrec, by rw [recordItems, List.length_map, List.length_reverse, hview]⟩

/-- Ids with a version have at least an item each. -/
theorem length_le_items (net : Network) (ids : List ℕ) (h : ∀ id ∈ ids, node.HasVersion id) :
    ids.length ≤ ((ids.filterMap (buildAtsRecord net node)).flatMap recordItems).length := by
  induction ids with
  | nil => exact Nat.le_refl 0
  | cons id ids ih =>
    obtain ⟨hlive, hversions⟩ := h id List.mem_cons_self
    obtain ⟨rec, hrec, hlen⟩ := exists_record net hlive
    have hpos := List.length_pos_of_ne_nil hversions
    have hrest := ih fun i hi => h i (List.mem_cons_of_mem _ hi)
    rw [List.filterMap_cons_some hrec, List.flatMap_cons, List.length_append, List.length_cons]
    omega

/-- Ids with only their first version have one item each, which shows it. -/
theorem items_of_hasOnlyFirst (ids : List ℕ) (h : ∀ id ∈ ids, node.HasOnlyFirst id) :
    ((ids.filterMap (buildAtsRecord net node)).flatMap recordItems).map feedVersion =
      ids.map fun id => (atsIdU32 id, 0) := by
  induction ids with
  | nil => rfl
  | cons id ids ih =>
    obtain ⟨hlive, info, hinfo⟩ := h id List.mem_cons_self
    obtain ⟨rec, hrec, hlen⟩ := exists_record net hlive
    rw [hinfo, List.length_singleton] at hlen
    obtain ⟨item, hitem⟩ := List.length_eq_one_iff.mp hlen
    have hmem : item ∈ recordItems rec := hitem ▸ List.mem_singleton_self _
    obtain ⟨hid, e, he, hindex, -⟩ := mem_recordItems hrec hmem
    rw [hinfo, List.mem_singleton] at he
    have hshown : feedVersion item = (atsIdU32 id, 0) := by
      rw [feedVersion, hid, hindex, he]
    rw [List.filterMap_cons_some hrec, List.flatMap_cons, List.map_append, hitem,
      ih fun i hi => h i (List.mem_cons_of_mem _ hi), List.map_cons, List.map_nil,
      List.singleton_append, List.map_cons, hshown]

/-- **A tick with every read answered** takes the first items of the
feed, as many as `NextAtsId` grew by. -/
theorem atsTick_answered (net : Network) (h : m ≤ node.nextAtsId) :
    (atsTick net (some m) (.answered node)).1 = some node.nextAtsId ∧
      (atsTick net (some m) (.answered node)).2.Perm
        ((feedItems net node).take (min (node.nextAtsId - m) u32Max)) := by
  have htick : atsTick net (some m) (.answered node) = (some node.nextAtsId,
      if m < node.nextAtsId then
        (buildAtsFeed net node (min (node.nextAtsId - m) u32Max) 0).reverse
      else []) := by
    simp [atsTick, AtsTick.answered]
  have hu32 : (0 : ℕ) < u32Max := by decide
  rw [htick]
  refine ⟨rfl, ?_⟩
  dsimp only
  split
  · rename_i hlt
    rw [buildAtsFeed_eq (by omega), newestFeed]
    exact (List.reverse_perm _).trans (List.mergeSort_perm _ _)
  · rename_i hge
    rw [show node.nextAtsId - m = 0 by omega, Nat.zero_min, List.take_zero]

/-! ## One block against what it lands -/

variable {block : AtsBlock} {blocks : List AtsBlock} {landed : List (ℕ × ℕ)}
  {chain : List (AtsNode × List (ℕ × ℕ))}

/-- What a tick broadcasts of a block: one item for each new record, at
most `u32::MAX` of them. -/
theorem length_tick (h : node.executeBlock block = some (node', landed)) :
    (atsTick net (some node.nextAtsId) (.answered node')).2.length =
      min (block.calls.countP AtsCall.creates) u32Max := by
  obtain ⟨-, hnext, hfresh⟩ := AtsNode.executeBlock_spec h
  obtain ⟨-, hperm⟩ := atsTick_answered net (show node.nextAtsId ≤ node'.nextAtsId by omega)
  obtain ⟨older, hitems⟩ := feedItems_eq_append net
    (show node.nextAtsId ≤ node'.nextAtsId by omega)
  have hnew : block.calls.countP AtsCall.creates ≤
      (itemsSince net node' node.nextAtsId).length := by
    have hle := length_le_items net
      (List.range' node.nextAtsId (node'.nextAtsId - node.nextAtsId)).reverse fun id hid => by
        rw [List.mem_reverse, List.mem_range'_1] at hid
        exact hfresh id hid.1 (by omega)
    rw [List.length_reverse, List.length_range'] at hle
    rw [itemsSince]
    omega
  rw [hperm.length_eq, List.length_take, hitems, List.length_append]
  omega

/-- **A block that only creates records** is broadcast as it landed, but
for the ids above `u32::MAX`. -/
theorem tick_perm (h : node.executeBlock block = some (node', landed)) (hkept : block.KeptUp) :
    ((atsTick net (some node.nextAtsId) (.answered node')).2.map feedVersion).Perm
      (landed.map fun v => (atsIdU32 v.1, v.2)) := by
  obtain ⟨hnext, rfl, hfirst⟩ := AtsNode.executeBlock_creates h hkept.1
  have hle : node.nextAtsId ≤ node'.nextAtsId := by omega
  have hcount : node'.nextAtsId - node.nextAtsId = block.calls.length := by omega
  obtain ⟨-, hperm⟩ := atsTick_answered net hle
  obtain ⟨older, hitems⟩ := feedItems_eq_append net hle
  have hshown : (itemsSince net node' node.nextAtsId).map feedVersion =
      (List.range' node.nextAtsId block.calls.length).reverse.map fun id => (atsIdU32 id, 0) := by
    rw [itemsSince, hcount]
    refine items_of_hasOnlyFirst _ fun id hid => ?_
    rw [List.mem_reverse, List.mem_range'_1] at hid
    exact hfirst id hid.1 (by omega)
  have hlen : (itemsSince net node' node.nextAtsId).length = block.calls.length := by
    have hmap := congrArg List.length hshown
    rwa [List.length_map, List.length_map, List.length_reverse, List.length_range'] at hmap
  refine (hperm.map feedVersion).trans ?_
  rw [hcount, min_eq_left hkept.2, hitems, List.take_left' hlen, hshown, List.map_map]
  exact (List.reverse_perm _).map _

/-! ## A whole stream -/

/-- **Each version that landed after the first block is broadcast once**,
and nothing else is: `chain` has the storage at the blocks after the
first and what landed in them. -/
def LandedOnce (net : Network) (first : AtsNode) (chain : List (AtsNode × List (ℕ × ℕ))) : Prop :=
  ((atsStream net none ((first :: chain.map Prod.fst).map .answered)).map feedVersion).Perm
    (chain.flatMap Prod.snd)

/-- What is broadcast of the blocks after `node`. -/
def broadcastAfter (net : Network) (node : AtsNode) (chain : List (AtsNode × List (ℕ × ℕ))) :
    List AtsFeedItem :=
  atsStream net (some node.nextAtsId) ((chain.map Prod.fst).map .answered)

/-- The first block broadcasts nothing. -/
theorem landedOnce_iff : LandedOnce net node chain ↔
    ((broadcastAfter net node chain).map feedVersion).Perm (chain.flatMap Prod.snd) := by
  have hfirst : atsTick net none (.answered node) = (some node.nextAtsId, []) := by
    simp [atsTick, AtsTick.answered]
  rw [LandedOnce, List.map_cons, atsStream, hfirst, List.nil_append, broadcastAfter]

theorem executeBlocks_cons (h : node.executeBlocks (block :: blocks) = some chain) :
    ∃ one rest, node.executeBlock block = some one ∧ one.1.executeBlocks blocks = some rest ∧
      chain = one :: rest := by
  rw [AtsNode.executeBlocks, Option.bind_eq_some_iff] at h
  obtain ⟨one, hone, h⟩ := h
  obtain ⟨rest, hrest, rfl⟩ := Option.map_eq_some_iff.mp h
  exact ⟨one, rest, hone, hrest, rfl⟩

theorem broadcastAfter_cons (one : AtsNode × List (ℕ × ℕ)) (h : node.nextAtsId ≤ one.1.nextAtsId) :
    broadcastAfter net node (one :: chain) =
      (atsTick net (some node.nextAtsId) (.answered one.1)).2 ++
        broadcastAfter net one.1 chain := by
  rw [broadcastAfter, List.map_cons, List.map_cons, atsStream, (atsTick_answered net h).1,
    broadcastAfter]

/-- A tick broadcasts no more than landed, and as much only of a block it
keeps up with. -/
theorem keptUp_of_length_le (net : Network) (h : node.executeBlock block = some (node', landed)) :
    (atsTick net (some node.nextAtsId) (.answered node')).2.length ≤ landed.length ∧
      (landed.length ≤ (atsTick net (some node.nextAtsId) (.answered node')).2.length →
        block.KeptUp) := by
  have hcount : block.calls.countP AtsCall.creates ≤ block.calls.length := List.countP_le_length
  rw [length_tick h, (AtsNode.executeBlock_spec h).1]
  refine ⟨by omega, fun hle => ⟨?_, by omega⟩⟩
  exact List.countP_eq_length.mp (by omega)

/-- **No more is broadcast than landed**, and as much only if the feed
keeps up with every block. -/
theorem keptUp_of_length_broadcast (net : Network) (h : node.executeBlocks blocks = some chain) :
    (broadcastAfter net node chain).length ≤ (chain.flatMap Prod.snd).length ∧
      ((chain.flatMap Prod.snd).length ≤ (broadcastAfter net node chain).length →
        ∀ block ∈ blocks, block.KeptUp) := by
  induction blocks generalizing node chain with
  | nil =>
    obtain rfl := Option.some.inj h
    exact ⟨Nat.le_refl 0, fun _ block hblock => absurd hblock List.not_mem_nil⟩
  | cons block blocks ih =>
    obtain ⟨one, rest, hone, hrest, rfl⟩ := executeBlocks_cons h
    obtain ⟨hle, hkept⟩ := keptUp_of_length_le net hone
    obtain ⟨hrestle, hrestkept⟩ := ih hrest
    have hnext := (AtsNode.executeBlock_spec hone).2.1
    rw [broadcastAfter_cons one (by omega), List.flatMap_cons, List.length_append,
      List.length_append]
    refine ⟨by omega, fun hall => List.forall_mem_cons.mpr ⟨hkept (by omega), hrestkept (by omega)⟩⟩

/-- **Where it keeps up**, what is broadcast is what landed, but for ids
above `u32::MAX`. -/
theorem broadcast_perm (net : Network) (h : node.executeBlocks blocks = some chain)
    (hkept : ∀ block ∈ blocks, block.KeptUp) :
    ((broadcastAfter net node chain).map feedVersion).Perm
      ((chain.flatMap Prod.snd).map fun v => (atsIdU32 v.1, v.2)) := by
  induction blocks generalizing node chain with
  | nil =>
    obtain rfl := Option.some.inj h
    exact .nil
  | cons block blocks ih =>
    obtain ⟨one, rest, hone, hrest, rfl⟩ := executeBlocks_cons h
    have hnext := (AtsNode.executeBlock_spec hone).2.1
    rw [broadcastAfter_cons one (by omega), List.flatMap_cons, List.map_append, List.map_append]
    exact (tick_perm hone (hkept block List.mem_cons_self)).append
      (ih hrest fun b hb => hkept b (List.mem_cons_of_mem _ hb))

/-- What is broadcast has ids up to `u32::MAX`. -/
theorem atsId_le_of_mem_broadcast {item : AtsFeedItem}
    (h : item ∈ broadcastAfter net node chain)
    (hblocks : node.executeBlocks blocks = some chain) : item.atsId ≤ u32Max := by
  induction blocks generalizing node chain with
  | nil =>
    obtain rfl := Option.some.inj hblocks
    exact absurd h List.not_mem_nil
  | cons block blocks ih =>
    obtain ⟨one, rest, hone, hrest, rfl⟩ := executeBlocks_cons hblocks
    have hnext := (AtsNode.executeBlock_spec hone).2.1
    have hle : node.nextAtsId ≤ one.1.nextAtsId := by omega
    rw [broadcastAfter_cons one hle] at h
    rcases List.mem_append.mp h with hmem | hmem
    · have hfeed := List.mem_of_mem_take ((atsTick_answered net hle).2.mem_iff.mp hmem)
      obtain ⟨rec, hrec, hitem⟩ := List.mem_flatMap.mp hfeed
      obtain ⟨id, -, hbuilt⟩ := List.mem_filterMap.mp hrec
      rw [(mem_recordItems hbuilt hitem).1]
      exact atsIdU32_le id
    · exact ih hmem hrest

/-- **The stream broadcasts the versions that landed after its first
block, each once**, exactly when each of those blocks only creates
records, at most `u32::MAX` of them, and none under an id above
`u32::MAX`. -/
theorem landedOnce_iff_keptUp (net : Network) {node : AtsNode} {blocks : List AtsBlock}
    {chain : List (AtsNode × List (ℕ × ℕ))} (h : node.executeBlocks blocks = some chain) :
    LandedOnce net node chain ↔
      (∀ block ∈ blocks, block.KeptUp) ∧ ∀ v ∈ chain.flatMap Prod.snd, v.1 ≤ u32Max := by
  rw [landedOnce_iff]
  constructor
  · intro hperm
    refine ⟨(keptUp_of_length_broadcast net h).2 ?_, fun v hv => ?_⟩
    · have hlen := hperm.length_eq
      rw [List.length_map] at hlen
      exact hlen.ge
    · obtain ⟨item, hitem, rfl⟩ := List.mem_map.mp (hperm.mem_iff.mpr hv)
      exact atsId_le_of_mem_broadcast hitem h
  · rintro ⟨hkept, hids⟩
    have hshown : (chain.flatMap Prod.snd).map (fun v => (atsIdU32 v.1, v.2)) =
        chain.flatMap Prod.snd := by
      refine (List.map_congr_left fun v hv => ?_).trans (List.map_id _)
      rw [atsIdU32, if_pos (hids v hv)]
      rfl
    have hperm := broadcast_perm net h hkept
    rwa [hshown] at hperm

/-! ## Some blocks -/

theorem zero_le_u64Max : 0 ≤ u64Max := by decide

/-- No record yet. -/
def emptyRegistry : AtsNode where
  nextAtsId := 0
  next_le := zero_le_u64Max
  atsRegistry := fun _ => none
  atsVersions := fun _ => []
  atBlock := fun _ => none

/-- A block that creates a record, and one that adds a version to it. -/
def createBlock : AtsBlock := ⟨1, [.create (.fill 1) [] (.fill 2) 1], fun _ => none⟩
def updateBlock : AtsBlock := ⟨2, [.addVersion 0 (.fill 3) 1], fun _ => none⟩

/-- A block with no call, and one that creates two records. -/
def idleBlock : AtsBlock := ⟨2, [], fun _ => none⟩
def createTwoBlock : AtsBlock :=
  ⟨3, [.create (.fill 4) [] (.fill 5) 1, .create (.fill 1) [] (.fill 6) 1], fun _ => none⟩

/-- New records are broadcast, of one block and of another. -/
theorem landedOnce_created :
    ∃ chain, emptyRegistry.executeBlocks [createBlock, idleBlock, createTwoBlock] = some chain ∧
      chain.flatMap Prod.snd = [(0, 0), (1, 0), (2, 0)] ∧
      LandedOnce plainNetwork emptyRegistry chain := by
  refine ⟨_, rfl, rfl, (landedOnce_iff_keptUp plainNetwork
    (show emptyRegistry.executeBlocks [createBlock, idleBlock, createTwoBlock] = some _ from
      rfl)).mpr ⟨?_, by decide⟩⟩
  rw [List.forall_mem_cons, List.forall_mem_cons, List.forall_mem_singleton]
  exact ⟨⟨by decide, by decide⟩, ⟨by decide, by decide⟩, ⟨by decide, by decide⟩⟩

/-- **A version added to it is not**: `NextAtsId` stays what it is. -/
theorem not_landedOnce_updated :
    ∃ chain, emptyRegistry.executeBlocks [createBlock, updateBlock] = some chain ∧
      chain.flatMap Prod.snd = [(0, 0), (0, 1)] ∧
      ¬ LandedOnce plainNetwork emptyRegistry chain := by
  refine ⟨_, rfl, rfl, fun hperm => ?_⟩
  have hkept := (keptUp_of_length_broadcast plainNetwork
    (show emptyRegistry.executeBlocks [createBlock, updateBlock] = some _ from rfl)).2
  have hlen := (landedOnce_iff.mp hperm).length_eq
  rw [List.length_map] at hlen
  have hcreates := (hkept hlen.ge updateBlock (by simp)).1
  exact absurd hcreates (by decide)

end Rpc

end AllfeatExplorer
