import AllfeatExplorer.Lib.Offsets
import AllfeatExplorer.Data.Model.Registry

/-!
# Walking the node's ATS registry

The list's cursor is the id of the last record of a page. It is turned
into a position by its distance from `NextAtsId`, which counts every id
above it, and that many *live* records are skipped: a revoked id above
the cursor moves the next page on by one record, which is then on no
page. So a walk lists the registry exactly when there is none above the
end of any page (in the range of `u32`: `NoDrift`).
-/

namespace AllfeatExplorer

namespace Rpc

variable {α β : Type} {net : Network} {node : AtsNode} {count next : ℕ}

/-! ## One page -/

/-- **The loop** takes the live records after those skipped. -/
theorem atsListLoop_eq {fromIndex skipped : ℕ} {out : List α} {stream : List (Option α)}
    (h : out.length < count) :
    atsListLoop count fromIndex skipped out stream =
      out ++ ((stream.filterMap id).drop (fromIndex - skipped)).take (count - out.length) := by
  induction stream generalizing skipped out with
  | nil =>
    rw [atsListLoop, List.filterMap_nil, List.drop_nil, List.take_nil, List.append_nil]
  | cons record stream ih =>
    rcases record with - | record
    · rw [atsListLoop, ih h, List.filterMap_cons_none rfl]
    · rw [atsListLoop, List.filterMap_cons_some (f := id) (b := record) rfl]
      split
      · rename_i hskip
        have hsucc : fromIndex - skipped = fromIndex - (skipped + 1) + 1 := by omega
        rw [ih h, hsucc, List.drop_succ_cons]
      · rename_i hskip
        have hzero : fromIndex - skipped = 0 := by omega
        have hleft : count - out.length = count - (out.length + 1) + 1 := by omega
        have hlen : (out ++ [record]).length = out.length + 1 := by
          rw [List.length_append, List.length_singleton]
        rw [hzero, List.drop_zero, hleft, List.take_succ_cons]
        by_cases hfull : count ≤ (out ++ [record]).length
        · have hdone : count - (out.length + 1) = 0 := by omega
          rw [if_pos hfull, hdone, List.take_zero]
        · rw [if_neg hfull, ih (by omega), hzero, List.drop_zero, hlen, List.append_assoc]
          rfl

/-- The live records, newest first. -/
def liveRecords (build : ℕ → Option α) (next : ℕ) : List α :=
  (List.range next).reverse.filterMap build

/-- **`build_ats_list`** takes `count` live records after those skipped. -/
theorem buildAtsList_eq {build : ℕ → Option α} {fromIndex : ℕ} :
    buildAtsList build next count fromIndex =
      ((liveRecords build next).drop fromIndex).take count := by
  unfold buildAtsList
  split
  · rename_i hcount
    rw [hcount, List.take_zero]
  · split
    · rename_i hnext
      rw [hnext, liveRecords, List.range_zero, List.reverse_nil, List.filterMap_nil,
        List.drop_nil, List.take_nil]
    · rename_i hcount _
      rw [atsListLoop_eq (Nat.pos_of_ne_zero hcount), List.filterMap_map]
      rfl

/-- The page that a cursor asks for, of the live records. -/
theorem atsListOf_eq (build : ℕ → Option α) (atsId : α → ℕ) (next : ℕ) {c : Option ℕ}
    (hcount : 1 ≤ count) (hc : ∀ id ∈ c, id ≤ u32Max) :
    atsListOf build atsId next ⟨count, c.map atsCursor.toText⟩ =
      let probed := ((liveRecords build next).drop (c.elim 0 fun id => wrapU32 (next - id))).take
        (satAddU32 count 1)
      let trimmed := if count < probed.length then probed.take count else probed
      .ok
        { items := trimmed
          pageInfo :=
            { total := some next
              nextCursor :=
                if count < probed.length then
                  trimmed.getLast?.map fun record => atsCursor.toText (atsId record)
                else none
              hasMore := decide (count < probed.length) } } := by
  have hcursor : parseCursor atsCursor ⟨count, c.map atsCursor.toText⟩ = .ok c :=
    parseCursor_toText atsCursor_roundTrips hc
  rw [atsListOf, if_neg (by change ¬ count = 0; omega)]
  simp only [hcursor, ok_bind, buildAtsList_eq, decide_eq_true_eq]
  rcases c with - | c <;> rfl

/-! ## Records with their ids -/

/-- A record with the id it is under in storage, which `ats_id` narrows. -/
def recordById (net : Network) (node : AtsNode) (id : ℕ) : Option (ℕ × AtsRecord) :=
  (buildAtsRecord net node id).map fun record => (id, record)

/-- The list, with those ids. -/
def atsListById (net : Network) (node : AtsNode) (req : PageRequest) :
    Except BadRequest (Page (ℕ × AtsRecord)) :=
  atsListOf (recordById net node) (fun p => p.2.atsId) node.nextAtsId req

theorem isSome_recordById (net : Network) {id : ℕ} :
    (recordById net node id).isSome = (node.atsRegistry id).isSome := by
  rw [recordById, Option.isSome_map, buildAtsRecord, Option.isSome_map]

/-- Records come with the id they are under, and show it narrowed. -/
theorem of_recordById_eq_some {id : ℕ} {p : ℕ × AtsRecord} (h : recordById net node id = some p) :
    p.1 = id ∧ p.2.atsId = atsIdU32 id := by
  rw [recordById, buildAtsRecord, Option.map_map, Option.map_eq_some_iff] at h
  obtain ⟨record, -, rfl⟩ := h
  exact ⟨rfl, rfl⟩

/-- **The list is that list**, without the ids. -/
theorem atsList_eq_map (req : PageRequest) :
    atsList net node req = (atsListById net node req).map fun page =>
      { items := page.items.map Prod.snd, pageInfo := page.pageInfo } := by
  have hlive : liveRecords (buildAtsRecord net node) node.nextAtsId =
      (liveRecords (recordById net node) node.nextAtsId).map Prod.snd := by
    unfold liveRecords
    rw [List.map_filterMap]
    refine List.filterMap_congr fun id _ => ?_
    rw [recordById, Option.map_map]
    exact Option.map_id'.symm
  unfold atsList atsListById atsListOf
  by_cases hcount : req.count = 0
  · rw [if_pos hcount, if_pos hcount]
    rfl
  rw [if_neg hcount, if_neg hcount]
  rcases parseCursor atsCursor req with e | c
  · rfl
  simp only [ok_bind, buildAtsList_eq, hlive, ← List.map_drop, ← List.map_take, List.length_map]
  generalize ((liveRecords (recordById net node) node.nextAtsId).drop _).take _ = probed
  by_cases hmore : req.count < probed.length
  · rw [decide_eq_true hmore, if_pos rfl, if_pos rfl, List.getLast?_map, Option.map_map]
    rfl
  · rw [decide_eq_false hmore]
    rfl

/-! ## Ids and positions -/

/-- How many ids above `x` are revoked. -/
def revokedAbove (node : AtsNode) (next x : ℕ) : ℕ :=
  ((List.range next).filter fun id => decide (x < id) && (node.atsRegistry id).isNone).length

/-- **The ids from a live one on** are those of the live records so far and
the revoked ones among them. -/
theorem position_liveRecords {j : ℕ} {p : ℕ × AtsRecord}
    (h : (liveRecords (recordById net node) next)[j]? = some p) :
    p.1 < next ∧ next - p.1 = j + 1 + revokedAbove node next p.1 ∧ p.2.atsId = atsIdU32 p.1 := by
  induction next generalizing j with
  | zero => simp [liveRecords] at h
  | succ next ih =>
    have hlive : liveRecords (recordById net node) (next + 1) =
        (recordById net node next).toList ++ liveRecords (recordById net node) next := by
      unfold liveRecords
      rw [List.range_succ, List.reverse_append, List.filterMap_append, List.reverse_singleton]
      rcases hrecord : recordById net node next with - | q
      · rw [List.filterMap_cons_none hrecord]
        rfl
      · rw [List.filterMap_cons_some hrecord]
        rfl
    have hrevoked : ∀ x, revokedAbove node (next + 1) x = revokedAbove node next x +
        if x < next ∧ (node.atsRegistry next).isNone then 1 else 0 := by
      intro x
      unfold revokedAbove
      rw [List.range_succ, List.filter_append, List.length_append, List.filter_singleton]
      congr 1
      by_cases hx : x < next <;> by_cases hnone : (node.atsRegistry next).isNone <;>
        simp [hx, hnone]
    rw [hlive] at h
    rw [hrevoked]
    rcases hrecord : recordById net node next with - | q
    · have hnone : (node.atsRegistry next).isNone := by
        rw [← Option.isSome_eq_false_iff, ← isSome_recordById net, hrecord]
        rfl
      rw [hrecord, Option.toList_none, List.nil_append] at h
      obtain ⟨hlt, hpos, hid⟩ := ih h
      rw [if_pos ⟨hlt, hnone⟩]
      exact ⟨by omega, by omega, hid⟩
    · obtain ⟨hq, hqid⟩ := of_recordById_eq_some hrecord
      have hsome : (node.atsRegistry next).isSome := by
        rw [← isSome_recordById net, hrecord]
        rfl
      have hnone : ¬ (node.atsRegistry next).isNone := by
        rw [Option.isNone_iff_eq_none]
        exact Option.isSome_iff_ne_none.mp hsome
      rw [if_neg fun hand => hnone hand.2]
      rw [hrecord, Option.toList_some, List.singleton_append] at h
      rcases j with - | j
      · obtain rfl := Option.some.inj h
        have hzero : revokedAbove node next q.1 = 0 := by
          unfold revokedAbove
          rw [List.length_eq_zero_iff, List.filter_eq_nil_iff]
          intro id hid
          have hlt := List.mem_range.mp hid
          simp only [Bool.and_eq_true, decide_eq_true_eq]
          omega
        exact ⟨by omega, by omega, hq ▸ hqid⟩
      · obtain ⟨hlt, hpos, hid⟩ := ih h
        exact ⟨by omega, by omega, hid⟩

/-! ## Walks -/

/-- The live records of a node, with their ids. -/
def registryRecords (net : Network) (node : AtsNode) : List (ℕ × AtsRecord) :=
  liveRecords (recordById net node) node.nextAtsId

/-- The position a cursor is turned into. -/
def cursorOffset (node : AtsNode) (id : ℕ) : ℕ := wrapU32 (node.nextAtsId - id)

theorem atsIdU32_le (id : ℕ) : atsIdU32 id ≤ u32Max := by
  unfold atsIdU32
  split
  · assumption
  · exact le_rfl

/-- What is listed shows an id that a cursor can hold. -/
theorem atsId_le {p : ℕ × AtsRecord} (h : p ∈ registryRecords net node) : p.2.atsId ≤ u32Max := by
  obtain ⟨id, -, hid⟩ := List.mem_filterMap.mp h
  rw [(of_recordById_eq_some hid).2]
  exact atsIdU32_le id

/-- **The list reads pages at an offset**, as long as one record more than
the page can be asked for. -/
theorem atsListById_refines (net : Network) (hcount : 1 ≤ count) (hlt : count < u32Max) :
    Refines (pageRead (fun node => atsListById net node) count)
      (offsetRead count (registryRecords net) cursorOffset fun p => p.2.atsId) atsCursor.toText
      Page.items (fun _ => True) fun id => id ≤ u32Max where
  answers := by
    intro node c _ hc
    have hprobe : satAddU32 count 1 = count + 1 := by
      unfold satAddU32
      omega
    have hpage := atsListOf_eq (recordById net node) (fun p => p.2.atsId) node.nextAtsId hcount hc
    rw [hprobe] at hpage
    simp only [List.length_take, List.take_take, Nat.min_eq_left (Nat.le_succ count)] at hpage
    by_cases hmore : count < ((registryRecords net node).drop (c.elim 0 (cursorOffset node))).length
    · have hspec := offsetPage_of_lt (fun p : ℕ × AtsRecord => p.2.atsId) hmore
      have hprobed : count < min (count + 1)
          ((registryRecords net node).drop (c.elim 0 (cursorOffset node))).length := by omega
      refine ⟨_, pageRead_eq_some.mpr ⟨hpage, ?_⟩, ?_⟩
      · refine Eq.trans ?_ (if_pos hprobed).symm
        rw [offsetRead, hspec, Option.map_map]
        exact congrArg _ (congrArg _ (if_pos hprobed).symm)
      · rw [offsetRead, hspec]
        exact if_pos hprobed
    · have hspec := offsetPage_of_le (fun p : ℕ × AtsRecord => p.2.atsId) (Nat.not_lt.mp hmore)
      have hprobed : ¬ count < min (count + 1)
          ((registryRecords net node).drop (c.elim 0 (cursorOffset node))).length := by omega
      refine ⟨_, pageRead_eq_some.mpr ⟨hpage, ?_⟩, ?_⟩
      · refine Eq.trans ?_ (if_neg hprobed).symm
        rw [offsetRead, hspec]
        rfl
      · rw [offsetRead, hspec]
        refine (if_neg hprobed).trans (List.take_of_length_le ?_)
        change ((registryRecords net node).drop (c.elim 0 (cursorOffset node))).length ≤ count + 1
        omega
  next_ok := by
    intro node c id _ hnext
    obtain ⟨-, -, p, hp, hid⟩ := offsetPage_eq_some hcount (Prod.ext rfl hnext)
    rw [← hid]
    exact atsId_le (List.mem_of_getElem? hp)

/-- **A walk lists the registry**: every live record once, newest first. -/
def ListsRegistry (net : Network) (node : AtsNode) (count : ℕ) : Prop :=
  ∃ w : List (AtsNode × Page (ℕ × AtsRecord)),
    Walk (pageRead (fun node => atsListById net node) count) none w ∧ (∀ x ∈ w, x.1 = node) ∧
      (w.flatMap fun x => x.2.items) = registryRecords net node

/-- **No drift.** At the end of each full page that more records follow, the
position reached is a `u32`, and no id above it is revoked; where ids go
past `u32`, what they lack to a turn of `u32` is not counted. -/
def NoDrift (net : Network) (node : AtsNode) (count : ℕ) : Prop :=
  ∀ m p, 1 ≤ m → m * count < (registryRecords net node).length →
    (registryRecords net node)[m * count - 1]? = some p →
    m * count ≤ u32Max ∧
      (revokedAbove node node.nextAtsId p.1 + (p.1 - u32Max)) % 4294967296 = 0

/-- The position of the next page is off by the revoked ids above. -/
theorem cursorOffset_eq_iff {m : ℕ} {p : ℕ × AtsRecord} (hcount : 1 ≤ count) (hm : 1 ≤ m)
    (h : (registryRecords net node)[m * count - 1]? = some p) :
    cursorOffset node p.2.atsId = m * count ↔
      m * count ≤ u32Max ∧
        (revokedAbove node node.nextAtsId p.1 + (p.1 - u32Max)) % 4294967296 = 0 := by
  obtain ⟨hlt, hpos, hid⟩ := position_liveRecords h
  have hmul : 1 ≤ m * count := Nat.mul_pos hm hcount
  have hdist : node.nextAtsId - atsIdU32 p.1 =
      m * count + (revokedAbove node node.nextAtsId p.1 + (p.1 - u32Max)) := by
    unfold atsIdU32
    split <;> omega
  rw [hid, cursorOffset, hdist, wrapU32, u32Max]
  omega

theorem aligned_iff_noDrift (hcount : 1 ≤ count) :
    Aligned count (registryRecords net node) (cursorOffset node) (fun p => p.2.atsId) ↔
      NoDrift net node count := by
  constructor
  · intro h m p hm hlen hp
    exact (cursorOffset_eq_iff hcount hm hp).mp (h m p hm hlen hp)
  · intro h m p hm hlen hp
    exact (cursorOffset_eq_iff hcount hm hp).mpr (h m p hm hlen hp)

theorem nodup_registryRecords : (registryRecords net node).Nodup := by
  refine List.pairwise_filterMap.mpr ?_
  refine (List.nodup_reverse.mpr List.nodup_range).imp fun {id id'} hne p hp p' hp' heq => hne ?_
  rw [← (of_recordById_eq_some hp).1, ← (of_recordById_eq_some hp').1, heq]

/-- **With room for the probe**, a walk lists the registry exactly when
there is no drift. -/
theorem listsRegistry_iff_of_lt (hcount : 1 ≤ count) (hlt : count < u32Max) :
    ListsRegistry net node count ↔ NoDrift net node count := by
  have hrefines := atsListById_refines net hcount hlt
  rw [← aligned_iff_noDrift hcount, ← offset_walk_iff hcount nodup_registryRecords]
  exact hrefines.fixed_walk_iff trivial

/-- **The largest page** is the only one: there is no room for the probe. -/
theorem listsRegistry_iff_of_max :
    ListsRegistry net node u32Max ↔ (registryRecords net node).length ≤ u32Max := by
  have hfits : ¬ u32Max < ((registryRecords net node).take u32Max).length := by
    rw [List.length_take]
    omega
  have hpage : atsListById net node ⟨u32Max, none⟩ =
      .ok ⟨(registryRecords net node).take u32Max, ⟨some node.nextAtsId, none, false⟩⟩ := by
    refine (atsListOf_eq (c := none) _ _ _ (by decide) nofun).trans ?_
    simp only [satAddU32, Option.elim_none, List.drop_zero, Nat.min_eq_right (Nat.le_succ u32Max)]
    rw [registryRecords] at hfits
    rw [if_neg hfits, if_neg hfits, decide_eq_false hfits]
    rfl
  have hwalk : Walk (pageRead (fun node => atsListById net node) u32Max) none
      [(node, _)] := .last (pageRead_eq_some.mpr ⟨hpage, rfl⟩)
  have hfixed : ∀ x ∈ [(node, (⟨(registryRecords net node).take u32Max,
      ⟨some node.nextAtsId, none, false⟩⟩ : Page (ℕ × AtsRecord)))], x.1 = node := by
    intro x hx
    rw [List.mem_singleton.mp hx]
  constructor
  · rintro ⟨w, hw, hs, hcontent⟩
    rw [hw.unique hwalk hs hfixed, List.flatMap_singleton] at hcontent
    have hlen := congrArg List.length hcontent
    rw [List.length_take] at hlen
    omega
  · intro hlen
    refine ⟨_, hwalk, hfixed, ?_⟩
    rw [List.flatMap_singleton]
    exact List.take_of_length_le hlen

/-- **A walk over the registry** lists every live record once, newest
first, exactly when no page ends below a revoked id. -/
theorem listsRegistry_iff (hcount : 1 ≤ count) (hle : count ≤ u32Max) :
    (∀ req, atsList net node req = (atsListById net node req).map fun page =>
        { items := page.items.map Prod.snd, pageInfo := page.pageInfo }) ∧
      (ListsRegistry net node count ↔
        NoDrift net node count ∧
          (count = u32Max → (registryRecords net node).length ≤ u32Max)) := by
  refine ⟨atsList_eq_map, ?_⟩
  rcases Nat.eq_or_lt_of_le hle with rfl | hlt
  · rw [listsRegistry_iff_of_max]
    constructor
    · intro hlen
      refine ⟨fun m p hm hmore _ => ?_, fun _ => hlen⟩
      have hmul := Nat.mul_le_mul_right u32Max hm
      omega
    · exact fun h => h.2 rfl
  · rw [listsRegistry_iff_of_lt hcount hlt]
    exact ⟨fun h => ⟨h, fun heq => absurd heq (Nat.ne_of_lt hlt)⟩, fun h => h.1⟩

/-! ## A revoked id above a page -/

theorem three_le_u64Max : 3 ≤ u64Max := by decide

/-- Three ids, each with a record but the one revoked. -/
def threeIds (revoked : ℕ) : AtsNode where
  nextAtsId := 3
  next_le := three_le_u64Max
  atsRegistry := fun id => if id = revoked then none else some ⟨.fill 1, 1, 1, []⟩
  atsVersions := fun _ => []
  atBlock := fun _ => none

/-- With the oldest revoked, pages of one list the registry. -/
theorem listsRegistry_oldest : ListsRegistry plainNetwork (threeIds 0) 1 := by
  refine ((listsRegistry_iff le_rfl (by decide)).2.mpr ⟨?_, fun h => absurd h (by decide)⟩)
  intro m p hm hlen hp
  have hlive : (registryRecords plainNetwork (threeIds 0)).length = 2 := rfl
  obtain rfl : m = 1 := by omega
  obtain rfl := Option.some.inj hp
  exact ⟨by decide, rfl⟩

/-- **With the newest revoked they do not**: the second page starts at the
third record, and there are two. -/
theorem not_listsRegistry_newest : ¬ ListsRegistry plainNetwork (threeIds 2) 1 := by
  rw [listsRegistry_iff_of_lt le_rfl (by decide)]
  intro h
  have hdrift := (h 1 _ le_rfl (by decide) rfl).2
  revert hdrift
  decide

end Rpc

end AllfeatExplorer
