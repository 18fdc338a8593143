import AllfeatExplorer.Data.Cursors
import AllfeatExplorer.Data.Helpers.Enumerate
import AllfeatExplorer.Data.Helpers.Paging
import AllfeatExplorer.Data.BlockViews

/-!
# The newest events, page by page

The window a page scans starts in the cursor's own block. With two rows
a page or more it is deep enough whatever the blocks hold; with one row
it is two blocks deep, which is short of a probe exactly after the first
event of a block whose parent has a single event.
-/

namespace AllfeatExplorer

open Queries

variable {net : Network} {node : Node} {count lo len m k n : ℕ} {ev a : BlockEvent}
  {cursor : Option EventCursor} {filters : EventFilters}

/-! ## The scan -/

theorem scanEvents_eq {target : ℕ} (events : List BlockEvent) (items : List BlockEvent)
    (h : items.length ≤ target) :
    Rpc.scanEvents target cursor filters events items =
      (items ++ (events.filter (Rpc.eventKept cursor filters)).take (target - items.length),
        decide
          (target - items.length < (events.filter (Rpc.eventKept cursor filters)).length)) := by
  induction events generalizing items with
  | nil => simp [Rpc.scanEvents]
  | cons ev rest ih =>
    rw [Rpc.scanEvents]
    by_cases hkept : Rpc.eventKept cursor filters ev = true
    · rw [if_neg (by rw [hkept]; exact Bool.noConfusion), List.filter_cons_of_pos hkept]
      by_cases hfull : target ≤ items.length
      · rw [if_pos hfull, show target - items.length = 0 by omega]
        simp
      · obtain ⟨room, hroom⟩ : ∃ room, target - items.length = room + 1 :=
          ⟨target - items.length - 1, by omega⟩
        have hlen : (items ++ [ev]).length = items.length + 1 := by simp
        have hleft : target - (items ++ [ev]).length = room := by omega
        rw [if_neg hfull, ih (items ++ [ev]) (by omega), hleft, hroom, List.take_succ_cons,
          List.append_assoc, List.singleton_append, List.length_cons]
        simp only [Nat.add_lt_add_iff_right]
    · rw [Bool.not_eq_true] at hkept
      rw [if_pos hkept, ih items h, List.filter_cons_of_neg (by rw [hkept]; exact Bool.noConfusion)]

/-- **The scan keeps the first of what it may keep.** -/
theorem scanBlocks_eq {target : ℕ} (blocks : List (List BlockEvent)) (items : List BlockEvent)
    (h : items.length ≤ target) :
    Rpc.scanBlocks target cursor filters (blocks.map some) items =
      items ++ ((blocks.flatMap List.reverse).filter (Rpc.eventKept cursor filters)).take
        (target - items.length) := by
  induction blocks generalizing items with
  | nil => simp [Rpc.scanBlocks]
  | cons events rest ih =>
    rw [List.map_cons, Rpc.scanBlocks, scanEvents_eq events.reverse items h, List.flatMap_cons,
      List.filter_append]
    generalize events.reverse.filter (Rpc.eventKept cursor filters) = kept
    simp only
    by_cases hdone : target - items.length < kept.length
    · rw [decide_eq_true hdone, if_pos rfl, List.take_append_of_le_length (by omega)]
    · rw [decide_eq_false hdone, if_neg Bool.false_ne_true, List.take_of_length_le (by omega)]
      have hlen : (items ++ kept).length = items.length + kept.length := List.length_append
      rw [ih _ (by omega), hlen, List.append_assoc, List.take_append]
      congr 2
      · rw [List.take_of_length_le (by omega)]
      · congr 1
        omega

/-! ## The events of a chain -/

/-- A block's events, newest first. -/
def blockEvents (net : Network) (node : Node) (n : ℕ) : List BlockEvent :=
  (Rpc.mapBlockEvents net n (node.chain n)).reverse

/-- **The events of `len` blocks** from `lo` on, newest first. -/
def eventsDown (net : Network) (node : Node) (lo len : ℕ) : List BlockEvent :=
  (List.range' lo len).reverse.flatMap (blockEvents net node)

/-- **All events** up to the best head, newest first. -/
def allEvents (net : Network) (node : Node) : List BlockEvent :=
  eventsDown net node 0 (node.bestHead + 1)

/-- **The events of a node**: every block above 0 has one, and their
number is a `u32`. -/
structure EventsFit (node : Node) : Prop where
  nonempty : ∀ n, 0 < n → n ≤ node.bestHead → (node.chain n).events ≠ []
  length_le : ∀ n, n ≤ node.bestHead → (node.chain n).events.length ≤ u32Max

theorem eventsDown_append :
    eventsDown net node lo (m + k) =
      eventsDown net node (lo + m) k ++ eventsDown net node lo m := by
  rw [eventsDown, eventsDown, eventsDown, ← List.range'_append_1, List.reverse_append,
    List.flatMap_append]

theorem mem_eventsDown :
    ev ∈ eventsDown net node lo len ↔ ∃ n, lo ≤ n ∧ n < lo + len ∧ ev ∈ blockEvents net node n := by
  rw [eventsDown, List.mem_flatMap]
  simp only [List.mem_reverse, List.mem_range'_1, and_assoc]

theorem length_blockEvents :
    (blockEvents net node n).length = (node.chain n).events.length := by
  rw [blockEvents, List.length_reverse, Rpc.mapBlockEvents, List.length_mapIdx]

/-- The events of a block carry its number and their position. -/
theorem mem_blockEvents (h : ev ∈ blockEvents net node n)
    (hlen : (node.chain n).events.length ≤ u32Max) :
    ev.blockNumber = n ∧ ev.index < (node.chain n).events.length := by
  rw [blockEvents, List.mem_reverse, Rpc.mapBlockEvents, List.mem_mapIdx] at h
  obtain ⟨i, hi, rfl⟩ := h
  refine ⟨rfl, ?_⟩
  change wrapU32 i < _
  rwa [wrapU32_of_le (hi.le.trans hlen)]

theorem blockEvents_pairwise (hlen : (node.chain n).events.length ≤ u32Max) :
    (blockEvents net node n).Pairwise fun a b => b.key < a.key := by
  rw [blockEvents, List.pairwise_reverse, Rpc.mapBlockEvents, List.pairwise_iff_getElem]
  intro i j hi hj hij
  have hlast : j < (node.chain n).events.length := by rwa [List.length_mapIdx] at hj
  simp only [List.getElem_mapIdx, BlockEvent.key, Prod.Lex.toLex_lt_toLex]
  refine .inr ⟨trivial, ?_⟩
  rwa [wrapU32_of_le ((hij.trans hlast).le.trans hlen), wrapU32_of_le (hlast.le.trans hlen)]

theorem eventsDown_pairwise (hlen : ∀ n, lo ≤ n → n < lo + len →
    (node.chain n).events.length ≤ u32Max) :
    (eventsDown net node lo len).Pairwise fun a b => b.key < a.key := by
  refine List.pairwise_flatMap.mpr ⟨fun n hn => ?_, ?_⟩
  · rw [List.mem_reverse, List.mem_range'_1] at hn
    exact blockEvents_pairwise (hlen n hn.1 hn.2)
  · refine (List.pairwise_reverse.mpr List.pairwise_lt_range').imp_of_mem ?_
    intro i j hi hj hij ev hev ev' hev'
    rw [List.mem_reverse, List.mem_range'_1] at hi hj
    rw [BlockEvent.key, BlockEvent.key, Prod.Lex.toLex_lt_toLex,
      (mem_blockEvents hev (hlen i hi.1 hi.2)).1, (mem_blockEvents hev' (hlen j hj.1 hj.2)).1]
    exact .inl hij

theorem allEvents_pairwise (net : Network) (h : EventsFit node) :
    (allEvents net node).Pairwise fun a b => b.key < a.key :=
  eventsDown_pairwise fun n _ hn => h.length_le n (by omega)

theorem blockEvents_ne_nil (net : Network) (h : (node.chain n).events ≠ []) :
    blockEvents net node n ≠ [] := by
  rw [← List.length_pos_iff, length_blockEvents, List.length_pos_iff]
  exact h

/-- Blocks that have events have as many at least. -/
theorem le_length_eventsDown (net : Network) (lo len : ℕ)
    (h : ∀ n, lo ≤ n → n < lo + len → (node.chain n).events ≠ []) :
    len ≤ (eventsDown net node lo len).length := by
  induction len with
  | zero => exact Nat.zero_le _
  | succ len ih =>
    have hlast : 0 < (eventsDown net node (lo + len) 1).length := by
      have hne := blockEvents_ne_nil net (h (lo + len) (by omega) (by omega))
      rw [eventsDown, List.range'_one, List.reverse_singleton, List.flatMap_singleton]
      exact List.length_pos_iff.mpr hne
    rw [eventsDown_append, List.length_append]
    have hrest := ih fun n h₁ h₂ => h n h₁ (by omega)
    omega

/-! ## A page -/

/-- Where the scan for a page after `c` starts. -/
def scanTip (node : Node) (c : Option BlockEvent) : ℕ :=
  c.elim node.bestHead fun a => min a.blockNumber node.bestHead

/-- Where it ends. -/
def scanLowest (node : Node) (count : ℕ) (c : Option BlockEvent) : ℕ :=
  scanTip node c - (count * 2 - 1)

/-- **What it finds.** -/
def scanned (net : Network) (node : Node) (count : ℕ) (c : Option BlockEvent) : List BlockEvent :=
  olderThan BlockEvent.key
    (eventsDown net node (scanLowest node count c)
      (scanTip node c + 1 - scanLowest node count c)) (c.map BlockEvent.key)

theorem scanTip_le (node : Node) (c : Option BlockEvent) : scanTip node c ≤ node.bestHead := by
  cases c with
  | none => exact le_rfl
  | some a => exact min_le_right _ _

theorem eventKept_none (c : Option BlockEvent) (ev : BlockEvent) :
    Rpc.eventKept (c.map BlockEvent.cursor) .none ev = below (c.map BlockEvent.key) ev.key := by
  have hmatch : eventMatchesFilters ev .none = true := rfl
  rw [Rpc.eventKept, hmatch, Bool.and_true]
  cases c with
  | none => rfl
  | some a => exact decide_eq_decide.mpr Iff.rfl

theorem length_trimProbe_le {α : Type} (n : ℕ) (rows : List α) :
    (trimProbe n rows).1.length ≤ n := by
  unfold trimProbe
  split
  · exact List.length_take_le _ _
  · exact Nat.le_of_not_lt ‹_›

/-- Of a page: no more rows than asked for, and the next cursor is its
last row's. -/
theorem latestEvents_ok {req : PageRequest} {page : Page BlockEvent}
    (h : Rpc.latestEvents net node req filters = .ok page) :
    page.items.length ≤ req.count ∧ (page.pageInfo.hasMore = true →
      page.pageInfo.nextCursor =
        page.items.getLast?.map fun ev => eventCursor.toText ev.cursor) := by
  unfold Rpc.latestEvents at h
  split at h
  · obtain rfl := Except.ok.inj h
    exact ⟨Nat.zero_le _, fun hmore => by cases hmore⟩
  · cases hcursor : parseCursor eventCursor req with
    | error e =>
      rw [hcursor] at h
      cases h
    | ok cursor =>
      rw [hcursor, ok_bind] at h
      -- What the scan finds does not matter, only how it is trimmed.
      obtain ⟨rows, rfl⟩ : ∃ rows, page =
          { items := (trimProbe req.count rows).1
            pageInfo :=
              { total := none
                nextCursor := nextCursor (trimProbe req.count rows).2
                  (fun ev => eventCursor.toText ev.cursor) (trimProbe req.count rows).1
                hasMore := (trimProbe req.count rows).2 } } := ⟨_, (Except.ok.inj h).symm⟩
      exact ⟨length_trimProbe_le req.count rows, fun hmore => if_pos hmore⟩

/-- **One page**: the first of what the scan finds. -/
theorem latestEvents_eq (net : Network) (hcount : 1 ≤ count) (h : EventsFit node)
    (c : Option BlockEvent) (hc : ∀ a ∈ c, a ∈ allEvents net node) :
    Rpc.latestEvents net node ⟨count, c.map fun a => eventCursor.toText a.cursor⟩ .none =
      .ok { items := (trimProbe count (scanned net node count c)).1
            pageInfo :=
              { total := none
                nextCursor := nextCursor (trimProbe count (scanned net node count c)).2
                  (fun ev => eventCursor.toText ev.cursor)
                  (trimProbe count (scanned net node count c)).1
                hasMore := (trimProbe count (scanned net node count c)).2 } } := by
  have hparse : parseCursor eventCursor ⟨count, c.map fun a => eventCursor.toText a.cursor⟩ =
      .ok (c.map BlockEvent.cursor) := by
    have hmap : (c.map fun a => eventCursor.toText a.cursor) =
        (c.map BlockEvent.cursor).map eventCursor.toText := by
      rw [Option.map_map]
      rfl
    rw [hmap]
    refine parseCursor_toText eventCursor_roundTrips fun k hk => ?_
    obtain ⟨a, ha, rfl⟩ := Option.map_eq_some_iff.mp hk
    obtain ⟨n, -, hn, hmem⟩ := mem_eventsDown.mp (hc a ha)
    have hlen := h.length_le n (by omega)
    obtain ⟨hblock, hindex⟩ := mem_blockEvents hmem hlen
    have hbest := node.best_le
    refine ⟨?_, ?_⟩
    · change a.blockNumber ≤ u64Max
      omega
    · change a.index ≤ u32Max
      omega
  have htip : (c.map BlockEvent.cursor).elim node.bestHead (fun c => min c.block node.bestHead) =
      scanTip node c := by
    cases c <;> rfl
  have hdepth : max (count * 2) count = count * 2 := max_eq_left (by omega)
  have hfetch : (List.range' (scanLowest node count c)
        (scanTip node c + 1 - scanLowest node count c)).reverse.map
        (Rpc.fetchBlockEventsWithTs net node) =
      ((List.range' (scanLowest node count c)
        (scanTip node c + 1 - scanLowest node count c)).reverse.map fun n =>
          Rpc.mapBlockEvents net n (node.chain n)).map some := by
    rw [List.map_map]
    refine List.map_congr_left fun n hn => ?_
    rw [List.mem_reverse, List.mem_range'_1] at hn
    have hle := scanTip_le node c
    exact if_pos (by omega)
  have hfound : (((List.range' (scanLowest node count c)
        (scanTip node c + 1 - scanLowest node count c)).reverse.map fun n =>
          Rpc.mapBlockEvents net n (node.chain n)).flatMap List.reverse).filter
        (Rpc.eventKept (c.map BlockEvent.cursor) .none) = scanned net node count c := by
    rw [List.flatMap_map, scanned, olderThan]
    exact List.filter_congr fun ev _ => eventKept_none c ev
  unfold Rpc.latestEvents
  rw [if_neg (by simp only; omega), hparse, ok_bind]
  simp only [htip, hdepth]
  rw [show scanTip node c - (count * 2 - 1) = scanLowest node count c from rfl, hfetch,
    scanBlocks_eq _ [] (Nat.zero_le _), List.nil_append, List.length_nil, Nat.sub_zero, hfound,
    trimProbe_take, trimProbe_eq]
  rfl

/-- **What is older than the cursor** is what the scan finds, and then
the events of the blocks below it. -/
theorem olderThan_eq (count : ℕ) (h : EventsFit node) (c : Option BlockEvent)
    (hc : ∀ a ∈ c, a ∈ allEvents net node) :
    olderThan BlockEvent.key (allEvents net node) (c.map BlockEvent.key) =
      scanned net node count c ++ eventsDown net node 0 (scanLowest node count c) := by
  have htip := scanTip_le node c
  have hlow : scanLowest node count c ≤ scanTip node c := Nat.sub_le _ _
  -- The chain in three: above the tip of the scan, the scan, below it.
  have hsplit : allEvents net node =
      eventsDown net node (scanTip node c + 1) (node.bestHead - scanTip node c) ++
        (eventsDown net node (scanLowest node count c)
          (scanTip node c + 1 - scanLowest node count c) ++
        eventsDown net node 0 (scanLowest node count c)) := by
    have hbest : node.bestHead + 1 = (scanTip node c + 1) + (node.bestHead - scanTip node c) := by
      omega
    have hscan : scanTip node c + 1 =
        scanLowest node count c + (scanTip node c + 1 - scanLowest node count c) := by omega
    rw [allEvents, hbest, eventsDown_append, Nat.zero_add]
    congr 1
    conv_lhs => rw [hscan, eventsDown_append, Nat.zero_add]
  have habove : olderThan BlockEvent.key
      (eventsDown net node (scanTip node c + 1) (node.bestHead - scanTip node c))
      (c.map BlockEvent.key) = [] := by
    refine List.filter_eq_nil_iff.mpr fun ev hev => ?_
    obtain ⟨n, hn, hn', hmem⟩ := mem_eventsDown.mp hev
    have hblock := (mem_blockEvents hmem (h.length_le n (by omega))).1
    cases c with
    | none =>
      have htop : scanTip node none = node.bestHead := rfl
      omega
    | some a =>
      obtain ⟨i, -, hi, hmem'⟩ := mem_eventsDown.mp (hc a rfl)
      have hblock' := (mem_blockEvents hmem' (h.length_le i (by omega))).1
      have htop : scanTip node (some a) = a.blockNumber := min_eq_left (by omega)
      rw [Option.map_some, below_some, BlockEvent.key, BlockEvent.key, Prod.Lex.toLex_lt_toLex]
      omega
  have hbelow : olderThan BlockEvent.key (eventsDown net node 0 (scanLowest node count c))
      (c.map BlockEvent.key) = eventsDown net node 0 (scanLowest node count c) := by
    refine List.filter_eq_self.mpr fun ev hev => ?_
    obtain ⟨n, -, hn, hmem⟩ := mem_eventsDown.mp hev
    have hblock := (mem_blockEvents hmem (h.length_le n (by omega))).1
    cases c with
    | none => rfl
    | some a =>
      have htop : scanTip node (some a) ≤ a.blockNumber := min_le_left _ _
      rw [Option.map_some, below_some, BlockEvent.key, BlockEvent.key, Prod.Lex.toLex_lt_toLex]
      left
      omega
  have hfilter : ∀ l l', olderThan BlockEvent.key (l ++ l') (c.map BlockEvent.key) =
      olderThan BlockEvent.key l (c.map BlockEvent.key) ++
        olderThan BlockEvent.key l' (c.map BlockEvent.key) := fun l l' => List.filter_append ..
  rw [hsplit, hfilter, habove, List.nil_append, hfilter, hbelow]
  rfl

/-- **A scan that finds more than a page, or leaves nothing**, is a page
of the older events. -/
theorem latestEvents_pageAfter (hcount : 1 ≤ count) (h : EventsFit node) (c : Option BlockEvent)
    (hc : ∀ a ∈ c, a ∈ allEvents net node)
    (hdeep : count < (scanned net node count c).length ∨
      eventsDown net node 0 (scanLowest node count c) = []) :
    ∃ page, PageAfter (fun node req => Rpc.latestEvents net node req .none) count node
      (allEvents net node) BlockEvent.key (fun a => eventCursor.toText a.cursor) c page := by
  refine PageAfter.of_trim none (scanned net node count c) (latestEvents_eq net hcount h c hc) ?_
  rw [olderThan_eq count h c hc]
  rcases hdeep with hdeep | hnil
  · rw [List.take_append_of_le_length (by omega)]
  · rw [hnil, List.append_nil]

/-! ## How deep the scan reaches -/

theorem eventsDown_one : eventsDown net node n 1 = blockEvents net node n := by
  rw [eventsDown, List.range'_one, List.reverse_singleton, List.flatMap_singleton]

/-- **After an event** the scan finds the older events of its block, and
those of the blocks below. -/
theorem scanned_some (h : EventsFit node) (ha : a ∈ allEvents net node) :
    scanned net node count (some a) =
      olderThan BlockEvent.key (blockEvents net node a.blockNumber) (some a.key) ++
        eventsDown net node (scanLowest node count (some a))
          (a.blockNumber - scanLowest node count (some a)) := by
  obtain ⟨n, -, hn, hmem⟩ := mem_eventsDown.mp ha
  have hblock := (mem_blockEvents hmem (h.length_le n (by omega))).1
  have htip : scanTip node (some a) = a.blockNumber := min_eq_left (by omega)
  have hlow : scanLowest node count (some a) ≤ a.blockNumber := by
    rw [scanLowest, htip]
    exact Nat.sub_le _ _
  have hspan : a.blockNumber + 1 - scanLowest node count (some a) =
      (a.blockNumber - scanLowest node count (some a)) + 1 := by omega
  have hbelow : olderThan BlockEvent.key (eventsDown net node (scanLowest node count (some a))
      (a.blockNumber - scanLowest node count (some a))) (some a.key) =
      eventsDown net node (scanLowest node count (some a))
        (a.blockNumber - scanLowest node count (some a)) := by
    refine List.filter_eq_self.mpr fun ev hev => ?_
    obtain ⟨i, -, hi, hmem'⟩ := mem_eventsDown.mp hev
    have hblock' := (mem_blockEvents hmem' (h.length_le i (by omega))).1
    rw [below_some, BlockEvent.key, BlockEvent.key, Prod.Lex.toLex_lt_toLex]
    left
    omega
  have hfilter : ∀ l l', olderThan BlockEvent.key (l ++ l') (some a.key) =
      olderThan BlockEvent.key l (some a.key) ++ olderThan BlockEvent.key l' (some a.key) :=
    fun l l' => List.filter_append ..
  rw [scanned, htip, Option.map_some, hspan, eventsDown_append, hfilter, hbelow]
  congr 2
  rw [show scanLowest node count (some a) + (a.blockNumber - scanLowest node count (some a)) =
    a.blockNumber by omega, eventsDown_one]

/-- **With one row a page, a block with one event has nothing below it**,
unless it is the best block. -/
def ProbesReach (node : Node) (count : ℕ) : Prop :=
  count = 1 → ∀ b, 1 ≤ b → b < node.bestHead → (node.chain b).events.length = 1 →
    b = 1 ∧ (node.chain 0).events = []

/-- **Then every scan is deep enough.** -/
theorem scanned_deep (hcount : 1 ≤ count) (h : EventsFit node) (hreach : ProbesReach node count)
    (c : Option BlockEvent) (hc : ∀ a ∈ c, a ∈ allEvents net node) :
    count < (scanned net node count c).length ∨
      eventsDown net node 0 (scanLowest node count c) = [] := by
  have htip := scanTip_le node c
  rcases Nat.eq_zero_or_pos (scanLowest node count c) with hzero | hpos
  · rw [hzero]
    exact .inr rfl
  have hdeep : scanTip node c = scanLowest node count c + (count * 2 - 1) := by
    simp only [scanLowest] at hpos ⊢
    omega
  have hnonempty : ∀ n, scanLowest node count c ≤ n → n ≤ scanTip node c →
      (node.chain n).events ≠ [] := fun n hn hn' => h.nonempty n (by omega) (by omega)
  cases c with
  | none =>
    left
    have hlen := le_length_eventsDown net (scanLowest node count none)
      (scanTip node none + 1 - scanLowest node count none)
      fun n hn hn' => hnonempty n hn (by omega)
    rw [scanned, Option.map_none, olderThan_none]
    omega
  | some a =>
    have ha := hc a rfl
    obtain ⟨n, -, hn, hmem⟩ := mem_eventsDown.mp ha
    have hblock := (mem_blockEvents hmem (h.length_le n (by omega))).1
    have hat : scanTip node (some a) = a.blockNumber := min_eq_left (by omega)
    have hlen := le_length_eventsDown net (scanLowest node count (some a))
      (a.blockNumber - scanLowest node count (some a))
      fun n hn hn' => hnonempty n hn (by omega)
    rw [scanned_some h ha, List.length_append]
    rcases Nat.lt_or_ge 1 count with htwo | hone
    · left
      omega
    · -- One row a page: the scan ends in the parent block.
      have hspan : a.blockNumber - scanLowest node count (some a) = 1 := by omega
      rw [hspan, eventsDown_one] at hlen ⊢
      rw [length_blockEvents] at hlen ⊢
      rcases Nat.lt_or_ge 1 (node.chain (scanLowest node count (some a))).events.length
        with hmany | hsingle
      · left
        omega
      · right
        obtain ⟨hlow, hgenesis⟩ := hreach (by omega) (scanLowest node count (some a)) hpos
          (by omega) (by omega)
        rw [hlow, eventsDown_one, ← List.length_eq_zero_iff, length_blockEvents, hgenesis]
        rfl

/-- A block that has events has a first one. -/
theorem exists_blockEvent (net : Network) (n : ℕ) (hn : (node.chain n).events ≠ []) :
    ∃ ev ∈ blockEvents net node n, ev.key = toLex (n, 0) := by
  have hlen : 0 < (node.chain n).events.length := List.length_pos_iff.mpr hn
  have hlt : 0 < (Rpc.mapBlockEvents net n (node.chain n)).length := by
    rwa [Rpc.mapBlockEvents, List.length_mapIdx]
  refine ⟨(Rpc.mapBlockEvents net n (node.chain n))[0], ?_, ?_⟩
  · rw [blockEvents, List.mem_reverse]
    exact List.getElem_mem hlt
  · simp only [Rpc.mapBlockEvents, List.getElem_mapIdx]
    rfl

/-- A descending list does not end above one of its own. -/
theorem not_last_of_lt {l front : List BlockEvent} {ev ev' : BlockEvent}
    (hsorted : l.Pairwise fun a b => b.key < a.key) (hev : ev ∈ l) (hlt : ev.key < ev'.key) :
    front ++ [ev'] ≠ l := by
  rintro rfl
  rcases List.mem_append.mp hev with hmem | hmem
  · exact lt_asymm hlt ((List.pairwise_append.mp hsorted).2.2 ev hmem ev' List.mem_cons_self)
  · exact lt_irrefl _ (List.mem_singleton.mp hmem ▸ hlt)

/-- **Below the first event of a block** there is one of the block before,
or of block 0. -/
theorem exists_older (net : Network) {b : ℕ} (h : EventsFit node) (hb : 1 ≤ b)
    (hbest : b ≤ node.bestHead) (hmore : ¬ (b = 1 ∧ (node.chain 0).events = [])) :
    ∃ o ∈ allEvents net node, o.key < toLex (b, 0) := by
  by_cases hone : b = 1
  · obtain ⟨o, ho, hokey⟩ := exists_blockEvent net 0 fun hnil => hmore ⟨hone, hnil⟩
    refine ⟨o, mem_eventsDown.mpr ⟨0, Nat.zero_le _, by omega, ho⟩, ?_⟩
    rw [hokey, Prod.Lex.toLex_lt_toLex]
    exact .inl hb
  · obtain ⟨o, ho, hokey⟩ :=
      exists_blockEvent net (b - 1) (h.nonempty (b - 1) (by omega) (by omega))
    refine ⟨o, mem_eventsDown.mpr ⟨b - 1, Nat.zero_le _, by omega, ho⟩, ?_⟩
    rw [hokey, Prod.Lex.toLex_lt_toLex]
    left
    simp only
    omega

/-- **The scan of one row** after the first event of a block sees the block
before, and finds its single event. -/
theorem scanned_single {b : ℕ} {e d : BlockEvent} (h : EventsFit node) (hbest : b < node.bestHead)
    (hsingle : (node.chain b).events.length = 1) (he : e ∈ allEvents net node)
    (hekey : e.key = toLex (b + 1, 0)) (hd : d ∈ blockEvents net node b) :
    scanned net node 1 (some e) = [d] := by
  have hblocke : e.blockNumber = b + 1 := congrArg (fun k => (ofLex k).1) hekey
  have hlow : scanLowest node 1 (some e) = b := by
    have htip : scanTip node (some e) = b + 1 := by
      change min e.blockNumber node.bestHead = b + 1
      omega
    rw [scanLowest, htip]
    omega
  have hown : olderThan BlockEvent.key (blockEvents net node (b + 1)) (some e.key) = [] := by
    refine List.filter_eq_nil_iff.mpr fun ev hev => ?_
    have hblock := (mem_blockEvents hev (h.length_le (b + 1) hbest)).1
    rw [below_some, hekey, BlockEvent.key, Prod.Lex.toLex_lt_toLex]
    simp only
    omega
  rw [scanned_some h he, hblocke, hown, hlow, List.nil_append, show b + 1 - b = 1 by omega,
    eventsDown_one]
  obtain ⟨y, hy⟩ := List.length_eq_one_iff.mp (length_blockEvents.trans hsingle)
  rw [hy] at hd ⊢
  rw [List.mem_singleton.mp hd]

/-- **A scan of one row a page falls short** after the first event of a
block whose parent has one event and is not the last. -/
theorem not_enumerates_of_single {b : ℕ} (h : EventsFit node) (hb : 1 ≤ b)
    (hbest : b < node.bestHead) (hsingle : (node.chain b).events.length = 1)
    (hmore : ¬ (b = 1 ∧ (node.chain 0).events = [])) :
    ¬ Enumerates (fun node req => Rpc.latestEvents net node req .none) 1 node
      (allEvents net node) := by
  rintro ⟨w, hw, hs, hcontent, hflags⟩
  have hsorted := allEvents_pairwise net h
  have hall : ∀ n ≤ node.bestHead, ∀ ev ∈ blockEvents net node n, ev ∈ allEvents net node :=
    fun n hn ev hev => mem_eventsDown.mpr ⟨n, Nat.zero_le _, by omega, hev⟩
  obtain ⟨e, he, hekey⟩ := exists_blockEvent net (b + 1) (h.nonempty (b + 1) (by omega) hbest)
  obtain ⟨d, hd, hdkey⟩ := exists_blockEvent net b (h.nonempty b (by omega) (by omega))
  obtain ⟨o, ho, hokey⟩ := exists_older net h hb hbest.le hmore
  rw [← hdkey] at hokey
  have hde : d.key < e.key := by
    rw [hdkey, hekey, Prod.Lex.toLex_lt_toLex]
    exact .inl (Nat.lt_succ_self b)
  have heall : e ∈ allEvents net node := hall (b + 1) hbest e he
  -- The page of the event is the event alone, and more is to come.
  obtain ⟨x, hx, hxe⟩ : ∃ x ∈ w, e ∈ x.2.items := by
    rw [← hcontent, pagesContent, List.mem_flatMap] at heall
    exact heall
  obtain ⟨pre, post, rfl⟩ := List.append_of_mem hx
  obtain ⟨c', n, hread, hrest⟩ := hw.split
  obtain ⟨hpage, rfl⟩ := pageRead_eq_some.mp hread
  obtain ⟨hlen, hnext⟩ := latestEvents_ok hpage
  have hitems : x.2.items = [e] := by
    obtain ⟨y, hy⟩ := List.length_eq_one_iff.mp
      (le_antisymm hlen (List.length_pos_of_mem hxe))
    rw [hy] at hxe ⊢
    rw [List.mem_singleton.mp hxe]
  have hxmore : x.2.pageInfo.hasMore = true := by
    refine (hflags pre x post rfl).mpr ?_
    rw [pagesContent_append, pagesContent_cons, pagesContent_nil, List.append_nil, hitems]
    exact not_last_of_lt hsorted (hall b (by omega) d hd) hde
  have hk : x.2.pageInfo.nextCursor = some (eventCursor.toText e.cursor) := by
    rw [hnext hxmore, hitems]
    rfl
  rcases hrest with ⟨hnone, -⟩ | ⟨k, hsome, hwalk⟩
  · rw [hnone] at hk
    cases hk
  obtain rfl := Option.some.inj (hk.symm.trans hsome)
  -- The next page is the single event below it, and says there is nothing more.
  have hfound := scanned_single h hbest hsingle heall hekey hd
  have heq := latestEvents_eq net (le_refl 1) h (some e) fun a ha => by
    rw [← Option.some.inj ha]
    exact heall
  rw [hfound, Option.map_some] at heq
  have hnode : ∀ y ∈ post, y.1 = node := fun y hy => hs y (by simp [hy])
  have hfirst : ∃ y rest, post = y :: rest ∧ y.2.items = [d] ∧ y.2.pageInfo.hasMore = false := by
    cases hwalk with
    | @last s _ p hread' =>
      obtain rfl : s = node := hnode _ List.mem_cons_self
      obtain ⟨hp, -⟩ := pageRead_eq_some.mp hread'
      obtain rfl := Except.ok.inj (heq.symm.trans hp)
      exact ⟨_, _, rfl, rfl, rfl⟩
    | @next s _ p _ _ hread' _ =>
      obtain rfl : s = node := hnode _ List.mem_cons_self
      obtain ⟨hp, -⟩ := pageRead_eq_some.mp hread'
      obtain rfl := Except.ok.inj (heq.symm.trans hp)
      exact ⟨_, _, rfl, rfl, rfl⟩
  obtain ⟨y, rest, rfl, hyitems, hymore⟩ := hfirst
  have hflag := hflags (pre ++ [x]) y rest (by rw [List.append_assoc, List.singleton_append])
  rw [hymore, pagesContent_append, pagesContent_cons (w := []), pagesContent_nil, List.append_nil,
    hyitems] at hflag
  exact Bool.false_ne_true (hflag.mpr (not_last_of_lt hsorted ho hokey))

/-! ## All events -/

/-- **The walk lists all events**, newest first, and its pages tell
whether there are older ones, exactly when no scan falls short; over
both providers. -/
theorem events_enumerated_iff (net : Network) (db : Db) {node : Node} {count : ℕ}
    (hcount : 1 ≤ count) (h : EventsFit node) :
    ((allEvents net node).Pairwise fun a b => b.key < a.key) ∧
      (Enumerates (fun node req => Rpc.latestEvents net node req .none) count node
        (allEvents net node) ↔ ProbesReach node count) ∧
      (Enumerates (fun node req => (IndexedProvider.mk net db node).latestEvents req .none) count
        node (allEvents net node) ↔ ProbesReach node count) := by
  have hsorted := allEvents_pairwise net h
  have hiff : Enumerates (fun node req => Rpc.latestEvents net node req .none) count node
      (allEvents net node) ↔ ProbesReach node count := by
    constructor
    · rintro henum rfl b hb hbest hsingle
      by_contra hmore
      exact not_enumerates_of_single h hb hbest hsingle hmore henum
    · intro hreach
      refine .of_pages (fun a => eventCursor.toText a.cursor) (fun a => a ∈ allEvents net node)
        hcount hsorted ?_ ?_
      · intro c hc
        exact latestEvents_pageAfter hcount h c hc (scanned_deep hcount h hreach c hc)
      · intro c hc hlt a ha
        exact List.mem_of_mem_filter (List.mem_of_mem_take (List.mem_of_getLast? ha))
  exact ⟨hsorted, hiff, hiff⟩

/-! ## One event a block -/

/-- A node at block 2, with one event in each block. -/
def oneEventNode : Node where
  chain := tickChain
  finalizedHead := 0
  bestHead := 2
  finalized_le := by decide
  best_le := by decide
  typed := fun n _ => tickChain_typed n

theorem oneEventNode_fit : EventsFit oneEventNode where
  nonempty := fun _ _ _ => List.cons_ne_nil _ _
  length_le := by
    intro n _
    have hlen : (oneEventNode.chain n).events.length = 1 := rfl
    rw [hlen]
    decide

/-- Two rows a page list the three events. -/
theorem events_enumerated_two :
    Enumerates (fun node req => Rpc.latestEvents plainNetwork node req .none) 2 oneEventNode
      (allEvents plainNetwork oneEventNode) := by
  have htwo : 1 ≤ 2 := by decide
  have hiff := events_enumerated_iff plainNetwork .empty htwo oneEventNode_fit
  exact hiff.2.1.mpr fun hone => absurd hone (by decide)

/-- **One row a page lists two of the three**: after block 2 the scan
finds block 1's event, and no other. -/
theorem not_events_enumerated_one :
    EventsFit oneEventNode ∧
      ¬ Enumerates (fun node req => Rpc.latestEvents plainNetwork node req .none) 1 oneEventNode
        (allEvents plainNetwork oneEventNode) :=
  ⟨oneEventNode_fit, not_enumerates_of_single oneEventNode_fit le_rfl (by decide) rfl
    fun h => by cases h.2⟩

end AllfeatExplorer
