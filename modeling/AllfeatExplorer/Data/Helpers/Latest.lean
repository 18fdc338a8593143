import AllfeatExplorer.Lib.Stitched
import AllfeatExplorer.Data.Model.Latest

/-!
# The block list as a stitched list

With the database at the blocks up to `H` and the node at its best head,
`IndexedProvider::latest_blocks` answers, by block numbers, as a page
stitched at `H`: the pending numbers are those of the node's window that
match, the stored ones those that the `WHERE` admits
(`latestBlocks_refines`).
-/

namespace AllfeatExplorer

open Projections Queries

variable {p : IndexedProvider} {H count : ℕ} {filters : BlockFilters} {c : Option ℕ}

/-- **The database holds exactly the blocks up to `H`.** -/
structure Db.BlocksUpTo (db : Db) (chain : Chain) (H : ℕ) : Prop where
  head_le : H ≤ i64Max
  stored : ∀ n ≤ H, ∃ authorId,
    db.blocks.find (asI64 n) = some (Sink.blockRow (Blocks.map (chain n) n) authorId)
  only : ∀ k, db.blocks.contains k = true → ∃ n ≤ H, asI64 n = k

/-- **Whether a canonical block satisfies the filters.** -/
def IndexedProvider.wanted (p : IndexedProvider) (filters : BlockFilters) (n : ℕ) : Bool :=
  (filters.finalized.all fun finalized => decide (n ≤ p.node.finalizedHead) = finalized) &&
  (filters.minExtrinsics.all fun min => decide (min ≤ (p.node.chain n).extrinsics.length))

/-- Whether the `WHERE` clause admits its row. -/
def IndexedProvider.admitted (p : IndexedProvider) (filters : BlockFilters) (n : ℕ) : Bool :=
  filters.finalized ≠ some false &&
  (filters.minExtrinsics.all fun min =>
    decide (asI32 min ≤ asI32 (p.node.chain n).extrinsics.length))

/-- The numbers up to `n` that satisfy `f`, newest first. -/
def newest (n : ℕ) (f : ℕ → Bool) : List ℕ := (List.range (n + 1)).reverse.filter f

/-- **The pending numbers**: those above the seam that match. No page has
one where only final blocks are asked for. -/
def IndexedProvider.pendingNumbers (p : IndexedProvider) (filters : BlockFilters) (H : ℕ) :
    List ℕ :=
  if filters.finalized = some true then []
  else newest p.node.bestHead fun n => decide (H < n) && p.wanted filters n

/-- **The stored numbers** that the `WHERE` admits. -/
def IndexedProvider.storedNumbers (p : IndexedProvider) (filters : BlockFilters) (H : ℕ) :
    List ℕ :=
  newest H (p.admitted filters)

/-- How many rows the database is asked for, where `need` are needed. -/
def probeRows (need : ℕ) : ℕ := wrapU32 (need + 1)

/-! ## Numbers -/

theorem newest_pairwise {n : ℕ} {f : ℕ → Bool} : (newest n f).Pairwise (· > ·) :=
  (List.pairwise_reverse.mpr List.pairwise_lt_range).filter _

theorem mem_newest {n x : ℕ} {f : ℕ → Bool} : x ∈ newest n f ↔ x ≤ n ∧ f x = true := by
  rw [newest, List.mem_filter, List.mem_reverse, List.mem_range, Nat.lt_succ_iff]

theorem mem_pendingNumbers {x : ℕ} : x ∈ p.pendingNumbers filters H ↔
    filters.finalized ≠ some true ∧ x ≤ p.node.bestHead ∧ H < x ∧ p.wanted filters x = true := by
  unfold IndexedProvider.pendingNumbers
  split
  · rename_i hskip
    exact iff_of_false List.not_mem_nil fun h => h.1 hskip
  · rename_i hskip
    rw [mem_newest, Bool.and_eq_true, decide_eq_true_eq]
    exact ⟨fun h => ⟨hskip, h⟩, fun h => h.2⟩

/-- **The two sides of the page.** -/
theorem zones (hcount : 1 ≤ count) (hle : count ≤ u32Max) :
    Zones count probeRows H (p.pendingNumbers filters H) (p.storedNumbers filters H) where
  pos := hcount
  upper_sorted := by
    unfold IndexedProvider.pendingNumbers
    split
    · exact List.Pairwise.nil
    · exact newest_pairwise
  lower_sorted := newest_pairwise
  upper_gt := fun x hx => (mem_pendingNumbers.mp hx).2.2.1
  lower_le := fun x hx => (mem_newest.mp hx).1
  probe_lt := by
    intro m _ hm
    simp only [probeRows, wrapU32, u32Max] at *
    omega
  probe_page := by
    simp only [probeRows, wrapU32, u32Max] at *
    omega

/-- Only the probe of the largest page wraps. -/
theorem probeRows_eq_zero_iff (hle : count ≤ u32Max) : probeRows count = 0 ↔ count = u32Max := by
  simp only [probeRows, wrapU32, u32Max] at *
  omega

/-- What the node's mapper shows is what the filters look at. -/
theorem blockMatchesFilters_mapBlock {n : ℕ} :
    blockMatchesFilters (Rpc.mapBlock p.net p.node.finalizedHead n (p.node.chain n)) filters =
      p.wanted filters n := by
  unfold blockMatchesFilters IndexedProvider.wanted
  rcases filters.minExtrinsics with - | min
  · rfl
  · refine congrArg₂ and rfl ?_
    change (!decide ((p.node.chain n).extrinsics.length < min)) = decide (min ≤ _)
    rw [← decide_not]
    exact decide_eq_decide.mpr Nat.not_lt

/-! ## The pending slice -/

/-- A cursor that the walk meets. -/
def IndexedProvider.CursorOk (p : IndexedProvider) (k : ℕ) : Prop := 0 < k ∧ k ≤ p.node.bestHead

theorem trimProbe_fst {α : Type} (n : ℕ) (rows : List α) : (trimProbe n rows).1 = rows.take n := by
  unfold trimProbe
  split
  · rfl
  · rename_i hle
    exact (List.take_of_length_le (Nat.not_lt.mp hle)).symm

theorem takeWhile_take {α : Type} (f : α → Bool) (n : ℕ) (l : List α) :
    (l.take n).takeWhile f = (l.takeWhile f).take n := by
  induction l generalizing n with
  | nil => rw [List.take_nil, List.takeWhile_nil, List.take_nil]
  | cons a l ih =>
    rcases n with - | n
    · rfl
    · rw [List.take_succ_cons]
      by_cases ha : f a = true
      · rw [List.takeWhile_cons_of_pos ha, List.takeWhile_cons_of_pos ha, List.take_succ_cons, ih]
      · rw [List.takeWhile_cons_of_neg ha, List.takeWhile_cons_of_neg ha, List.take_nil]

/-- What comes first in a descending list is what is above. -/
theorem takeWhile_eq_filter {l : List ℕ} (h : l.Pairwise (· > ·)) :
    (l.takeWhile fun x => decide (H < x)) = l.filter fun x => decide (H < x) := by
  induction l with
  | nil => rfl
  | cons a l ih =>
    obtain ⟨ha, hl⟩ := List.pairwise_cons.mp h
    by_cases hgt : H < a
    · rw [List.takeWhile_cons_of_pos (by exact decide_eq_true hgt),
        List.filter_cons_of_pos (by exact decide_eq_true hgt), ih hl]
    · have hnil : l.filter (fun x => decide (H < x)) = [] := by
        refine List.filter_eq_nil_iff.mpr fun x hx hx' => ?_
        have hxa := ha x hx
        have hxH := of_decide_eq_true hx'
        omega
      rw [List.takeWhile_cons_of_neg (by simpa using hgt),
        List.filter_cons_of_neg (by simpa using hgt), hnil]

/-- Nothing is pending where the page starts at or below the seam. -/
theorem pendingAt_eq_nil_of_le (h : c.elim p.node.bestHead (· - 1) ≤ H) :
    pendingAt count p.node.bestHead (p.pendingNumbers filters H) c = [] := by
  have hnil : (p.pendingNumbers filters H).filter
      (fun x => decide (x ≤ c.elim p.node.bestHead (· - 1))) = [] := by
    refine List.filter_eq_nil_iff.mpr fun x hx hle => ?_
    have hgt := (mem_pendingNumbers.mp hx).2.2.1
    have hxle := of_decide_eq_true hle
    omega
  rw [pendingAt, hnil, List.filter_nil, List.take_nil]

/-- **The node's list** is its window, filtered. -/
theorem Rpc.latestBlocks_items (net : Network) (node : Node) (filters : BlockFilters)
    (hcount : 1 ≤ count) (hle : count ≤ u32Max) (hc : ∀ k ∈ c, k ≤ node.bestHead) :
    ∃ page, Rpc.latestBlocks net node ⟨count, c.map blockCursor.toText⟩ filters = .ok page ∧
      page.items = ((((List.range' (c.elim node.bestHead (· - 1) - count)
          (c.elim node.bestHead (· - 1) + 1 - (c.elim node.bestHead (· - 1) - count))).reverse.map
        fun number => Rpc.mapBlock net node.finalizedHead number (node.chain number)).filter
        fun block => blockMatchesFilters block filters).take count) := by
  have hcursor : parseCursor blockCursor ⟨count, c.map blockCursor.toText⟩ = .ok c :=
    parseCursor_toText blockCursor_roundTrips fun k hk => le_trans (hc k hk) node.best_le
  have hspan : satAddU64 count 1 - 1 = count := by
    simp only [satAddU64, u64Max, u32Max] at *
    omega
  rw [Rpc.latestBlocks, if_neg (by change ¬ count = 0; omega)]
  simp only [hcursor, ok_bind, hspan]
  refine ⟨_, rfl, ?_⟩
  simp only [trimProbe_fst]
  rcases c with - | k
  · rfl
  · have hk := hc k rfl
    have hmin : min (k - 1) node.bestHead = k - 1 := by omega
    simp only [hmin, Option.elim_some]

/-- **The node's window**, filtered and cut off at the seam, is what is
pending. -/
theorem pendingBlocks_eq (hcount : 1 ≤ count) (hle : count ≤ u32Max) (hhead : p.indexedHead = H)
    (hc : ∀ k ∈ c, p.CursorOk k) (habove : H < p.pendingUpper c)
    (hskip : filters.finalized ≠ some true) :
    ∃ blocks, p.pendingBlocks count c filters = .ok blocks ∧ blocks.map Block.number =
      pendingAt count p.node.bestHead (p.pendingNumbers filters H) c := by
  obtain ⟨page, hpage, hitems⟩ :=
    Rpc.latestBlocks_items p.net p.node filters hcount hle fun k hk => (hc k hk).2
  have hstart : c.elim p.node.bestHead (· - 1) ≤ p.node.bestHead := by
    rcases c with - | k
    · exact le_rfl
    · have hk := (hc k rfl).2
      change k - 1 ≤ _
      omega
  rw [IndexedProvider.pendingBlocks, hhead, if_pos ⟨habove, hskip⟩, hpage, ok_bind]
  refine ⟨_, rfl, ?_⟩
  rw [hitems, pendingAt]
  generalize c.elim p.node.bestHead (· - 1) = start at hstart ⊢
  -- By numbers, the window is a range, filtered.
  have hwindow : ((((List.range' (start - count) (start + 1 - (start - count))).reverse.map
        fun number => Rpc.mapBlock p.net p.node.finalizedHead number (p.node.chain number)).filter
        fun block => blockMatchesFilters block filters).take count).map Block.number =
      ((List.range' (start - count) (start + 1 - (start - count))).reverse.filter
        (p.wanted filters)).take count := by
    rw [List.filter_map, List.map_take, List.map_map]
    have hfilter : ∀ l : List ℕ, (l.filter ((fun block => blockMatchesFilters block filters) ∘
        fun number => Rpc.mapBlock p.net p.node.finalizedHead number (p.node.chain number))) =
        l.filter (p.wanted filters) :=
      fun l => List.filter_congr fun n _ => blockMatchesFilters_mapBlock
    rw [hfilter]
    exact congrArg _ (List.map_id _)
  have hsorted : ((List.range' (start - count) (start + 1 - (start - count))).reverse.filter
      (p.wanted filters)).Pairwise (· > ·) :=
    (List.pairwise_reverse.mpr List.pairwise_lt_range').filter _
  rw [List.map_take]
  have hmap : ∀ l : List Block,
      (l.takeWhile fun block => decide (H < block.number)).map Block.number =
        (l.map Block.number).takeWhile fun x => decide (H < x) := by
    intro l
    rw [List.takeWhile_map]
    rfl
  rw [hmap, hwindow, takeWhile_take, takeWhile_eq_filter hsorted, List.take_take, Nat.min_self]
  refine congrArg _ (eq_of_mem_iff (hsorted.filter _) ?_ fun x => ?_)
  · exact ((zones hcount hle).upper_sorted.filter _).filter _
  · simp only [List.mem_filter, List.mem_reverse, List.mem_range'_1, decide_eq_true_eq,
      mem_pendingNumbers]
    constructor
    · rintro ⟨⟨⟨hlow, hhigh⟩, hwanted⟩, hgt⟩
      exact ⟨⟨⟨hskip, by omega, hgt, hwanted⟩, by omega⟩, by omega⟩
    · rintro ⟨⟨⟨-, -, hgt, hwanted⟩, hxle⟩, hwin⟩
      exact ⟨⟨⟨by omega, by omega⟩, hwanted⟩, hgt⟩

/-! ## The stored rows -/

/-- A row is that of a block up to `H`. -/
theorem Db.BlocksUpTo.mem_rows {db : Db} {chain : Chain} (h : db.BlocksUpTo chain H)
    {r : ℤ × StoredBlock} (hr : r ∈ db.blocks.rows) :
    ∃ n ≤ H, r.1 = (n : ℤ) ∧ r.2.extrinsicCount = asI32 (chain n).extrinsics.length := by
  have hfind : db.blocks.find r.1 = some r.2 := Table.find_eq_some_iff.mpr hr
  obtain ⟨n, hn, hkey⟩ := h.only r.1 (Table.contains_eq_true_iff.mpr ⟨_, hfind⟩)
  obtain ⟨authorId, hrow⟩ := h.stored n hn
  rw [hkey, hfind] at hrow
  refine ⟨n, hn, ?_, ?_⟩
  · rw [← hkey, asI64_of_le (le_trans hn h.head_le)]
  · rw [Option.some.inj hrow]
    rfl

/-- And each has one. -/
theorem Db.BlocksUpTo.exists_row {db : Db} {chain : Chain} (h : db.BlocksUpTo chain H) {n : ℕ}
    (hn : n ≤ H) : ∃ r ∈ db.blocks.rows, r.1 = (n : ℤ) := by
  obtain ⟨authorId, hrow⟩ := h.stored n hn
  rw [asI64_of_le (le_trans hn h.head_le)] at hrow
  exact ⟨_, Table.find_eq_some_iff.mp hrow, rfl⟩

/-- The greatest number stored. -/
theorem Db.BlocksUpTo.indexedHead_eq (h : p.db.BlocksUpTo p.node.chain H) : p.indexedHead = H := by
  have hmax : p.db.blocks.keys.max? = some (H : ℤ) := by
    refine List.max?_eq_some_iff.mpr ⟨?_, fun k hk => ?_⟩
    · obtain ⟨r, hr, hkey⟩ := h.exists_row le_rfl
      exact hkey ▸ List.mem_map_of_mem hr
    · obtain ⟨r, hr, rfl⟩ := List.mem_map.mp hk
      obtain ⟨n, hn, hkey, -⟩ := h.mem_rows hr
      rw [hkey]
      omega
  have hhead := h.head_le
  rw [IndexedProvider.indexedHead, Queries.indexedHead, hmax, Option.map_some, Option.getD_some,
    asU64]
  simp only [i64Max] at hhead
  omega

/-- **The rows below a bound, by number.** -/
theorem Db.BlocksUpTo.numbers (h : p.db.BlocksUpTo p.node.chain H) (filters : BlockFilters)
    {upper : ℕ} (hle : upper ≤ H) :
    ((p.db.blocks.rows.filter fun r => decide (r.1 ≤ asI64 upper) &&
        (filters.minExtrinsics.all fun min => decide (asI32 min ≤ r.2.extrinsicCount))).reverse.map
        fun r => asU64 r.1) =
      newest upper fun n => filters.minExtrinsics.all fun min =>
        decide (asI32 min ≤ asI32 (p.node.chain n).extrinsics.length) := by
  have hhead := h.head_le
  have hnumber : ∀ n ≤ H, asU64 (n : ℤ) = n := by
    intro n hn
    simp only [i64Max] at hhead
    rw [asU64]
    omega
  refine eq_of_mem_iff ?_ newest_pairwise fun x => ?_
  · refine List.pairwise_map.mpr (List.pairwise_reverse.mpr ?_)
    refine (p.db.blocks.sorted.filter _).imp_of_mem fun {a b} ha hb hab => ?_
    obtain ⟨n, hn, hkey, -⟩ := h.mem_rows (List.mem_of_mem_filter ha)
    obtain ⟨n', hn', hkey', -⟩ := h.mem_rows (List.mem_of_mem_filter hb)
    rw [hkey, hkey'] at hab ⊢
    rw [hnumber n hn, hnumber n' hn']
    omega
  · rw [mem_newest, List.mem_map, asI64_of_le (le_trans hle hhead)]
    simp only [List.mem_reverse, List.mem_filter, Bool.and_eq_true, decide_eq_true_eq]
    constructor
    · rintro ⟨r, ⟨hr, hbound, hmin⟩, rfl⟩
      obtain ⟨n, hn, hkey, hcount⟩ := h.mem_rows hr
      rw [hcount] at hmin
      rw [hkey] at hbound ⊢
      rw [hnumber n hn]
      exact ⟨by omega, hmin⟩
    · rintro ⟨hx, hmin⟩
      obtain ⟨r, hr, hkey⟩ := h.exists_row (le_trans hx hle)
      obtain ⟨n, hn, hkey', hcount⟩ := h.mem_rows hr
      have hnx : n = x := by omega
      refine ⟨r, ⟨hr, by omega, ?_⟩, ?_⟩
      · rw [hcount, hnx]
        exact hmin
      · rw [hkey', hnumber n hn, hnx]

/-- The stored numbers below a cursor. -/
theorem storedNumbers_below (hc : ∀ k ∈ c, 0 < k) (hH : H ≤ u64Max) :
    (p.storedNumbers filters H).filter (below c) =
      newest (min H (c.elim u64Max fun block => block - 1)) (p.admitted filters) := by
  refine eq_of_mem_iff (newest_pairwise.filter _) newest_pairwise fun x => ?_
  rw [List.mem_filter, IndexedProvider.storedNumbers, mem_newest, mem_newest]
  rcases c with - | k
  · simp only [below_none, Option.elim_none, and_true]
    rw [Nat.min_eq_left hH]
  · have hk := hc k rfl
    rw [below_some, Option.elim_some]
    constructor
    · rintro ⟨⟨hx, hadm⟩, hlt⟩
      exact ⟨by omega, hadm⟩
    · rintro ⟨hx, hadm⟩
      exact ⟨⟨by omega, hadm⟩, by omega⟩

/-- **The database's page** has the numbers asked for, and no next one
where it is short. -/
theorem dbPage_eq (h : p.db.BlocksUpTo p.node.chain H) (hc : ∀ k ∈ c, 0 < k) {probe : ℕ}
    (hprobe : probe ≤ u32Max) {page : Page Block}
    (hpage : page = listBlocksPageBounded p.net p.db probe none
      (some (min H (c.elim u64Max fun block => block - 1))) filters) :
    page.items.map Block.number = ((p.storedNumbers filters H).filter (below c)).take probe ∧
      (probe = 0 ∨ page.items.length < probe →
        page.pageInfo.nextCursor = none ∧ page.pageInfo.hasMore = false) := by
  have hH : H ≤ u64Max := by
    have hhead := h.head_le
    simp only [i64Max] at hhead
    simp only [u64Max]
    omega
  rw [storedNumbers_below hc hH, hpage]
  generalize hupper : min H (c.elim u64Max fun block => block - 1) = upper
  have hle : upper ≤ H := hupper ▸ Nat.min_le_left _ _
  unfold listBlocksPageBounded
  by_cases hzero : probe = 0
  · rw [if_pos hzero, hzero, List.take_zero]
    exact ⟨rfl, fun _ => ⟨rfl, rfl⟩⟩
  rw [if_neg hzero]
  by_cases hpending : filters.finalized = some false
  · have hnil : newest upper (p.admitted filters) = [] := by
      refine List.filter_eq_nil_iff.mpr fun x _ hx => ?_
      rw [IndexedProvider.admitted, hpending] at hx
      simp at hx
    rw [if_pos hpending, hnil, List.take_nil]
    exact ⟨rfl, fun _ => ⟨rfl, rfl⟩⟩
  rw [if_neg hpending]
  have hnumbers := h.numbers filters hle
  have hadmitted : p.admitted filters = fun n => filters.minExtrinsics.all fun min =>
      decide (asI32 min ≤ asI32 (p.node.chain n).extrinsics.length) := by
    funext n
    rw [IndexedProvider.admitted, decide_eq_true hpending, Bool.true_and]
  rw [← hadmitted] at hnumbers
  simp only [Option.all_some]
  generalize (p.db.blocks.rows.filter fun r => decide (r.1 ≤ asI64 upper) &&
    (filters.minExtrinsics.all fun min => decide (asI32 min ≤ r.2.extrinsicCount))).reverse = rows
    at hnumbers ⊢
  have hsat : probe ≤ satAddU32 probe 1 := by
    simp only [satAddU32, u32Max] at *
    omega
  have hitems : (trimProbe probe (rows.take (satAddU32 probe 1))).1 = rows.take probe := by
    rw [trimProbe_fst, List.take_take, Nat.min_eq_left hsat]
  refine ⟨?_, fun hshort => ?_⟩
  · simp only [hitems, List.map_map]
    rw [← hnumbers, ← List.map_take]
    rfl
  · simp only [hitems, List.length_map, List.length_take] at hshort
    have hlast : trimProbe probe (rows.take (satAddU32 probe 1)) =
        (rows.take (satAddU32 probe 1), false) := by
      refine if_neg ?_
      rw [List.length_take]
      omega
    simp only [hlast]
    exact ⟨rfl, trivial⟩

/-! ## The page -/

/-- **The stitched page**, by numbers. -/
def IndexedProvider.latestSpec (p : IndexedProvider) (filters : BlockFilters) (H count : ℕ)
    (c : Option ℕ) : List ℕ × Option ℕ :=
  stitchedPage count probeRows p.node.bestHead (p.pendingNumbers filters H)
    (p.storedNumbers filters H) c

/-- The pending slice of a page, as it is read. -/
theorem exists_pending (filters : BlockFilters) (hcount : 1 ≤ count) (hle : count ≤ u32Max)
    (hhead : p.indexedHead = H) (hc : ∀ k ∈ c, p.CursorOk k) :
    ∃ pending, p.pendingBlocks count c filters = .ok pending ∧ pending.map Block.number =
      pendingAt count p.node.bestHead (p.pendingNumbers filters H) c := by
  by_cases hskip : filters.finalized = some true
  · refine ⟨[], if_neg fun h => h.2 hskip, ?_⟩
    rw [IndexedProvider.pendingNumbers, if_pos hskip, pendingAt, List.filter_nil, List.filter_nil,
      List.take_nil, List.map_nil]
  · by_cases habove : H < p.pendingUpper c
    · exact pendingBlocks_eq hcount hle hhead hc habove hskip
    · refine ⟨[], if_neg fun h => habove (hhead ▸ h.1), ?_⟩
      rw [pendingAt_eq_nil_of_le (Nat.not_lt.mp habove), List.map_nil]

theorem isSome_getLast? {α : Type} {l : List α} (h : 0 < l.length) : l.getLast?.isSome = true :=
  List.getLast?_isSome.mpr (List.ne_nil_of_length_pos h)

/-- **`IndexedProvider::latest_blocks`** answers as the stitched page. -/
theorem latestBlocks_page (filters : BlockFilters) (h : p.db.BlocksUpTo p.node.chain H)
    (hpos : 1 ≤ H) (hcount : 1 ≤ count) (hle : count ≤ u32Max) (hc : ∀ k ∈ c, p.CursorOk k) :
    ∃ page, p.latestBlocks ⟨count, c.map blockCursor.toText⟩ filters = .ok page ∧
      page.items.map Block.number = (p.latestSpec filters H count c).1 ∧
      page.pageInfo.nextCursor = ((p.latestSpec filters H count c).2).map blockCursor.toText ∧
      page.pageInfo.hasMore = (p.latestSpec filters H count c).2.isSome := by
  have hhead := h.indexedHead_eq
  have hcursor : parseCursor blockCursor ⟨count, c.map blockCursor.toText⟩ = .ok c :=
    parseCursor_toText blockCursor_roundTrips fun k hk => le_trans (hc k hk).2 p.node.best_le
  obtain ⟨pending, hpending, hnumbers⟩ :=
    exists_pending filters hcount hle hhead hc
  have hlen : (pendingAt count p.node.bestHead (p.pendingNumbers filters H) c).length =
      pending.length := by rw [← hnumbers, List.length_map]
  have hlast : ∀ l : List Block, (l.getLast?.map fun block => blockCursor.toText block.number) =
      ((l.map Block.number).getLast?).map blockCursor.toText := by
    intro l
    rw [List.getLast?_map, Option.map_map]
    rfl
  rw [IndexedProvider.latestBlocks, if_neg (by change ¬ count = 0; omega)]
  simp only [hcursor, ok_bind, hhead, hpending]
  have hroom : (pendingAt count p.node.bestHead (p.pendingNumbers filters H) c).length ≤ count :=
    length_pendingAt_le
  rcases Nat.eq_or_lt_of_le hroom with hfull | hlt
  · -- The page is filled from above.
    have hspec : p.latestSpec filters H count c = (pending.map Block.number,
        (pending.map Block.number).getLast?) := by
      rw [IndexedProvider.latestSpec, stitchedPage_of_full hfull, hnumbers]
    have habove : H < p.pendingUpper c := by
      by_contra habove
      rw [pendingAt_eq_nil_of_le (Nat.not_lt.mp habove), List.length_nil] at hfull
      omega
    rw [hspec, if_neg (by omega), if_pos ⟨hpos, habove⟩]
    refine ⟨_, rfl, rfl, hlast pending, ?_⟩
    exact (isSome_getLast? (by rw [List.length_map]; omega)).symm
  · generalize hdb : listBlocksPageBounded p.net p.db (wrapU32 (count - pending.length + 1)) none
      (some (min H (c.elim u64Max fun block => block - 1))) filters = page
    obtain ⟨hitems, hshort⟩ := dbPage_eq h (fun k hk => (hc k hk).1) (by
      simp only [wrapU32, u32Max]
      omega) hdb.symm
    have hrows : ((p.storedNumbers filters H).filter (below c)).take
        (probeRows (count - (pending.map Block.number).length)) =
        page.items.map Block.number := by
      rw [List.length_map, hitems]
      rfl
    have hneed : count - (pending.map Block.number).length = count - pending.length := by
      rw [List.length_map]
    rw [if_pos (by omega)]
    by_cases hmore : count - pending.length < page.items.length
    · have hspec : p.latestSpec filters H count c =
          (pending.map Block.number ++ (page.items.map Block.number).take (count - pending.length),
            ((page.items.map Block.number).take (count - pending.length)).getLast?) := by
        rw [IndexedProvider.latestSpec, stitchedPage_of_more hnumbers.symm hrows
          (by rw [List.length_map]; omega) (by rw [List.length_map, List.length_map]; exact hmore),
          hneed]
      rw [hspec, if_pos hmore]
      refine ⟨_, rfl, ?_, ?_, ?_⟩
      · rw [List.map_append, List.map_take]
      · rw [hlast, List.map_take]
      · exact (isSome_getLast? (by rw [List.length_take, List.length_map]; omega)).symm
    · have hspec : p.latestSpec filters H count c =
          (pending.map Block.number ++ page.items.map Block.number, none) := by
        rw [IndexedProvider.latestSpec, stitchedPage_of_last hnumbers.symm hrows
          (by rw [List.length_map]; omega)
          (by rw [List.length_map, List.length_map]; exact Nat.not_lt.mp hmore)]
      obtain ⟨hnext, hmore'⟩ := hshort (by
        simp only [wrapU32, u32Max] at *
        omega)
      rw [hspec, if_neg hmore]
      refine ⟨_, rfl, ?_, hnext, hmore'⟩
      rw [List.map_append]

end AllfeatExplorer
