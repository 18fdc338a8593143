import AllfeatExplorer.Data.Latest
import AllfeatExplorer.Data.Pagination

/-!
# A page lies below its cursor

The lists of the database take a cursor of unsigned numbers to a bound on
signed columns. The blocks are bounded by the number before the cursor,
which a cursor at zero does not have, and are probed for one row more than
the page needs, counted in `u32`. The extrinsics and the versions are
compared with the fields of the cursor as they are cast, and a cast wraps
past the greatest value of its column.

So a page is the newest rows strictly below its cursor except where such a
bound is crossed, and these are named list by list.
-/

namespace AllfeatExplorer

open Projections Queries

namespace Below

/-! ## Two bounds on one list -/

/-- A list cut off at a bound: the part within it starts with the same
rows only where nothing lies beyond. -/
theorem take_filter_eq_take_iff {α : Type*} {l : List α} {within : α → Bool} {n : ℕ}
    (hfirst : ∀ a b, l.head? = some a → b ∈ l → within a = true → within b = true) :
    (l.filter within).take n = l.take n ↔ n = 0 ∨ ∀ a ∈ l, within a = true := by
  constructor
  · intro heq
    rcases Nat.eq_zero_or_pos n with hn | hn
    · exact .inl hn
    rcases hl : l with - | ⟨a, rest⟩
    · exact .inr fun a ha => absurd ha List.not_mem_nil
    refine .inr fun b hb => ?_
    have hhead : a ∈ (l.filter within).take n := by
      rw [heq, hl]
      obtain ⟨m, rfl⟩ : ∃ m, n = m + 1 := ⟨n - 1, by omega⟩
      exact List.mem_cons_self
    have hwithin := (List.mem_filter.mp (List.mem_of_mem_take hhead)).2
    exact hfirst a b (by rw [hl, List.head?_cons]) (hl ▸ hb) hwithin
  · rintro (rfl | hall)
    · rw [List.take_zero, List.take_zero]
    · rw [List.filter_eq_self.mpr hall]

/-- **Two bounds on rows in descending order** select the same first rows
exactly where no row lies between them. -/
theorem take_below_eq_iff {α κ : Type*} [LinearOrder κ] {key : α → κ} {l : List α} {lo hi : κ}
    {n : ℕ} (hsorted : l.Pairwise fun a b => key b ≤ key a) (hle : lo ≤ hi) :
    (l.filter fun a => key a < lo).take n = (l.filter fun a => key a < hi).take n ↔
      n = 0 ∨ ∀ a ∈ l, key a < hi → key a < lo := by
  have hnested : (l.filter fun a => key a < lo) =
      (l.filter fun a => key a < hi).filter fun a => key a < lo := by
    rw [List.filter_filter]
    refine List.filter_congr fun a _ => ?_
    rw [← Bool.decide_and]
    exact decide_eq_decide.mpr ⟨fun h => ⟨h, lt_of_lt_of_le h hle⟩, And.left⟩
  have hkept := hsorted.filter (p := fun a => key a < hi)
  rw [hnested, take_filter_eq_take_iff]
  · simp only [List.mem_filter, decide_eq_true_eq, and_imp]
  · intro a b ha hb hlt
    rw [decide_eq_true_eq] at hlt ⊢
    rcases hkeep : l.filter (fun a => key a < hi) with - | ⟨a', rest⟩
    · rw [hkeep] at hb
      exact absurd hb List.not_mem_nil
    · rw [hkeep] at ha hb hkept
      obtain rfl : a' = a := Option.some.inj ha
      rcases List.mem_cons.mp hb with rfl | hrest
      · exact hlt
      · exact lt_of_le_of_lt (List.rel_of_pairwise_cons hkept hrest) hlt

/-! ## Blocks -/

variable {p : IndexedProvider} {filters : BlockFilters} {count need c : ℕ} {s : String}

/-- The rows the filters admit: none where only blocks that are not final
are asked for. -/
def blockAdmitted (filters : BlockFilters) (r : ℤ × StoredBlock) : Bool :=
  filters.finalized ≠ some false &&
    filters.minExtrinsics.all fun min => decide (asI32 min ≤ r.2.extrinsicCount)

/-- The stored blocks the filters admit, newest first. -/
def blocksDown (db : Db) (filters : BlockFilters) : List (ℤ × StoredBlock) :=
  (db.blocks.rows.filter (blockAdmitted filters)).reverse

/-- **The newest stored blocks strictly below a cursor.** -/
def newestBlocks (db : Db) (filters : BlockFilters) (c count : ℕ) : List (ℤ × StoredBlock) :=
  ((blocksDown db filters).filter fun r => r.1 < (c : ℤ)).take count

/-- **The stored blocks on a page** that needs `need` of them, as the list
selects them. -/
def pageBlocks (p : IndexedProvider) (filters : BlockFilters) (c need : ℕ) :
    List (ℤ × StoredBlock) :=
  if wrapU32 (need + 1) = 0 then []
  else ((blocksDown p.db filters).filter fun r => r.1 ≤ asI64 (min p.indexedHead (c - 1))).take need

/-- A stored block as it is shown. -/
def blockShown (p : IndexedProvider) (r : ℤ × StoredBlock) : Block :=
  rowToBlock p.net r.1 r.2 (authorBytes p.db r.2.authorId)

/-- A number read is in range. -/
theorem readDec_le {max n : ℕ} {cs : List Char} (h : Decimal.readDec max cs = some n) :
    n ≤ max := by
  unfold Decimal.readDec at h
  simp only at h
  split at h
  · exact absurd h (by simp)
  · split at h
    · rename_i hle
      exact Option.some.inj h ▸ hle
    · exact absurd h (by simp)

theorem le_of_blockCursor (h : blockCursor.fromStr s = .ok c) : c ≤ u64Max := by
  simp only [blockCursor] at h
  split at h
  · rename_i block hread
    exact Except.ok.inj h ▸ readDec_le hread
  · exact absurd h (by simp)

theorem blocksDown_sorted (db : Db) (filters : BlockFilters) :
    (blocksDown db filters).Pairwise fun a b => b.1 ≤ a.1 :=
  List.pairwise_reverse.mpr ((db.blocks.sorted.filter _).imp le_of_lt)

/-- The page of the database that `latest_blocks` takes its rows from. -/
theorem take_listBlocksPageBounded (p : IndexedProvider) (filters : BlockFilters) (c : ℕ)
    (hneed : need ≤ u32Max) :
    (listBlocksPageBounded p.net p.db (wrapU32 (need + 1)) none
        (some (min p.indexedHead (c - 1))) filters).items.take need =
      (pageBlocks p filters c need).map (blockShown p) := by
  unfold listBlocksPageBounded pageBlocks
  by_cases hzero : wrapU32 (need + 1) = 0
  · rw [if_pos hzero, if_pos hzero]
    exact List.take_nil
  rw [if_neg hzero, if_neg hzero]
  by_cases hpending : filters.finalized = some false
  · have hnil : blocksDown p.db filters = [] := by
      refine List.reverse_eq_nil_iff.mpr (List.filter_eq_nil_iff.mpr fun r _ hr => ?_)
      rw [blockAdmitted, hpending] at hr
      simp at hr
    rw [if_pos hpending, hnil, List.filter_nil, List.take_nil]
    exact List.take_nil
  rw [if_neg hpending]
  have hrows : (p.db.blocks.rows.filter fun r =>
      decide (r.1 ≤ asI64 (min p.indexedHead (c - 1))) &&
        (filters.minExtrinsics.all fun min => decide (asI32 min ≤ r.2.extrinsicCount))).reverse =
      (blocksDown p.db filters).filter fun r => r.1 ≤ asI64 (min p.indexedHead (c - 1)) := by
    rw [blocksDown, List.filter_reverse, List.filter_filter]
    refine congrArg List.reverse (List.filter_congr fun r _ => ?_)
    rw [blockAdmitted, decide_eq_true hpending, Bool.true_and]
  simp only [Option.all_some, hrows, trimProbe_fst]
  rw [← List.map_take, List.take_take, List.take_take]
  have hprobe : min (min need (wrapU32 (need + 1))) (satAddU32 (wrapU32 (need + 1)) 1) = need := by
    simp only [wrapU32, satAddU32, u32Max] at *
    omega
  rw [hprobe]
  rfl

/-- **`latest_blocks` after its pending slice**: rows of the database where
it leaves room. -/
theorem latestBlocks_after {pending : List Block} (hs : blockCursor.fromStr s = .ok c)
    (hcount : count ≤ u32Max) (hpending : p.pendingBlocks count (some c) filters = .ok pending)
    (hlen : pending.length ≤ count) :
    ∃ page, p.latestBlocks ⟨count, some s⟩ filters = .ok page ∧ page.items =
      pending ++ (pageBlocks p filters c (count - pending.length)).map (blockShown p) := by
  have hcursor : parseCursor blockCursor ⟨count, some s⟩ = .ok (some c) := by
    simp only [parseCursor, hs]
  have hfull : pageBlocks p filters c 0 = [] := by
    unfold pageBlocks
    split <;> rfl
  unfold IndexedProvider.latestBlocks
  by_cases hzero : count = 0
  · have hnone : pending = [] := List.length_eq_zero_iff.mp (by omega)
    refine ⟨_, if_pos hzero, ?_⟩
    rw [hnone, List.length_nil, Nat.sub_zero, hzero, hfull]
    rfl
  rw [if_neg hzero]
  simp only [hcursor, ok_bind, hpending, Option.elim_some]
  have hroom : count - pending.length ≤ u32Max := by omega
  have htake := take_listBlocksPageBounded p filters c hroom
  by_cases hneed : 0 < count - pending.length
  · rw [if_pos hneed]
    by_cases hmore : count - pending.length <
        (listBlocksPageBounded p.net p.db (wrapU32 (count - pending.length + 1)) none
          (some (min p.indexedHead (c - 1))) filters).items.length
    · exact ⟨_, if_pos hmore, by rw [← htake]⟩
    · refine ⟨_, if_neg hmore, ?_⟩
      rw [← htake, List.take_of_length_le (Nat.not_lt.mp hmore)]
  · rw [if_neg hneed, Nat.eq_zero_of_not_pos hneed, hfull, List.map_nil, List.append_nil]
    by_cases hseam : 0 < p.indexedHead ∧ p.indexedHead < p.pendingUpper (some c)
    · exact ⟨_, if_pos hseam, rfl⟩
    · exact ⟨_, if_neg hseam, rfl⟩

/-! ### The pending slice -/

/-- A block of the node's chain as it is shown. -/
def chainBlock (p : IndexedProvider) (n : ℕ) : Block :=
  Rpc.mapBlock p.net p.node.finalizedHead n (p.node.chain n)

/-- The numbers of the window the node's list looks at. -/
def windowDown (p : IndexedProvider) (c count : ℕ) : List ℕ :=
  (List.range' (min (c - 1) p.node.bestHead - count)
    (min (c - 1) p.node.bestHead + 1 - (min (c - 1) p.node.bestHead - count))).reverse

/-- The node's list at a cursor. -/
theorem rpc_latestBlocks_at (p : IndexedProvider) (filters : BlockFilters) (hc : c ≤ u64Max)
    (hcount : count ≤ u32Max) :
    ∃ page, Rpc.latestBlocks p.net p.node ⟨count, some (blockCursor.toText c)⟩ filters = .ok page ∧
      page.items = (((windowDown p c count).map (chainBlock p)).filter fun block =>
        blockMatchesFilters block filters).take count := by
  have htext : parseCursor blockCursor ⟨count, some (blockCursor.toText c)⟩ = .ok (some c) := by
    simp only [parseCursor, blockCursor_roundTrips c hc]
  have hspan : satAddU64 count 1 - 1 = count := by
    simp only [satAddU64, u64Max, u32Max] at *
    omega
  unfold Rpc.latestBlocks
  by_cases hzero : count = 0
  · exact ⟨_, if_pos hzero, by rw [hzero, List.take_zero]; rfl⟩
  · rw [if_neg hzero]
    simp only [htext, ok_bind, hspan]
    refine ⟨_, rfl, ?_⟩
    simp only [trimProbe_fst]
    rfl

/-- **The pending slice at a cursor** is of blocks of the chain above the
indexed head and below the cursor, no more than a page of them. -/
theorem pendingBlocks_at (hc : c ≤ u64Max) (hcount : count ≤ u32Max) (filters : BlockFilters) :
    ∃ pending, p.pendingBlocks count (some c) filters = .ok pending ∧ pending.length ≤ count ∧
      ∀ b ∈ pending, p.indexedHead < b.number ∧ b.number < c := by
  obtain ⟨page, hpage, hitems⟩ := rpc_latestBlocks_at p filters hc hcount
  unfold IndexedProvider.pendingBlocks
  by_cases habove : p.indexedHead < p.pendingUpper (some c) ∧ filters.finalized ≠ some true
  swap
  · exact ⟨[], if_neg habove, Nat.zero_le count, fun b hb => absurd hb List.not_mem_nil⟩
  rw [if_pos habove, Option.map_some, hpage, ok_bind]
  refine ⟨_, rfl, List.length_take_le _ _, fun b hb => ?_⟩
  have hslice := List.mem_of_mem_take hb
  have hhead := of_decide_eq_true (List.all_eq_true.mp List.all_takeWhile b hslice)
  have hitem : b ∈ page.items := (List.takeWhile_sublist _).subset hslice
  rw [hitems] at hitem
  obtain ⟨n, hn, rfl⟩ := List.mem_map.mp (List.mem_of_mem_filter (List.mem_of_mem_take hitem))
  rw [windowDown, List.mem_reverse, List.mem_range'_1] at hn
  have hupper : p.indexedHead < c - 1 := habove.1
  refine ⟨hhead, ?_⟩
  change n < c
  omega

/-- The part of the window above the seam starts as all of the numbers
above it do. -/
theorem take_windowDown {H : ℕ} :
    ((windowDown p c count).takeWhile fun n => decide (H < n)).take count =
      (newest (min (c - 1) p.node.bestHead) fun n => decide (H < n)).take count := by
  rw [windowDown]
  generalize min (c - 1) p.node.bestHead = top
  have hsplit : newest top (fun n => decide (H < n)) =
      (List.range' (top - count) (top + 1 - (top - count))).reverse.filter
          (fun n => decide (H < n)) ++
        (List.range (top - count)).reverse.filter fun n => decide (H < n) := by
    have hrange : List.range (top + 1) =
        List.range (top - count) ++ List.range' (top - count) (top + 1 - (top - count)) := by
      have happ := List.range'_append_1 (s := 0) (m := top - count) (n := top + 1 - (top - count))
      rw [Nat.zero_add, show top - count + (top + 1 - (top - count)) = top + 1 by omega] at happ
      rw [List.range_eq_range', List.range_eq_range', happ]
    rw [newest, hrange, List.reverse_append, List.filter_append]
  rw [takeWhile_eq_filter (List.pairwise_reverse.mpr List.pairwise_lt_range'), hsplit]
  rcases Nat.lt_or_ge H (top - count) with hdeep | hshallow
  · -- The window ends above the seam, and then it fills the page.
    have hall : (List.range' (top - count) (top + 1 - (top - count))).reverse.filter
        (fun n => decide (H < n)) =
          (List.range' (top - count) (top + 1 - (top - count))).reverse := by
      refine List.filter_eq_self.mpr fun n hn => decide_eq_true ?_
      have := (List.mem_range'_1.mp (List.mem_reverse.mp hn)).1
      omega
    rw [hall, List.take_append_of_le_length]
    rw [List.length_reverse, List.length_range']
    omega
  · have hnone : (List.range (top - count)).reverse.filter (fun n => decide (H < n)) = [] := by
      refine List.filter_eq_nil_iff.mpr fun n hn hlt => ?_
      have := List.mem_range.mp (List.mem_reverse.mp hn)
      have := of_decide_eq_true hlt
      omega
    rw [hnone, List.append_nil]

/-- **Unfiltered, the pending slice is the top of the chain** below the
cursor and above the indexed head. -/
theorem pendingBlocks_unfiltered (hc : c ≤ u64Max) (hcount : count ≤ u32Max) :
    p.pendingBlocks count (some c) ⟨none, none⟩ =
      .ok (((newest (min (c - 1) p.node.bestHead) fun n => decide (p.indexedHead < n)).take
        count).map (chainBlock p)) := by
  obtain ⟨page, hpage, hitems⟩ := rpc_latestBlocks_at p ⟨none, none⟩ hc hcount
  have hall : ((windowDown p c count).map (chainBlock p)).filter
      (fun block => blockMatchesFilters block ⟨none, none⟩) =
        (windowDown p c count).map (chainBlock p) := List.filter_eq_self.mpr fun _ _ => rfl
  rw [hall] at hitems
  unfold IndexedProvider.pendingBlocks
  by_cases habove : p.indexedHead < p.pendingUpper (some c)
  · rw [if_pos ⟨habove, nofun⟩, Option.map_some, hpage, ok_bind, hitems]
    have hmap : ∀ l : List ℕ, ((l.map (chainBlock p)).takeWhile fun block =>
        decide (p.indexedHead < block.number)) =
          (l.takeWhile fun n => decide (p.indexedHead < n)).map (chainBlock p) := fun l => by
      rw [List.takeWhile_map]
      rfl
    refine congrArg Except.ok ?_
    rw [← List.map_take, hmap, ← List.map_take]
    refine congrArg (List.map (chainBlock p)) ?_
    rw [takeWhile_take, List.take_take, Nat.min_self, take_windowDown]
  · have hnone :
        (newest (min (c - 1) p.node.bestHead) fun n => decide (p.indexedHead < n)) = [] := by
      refine List.eq_nil_iff_forall_not_mem.mpr fun n hn => habove ?_
      obtain ⟨hle, hlt⟩ := mem_newest.mp hn
      rw [decide_eq_true_eq] at hlt
      change p.indexedHead < c - 1
      omega
    rw [if_neg fun h => habove h.1, hnone, List.take_nil]
    rfl

/-! ### The bound -/

/-- **A page of stored blocks is the newest ones below its cursor**, and
none at cursor 0. -/
def BlocksBelow (p : IndexedProvider) (filters : BlockFilters) (c need : ℕ) : Prop :=
  pageBlocks p filters c need = newestBlocks p.db filters c need ∧
    (c = 0 → pageBlocks p filters c need = [])

/-- **When no bound of the block list is crossed.** The page has room for
stored blocks, and

* where it is `u32::MAX` rows short, so that the probe wraps to zero, none
  is below the cursor;
* at cursor 0, whose bound saturates at 0, there is none up to 0;
* where the cursor and the indexed head are both past `i64::MAX`, which
  the database holds as negative numbers, none is at the cursor or above. -/
def BlockBoundHolds (p : IndexedProvider) (filters : BlockFilters) (c need : ℕ) : Prop :=
  need = 0 ∨
  if need = u32Max then ∀ r ∈ blocksDown p.db filters, (c : ℤ) ≤ r.1
  else (c = 0 → ∀ r ∈ blocksDown p.db filters, 0 < r.1) ∧
    (i64Max < c - 1 → i64Max < p.indexedHead → ∀ r ∈ blocksDown p.db filters, asU64 r.1 < c)

/-- The columns of the block table: a number is a `BIGINT`. -/
def NumColumns (db : Db) : Prop :=
  ∀ k ∈ db.blocks.keys, -9223372036854775808 ≤ k ∧ k ≤ i64Max

/-- The indexed head is the greatest number stored. -/
theorem le_indexedHead (hdb : NumColumns p.db) {r : ℤ × StoredBlock} (hr : r ∈ p.db.blocks.rows) :
    ∃ m : ℤ, r.1 ≤ m ∧ -9223372036854775808 ≤ m ∧ m ≤ i64Max ∧ p.indexedHead = asU64 m := by
  have hkey : r.1 ∈ p.db.blocks.keys := List.mem_map_of_mem hr
  unfold IndexedProvider.indexedHead Queries.indexedHead
  rcases hmax : p.db.blocks.keys.max? with - | m
  · rw [List.max?_eq_none_iff.mp hmax] at hkey
    exact absurd hkey List.not_mem_nil
  · obtain ⟨hm, hge⟩ := List.max?_eq_some_iff.mp hmax
    exact ⟨m, hge _ hkey, (hdb m hm).1, (hdb m hm).2, rfl⟩

/-- The bound of the `WHERE`, row by row. -/
theorem le_bound_iff (hdb : NumColumns p.db) (hc : 1 ≤ c) (hmax : c ≤ u64Max)
    {r : ℤ × StoredBlock} (hr : r ∈ p.db.blocks.rows) :
    (r.1 < (c : ℤ) → r.1 ≤ asI64 (min p.indexedHead (c - 1))) ↔
      (i64Max < c - 1 → i64Max < p.indexedHead → asU64 r.1 < c) := by
  obtain ⟨m, hle, hlow, hhigh, hhead⟩ := le_indexedHead hdb hr
  have hrlow := (hdb r.1 (List.mem_map_of_mem hr)).1
  rw [hhead]
  generalize r.1 = k at hle hrlow
  simp only [i64Max, u64Max] at hmax hhigh ⊢
  have hhead : (asU64 m : ℤ) = if 0 ≤ m then m else m + 18446744073709551616 := by
    simp only [asU64]
    split <;> omega
  have hshown : (asU64 k : ℤ) = if 0 ≤ k then k else k + 18446744073709551616 := by
    simp only [asU64]
    split <;> omega
  obtain ⟨bound, hbound, hlehead, hlecursor, hone⟩ : ∃ bound, min (asU64 m) (c - 1) = bound ∧
      bound ≤ asU64 m ∧ bound ≤ c - 1 ∧ (bound = asU64 m ∨ bound = c - 1) :=
    ⟨_, rfl, Nat.min_le_left _ _, Nat.min_le_right _ _, by omega⟩
  have hcast : asI64 bound =
      if bound ≤ 9223372036854775807 then (bound : ℤ) else bound - 18446744073709551616 := by
    have hlt : bound < 18446744073709551616 := by omega
    simp only [asI64, Nat.mod_eq_of_lt hlt]
    split <;> omega
  rw [hbound, hcast]
  split at hhead <;> split at hshown <;> split <;> omega

/-- **A page of blocks is below its cursor exactly where no bound is
crossed.** -/
theorem blocksBelow_iff (hdb : NumColumns p.db) (hmax : c ≤ u64Max) (hneed : need ≤ u32Max) :
    BlocksBelow p filters c need ↔ BlockBoundHolds p filters c need := by
  unfold BlocksBelow BlockBoundHolds pageBlocks newestBlocks
  rcases Nat.eq_zero_or_pos need with rfl | hpos
  · refine iff_of_true ⟨?_, fun _ => ?_⟩ (.inl rfl)
    · split <;> simp
    · split <;> simp
  have hne : need ≠ 0 := by omega
  by_cases hwrap : need = u32Max
  · have hzero : wrapU32 (need + 1) = 0 := by
      simp only [hwrap, wrapU32, u32Max]
    rw [if_pos hzero, if_pos hwrap, or_iff_right hne, eq_comm, List.take_eq_nil_iff,
      or_iff_right hne, List.filter_eq_nil_iff]
    simp only [decide_eq_true_eq, not_lt, imp_true_iff, and_true]
  have hnonzero : ¬ wrapU32 (need + 1) = 0 := by
    simp only [wrapU32, u32Max] at *
    omega
  rw [if_neg hnonzero, if_neg hwrap, or_iff_right hne]
  rcases Nat.eq_zero_or_pos c with rfl | hc
  · have hbound : asI64 (min p.indexedHead (0 - 1)) = 0 := by
      rw [Nat.zero_sub, Nat.min_zero]
      rfl
    simp only [hbound, List.take_eq_nil_iff, or_iff_right hne, List.filter_eq_nil_iff,
      decide_eq_true_eq, not_le]
    constructor
    · exact fun h => ⟨fun _ => h.2 trivial, fun hlt => absurd hlt (by omega)⟩
    · intro h
      have hnone := h.1 trivial
      refine ⟨?_, fun _ => hnone⟩
      have hupto : (blocksDown p.db filters).filter (fun r => r.1 ≤ 0) = [] :=
        List.filter_eq_nil_iff.mpr fun r hr => by simpa using hnone r hr
      have hbelow : (blocksDown p.db filters).filter (fun r => r.1 < ((0 : ℕ) : ℤ)) = [] :=
        List.filter_eq_nil_iff.mpr fun r hr => by simpa using le_of_lt (hnone r hr)
      rw [hupto, hbelow]
  · have hle : asI64 (min p.indexedHead (c - 1)) + 1 ≤ (c : ℤ) := by
      have := asI64_le (min p.indexedHead (c - 1))
      omega
    have hiff := take_below_eq_iff (n := need) (blocksDown_sorted p.db filters) hle
    simp only [Int.lt_add_one_iff] at hiff
    rw [hiff, or_iff_right hne]
    have hrow : ∀ r ∈ blocksDown p.db filters, (r.1 < (c : ℤ) →
        r.1 ≤ asI64 (min p.indexedHead (c - 1))) ↔
          (i64Max < c - 1 → i64Max < p.indexedHead → asU64 r.1 < c) := fun r hr =>
      le_bound_iff hdb hc hmax (List.mem_of_mem_filter (List.mem_reverse.mp hr))
    constructor
    · exact fun h => ⟨fun h0 => absurd h0 (by omega), fun hcur hhead r hr =>
        (hrow r hr).mp (h.1 r hr) hcur hhead⟩
    · exact fun h => ⟨fun r hr => (hrow r hr).mpr fun hcur hhead => h.2 hcur hhead r hr,
        fun h0 => absurd h0 (by omega)⟩

/-! ## Extrinsics -/

variable {net : Network} {db : Db} {extrinsicFilters : ExtrinsicFilters}

/-- The stored extrinsics the filters admit, newest first. -/
def extrinsicsDown (db : Db) (filters : ExtrinsicFilters) :
    List ((ℤ ×ₗ ℤ) × StoredExtrinsic) :=
  (db.extrinsics.rows.filter (extrinsicAdmitted filters)).reverse

/-- **The newest stored extrinsics strictly below a cursor.** -/
def newestExtrinsics (db : Db) (filters : ExtrinsicFilters) (c : ℕ × ℕ) (count : ℕ) :
    List ((ℤ ×ₗ ℤ) × StoredExtrinsic) :=
  ((extrinsicsDown db filters).filter fun r => r.1 < toLex ((c.1 : ℤ), (c.2 : ℤ))).take count

/-- **The stored extrinsics on a page**, as the list selects them. -/
def pageExtrinsics (db : Db) (filters : ExtrinsicFilters) (c : ℕ × ℕ) (count : ℕ) :
    List ((ℤ ×ₗ ℤ) × StoredExtrinsic) :=
  ((extrinsicsDown db filters).filter fun r => belowUpper (some c) r.1).take count

/-- **When no bound of the extrinsic list wraps**: no row is between the
cursor as it is cast and the cursor, which takes a block past `i64::MAX`
or an index past `i32::MAX`. -/
def ExtrinsicBoundHolds (db : Db) (filters : ExtrinsicFilters) (c : ℕ × ℕ) (count : ℕ) : Prop :=
  count = 0 ∨
  ((c.1 ≤ i64Max → i32Max < c.2 → ∀ r ∈ extrinsicsDown db filters,
      (ofLex r.1).1 = c.1 → (ofLex r.1).2 < asI32 c.2) ∧
    (i64Max < c.1 → ∀ r ∈ extrinsicsDown db filters, r.1 < toLex (asI64 c.1, asI32 c.2)))

/-- The columns of the extrinsic table: `BIGINT` and `INT`. -/
def ExtrinsicColumns (db : Db) : Prop :=
  ∀ r ∈ db.extrinsics.rows, (ofLex r.1).1 ≤ i64Max ∧ (ofLex r.1).2 ≤ i32Max

theorem extrinsicsDown_sorted (db : Db) (filters : ExtrinsicFilters) :
    (extrinsicsDown db filters).Pairwise fun a b => b.1 ≤ a.1 :=
  List.pairwise_reverse.mpr ((db.extrinsics.sorted.filter _).imp le_of_lt)

/-- A cursor is cast to itself or lower. -/
theorem cast_le (b i : ℕ) : toLex (asI64 b, asI32 i) ≤ toLex ((b : ℤ), (i : ℤ)) := by
  have hb := asI64_le b
  have hi := asI32_le i
  rcases lt_or_eq_of_le hb with hlt | heq
  · exact le_of_lt (Prod.Lex.lt_iff.mpr (.inl hlt))
  · exact Prod.Lex.le_iff.mpr (.inr ⟨heq, hi⟩)

/-- **A page of extrinsics is below its cursor**, and is the newest ones
there exactly where no bound wraps. -/
theorem extrinsicsBelow_iff (hdb : ExtrinsicColumns db) {c : ℕ × ℕ} :
    (∀ r ∈ pageExtrinsics db extrinsicFilters c count, r.1 < toLex ((c.1 : ℤ), (c.2 : ℤ))) ∧
      (pageExtrinsics db extrinsicFilters c count = newestExtrinsics db extrinsicFilters c count ↔
        ExtrinsicBoundHolds db extrinsicFilters c count) := by
  obtain ⟨b, i⟩ := c
  have hcast := cast_le b i
  constructor
  · intro r hr
    have hlt := of_decide_eq_true (List.mem_filter.mp (List.mem_of_mem_take hr)).2
    exact lt_of_lt_of_le hlt hcast
  · unfold pageExtrinsics newestExtrinsics ExtrinsicBoundHolds belowUpper
    simp only [Option.all_some]
    rw [take_below_eq_iff (extrinsicsDown_sorted db extrinsicFilters) hcast]
    refine or_congr_right ?_
    have hcols : ∀ r ∈ extrinsicsDown db extrinsicFilters,
        (ofLex r.1).1 ≤ i64Max ∧ (ofLex r.1).2 ≤ i32Max := fun r hr =>
      hdb r (List.mem_of_mem_filter (List.mem_reverse.mp hr))
    simp only [Prod.Lex.lt_iff, ofLex_toLex]
    rcases Nat.lt_or_ge i64Max b with hbig | hfits
    · constructor
      · refine fun h => ⟨fun hle => absurd hle (by omega), fun _ r hr => h r hr (.inl ?_)⟩
        have := (hcols r hr).1
        omega
      · exact fun h r hr _ => h.2 hbig r hr
    · rw [asI64_of_le hfits]
      constructor
      · refine fun h => ⟨fun _ hi r hr heq => ?_, fun hlt => absurd hlt (by omega)⟩
        have hidx := (hcols r hr).2
        rcases h r hr (.inr ⟨heq, by omega⟩) with hlt | ⟨-, hlt⟩
        · omega
        · exact hlt
      · rintro h r hr (hlt | ⟨heq, hlt⟩)
        · exact .inl hlt
        · refine .inr ⟨heq, ?_⟩
          rcases Nat.lt_or_ge i32Max i with hi | hi
          · exact h.1 hfits hi r hr heq
          · rwa [asI32_of_le hi]

/-! ## The version feed -/

/-- A feed cursor, as a key. -/
def cursorKey (c : ℕ × ℕ × ℕ) : ℤ ×ₗ ℤ ×ₗ ℤ := toLex ((c.1 : ℤ), toLex ((c.2.1 : ℤ), (c.2.2 : ℤ)))

/-- **The newest versions strictly below a cursor.** -/
def newestVersions (db : Db) (c : ℕ × ℕ × ℕ) (count : ℕ) : List FeedRow :=
  ((feedRows db).filter fun r => r.key < cursorKey c).take count

/-- **The versions on a page**, as the list selects them. -/
def pageVersions (db : Db) (c : ℕ × ℕ × ℕ) (count : ℕ) : List FeedRow :=
  ((feedRows db).filter fun r =>
    r.key < toLex (asI64 c.1, toLex ((c.2.1 : ℤ), asI32 c.2.2))).take count

/-- **When no bound of the feed wraps**, which takes a block past
`i64::MAX` or a version past `i32::MAX`. -/
def FeedBoundHolds (db : Db) (c : ℕ × ℕ × ℕ) (count : ℕ) : Prop :=
  count = 0 ∨
  ((c.1 ≤ i64Max → i32Max < c.2.2 → ∀ r ∈ feedRows db,
      r.blockNum = c.1 → r.atsId = c.2.1 → r.version < asI32 c.2.2) ∧
    (i64Max < c.1 → ∀ r ∈ feedRows db,
      r.key < toLex (asI64 c.1, toLex ((c.2.1 : ℤ), asI32 c.2.2))))

/-- The columns of the version table: `BIGINT` and `INT`. -/
def VersionColumns (db : Db) : Prop :=
  ∀ v ∈ db.ats.children.rows, v.2.blockNum ≤ i64Max ∧ (ofLex v.1).2 ≤ i32Max

/-- What the columns hold of a feed row. -/
theorem le_of_mem_feedRows (hdb : VersionColumns db) {r : FeedRow} (hr : r ∈ feedRows db) :
    r.blockNum ≤ i64Max ∧ r.version ≤ i32Max := by
  obtain ⟨v, hv, hvr⟩ := List.mem_filterMap.mp (List.mem_mergeSort.mp hr)
  obtain ⟨parent, -, rfl⟩ := Option.map_eq_some_iff.mp hvr
  exact hdb v hv

/-- **A page of versions is below its cursor**, and is the newest ones
there exactly where no bound wraps. -/
theorem versionsBelow_iff (hdb : VersionColumns db) {c : ℕ × ℕ × ℕ} :
    (∀ r ∈ pageVersions db c count, r.key < cursorKey c) ∧
      (pageVersions db c count = newestVersions db c count ↔ FeedBoundHolds db c count) := by
  obtain ⟨b, a, v⟩ := c
  have hcast : toLex (asI64 b, toLex ((a : ℤ), asI32 v)) ≤ cursorKey (b, a, v) := by
    rcases lt_or_eq_of_le (asI64_le b) with hlt | heq
    · exact le_of_lt (Prod.Lex.lt_iff.mpr (.inl hlt))
    · exact Prod.Lex.le_iff.mpr (.inr ⟨heq, Prod.Lex.le_iff.mpr (.inr ⟨rfl, asI32_le v⟩)⟩)
  constructor
  · intro r hr
    have hlt := of_decide_eq_true (List.mem_filter.mp (List.mem_of_mem_take hr)).2
    exact lt_of_lt_of_le hlt hcast
  · unfold pageVersions newestVersions FeedBoundHolds
    rw [take_below_eq_iff (feedRows_pairwise.imp le_of_lt) hcast]
    refine or_congr_right ?_
    have hcols : ∀ r ∈ feedRows db, r.blockNum ≤ i64Max ∧ r.version ≤ i32Max := fun r hr =>
      le_of_mem_feedRows hdb hr
    simp only [cursorKey, FeedRow.key, Prod.Lex.lt_iff, ofLex_toLex]
    rcases Nat.lt_or_ge i64Max b with hbig | hfits
    · constructor
      · refine fun h => ⟨fun hle => absurd hle (by omega), fun _ r hr => h r hr (.inl ?_)⟩
        have := (hcols r hr).1
        omega
      · exact fun h r hr _ => h.2 hbig r hr
    · rw [asI64_of_le hfits]
      constructor
      · refine fun h => ⟨fun _ hv r hr hblock hid => ?_, fun hlt => absurd hlt (by omega)⟩
        have hversion := (hcols r hr).2
        rcases h r hr (.inr ⟨hblock, .inr ⟨hid, by omega⟩⟩) with hlt | ⟨-, hlt | ⟨-, hlt⟩⟩
        · omega
        · omega
        · exact hlt
      · rintro h r hr (hlt | ⟨hblock, hlt | ⟨hid, hlt⟩⟩)
        · exact .inl hlt
        · exact .inr ⟨hblock, .inl hlt⟩
        · refine .inr ⟨hblock, .inr ⟨hid, ?_⟩⟩
          rcases Nat.lt_or_ge i32Max v with hv | hv
          · exact h.1 hfits hv r hr hblock hid
          · rwa [asI32_of_le hv]

/-! ## The three lists -/

/-- The columns of the tables the lists read. -/
structure Columns (db : Db) : Prop where
  blocks : NumColumns db
  extrinsics : ExtrinsicColumns db
  versions : VersionColumns db

/-- The page of the extrinsic list. -/
theorem listExtrinsics_at (net : Network) (db : Db) {c : ℕ × ℕ}
    (hs : extrinsicCursor.fromStr s = .ok c) :
    ∃ page, listExtrinsicsPageBounded net db none extrinsicFilters ⟨count, some s⟩ = .ok page ∧
      page.items = hydrateEvents net db
        ((pageExtrinsics db extrinsicFilters c count).map (rowToExtrinsic net)) := by
  have hcursor : parseCursor extrinsicCursor ⟨count, some s⟩ = .ok (some c) := by
    simp only [parseCursor, hs]
  unfold listExtrinsicsPageBounded
  by_cases hzero : count = 0
  · refine ⟨_, if_pos hzero, ?_⟩
    rw [pageExtrinsics, hzero, List.take_zero]
    rfl
  · have hrows : (db.extrinsics.rows.filter fun r => extrinsicAdmitted extrinsicFilters r &&
        belowUpper (some c) r.1).reverse =
          (extrinsicsDown db extrinsicFilters).filter fun r => belowUpper (some c) r.1 := by
      rw [extrinsicsDown, List.filter_reverse, List.filter_filter]
      exact congrArg List.reverse (List.filter_congr fun r _ => Bool.and_comm _ _)
    rw [if_neg hzero]
    simp only [hcursor, ok_bind, tightest, hrows, trimProbe_map, trimProbe_take]
    exact ⟨_, rfl, rfl⟩

/-- The page of the version feed. -/
theorem listFeed_at (net : Network) (db : Db) {c : ℕ × ℕ × ℕ}
    (hs : atsFeedCursor.fromStr s = .ok c) :
    ∃ page, listAtsFeedPage net db ⟨count, some s⟩ = .ok page ∧
      page.items = (pageVersions db c count).map (feedRowToItem net) := by
  have hcursor : parseCursor atsFeedCursor ⟨count, some s⟩ = .ok (some c) := by
    simp only [parseCursor, hs]
  unfold listAtsFeedPage
  by_cases hzero : count = 0
  · refine ⟨_, if_pos hzero, ?_⟩
    rw [pageVersions, hzero, List.take_zero]
    rfl
  · rw [if_neg hzero]
    have hrows : ∀ f : FeedRow → Bool,
        ((db.ats.children.rows.filterMap (feedRow db)).filter f).mergeSort
          (fun a b => decide (b.key ≤ a.key)) = (feedRows db).filter f := mergeSort_filter_feed
    simp only [hcursor, ok_bind, Option.all_some, hrows, trimProbe_map, trimProbe_take]
    exact ⟨_, rfl, rfl⟩

/-- **A page lies below its cursor exactly where no bound is crossed.**
At every cursor that parses, a page of blocks is the pending ones below
the cursor and then stored ones; a page of extrinsics, and one of
versions, is of stored rows below the cursor. -/
theorem pages_below_iff (hdb : Columns p.db) (hcount : count ≤ u32Max) :
    (∀ s c, blockCursor.fromStr s = .ok c → ∀ filters, ∃ pending page,
      p.pendingBlocks count (some c) filters = .ok pending ∧
      p.latestBlocks ⟨count, some s⟩ filters = .ok page ∧
      page.items =
        pending ++ (pageBlocks p filters c (count - pending.length)).map (blockShown p) ∧
      (∀ b ∈ pending, p.indexedHead < b.number ∧ b.number < c) ∧
      (filters = ⟨none, none⟩ → pending =
        ((newest (min (c - 1) p.node.bestHead) fun n => decide (p.indexedHead < n)).take
          count).map (chainBlock p)) ∧
      (BlocksBelow p filters c (count - pending.length) ↔
        BlockBoundHolds p filters c (count - pending.length))) ∧
    (∀ s c, extrinsicCursor.fromStr s = .ok c → ∀ filters, ∃ page,
      listExtrinsicsPageBounded p.net p.db none filters ⟨count, some s⟩ = .ok page ∧
      page.items = hydrateEvents p.net p.db
        ((pageExtrinsics p.db filters c count).map (rowToExtrinsic p.net)) ∧
      (∀ r ∈ pageExtrinsics p.db filters c count, r.1 < toLex ((c.1 : ℤ), (c.2 : ℤ))) ∧
      (pageExtrinsics p.db filters c count = newestExtrinsics p.db filters c count ↔
        ExtrinsicBoundHolds p.db filters c count)) ∧
    (∀ s c, atsFeedCursor.fromStr s = .ok c → ∃ page,
      listAtsFeedPage p.net p.db ⟨count, some s⟩ = .ok page ∧
      page.items = (pageVersions p.db c count).map (feedRowToItem p.net) ∧
      (∀ r ∈ pageVersions p.db c count, r.key < cursorKey c) ∧
      (pageVersions p.db c count = newestVersions p.db c count ↔
        FeedBoundHolds p.db c count)) := by
  refine ⟨fun s c hs filters => ?_, fun s c hs filters => ?_, fun s c hs => ?_⟩
  · have hc := le_of_blockCursor hs
    obtain ⟨pending, hpending, hlen, hbelow⟩ := pendingBlocks_at (p := p) hc hcount filters
    obtain ⟨page, hpage, hitems⟩ := latestBlocks_after hs hcount hpending hlen
    refine ⟨pending, page, hpending, hpage, hitems, hbelow, ?_,
      blocksBelow_iff hdb.blocks hc (by omega)⟩
    rintro rfl
    exact Except.ok.inj (hpending.symm.trans (pendingBlocks_unfiltered hc hcount))
  · obtain ⟨page, hpage, hitems⟩ := listExtrinsics_at p.net p.db hs
    obtain ⟨hrows, hiff⟩ := extrinsicsBelow_iff hdb.extrinsics
    exact ⟨page, hpage, hitems, hrows, hiff⟩
  · obtain ⟨page, hpage, hitems⟩ := listFeed_at p.net p.db hs
    obtain ⟨hrows, hiff⟩ := versionsBelow_iff hdb.versions
    exact ⟨page, hpage, hitems, hrows, hiff⟩

/-- Blocks 0 and 1 are stored: the page of one at cursor 1 is block 0. -/
theorem pages_below_one :
    BlocksBelow (IndexedProvider.quietAt 1 (by decide)) ⟨none, none⟩ 1 1 := by
  have hdb : Columns (IndexedProvider.quietAt 1 (by decide)).db :=
    ⟨by unfold NumColumns; decide, by unfold ExtrinsicColumns; decide,
      by unfold VersionColumns; decide⟩
  obtain ⟨pending, page, -, -, -, -, hpending, hiff⟩ :=
    (pages_below_iff hdb (show 1 ≤ u32Max by decide)).1 "1" 1 (by decide) ⟨none, none⟩
  obtain rfl : pending = [] := hpending rfl
  exact hiff.mpr (.inr ⟨fun h => absurd h (by decide), fun h => absurd h (by decide)⟩)

/-- **Three cursors whose page is not what lies below them.** A block
cursor at zero lists block 0; with the largest page, the cursor at block 1
lists nothing; and an extrinsic cursor at block `2^63` is cast to the least
`BIGINT`, below which no row is. -/
theorem pages_cross_bounds :
    ((∃ page, (IndexedProvider.quietAt 1 (by decide)).latestBlocks ⟨1, some "0"⟩ ⟨none, none⟩ =
        .ok page ∧ page.items.map Block.number = [0]) ∧
      ∃ page, (IndexedProvider.quietAt 1 (by decide)).latestBlocks ⟨u32Max, some "1"⟩
        ⟨none, none⟩ = .ok page ∧ page.items = []) ∧
    ∃ page, listExtrinsicsPageBounded plainNetwork (extrinsicsAt [5]) none
        ⟨none, none, none, none⟩ ⟨1, some "9223372036854775808-0"⟩ = .ok page ∧
      page.items = [] :=
  ⟨⟨⟨_, rfl, by decide⟩, ⟨_, rfl, by decide⟩⟩, ⟨_, rfl, by decide⟩⟩

end Below

end AllfeatExplorer
