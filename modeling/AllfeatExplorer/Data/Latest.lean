import AllfeatExplorer.Data.BlockViews
import AllfeatExplorer.Data.Helpers.Latest

/-!
# Walking the newest blocks

The block list is stitched at the indexed head, and a walk over it lists
the chain as long as the two sides answer what they are asked. Under a
filter the node's side does not: it looks at a window of one page, so a
pending block that lies further down is passed over once the page is
filled up from the database. Nor does it look at all where only final
blocks are asked for, though the indexer may lag behind finality.
-/

namespace AllfeatExplorer

open Queries

namespace IndexedProvider

variable {p : IndexedProvider} {H count : ℕ} {filters : BlockFilters}

/-- **A walk lists these numbers**, over a chain and a database that do not
change. -/
def Lists (p : IndexedProvider) (filters : BlockFilters) (count : ℕ) (numbers : List ℕ) : Prop :=
  ∃ w : List (IndexedProvider × Page Block),
    Walk (pageRead (fun q req => q.latestBlocks req filters) count) none w ∧ (∀ x ∈ w, x.1 = p) ∧
      (w.flatMap fun x => x.2.items.map Block.number) = numbers

/-- A walk lists one thing. -/
theorem Lists.unique {l l' : List ℕ} (h : p.Lists filters count l) (h' : p.Lists filters count l') :
    l = l' := by
  obtain ⟨w, hw, hs, rfl⟩ := h
  obtain ⟨w', hw', hs', rfl⟩ := h'
  rw [hw.unique hw' hs hs']

/-- A first page that is the last. -/
theorem lists_of_page {page : Page Block} {numbers : List ℕ}
    (hpage : p.latestBlocks ⟨count, none⟩ filters = .ok page)
    (hlast : page.pageInfo.nextCursor = none) (hnumbers : page.items.map Block.number = numbers) :
    p.Lists filters count numbers := by
  refine ⟨[(p, page)], .last (pageRead_eq_some.mpr ⟨hpage, hlast.symm⟩), ?_, ?_⟩
  · intro x hx
    rw [List.mem_singleton.mp hx]
  · rw [List.flatMap_singleton, hnumbers]

/-- The read as the node's head, the pending and the stored numbers have
it. -/
def spec (filters : BlockFilters) (H count : ℕ) :
    IndexedProvider → Option ℕ → List ℕ × Option ℕ :=
  stitchedRead count probeRows (fun q => q.node.bestHead) (fun q => q.pendingNumbers filters H)
    fun q => q.storedNumbers filters H

/-- **`latest_blocks` refines the stitched read.** -/
theorem latestBlocks_refines (filters : BlockFilters) (h : p.db.BlocksUpTo p.node.chain H)
    (hpos : 1 ≤ H) (hle : H ≤ p.node.bestHead) (hcount : 1 ≤ count) (hmax : count ≤ u32Max) :
    Refines (pageRead (fun q req => q.latestBlocks req filters) count) (spec filters H count)
      blockCursor.toText (fun page => page.items.map Block.number) (fun q => q = p)
      p.CursorOk where
  answers := by
    rintro q c rfl hc
    obtain ⟨page, hpage, hitems, hnext, -⟩ :=
      latestBlocks_page filters h hpos hcount hmax hc
    exact ⟨page, pageRead_eq_some.mpr ⟨hpage, hnext.symm⟩, hitems⟩
  next_ok := by
    rintro q c k rfl hnext
    obtain ⟨-, -, hk, hmem⟩ := stitchedPage_eq_some (zones hcount hmax) (Prod.ext rfl hnext)
    rcases hmem with hmem | hmem
    · exact ⟨hk, (mem_pendingNumbers.mp hmem).2.1⟩
    · exact ⟨hk, le_trans (mem_newest.mp hmem).1 hle⟩

/-- Every page of a walk but the last is full. -/
theorem length_spec_walk (hcount : 1 ≤ count) (hmax : count ≤ u32Max) {c : Option ℕ}
    {w : List (IndexedProvider × List ℕ)} (h : Walk (answering (spec filters H count)) c w)
    (hs : ∀ x ∈ w, x.1 = p) : ∀ x ∈ w.dropLast, x.2.length = count :=
  @length_stitched_walk IndexedProvider count probeRows H c (fun q => q.node.bestHead)
    (fun q => q.pendingNumbers filters H) (fun q => q.storedNumbers filters H) p
    (zones hcount hmax) w h hs

/-- **What a walk lists**: the pending numbers and then `rest`, exactly when
each pending number lies in the window of its page and `rest` is what the
database is asked for. -/
theorem lists_iff (filters : BlockFilters) (h : p.db.BlocksUpTo p.node.chain H) (hpos : 1 ≤ H)
    (hle : H ≤ p.node.bestHead) (hcount : 1 ≤ count) (hmax : count ≤ u32Max) {rest : List ℕ}
    (hrest : ∀ x ∈ rest, x ≤ H) :
    p.Lists filters count (p.pendingNumbers filters H ++ rest) ↔
      InWindow count p.node.bestHead (p.pendingNumbers filters H) ∧
        listedBelow count probeRows (p.storedNumbers filters H)
          ((p.pendingNumbers filters H).length % count) = rest := by
  have hrefines := latestBlocks_refines filters h hpos hle hcount hmax
  have htop : ∀ x ∈ p.pendingNumbers filters H, x ≤ p.node.bestHead :=
    fun x hx => (mem_pendingNumbers.mp hx).2.1
  have hspec : (∃ w, Walk (answering (spec filters H count)) none w ∧ (∀ x ∈ w, x.1 = p) ∧
      w.flatMap Prod.snd = p.pendingNumbers filters H ++ rest) ↔
        InWindow count p.node.bestHead (p.pendingNumbers filters H) ∧
          listedBelow count probeRows (p.storedNumbers filters H)
            ((p.pendingNumbers filters H).length % count) = rest :=
    @stitched_walk_iff IndexedProvider count probeRows H (fun q => q.node.bestHead)
      (fun q => q.pendingNumbers filters H) (fun q => q.storedNumbers filters H) p
      (zones hcount hmax) htop rest hrest
  exact (hrefines.fixed_walk_iff rfl).trans hspec

/-! ## Under a filter -/

/-- The numbers above the seam that match, and those up to it. -/
theorem newest_wanted (hle : H ≤ p.node.bestHead) : newest p.node.bestHead (p.wanted filters) =
    (newest p.node.bestHead fun n => decide (H < n) && p.wanted filters n) ++
      newest H (p.wanted filters) := by
  refine eq_of_mem_iff newest_pairwise
    (List.pairwise_append.mpr ⟨newest_pairwise, newest_pairwise, fun x hx y hy => ?_⟩) fun x => ?_
  · obtain ⟨-, hx⟩ := mem_newest.mp hx
    rw [Bool.and_eq_true, decide_eq_true_eq] at hx
    have hy := (mem_newest.mp hy).1
    omega
  · rw [List.mem_append, mem_newest, mem_newest, mem_newest, Bool.and_eq_true, decide_eq_true_eq]
    constructor
    · rintro ⟨hx, hwanted⟩
      rcases Nat.lt_or_ge H x with hgt | hxle
      · exact .inl ⟨hx, hgt, hwanted⟩
      · exact .inr ⟨hxle, hwanted⟩
    · rintro (⟨hx, -, hwanted⟩ | ⟨hx, hwanted⟩)
      · exact ⟨hx, hwanted⟩
      · exact ⟨le_trans hx hle, hwanted⟩

/-- **When a filtered walk lists what it should.** -/
structure FilterFits (p : IndexedProvider) (filters : BlockFilters) (H count : ℕ) : Prop where
  /-- Where only final blocks are asked for, none of them is above the
  indexed head. -/
  final : filters.finalized = some true →
    ∀ n, H < n → n ≤ p.node.bestHead → p.wanted filters n = false
  /-- Each pending block that matches is at most a page below the top of
  its page. -/
  window : InWindow count p.node.bestHead (p.pendingNumbers filters H)
  /-- The `WHERE` admits what matches. -/
  stored : count < u32Max → ∀ n ≤ H, p.admitted filters n = p.wanted filters n
  /-- With the largest page, what it admits has to fit the page on which
  the pending blocks end. -/
  largest : count = u32Max →
    (p.storedNumbers filters H).take
        (if (p.pendingNumbers filters H).length % count = 0 then 0
        else count - (p.pendingNumbers filters H).length % count) =
      newest H (p.wanted filters)

/-- What is listed from the database is what matches there. -/
theorem listedBelow_eq_iff (hmax : count ≤ u32Max) :
    listedBelow count probeRows (p.storedNumbers filters H)
        ((p.pendingNumbers filters H).length % count) = newest H (p.wanted filters) ↔
      (count < u32Max → ∀ n ≤ H, p.admitted filters n = p.wanted filters n) ∧
      (count = u32Max →
        (p.storedNumbers filters H).take
            (if (p.pendingNumbers filters H).length % count = 0 then 0
            else count - (p.pendingNumbers filters H).length % count) =
          newest H (p.wanted filters)) := by
  unfold listedBelow
  by_cases hlargest : count = u32Max
  · rw [if_pos ((probeRows_eq_zero_iff hmax).mpr hlargest)]
    exact ⟨fun h => ⟨fun hlt => absurd hlargest (Nat.ne_of_lt hlt), fun _ => h⟩,
      fun h => h.2 hlargest⟩
  · rw [if_neg fun hzero => hlargest ((probeRows_eq_zero_iff hmax).mp hzero)]
    have hlt : count < u32Max := Nat.lt_of_le_of_ne hmax hlargest
    constructor
    · refine fun h => ⟨fun _ n hn => ?_, fun heq => absurd heq hlargest⟩
      rw [Bool.eq_iff_iff]
      have hmem := congrArg (n ∈ ·) h
      simp only [storedNumbers, mem_newest, hn, true_and] at hmem
      exact iff_of_eq hmem
    · intro h
      refine List.filter_congr fun n hn => h.1 hlt n ?_
      exact Nat.lt_succ_iff.mp (List.mem_range.mp (List.mem_reverse.mp hn))

/-- Where blocks that are not final are asked for too. -/
theorem lists_wanted_iff_of_ne (filters : BlockFilters) (h : p.db.BlocksUpTo p.node.chain H)
    (hpos : 1 ≤ H) (hle : H ≤ p.node.bestHead) (hcount : 1 ≤ count) (hmax : count ≤ u32Max)
    (hasked : filters.finalized ≠ some true) :
    p.Lists filters count (newest p.node.bestHead (p.wanted filters)) ↔
      p.FilterFits filters H count := by
  have hpending : p.pendingNumbers filters H =
      newest p.node.bestHead fun n => decide (H < n) && p.wanted filters n := if_neg hasked
  rw [newest_wanted hle, ← hpending,
    lists_iff filters h hpos hle hcount hmax fun x hx => (mem_newest.mp hx).1,
    listedBelow_eq_iff hmax]
  exact ⟨fun ⟨hwindow, hstored, hlargest⟩ =>
      ⟨fun hfinal => absurd hfinal hasked, hwindow, hstored, hlargest⟩,
    fun hfits => ⟨hfits.window, hfits.stored, hfits.largest⟩⟩

/-- **A filtered walk lists exactly the matching blocks**, newest first, when
and only when the filters fit. -/
theorem lists_wanted_iff (h : p.db.BlocksUpTo p.node.chain H) (hpos : 1 ≤ H)
    (hle : H ≤ p.node.bestHead) (hcount : 1 ≤ count) (hmax : count ≤ u32Max) :
    p.Lists filters count (newest p.node.bestHead (p.wanted filters)) ↔
      p.FilterFits filters H count := by
  by_cases hskip : filters.finalized = some true
  swap
  · exact lists_wanted_iff_of_ne filters h hpos hle hcount hmax hskip
  have hbelow : ∀ x ∈ newest H (p.wanted filters), x ≤ H := fun x hx => (mem_newest.mp hx).1
  have hiff := lists_iff filters h hpos hle hcount hmax hbelow
  rw [listedBelow_eq_iff hmax] at hiff
  have habove : ∀ x ∈ newest p.node.bestHead fun n => decide (H < n) && p.wanted filters n,
      H < x := by
    intro x hx
    have hx := (mem_newest.mp hx).2
    rw [Bool.and_eq_true, decide_eq_true_eq] at hx
    exact hx.1
  rw [newest_wanted hle]
  have hnone : p.pendingNumbers filters H = [] := if_pos hskip
  have hwindow : InWindow count p.node.bestHead (p.pendingNumbers filters H) := by
    rw [hnone]
    exact fun i hi => absurd hi (Nat.not_lt_zero i)
  constructor
  · intro hlists
    -- What the walk lists in any case has nothing above the indexed head.
    have hfound := (lists_iff filters h hpos hle hcount hmax fun x hx =>
      listedBelow_le (zones hcount hmax) x hx).mpr ⟨hwindow, rfl⟩
    have hsame := hlists.unique hfound
    obtain ⟨hnothing, -⟩ := append_eq_append_of_seam habove
      (fun x hx => (mem_pendingNumbers.mp hx).2.2.1) hbelow
      (listedBelow_le (zones hcount hmax)) hsame
    rw [hnothing] at hlists
    obtain ⟨-, hstored, hlargest⟩ := hiff.mp hlists
    refine ⟨fun _ n hgt hn => ?_, hwindow, hstored, hlargest⟩
    rw [hnone] at hnothing
    have hno := List.filter_eq_nil_iff.mp hnothing n
      (List.mem_reverse.mpr (List.mem_range.mpr (Nat.lt_succ_iff.mpr hn)))
    rw [decide_eq_true hgt, Bool.true_and] at hno
    exact Bool.eq_false_iff.mpr hno
  · intro hfits
    have hnothing : (newest p.node.bestHead fun n => decide (H < n) && p.wanted filters n) =
        p.pendingNumbers filters H := by
      rw [hnone]
      refine List.filter_eq_nil_iff.mpr fun n hn hyes => ?_
      rw [Bool.and_eq_true, decide_eq_true_eq] at hyes
      have hle := Nat.lt_succ_iff.mp (List.mem_range.mp (List.mem_reverse.mp hn))
      rw [hfits.final hskip n hyes.1 hle] at hyes
      exact Bool.false_ne_true hyes.2
    rw [hnothing]
    exact hiff.mpr ⟨hwindow, hfits.stored, hfits.largest⟩

/-! ## A match below the window -/

/-- Only block 3 has an extrinsic. -/
def quietChain : Chain := fun n => if n = 3 then tickChain n else bareChain n

theorem quietChain_typed (n : ℕ) : (quietChain n).Typed := by
  unfold quietChain
  split
  · exact tickChain_typed n
  · exact
      { extrinsics := Nat.zero_le _
        tip := fun _ h => absurd h List.not_mem_nil
        fee := fun _ h => absurd h List.not_mem_nil }

/-- The indexer has stored blocks 0 and 1, and the chain is final up to
its best head. -/
def quietAt (head : ℕ) (h : head ≤ u64Max) : IndexedProvider where
  net := plainNetwork
  db := (Backfill.indexBlock quietChain 1 {} (Backfill.indexBlock quietChain 0 {} Db.empty).1).1
  node :=
    { chain := quietChain
      finalizedHead := head
      bestHead := head
      finalized_le := le_rfl
      best_le := h
      typed := fun n _ => quietChain_typed n }

theorem quietAt_blocksUpTo {head : ℕ} (hhead : head ≤ u64Max) :
    (quietAt head hhead).db.BlocksUpTo quietChain 1 where
  head_le := by decide
  stored := by
    intro n hn
    rcases Nat.le_one_iff_eq_zero_or_eq_one.mp hn with rfl | rfl
    · exact ⟨none, rfl⟩
    · exact ⟨none, rfl⟩
  only := by
    intro k hk
    have hkeys : (quietAt head hhead).db.blocks.keys = [0, 1] := by rfl
    have hmem := Table.mem_keys_iff.mpr hk
    rw [hkeys] at hmem
    rcases List.mem_pair.mp hmem with rfl | rfl
    · exact ⟨0, by decide, by decide⟩
    · exact ⟨1, by decide, by decide⟩

/-- With blocks 0 to 4, pages of one list the block that has an
extrinsic. -/
theorem lists_wanted_quiet : (quietAt 4 (by decide)).Lists ⟨none, some 1⟩ 1
    (newest 4 ((quietAt 4 (by decide)).wanted ⟨none, some 1⟩)) := by
  refine (lists_wanted_iff (quietAt_blocksUpTo (by decide)) le_rfl (by decide) le_rfl
    (by decide)).mpr ⟨nofun, ?_, ?_, fun h => absurd h (by decide)⟩
  · have hpending : (quietAt 4 (by decide)).pendingNumbers ⟨none, some 1⟩ 1 = [3] := by decide
    rw [hpending]
    intro i hi
    obtain rfl : i = 0 := Nat.lt_one_iff.mp hi
    exact Nat.le_refl 4
  · intro _ n hn
    rcases Nat.le_one_iff_eq_zero_or_eq_one.mp hn with rfl | rfl
    · decide
    · decide

/-- **With one block more they do not**, and where only final blocks are
asked for, those above the indexed head are left out. -/
theorem not_lists_wanted_quiet :
    (quietAt 5 (by decide)).db.BlocksUpTo quietChain 1 ∧
      ¬ (quietAt 5 (by decide)).Lists ⟨none, some 1⟩ 1
        (newest 5 ((quietAt 5 (by decide)).wanted ⟨none, some 1⟩)) ∧
      ¬ (quietAt 5 (by decide)).Lists ⟨some true, none⟩ 10
        (newest 5 ((quietAt 5 (by decide)).wanted ⟨some true, none⟩)) := by
  refine ⟨quietAt_blocksUpTo (by decide), fun h => ?_, fun h => ?_⟩
  · have hempty : (quietAt 5 (by decide)).Lists ⟨none, some 1⟩ 1 [] :=
      lists_of_page rfl rfl rfl
    exact absurd (h.unique hempty) (by decide)
  · have hstored : (quietAt 5 (by decide)).Lists ⟨some true, none⟩ 10 [1, 0] :=
      lists_of_page rfl rfl rfl
    exact absurd (h.unique hstored) (by decide)

/-! ## Without a filter -/

/-- Nothing is asked of a block. -/
def noFilters : BlockFilters := ⟨none, none⟩

/-- **A walk lists the chain**: every number once, from the best head down
to genesis, in full pages but for the last, each of which tells whether
there are more. -/
def WalksDown (p : IndexedProvider) (count : ℕ) : Prop :=
  ∃ w : List (IndexedProvider × Page Block),
    Walk (pageRead (fun q req => q.latestBlocks req noFilters) count) none w ∧
      (∀ x ∈ w, x.1 = p) ∧
      (w.flatMap fun x => x.2.items.map Block.number) = (List.range (p.node.bestHead + 1)).reverse ∧
      (∀ x ∈ w.dropLast, x.2.items.length = count) ∧
      ∀ pre x post, w = pre ++ x :: post →
        (x.2.pageInfo.hasMore = true ↔ ∃ y ∈ post, y.2.items ≠ [])

/-- Every number up to `n`. -/
theorem newest_true {n : ℕ} {f : ℕ → Bool} (hf : ∀ x, f x = true) :
    newest n f = (List.range (n + 1)).reverse :=
  List.filter_eq_self.mpr fun x _ => hf x

theorem wanted_noFilters (n : ℕ) : p.wanted noFilters n = true := rfl

/-- All that is above the indexed head is pending. -/
theorem pendingNumbers_noFilters (hle : H ≤ p.node.bestHead) :
    p.pendingNumbers noFilters H =
      (List.range' (H + 1) (p.node.bestHead - H)).reverse := by
  refine eq_of_mem_iff newest_pairwise (List.pairwise_reverse.mpr List.pairwise_lt_range')
    fun x => ?_
  rw [mem_pendingNumbers, List.mem_reverse, List.mem_range'_1, wanted_noFilters]
  constructor
  · rintro ⟨-, hx, hgt, -⟩
    omega
  · rintro ⟨hgt, hx⟩
    exact ⟨(Option.some_ne_none true).symm, by omega, hgt, rfl⟩

/-- **Without a filter** a pending block is never below its window. -/
theorem inWindow_noFilters (hcount : 1 ≤ count) (hle : H ≤ p.node.bestHead) :
    InWindow count p.node.bestHead (p.pendingNumbers noFilters H) := by
  rw [pendingNumbers_noFilters hle]
  generalize p.node.bestHead = B at hle ⊢
  have hget : ∀ i (hi : i < (List.range' (H + 1) (B - H)).reverse.length),
      (List.range' (H + 1) (B - H)).reverse[i] = B - i := by
    intro i hi
    rw [List.length_reverse, List.length_range'] at hi
    rw [List.getElem_reverse, List.getElem_range', List.length_range']
    omega
  -- Each page starts where the one before it ends.
  have htop : ∀ k, k * count < B - H →
      pageTop count B (List.range' (H + 1) (B - H)).reverse k = B - k * count := by
    intro k hk
    rcases k with - | k
    · rw [Nat.zero_mul, Nat.sub_zero]
      rfl
    · have hpage : 0 < (k + 1) * count := Nat.mul_pos (Nat.succ_pos k) hcount
      have hlast : (k + 1) * count - 1 < (List.range' (H + 1) (B - H)).reverse.length := by
        rw [List.length_reverse, List.length_range']
        omega
      rw [pageTop, List.getD_eq_getElem?_getD, List.getElem?_eq_getElem hlast,
        Option.getD_some, hget _ hlast]
      omega
  intro i hi
  rw [hget i hi]
  rw [List.length_reverse, List.length_range'] at hi
  have hdiv : i / count * count + i % count = i := Nat.div_add_mod' i count
  have hmod : i % count < count := Nat.mod_lt i hcount
  rw [htop (i / count) (by omega)]
  omega

/-- **The filters fit** where none is set, but for the probe of the largest
page. -/
theorem filterFits_noFilters_iff (hcount : 1 ≤ count) (hle : H ≤ p.node.bestHead) :
    p.FilterFits noFilters H count ↔ (count = u32Max →
      (p.node.bestHead - H) % count ≠ 0 ∧ H + 1 + (p.node.bestHead - H) % count ≤ count) := by
  have hlen : (p.pendingNumbers noFilters H).length = p.node.bestHead - H := by
    rw [pendingNumbers_noFilters hle, List.length_reverse, List.length_range']
  have hstored : p.storedNumbers noFilters H = newest H (p.wanted noFilters) := rfl
  have hrows : (newest H (p.wanted noFilters)).length = H + 1 := by
    rw [newest_true wanted_noFilters, List.length_reverse, List.length_range]
  have hall : ∀ m, (newest H (p.wanted noFilters)).take m = newest H (p.wanted noFilters) ↔
      H + 1 ≤ m := by
    intro m
    refine ⟨fun htake => ?_, fun hm => List.take_of_length_le (hrows ▸ hm)⟩
    have hlen := congrArg List.length htake
    rw [List.length_take, hrows] at hlen
    omega
  constructor
  · intro hfits hlargest
    have htake := hfits.largest hlargest
    rw [hstored, hall, hlen] at htake
    split at htake
    · omega
    · omega
  · intro hlargest
    refine ⟨fun hfinal => absurd hfinal (Option.some_ne_none true).symm,
      inWindow_noFilters hcount hle, fun _ n _ => rfl, fun heq => ?_⟩
    obtain ⟨hne, hfit⟩ := hlargest heq
    rw [hstored, hall, hlen, if_neg hne]
    omega

/-- **An unfiltered walk lists the chain**, for every page size but the
largest, and for that when the stored blocks fit the page on which the
pending ones end. -/
theorem walksDown_iff (h : p.db.BlocksUpTo p.node.chain H) (hpos : 1 ≤ H)
    (hle : H ≤ p.node.bestHead) (hcount : 1 ≤ count) (hmax : count ≤ u32Max) :
    p.WalksDown count ↔ (count = u32Max →
      (p.node.bestHead - H) % count ≠ 0 ∧ H + 1 + (p.node.bestHead - H) % count ≤ count) := by
  have hlists := lists_wanted_iff_of_ne noFilters h hpos hle hcount hmax
    (Option.some_ne_none true).symm
  rw [newest_true wanted_noFilters, filterFits_noFilters_iff hcount hle] at hlists
  rw [← hlists]
  have hrefines := latestBlocks_refines noFilters h hpos hle hcount hmax
  have hno : ∀ k ∈ (none : Option ℕ), p.CursorOk k := fun _ hk => absurd hk (Option.not_mem_none _)
  constructor
  · rintro ⟨w, hw, hs, hcontent, -, -⟩
    exact ⟨w, hw, hs, hcontent⟩
  · rintro ⟨w, hw, hs, hcontent⟩
    refine ⟨w, hw, hs, hcontent, ?_, ?_⟩
    · have hspecWalk := hrefines.walk (Option.map_none (f := blockCursor.toText)).symm hno hw hs
      have hfull := length_spec_walk hcount hmax hspecWalk fun y hy => by
        obtain ⟨x, hx, rfl⟩ := List.mem_map.mp hy
        exact hs x hx
      rw [← List.map_dropLast] at hfull
      intro x hx
      have hlen := hfull _ (List.mem_map_of_mem hx)
      rwa [List.length_map] at hlen
    · rintro pre x post rfl
      obtain rfl : x.1 = p := hs x (List.mem_append_right _ List.mem_cons_self)
      obtain ⟨c, hc, hread, hnumbers, hend⟩ := hrefines.split
        (Option.map_none (f := blockCursor.toText)).symm hno hw hs
      obtain ⟨page, hpage, -, -, hmore⟩ := latestBlocks_page noFilters h hpos hcount hmax hc
      obtain rfl : page = x.2 := Except.ok.inj (hpage.symm.trans (pageRead_eq_some.mp hread).1)
      change _ = (x.1.latestSpec noFilters H count c).1 at hnumbers
      change (x.1.latestSpec noFilters H count c).2 = none → _ at hend
      rcases hnext : (x.1.latestSpec noFilters H count c).2 with - | k
      · rw [hmore, hnext, hend hnext]
        exact ⟨fun h => absurd h Bool.false_ne_true, fun ⟨y, hy, _⟩ => absurd hy List.not_mem_nil⟩
      · refine ⟨fun _ => ?_, fun _ => by rw [hmore, hnext, Option.isSome_some]⟩
        obtain ⟨-, hlast, hk, -⟩ :=
          stitchedPage_eq_some (zones hcount hmax) (Prod.ext hnumbers.symm hnext)
        by_contra hnone
        -- The page would end the list, but not at genesis.
        have hpost : (post.flatMap fun y => y.2.items.map Block.number) = [] := by
          refine List.flatMap_eq_nil_iff.mpr fun y hy => List.map_eq_nil_iff.mpr ?_
          by_contra hne
          exact hnone ⟨y, hy, hne⟩
        have hgenesis := congrArg List.getLast? hcontent
        rw [List.flatMap_append, List.flatMap_cons, hpost, List.append_nil, List.getLast?_append,
          hlast, List.getLast?_reverse, List.head?_range, if_neg (Nat.succ_ne_zero _)] at hgenesis
        exact Nat.ne_of_gt hk (Option.some.inj hgenesis)

/-- Pages of one list the chain. -/
theorem walksDown_quiet : (quietAt 5 (by decide)).WalksDown 1 :=
  (walksDown_iff (quietAt_blocksUpTo (by decide)) le_rfl (by decide) le_rfl (by decide)).mpr
    fun h => absurd h (by decide)

/-- **The largest page is empty** where nothing is pending: the probe asks
for no row. -/
theorem not_walksDown_largest :
    (quietAt 1 (by decide)).db.BlocksUpTo quietChain 1 ∧
      ¬ (quietAt 1 (by decide)).WalksDown u32Max := by
  refine ⟨quietAt_blocksUpTo (by decide), fun ⟨w, hw, hs, hcontent, _⟩ => ?_⟩
  have hempty : (quietAt 1 (by decide)).Lists noFilters u32Max [] :=
    lists_of_page rfl rfl rfl
  have hlists : (quietAt 1 (by decide)).Lists noFilters u32Max _ := ⟨w, hw, hs, hcontent⟩
  exact absurd (hlists.unique hempty) (by decide)

end IndexedProvider

end AllfeatExplorer
