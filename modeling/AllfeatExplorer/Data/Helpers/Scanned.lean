import AllfeatExplorer.Lib.Scan
import AllfeatExplorer.Data.Helpers.Enumerate
import AllfeatExplorer.Data.Helpers.Paging
import AllfeatExplorer.Data.Model.ChainScan

/-!
# What a scan of the chain enumerates

A page of a scan is the first rows of a window: the blocks from the
cursor's own down to as many below it as the scan is deep. So a walk
shows an initial part of the matching rows, newest first, and all of them
exactly when each window reaches its page and the row after.
-/

namespace AllfeatExplorer

open Queries

variable {σ α β ε : Type} {rows : ℕ → List α} {key : α → ℕ ×ₗ ℕ} {matching : α → Bool}
  {tip depth count lo len m k n : ℕ} {a : α} {c : Option α}

/-! ## The scan -/

theorem scanRows_eq {target : ℕ} {kept : α → Bool} (l items : List α)
    (h : items.length ≤ target) :
    Rpc.scanRows target kept l items =
      (items ++ (l.filter kept).take (target - items.length),
        decide (target - items.length < (l.filter kept).length)) := by
  induction l generalizing items with
  | nil => simp [Rpc.scanRows]
  | cons row rest ih =>
    rw [Rpc.scanRows]
    by_cases hkept : kept row = true
    · rw [if_neg (by rw [hkept]; exact Bool.noConfusion), List.filter_cons_of_pos hkept]
      by_cases hfull : target ≤ items.length
      · have hroom : target - items.length = 0 := by omega
        rw [if_pos hfull, hroom, List.take_zero, List.append_nil]
        exact congrArg _ (decide_eq_true (Nat.succ_pos _)).symm
      · have hroom : target - items.length = target - (items ++ [row]).length + 1 := by
          rw [List.length_append, List.length_singleton]
          omega
        rw [if_neg hfull, ih (items ++ [row]) (by
          rw [List.length_append, List.length_singleton]
          omega), hroom, List.take_succ_cons, List.append_assoc, List.singleton_append,
          List.length_cons]
        simp only [Nat.add_lt_add_iff_right]
    · rw [Bool.not_eq_true] at hkept
      rw [if_pos hkept, ih items h, List.filter_cons_of_neg (by rw [hkept]; exact Bool.noConfusion)]

/-- **The scan keeps the first of what it may keep**, where no block
fails. -/
theorem scanChain_eq {target : ℕ} {kept : α → Bool} (blocks : List (List α)) (items : List α)
    (h : items.length ≤ target) :
    Rpc.scanChain target kept (blocks.map fun rows => (.ok (some rows) : Except ε _)) items =
      .ok (items ++ ((blocks.flatMap List.reverse).filter kept).take (target - items.length)) := by
  induction blocks generalizing items with
  | nil => simp [Rpc.scanChain]
  | cons block rest ih =>
    rw [List.map_cons, Rpc.scanChain, scanRows_eq block.reverse items h, List.flatMap_cons,
      List.filter_append]
    generalize block.reverse.filter kept = found
    simp only
    by_cases hdone : target - items.length < found.length
    · rw [decide_eq_true hdone, if_pos rfl, List.take_append_of_le_length (by omega)]
    · rw [decide_eq_false hdone, if_neg Bool.false_ne_true, List.take_of_length_le (by omega)]
      have hlen : (items ++ found).length = items.length + found.length := List.length_append
      rw [ih _ (by omega), hlen, List.append_assoc, List.take_append]
      congr 3
      · rw [List.take_of_length_le (by omega)]
      · congr 1
        omega

/-! ## The rows of a chain -/

/-- **The rows of `len` blocks** from `lo` on, newest first. -/
def rowsDown (rows : ℕ → List α) (lo len : ℕ) : List α :=
  (List.range' lo len).reverse.flatMap fun n => (rows n).reverse

/-- **The matching rows** of the blocks up to `tip`, newest first. -/
def matchingDown (rows : ℕ → List α) (matching : α → Bool) (tip : ℕ) : List α :=
  (rowsDown rows 0 (tip + 1)).filter matching

/-- **The rows of a block** are keyed by its number, and in order. -/
structure RowsKeyed (rows : ℕ → List α) (key : α → ℕ ×ₗ ℕ) (tip : ℕ) : Prop where
  block : ∀ n ≤ tip, ∀ a ∈ rows n, (ofLex (key a)).1 = n
  sorted : ∀ n ≤ tip, (rows n).Pairwise fun a b => key a < key b

/-- Where the scan after `c` starts. -/
def scanStart (key : α → ℕ ×ₗ ℕ) (tip : ℕ) (c : Option α) : ℕ :=
  c.elim tip fun a => min (ofLex (key a)).1 tip

/-- **In reach of the scan after `c`**: at most `depth` blocks below where
it starts. -/
def scanReach (key : α → ℕ ×ₗ ℕ) (tip depth : ℕ) (c : Option α) (a : α) : Bool :=
  decide (scanStart key tip c ≤ (ofLex (key a)).1 + depth)

theorem rowsDown_append :
    rowsDown rows lo (m + k) = rowsDown rows (lo + m) k ++ rowsDown rows lo m := by
  rw [rowsDown, rowsDown, rowsDown, ← List.range'_append_1, List.reverse_append,
    List.flatMap_append]

theorem mem_rowsDown : a ∈ rowsDown rows lo len ↔ ∃ n, lo ≤ n ∧ n < lo + len ∧ a ∈ rows n := by
  rw [rowsDown, List.mem_flatMap]
  simp only [List.mem_reverse, List.mem_range'_1, and_assoc]

theorem scanStart_le : scanStart key tip c ≤ tip := by
  cases c with
  | none => exact le_rfl
  | some a => exact min_le_right _ _

namespace RowsKeyed

theorem block_of_mem (h : RowsKeyed rows key tip) (hlen : lo + len ≤ tip + 1)
    (ha : a ∈ rowsDown rows lo len) : lo ≤ (ofLex (key a)).1 ∧ (ofLex (key a)).1 < lo + len := by
  obtain ⟨n, hlo, hhi, hmem⟩ := mem_rowsDown.mp ha
  rw [h.block n (by omega) a hmem]
  exact ⟨hlo, hhi⟩

theorem rowsDown_pairwise (h : RowsKeyed rows key tip) (hlen : lo + len ≤ tip + 1) :
    (rowsDown rows lo len).Pairwise fun a b => key b < key a := by
  refine List.pairwise_flatMap.mpr ⟨fun n hn => ?_, ?_⟩
  · rw [List.mem_reverse, List.mem_range'_1] at hn
    exact List.pairwise_reverse.mpr (h.sorted n (by omega))
  · refine (List.pairwise_reverse.mpr List.pairwise_lt_range').imp_of_mem ?_
    intro i j hi hj hij a ha b hb
    rw [List.mem_reverse, List.mem_range'_1] at hi hj
    rw [List.mem_reverse] at ha hb
    rw [Prod.Lex.lt_iff, h.block i (by omega) a ha, h.block j (by omega) b hb]
    exact .inl hij

theorem matching_pairwise (h : RowsKeyed rows key tip) (matching : α → Bool) :
    (matchingDown rows matching tip).Pairwise fun a b => key b < key a :=
  (h.rowsDown_pairwise (by omega)).filter _

theorem block_le (h : RowsKeyed rows key tip) (ha : a ∈ matchingDown rows matching tip) :
    (ofLex (key a)).1 ≤ tip := by
  have hlt := (h.block_of_mem (by omega) (List.mem_filter.mp ha).1).2
  omega

/-- A scan that has met a row starts at its block. -/
theorem scanStart_some (h : RowsKeyed rows key tip) (ha : a ∈ matchingDown rows matching tip) :
    scanStart key tip (some a) = (ofLex (key a)).1 :=
  min_eq_left (h.block_le ha)

/-- **What a scan finds** of the rows older than its cursor is what is in
reach of it. -/
theorem found_eq (h : RowsKeyed rows key tip) (depth : ℕ)
    (hc : ∀ a ∈ c, a ∈ matchingDown rows matching tip) :
    (rowsDown rows (scanStart key tip c - depth)
        (scanStart key tip c + 1 - (scanStart key tip c - depth))).filter
        (fun a => below (c.map key) (key a) && matching a) =
      (olderThan key (matchingDown rows matching tip) (c.map key)).takeWhile
        (scanReach key tip depth c) := by
  have hstart : scanStart key tip c ≤ tip := scanStart_le
  generalize hkept : (fun a => below (c.map key) (key a) && matching a) = kept
  -- The chain in three: above the start of the scan, the scan, below it.
  have hsplit : rowsDown rows 0 (tip + 1) =
      rowsDown rows (scanStart key tip c + 1) (tip - scanStart key tip c) ++
        (rowsDown rows (scanStart key tip c - depth)
          (scanStart key tip c + 1 - (scanStart key tip c - depth)) ++
        rowsDown rows 0 (scanStart key tip c - depth)) := by
    have htip : tip + 1 = (scanStart key tip c + 1) + (tip - scanStart key tip c) := by omega
    have hscan : scanStart key tip c + 1 = (scanStart key tip c - depth) +
        (scanStart key tip c + 1 - (scanStart key tip c - depth)) := by omega
    rw [htip, rowsDown_append, Nat.zero_add]
    congr 1
    conv_lhs => rw [hscan, rowsDown_append, Nat.zero_add]
  have habove : (rowsDown rows (scanStart key tip c + 1) (tip - scanStart key tip c)).filter kept =
      [] := by
    refine List.filter_eq_nil_iff.mpr fun a ha hk => ?_
    obtain ⟨hlo, hhi⟩ := h.block_of_mem (by omega) ha
    cases c with
    | none =>
      have htop : scanStart key tip none = tip := rfl
      omega
    | some b =>
      rw [h.scanStart_some (hc b rfl)] at hlo
      rw [← hkept, Bool.and_eq_true, Option.map_some, below_some, Prod.Lex.lt_iff] at hk
      omega
  have hreach : ∀ a ∈ (rowsDown rows (scanStart key tip c - depth)
      (scanStart key tip c + 1 - (scanStart key tip c - depth))).filter kept,
      scanReach key tip depth c a = true := by
    intro a ha
    obtain ⟨hlo, -⟩ := h.block_of_mem (by omega) (List.mem_filter.mp ha).1
    exact decide_eq_true (by omega)
  have hbelow : ((rowsDown rows 0 (scanStart key tip c - depth)).filter kept).takeWhile
      (scanReach key tip depth c) = [] := by
    cases hlow : (rowsDown rows 0 (scanStart key tip c - depth)).filter kept with
    | nil => rfl
    | cons a rest =>
      have ha : a ∈ rowsDown rows 0 (scanStart key tip c - depth) := by
        refine (List.mem_filter (p := kept)).mp ?_ |>.1
        rw [hlow]
        exact List.mem_cons_self
      obtain ⟨-, hhi⟩ := h.block_of_mem (by omega) ha
      refine List.takeWhile_cons_of_neg ?_
      rw [scanReach, decide_eq_true_eq]
      omega
  rw [olderThan, matchingDown, List.filter_filter, hkept, hsplit, List.filter_append, habove,
    List.nil_append, List.filter_append, List.takeWhile_append_of_pos hreach, hbelow,
    List.append_nil]

/-- Further down the list the reach is further down. -/
theorem reach_next (h : RowsKeyed rows key tip) (matching : α → Bool) (depth count j : ℕ) (a : α)
    (ha : scanReach key tip depth (cursorAt count (matchingDown rows matching tip) j) a = true) :
    scanReach key tip depth (cursorAt count (matchingDown rows matching tip) (j + 1)) a = true := by
  have hsorted := h.matching_pairwise matching
  generalize hall : matchingDown rows matching tip = all at ha hsorted ⊢
  unfold scanReach at *
  rw [decide_eq_true_eq] at *
  refine le_trans ?_ ha
  unfold cursorAt
  rw [Nat.succ_mul, List.take_add, List.getLast?_append]
  cases hnext : ((all.drop (j * count)).take count).getLast? with
  | none => exact le_rfl
  | some b =>
    have hb : b ∈ all.drop (j * count) := List.mem_of_mem_take (List.mem_of_getLast? hnext)
    cases hlast : (all.take (j * count)).getLast? with
    | none =>
      exact scanStart_le
    | some d =>
      have hd : d ∈ all.take (j * count) := List.mem_of_getLast? hlast
      have hlt : key b < key d := by
        rw [← List.take_append_drop (j * count) all] at hsorted
        exact (List.pairwise_append.mp hsorted).2.2 d hd b hb
      change min (ofLex (key b)).1 tip ≤ min (ofLex (key d)).1 tip
      rw [Prod.Lex.lt_iff] at hlt
      omega

end RowsKeyed

/-- **What is left of a scan**, where the node has the blocks. -/
theorem RowsKeyed.scanChain_found (h : RowsKeyed rows key tip) (matching : α → Bool)
    (depth count : ℕ) {fetch : ℕ → Except ε (Option (List α))}
    (hfetch : ∀ n ≤ tip, fetch n = .ok (some (rows n)))
    (hc : ∀ a ∈ c, a ∈ matchingDown rows matching tip) :
    Rpc.scanChain (count + 1) (fun a => below (c.map key) (key a) && matching a)
        ((Rpc.scanRange (scanStart key tip c - depth) (scanStart key tip c)).map fetch) [] =
      .ok (((olderThan key (matchingDown rows matching tip) (c.map key)).takeWhile
        (scanReach key tip depth c)).take (count + 1)) := by
  have hstart : scanStart key tip c ≤ tip := scanStart_le
  have hblocks : (Rpc.scanRange (scanStart key tip c - depth) (scanStart key tip c)).map fetch =
      ((Rpc.scanRange (scanStart key tip c - depth) (scanStart key tip c)).map rows).map
        fun rows => .ok (some rows) := by
    rw [List.map_map]
    refine List.map_congr_left fun n hn => hfetch n ?_
    rw [Rpc.scanRange, List.mem_reverse, List.mem_range'_1] at hn
    omega
  rw [hblocks, scanChain_eq _ [] (Nat.zero_le _), List.nil_append, List.length_nil, Nat.sub_zero,
    List.flatMap_map, ← h.found_eq depth hc]
  rfl

/-- A page needs one row more of what is found. -/
theorem scannedPage_take (count : ℕ) (text : α → String) (found : List α) :
    Rpc.scannedPage count text (found.take (count + 1)) = Rpc.scannedPage count text found := by
  unfold Rpc.scannedPage
  rw [trimProbe_take, trimProbe_eq]

/-! ## What it enumerates -/

/-- What is older than a page's cursor are the rows after those before
it. -/
theorem olderThan_cursorAt {all : List α} (hsorted : all.Pairwise fun a b => key b < key a)
    (count j : ℕ) :
    olderThan key all ((cursorAt count all j).map key) = all.drop (j * count) := by
  cases hc : cursorAt count all j with
  | none =>
    rw [Option.map_none, olderThan_none]
    rcases List.take_eq_nil_iff.mp (List.getLast?_eq_none_iff.mp hc) with hzero | rfl
    · rw [hzero, List.drop_zero]
    · rw [List.drop_nil]
  | some a => exact olderThan_take hsorted hc

/-- The last row of a page is the cursor of the next. -/
theorem cursorAt_succ {all : List α}
    (h : ((all.drop (j * count)).take count).getLast? = some a) :
    cursorAt count all (j + 1) = some a := by
  rw [cursorAt, Nat.succ_mul, List.take_add, List.getLast?_append, h]
  rfl

/-- Rows that fit a page are on it, and none is to come. -/
theorem scannedPage_of_length_le (text : α → String) {found : List α}
    (hfits : found.length ≤ count) :
    Rpc.scannedPage count text found = ⟨found, ⟨none, none, false⟩⟩ := by
  unfold Rpc.scannedPage trimProbe
  rw [if_neg (Nat.not_lt.mpr hfits)]
  rfl

/-- **A walk over a scanned list** shows an initial part of the matching
rows, newest first. Its last page is the one after the cursor of page `k`,
and what it leaves out starts with a row that is deeper below that cursor
than the scan goes. It leaves out nothing exactly when every window
reaches its page and the row after. -/
theorem enumerates_scanned (list : σ → PageRequest → Except ε (Page α)) {s : σ}
    {text : α → String} (hcount : 1 ≤ count) (h : RowsKeyed rows key tip)
    (hpage : ∀ c, (∀ a ∈ c, a ∈ matchingDown rows matching tip) →
      list s ⟨count, c.map text⟩ = .ok (Rpc.scannedPage count text
        ((olderThan key (matchingDown rows matching tip) (c.map key)).takeWhile
          (scanReach key tip depth c)))) :
    ∃ k shown rest, matchingDown rows matching tip = shown ++ rest ∧
      shown = shownUpTo count (scanReach key tip depth) (matchingDown rows matching tip) k ∧
      LastPage count (scanReach key tip depth) (matchingDown rows matching tip) k ∧
      Enumerates list count s shown ∧
      (∃ page, list s ⟨count, (cursorAt count shown k).map text⟩ = .ok page ∧
        page.items = shown.drop (k * count) ∧ page.pageInfo = ⟨none, none, false⟩) ∧
      (∀ a ∈ rest.head?, scanReach key tip depth (cursorAt count shown k) a = false) ∧
      (rest = [] ↔ WindowsReach count (scanReach key tip depth)
        (matchingDown rows matching tip)) := by
  have hsorted := h.matching_pairwise matching
  have hmono := h.reach_next matching depth count
  generalize matchingDown rows matching tip = all at hsorted hmono hpage ⊢
  obtain ⟨k, hk⟩ := exists_lastPage hcount (scanReach key tip depth) all
  have hlast : cursorAt count (shownUpTo count (scanReach key tip depth) all k) k =
      cursorAt count all k := cursorAt_shown count _ all le_rfl
  refine ⟨k, _, _, hk.shown_append.symm, rfl, hk, ?_, ?_, ?_, ?_⟩
  · have hshown : (shownUpTo count (scanReach key tip depth) all k).Pairwise
        fun a b => key b < key a := hsorted.sublist (List.take_sublist _ _)
    -- The cursors that a walk meets are the last rows of pages.
    refine Enumerates.of_pages text
      (fun a => ∃ j ≤ k, cursorAt count (shownUpTo count (scanReach key tip depth) all k) j =
        some a) hcount hshown ?_ ?_
    · intro c hc
      obtain ⟨j, hj, rfl⟩ : ∃ j ≤ k, c = cursorAt count all j := by
        cases c with
        | none =>
          refine ⟨0, Nat.zero_le k, ?_⟩
          rw [cursorAt, Nat.zero_mul]
          rfl
        | some a =>
          obtain ⟨j, hj, ha⟩ := hc a rfl
          exact ⟨j, hj, ha.symm.trans (cursorAt_shown count _ all hj)⟩
      have hmem : ∀ a ∈ cursorAt count all j, a ∈ all := fun a ha =>
        List.mem_of_mem_take (List.mem_of_getLast? ha)
      refine PageAfter.of_trim none (windowAt count (scanReach key tip depth) all j) ?_ ?_
      · rw [hpage _ hmem, olderThan_cursorAt hsorted]
        rfl
      · rw [hk.probe_eq hmono hj]
        conv_rhs => rw [← cursorAt_shown count (scanReach key tip depth) all hj,
          olderThan_cursorAt hshown]
    · intro c hc hmore a ha
      obtain ⟨j, hj, rfl⟩ : ∃ j ≤ k,
          c = cursorAt count (shownUpTo count (scanReach key tip depth) all k) j := by
        cases c with
        | none =>
          refine ⟨0, Nat.zero_le k, ?_⟩
          rw [cursorAt, Nat.zero_mul]
          rfl
        | some a =>
          obtain ⟨j, hj, ha⟩ := hc a rfl
          exact ⟨j, hj, ha.symm⟩
      rw [olderThan_cursorAt hshown] at hmore ha
      rw [List.length_drop, hk.length_shown] at hmore
      have hshort := hk.short
      have hlt : (j + 1) * count < (k + 1) * count := by
        rw [Nat.succ_mul, Nat.succ_mul]
        omega
      exact ⟨j + 1, Nat.lt_succ_iff.mp (Nat.lt_of_mul_lt_mul_right hlt), cursorAt_succ ha⟩
  · have hmem : ∀ a ∈ cursorAt count all k, a ∈ all := fun a ha =>
      List.mem_of_mem_take (List.mem_of_getLast? ha)
    have hwindow := scannedPage_of_length_le text hk.short
    refine ⟨⟨_, ⟨none, none, false⟩⟩, ?_, drop_shown.symm, rfl⟩
    rw [hlast, hpage _ hmem, olderThan_cursorAt hsorted]
    exact congrArg Except.ok hwindow
  · intro a ha
    rw [hlast]
    exact hk.not_reach ha
  · rw [← hk.shown_eq_iff]
    constructor
    · intro hnil
      have hwhole := hk.shown_append
      rwa [hnil, List.append_nil] at hwhole
    · intro heq
      rw [heq, List.drop_length]

/-- A chain that is no longer than the scan is deep is shown whole. -/
theorem windowsReach_of_le {all : List α} (h : tip ≤ depth) :
    WindowsReach count (scanReach key tip depth) all := by
  intro j _ a _
  have hstart : scanStart key tip (cursorAt count all j) ≤ tip := scanStart_le
  exact decide_eq_true (by omega)

/-! ## Pages mapped -/

/-- A page of what `f` makes of the rows. -/
def mapPage (f : α → β) (p : Page α) : Page β := ⟨p.items.map f, p.pageInfo⟩

theorem pagesContent_mapPage (f : α → β) (w : List (σ × Page α)) :
    pagesContent (w.map fun x => (x.1, mapPage f x.2)) = (pagesContent w).map f := by
  induction w with
  | nil => rfl
  | cons x w ih =>
    rw [List.map_cons, pagesContent_cons, pagesContent_cons, List.map_append, ih, mapPage]

/-- **A list whose pages are mapped** enumerates what the rows are mapped
to. -/
theorem Enumerates.map {list : σ → PageRequest → Except ε (Page α)}
    {list' : σ → PageRequest → Except ε (Page β)} {s : σ} {all : List α} (f : α → β)
    (hlist : ∀ req page, list s req = .ok page → list' s req = .ok (mapPage f page))
    (h : Enumerates list count s all) : Enumerates list' count s (all.map f) := by
  obtain ⟨w, hw, hs, hcontent, hflags⟩ := h
  have hwalk : ∀ (w : List (σ × Page α)) (c : Option String), Walk (pageRead list count) c w →
      (∀ x ∈ w, x.1 = s) → Walk (pageRead list' count) c (w.map fun x => (x.1, mapPage f x.2)) := by
    intro w c hw hs
    induction hw with
    | last hread =>
      obtain rfl := hs _ List.mem_cons_self
      obtain ⟨hp, hnext⟩ := pageRead_eq_some.mp hread
      exact .last (pageRead_eq_some.mpr ⟨hlist _ _ hp, hnext⟩)
    | next hread _ ih =>
      obtain rfl := hs _ List.mem_cons_self
      obtain ⟨hp, hnext⟩ := pageRead_eq_some.mp hread
      exact .next (pageRead_eq_some.mpr ⟨hlist _ _ hp, hnext⟩)
        (ih fun x hx => hs x (List.mem_cons_of_mem _ hx))
  refine ⟨_, hwalk w none hw hs, ?_, ?_, ?_⟩
  · intro y hy
    obtain ⟨x, hx, rfl⟩ := List.mem_map.mp hy
    exact hs x hx
  · rw [pagesContent_mapPage, hcontent]
  · intro pre y post hsplit
    obtain ⟨pre, rest, rfl, rfl, hrest⟩ := List.map_eq_append_iff.mp hsplit
    obtain ⟨x, post, rfl, rfl, rfl⟩ := List.map_eq_cons_iff.mp hrest
    refine (hflags pre x post rfl).trans (not_congr ?_)
    rw [← List.map_singleton (f := fun x : σ × Page α => (x.1, mapPage f x.2)),
      ← List.map_append, pagesContent_mapPage]
    constructor
    · intro heq
      rw [heq]
    · intro heq
      -- The pages so far are an initial part of the list, so their number tells.
      have hprefix : pagesContent (pre ++ [x]) <+: all := by
        have hparts : pre ++ x :: post = (pre ++ [x]) ++ post := by
          rw [List.append_assoc, List.singleton_append]
        rw [← hcontent, hparts]
        exact ⟨pagesContent post, (pagesContent_append _ post).symm⟩
      have hlen := congrArg List.length heq
      rw [List.length_map, List.length_map] at hlen
      exact hprefix.eq_of_length hlen

end AllfeatExplorer
