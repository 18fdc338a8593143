import AllfeatExplorer.Data.Helpers.Extrinsics

/-!
# Walking the newest extrinsics

A page that the buffer fills asks only the database whether there is
more. So the walk lists what is buffered and what is stored exactly when
the buffer does not hold more than a page, or the database has a row that
matches.
-/

namespace AllfeatExplorer

open Projections Queries

variable {net : Network} {db : Db} {filters : ExtrinsicFilters} {buf : PendingBuffer}
  {p : IndexedProvider} {count : ℕ}

/-! ## The order of the matches -/

/-- **The walk lists all that satisfies the filters**, in strictly
descending order. -/
def ListsMatching (p : IndexedProvider) (buf : PendingBuffer) (filters : ExtrinsicFilters)
    (count : ℕ) : Prop :=
  Enumerates (listBare buf filters) count p (matchingExtrinsics p buf filters) ∧
    (matchingExtrinsics p buf filters).Pairwise fun a b => extrinsicKey b < extrinsicKey a

/-- **When it does.** The first condition is the one that fails in
practice; the others are met by rows and blocks the indexer makes. -/
structure KeepsUp (p : IndexedProvider) (buf : PendingBuffer) (filters : ExtrinsicFilters)
    (count : ℕ) : Prop where
  /-- The buffer has no more than a page of matches, or the database has
  one. -/
  probed : storedMatches p.net p.db filters ≠ [] ∨ (pendingMatches filters buf).length ≤ count
  /-- The matches of a buffered block are in the order of their index. -/
  inOrder : ∀ b ∈ buf.blocks,
    (b.extrinsics.filter fun e => extrinsicSelected e filters).Pairwise fun a b => a.index < b.index
  /-- Stored matches are shown in descending order: negative numbers show
  as 0. -/
  shown : (storedMatches p.net p.db filters).Pairwise fun r r' => natKey r'.1 < natKey r.1
  /-- A page that another follows does not end with a row that has a
  negative number. -/
  ends : ∀ m r, m * count < (matchingExtrinsics p buf filters).length →
    ((storedMatches p.net p.db filters).take
      (m * count - (pendingMatches filters buf).length)).getLast? = some r →
    0 ≤ (ofLex r.1).1 ∧ 0 ≤ (ofLex r.1).2

theorem mem_rows_of_mem_storedMatches {r : (ℤ ×ₗ ℤ) × StoredExtrinsic}
    (h : r ∈ storedMatches net db filters) : r ∈ db.extrinsics.rows :=
  List.mem_of_mem_filter (List.mem_reverse.mp h)

theorem extrinsicKey_rowToExtrinsic (r : (ℤ ×ₗ ℤ) × StoredExtrinsic) :
    extrinsicKey (rowToExtrinsic net r) = natKey r.1 := rfl

/-- **A buffered match is shown above every stored one.** -/
theorem stored_lt_pending (h : Appended p buf.blocks) (hdb : ExtrinsicsTyped p.db) {e : Extrinsic}
    (he : e ∈ buf.extrinsicsNewestFirst) {r : (ℤ ×ₗ ℤ) × StoredExtrinsic}
    (hr : r ∈ p.db.extrinsics.rows) : natKey r.1 < extrinsicKey e := by
  obtain ⟨b, hb, -, hnumber, -⟩ := exists_block_of_mem h he
  have hlt := (h.stored_lt hdb hb hr).2
  rw [natKey, extrinsicKey, Prod.Lex.toLex_lt_toLex]
  exact .inl (by rw [hnumber]; exact hlt)

/-- The buffered matches descend where each block's do. -/
theorem pendingMatches_pairwise_iff (h : Appended p buf.blocks) :
    (pendingMatches filters buf).Pairwise (fun a b => extrinsicKey b < extrinsicKey a) ↔
      ∀ b ∈ buf.blocks, (b.extrinsics.filter fun e => extrinsicSelected e filters).Pairwise
        fun a b => a.index < b.index := by
  have hflat : pendingMatches filters buf = buf.blocks.reverse.flatMap fun b =>
      (b.extrinsics.filter fun e => extrinsicSelected e filters).reverse := by
    rw [pendingMatches, PendingBuffer.extrinsicsNewestFirst, PendingBuffer.iterBlocksNewestFirst,
      List.filter_flatMap]
    exact List.flatMap_congr fun b _ => List.filter_reverse
  have hblock : ∀ b ∈ buf.blocks,
      ((b.extrinsics.filter fun e => extrinsicSelected e filters).reverse.Pairwise
          (fun a b => extrinsicKey b < extrinsicKey a) ↔
        (b.extrinsics.filter fun e => extrinsicSelected e filters).Pairwise
          fun a b => a.index < b.index) := by
    intro b hb
    rw [List.pairwise_reverse]
    refine List.Pairwise.iff_of_mem fun {a a'} ha ha' => ?_
    have hnumber := (h.own b hb a (List.mem_of_mem_filter ha)).1
    have hnumber' := (h.own b hb a' (List.mem_of_mem_filter ha')).1
    rw [extrinsicKey, extrinsicKey, Prod.Lex.toLex_lt_toLex, hnumber, hnumber']
    simp
  rw [hflat, List.pairwise_flatMap]
  constructor
  · rintro ⟨hall, -⟩ b hb
    exact (hblock b hb).mp (hall b (List.mem_reverse.mpr hb))
  · intro hall
    refine ⟨fun b hb => (hblock b (List.mem_reverse.mp hb)).mpr (hall b (List.mem_reverse.mp hb)),
      ?_⟩
    refine List.pairwise_reverse.mpr (h.ascending.imp_of_mem fun {b b'} hb hb' hlt => ?_)
    intro a ha a' ha'
    have hnumber := (h.own b' hb' a (List.mem_of_mem_filter (List.mem_reverse.mp ha))).1
    have hnumber' := (h.own b hb a' (List.mem_of_mem_filter (List.mem_reverse.mp ha'))).1
    rw [extrinsicKey, extrinsicKey, Prod.Lex.toLex_lt_toLex, hnumber, hnumber']
    exact .inl hlt

/-- **All matches descend** where the buffered and the stored ones do. -/
theorem matching_pairwise_iff (h : Appended p buf.blocks) (hdb : ExtrinsicsTyped p.db) :
    (matchingExtrinsics p buf filters).Pairwise (fun a b => extrinsicKey b < extrinsicKey a) ↔
      (pendingMatches filters buf).Pairwise (fun a b => extrinsicKey b < extrinsicKey a) ∧
        (storedMatches p.net p.db filters).Pairwise fun r r' => natKey r'.1 < natKey r.1 := by
  rw [matchingExtrinsics, List.pairwise_append, List.pairwise_map, List.pairwise_map]
  constructor
  · rintro ⟨hpending, hstored, -⟩
    exact ⟨hpending, hstored⟩
  · rintro ⟨hpending, hstored⟩
    refine ⟨hpending, hstored, fun a ha b hb => ?_⟩
    obtain ⟨e, he, rfl⟩ := List.mem_map.mp ha
    obtain ⟨r, hr, rfl⟩ := List.mem_map.mp hb
    exact stored_lt_pending h hdb (List.mem_of_mem_filter he) (mem_rows_of_mem_storedMatches hr)

/-- Stored matches descend by the keys they are stored under. -/
theorem storedMatches_pairwise (net : Network) (db : Db) (filters : ExtrinsicFilters) :
    (storedMatches net db filters).Pairwise fun r r' => r'.1 < r.1 :=
  List.pairwise_reverse.mpr (db.extrinsics.sorted.filter _)

/-- Where they also descend as shown, the two orders are one. -/
theorem stored_lt_iff_shown
    (hshown : (storedMatches net db filters).Pairwise fun r r' => natKey r'.1 < natKey r.1)
    {r r' : (ℤ ×ₗ ℤ) × StoredExtrinsic} (hr : r ∈ storedMatches net db filters)
    (hr' : r' ∈ storedMatches net db filters) : r.1 < r'.1 ↔ natKey r.1 < natKey r'.1 := by
  have hboth := (storedMatches_pairwise net db filters).and hshown
  refine List.Pairwise.forall_of_forall_of_flip
    (R := fun r r' => r.1 < r'.1 ↔ natKey r.1 < natKey r'.1) ?_ ?_ ?_ hr hr'
  · exact fun x _ => iff_of_false (lt_irrefl _) (lt_irrefl _)
  · exact hboth.imp fun {a b} hab => iff_of_false hab.1.not_gt hab.2.not_gt
  · exact hboth.imp fun {a b} hab => iff_of_true hab.1 hab.2

/-! ## Cursors of the walk -/

/-- A match that is no row with a negative number. -/
def ShownAsStored (p : IndexedProvider) (filters : ExtrinsicFilters) (a : Extrinsic) : Prop :=
  ∀ r ∈ storedMatches p.net p.db filters, rowToExtrinsic p.net r = a →
    0 ≤ (ofLex r.1).1 ∧ 0 ≤ (ofLex r.1).2

/-- A match is a buffered one or a stored one. -/
theorem mem_matchingExtrinsics {a : Extrinsic} (ha : a ∈ matchingExtrinsics p buf filters) :
    (∃ e ∈ pendingMatches filters buf, e.bare = a) ∨
      ∃ r ∈ storedMatches p.net p.db filters, rowToExtrinsic p.net r = a := by
  rcases List.mem_append.mp ha with hmem | hmem
  · exact .inl (List.mem_map.mp hmem)
  · exact .inr (List.mem_map.mp hmem)

/-- Its key is one a cursor can have. -/
theorem key_le_of_mem_matching (h : Appended p buf.blocks) (hdb : ExtrinsicsTyped p.db)
    {a : Extrinsic} (ha : a ∈ matchingExtrinsics p buf filters) :
    a.key.1 ≤ i64Max ∧ a.key.2 ≤ u32Max := by
  rcases mem_matchingExtrinsics ha with ⟨e, he, rfl⟩ | ⟨r, hr, rfl⟩
  · obtain ⟨b, hb, -, hnumber, hindex⟩ := exists_block_of_mem h (List.mem_of_mem_filter he)
    exact ⟨hnumber.trans_le (h.num_le b hb), hindex⟩
  · have hrow := mem_rows_of_mem_storedMatches hr
    have hnum := (hdb.num _ (hdb.references r hrow)).2
    have hidx := hdb.idx r hrow
    simp only [Extrinsic.key, rowToExtrinsic, i64Max, i32Max, u32Max] at *
    omega

/-- **Below a cursor** that is shown as it is stored are the matches after
it. -/
theorem matchingBelow_eq_olderThan (h : Appended p buf.blocks) (hdb : ExtrinsicsTyped p.db)
    (hshown : (storedMatches p.net p.db filters).Pairwise fun r r' => natKey r'.1 < natKey r.1)
    {c : Option Extrinsic}
    (hc : ∀ a ∈ c, a ∈ matchingExtrinsics p buf filters ∧ ShownAsStored p filters a) :
    matchingBelow p buf filters (c.map Extrinsic.key) =
      olderThan extrinsicKey (matchingExtrinsics p buf filters) (c.map extrinsicKey) := by
  have hkeys : (c.map Extrinsic.key).map toLex = c.map extrinsicKey := by
    rw [Option.map_map]
    rfl
  have hpending : (pendingBelow filters buf (c.map Extrinsic.key)).map Extrinsic.bare =
      olderThan extrinsicKey ((pendingMatches filters buf).map Extrinsic.bare)
        (c.map extrinsicKey) := by
    rw [olderThan, List.filter_map, pendingBelow]
    refine congrArg _ (List.filter_congr fun e _ => ?_)
    rw [olderPending, hkeys]
    rfl
  have hstored : (storedBelow p.net p.db filters (c.map Extrinsic.key)).map (rowToExtrinsic p.net) =
      olderThan extrinsicKey ((storedMatches p.net p.db filters).map (rowToExtrinsic p.net))
        (c.map extrinsicKey) := by
    rw [olderThan, List.filter_map, storedBelow]
    refine congrArg _ (List.filter_congr fun r hr => ?_)
    have hrow := mem_rows_of_mem_storedMatches hr
    rcases c with - | a
    · rfl
    obtain ⟨hmem, hexact⟩ := hc a rfl
    have hle := (key_le_of_mem_matching h hdb hmem).1
    rcases mem_matchingExtrinsics hmem with ⟨e, he, rfl⟩ | ⟨r₀, hr₀, rfl⟩
    · -- A buffered match is above every row.
      have htip := List.mem_of_mem_filter he
      obtain ⟨b, hb, -, hnumber, -⟩ := exists_block_of_mem h htip
      have hlt := (h.stored_lt hdb hb hrow).1
      have hleft : belowUpper (some e.bare.key) r.1 = true :=
        belowUpper_of_lt hle (hlt.trans_eq (by rw [← hnumber]; rfl))
      have hright : below (some (extrinsicKey e)) (natKey r.1) = true :=
        below_some.mpr (stored_lt_pending h hdb htip hrow)
      exact hleft.trans hright.symm
    · -- A stored one compares as it is stored.
      obtain ⟨hfst, hsnd⟩ := hexact r₀ hr₀ rfl
      have hidx := hdb.idx r₀ (mem_rows_of_mem_storedMatches hr₀)
      have hleft : belowUpper (some (rowToExtrinsic p.net r₀).key) r.1 = decide (r.1 < r₀.1) := by
        simp only [Extrinsic.key, rowToExtrinsic, i64Max] at hle
        have hblock : asI64 (max (ofLex r₀.1).1 0).toNat = (ofLex r₀.1).1 := by
          rw [asI64_of_le (by simpa only [i64Max] using hle)]
          omega
        have hindex : asI32 (max (ofLex r₀.1).2 0).toNat = (ofLex r₀.1).2 := by
          rw [asI32_of_le (by simp only [i32Max] at *; omega)]
          omega
        simp only [belowUpper, Option.all_some, Extrinsic.key, rowToExtrinsic, hblock, hindex]
        rfl
      refine hleft.trans ?_
      exact decide_eq_decide.mpr (stored_lt_iff_shown hshown hr hr₀)
  rw [matchingBelow, hpending, hstored, matchingExtrinsics, olderThan, olderThan, olderThan,
    List.filter_append]

/-- **The page after a match** of the walk. -/
theorem listBare_pageAfter (h : Appended p buf.blocks) (hdb : ExtrinsicsTyped p.db)
    (halike : filters.Alike) (hcount : 1 ≤ count)
    (hprobed : storedMatches p.net p.db filters ≠ [] ∨
      (pendingMatches filters buf).length ≤ count)
    (hshown : (storedMatches p.net p.db filters).Pairwise fun r r' => natKey r'.1 < natKey r.1)
    {c : Option Extrinsic}
    (hc : ∀ a ∈ c, a ∈ matchingExtrinsics p buf filters ∧ ShownAsStored p filters a ∧
      storedMatches p.net p.db filters ≠ []) :
    ∃ page, PageAfter (listBare buf filters) count p (matchingExtrinsics p buf filters)
      extrinsicKey cursorOf c page := by
  have hfits : ∀ k ∈ c.map Extrinsic.key, k.1 ≤ i64Max ∧ k.2 ≤ u32Max := by
    intro k hk
    obtain ⟨a, ha, rfl⟩ := Option.map_eq_some_iff.mp hk
    exact key_le_of_mem_matching h hdb (hc a ha).1
  obtain ⟨page, hpage, hitems, hmore, hnext⟩ := listBare_page h hdb halike hcount hfits
  have hbelow := matchingBelow_eq_olderThan h hdb hshown fun a ha => ⟨(hc a ha).1, (hc a ha).2.1⟩
  have hflag : page.pageInfo.hasMore =
      decide (count < (matchingBelow p buf filters (c.map Extrinsic.key)).length) := by
    rw [hmore]
    split
    · rename_i hfull
      -- A full page: the database has a match below it, or nothing is left.
      have hlen : (matchingBelow p buf filters (c.map Extrinsic.key)).length =
          (pendingBelow filters buf (c.map Extrinsic.key)).length +
            (storedBelow p.net p.db filters (c.map Extrinsic.key)).length := by
        rw [matchingBelow, List.length_append, List.length_map, List.length_map]
      obtain ⟨e, he⟩ := List.exists_mem_of_length_pos
        (show 0 < (pendingBelow filters buf (c.map Extrinsic.key)).length by omega)
      obtain ⟨hmem, hold⟩ := List.mem_filter.mp he
      have hall := (storedBelow_of_older filters h hdb (fun k hk => (hfits k hk).1)
        (List.mem_of_mem_filter hmem) hold).2
      rw [hall] at hlen ⊢
      by_cases hnone : storedMatches p.net p.db filters = []
      · -- No cursor then, and the buffered matches are just the page.
        have hstart : c = none := by
          rcases c with - | a
          · rfl
          · exact absurd hnone (hc a rfl).2.2
        subst hstart
        have hpend : (pendingBelow filters buf none).length = (pendingMatches filters buf).length :=
          congrArg List.length (List.filter_eq_self.mpr fun _ _ => rfl)
        have hle := hprobed.resolve_left fun hne => hne hnone
        rw [hnone, List.length_nil] at hlen
        rw [hnone, decide_eq_false (by rw [hlen, Option.map_none, hpend]; omega)]
        rfl
      · have hpos := List.length_pos_of_ne_nil hnone
        rw [decide_eq_true (by omega), List.isEmpty_eq_false_iff.mpr hnone]
        rfl
    · rfl
  have hcursor : (c.map Extrinsic.key).map extrinsicCursor.toText = c.map cursorOf := by
    rw [Option.map_map]
    rfl
  rw [hcursor] at hpage
  refine ⟨page, hpage, by rw [hitems, hbelow], by rw [hflag, hbelow], ?_⟩
  rw [hnext, hflag, hitems, hbelow]
  simp only [decide_eq_true_eq]

/-! ## The pages in order -/

/-- **A cursor the walk meets**: the last row of a page, not of the last
one. -/
structure EndsPage (p : IndexedProvider) (buf : PendingBuffer) (filters : ExtrinsicFilters)
    (count m : ℕ) (a : Extrinsic) : Prop where
  last : ((matchingExtrinsics p buf filters).take (m * count)).getLast? = some a
  more : m * count < (matchingExtrinsics p buf filters).length

/-- The page after `m` pages ends where `m + 1` pages do. -/
theorem EndsPage.succ {m : ℕ} {a : Extrinsic}
    (hlast : (((matchingExtrinsics p buf filters).drop (m * count)).take count).getLast? = some a)
    (hmore : count < ((matchingExtrinsics p buf filters).drop (m * count)).length) :
    EndsPage p buf filters count (m + 1) a := by
  rw [List.length_drop] at hmore
  constructor
  · rw [Nat.succ_mul, List.take_add, List.getLast?_append, hlast]
    rfl
  · rw [Nat.succ_mul]
    omega

theorem EndsPage.mem {m : ℕ} {a : Extrinsic} (h : EndsPage p buf filters count m a) :
    a ∈ matchingExtrinsics p buf filters :=
  List.mem_of_mem_take (List.mem_of_getLast? h.last)

/-- A walk that meets a cursor goes on in the database. -/
theorem EndsPage.stored_ne_nil {m : ℕ} {a : Extrinsic} (h : EndsPage p buf filters count m a)
    (hprobed : storedMatches p.net p.db filters ≠ [] ∨
      (pendingMatches filters buf).length ≤ count) :
    storedMatches p.net p.db filters ≠ [] := by
  rcases hprobed with hne | hle
  · exact hne
  · intro hnil
    have hpos : m ≠ 0 := by
      rintro rfl
      have hlast := h.last
      rw [Nat.zero_mul, List.take_zero] at hlast
      cases hlast
    have hmul : count ≤ m * count := Nat.le_mul_of_pos_left count (Nat.pos_of_ne_zero hpos)
    have hmore := h.more
    rw [matchingExtrinsics, hnil, List.map_nil, List.append_nil, List.length_map] at hmore
    omega

/-- The last of the first `n` matches is a buffered one, or the last of
the stored ones among them. -/
theorem last_take_matching {n : ℕ} {a : Extrinsic}
    (h : ((matchingExtrinsics p buf filters).take n).getLast? = some a) :
    (∃ r, ((storedMatches p.net p.db filters).take
        (n - (pendingMatches filters buf).length)).getLast? = some r ∧
        rowToExtrinsic p.net r = a) ∨
      ∃ e ∈ pendingMatches filters buf, e.bare = a := by
  rw [matchingExtrinsics, List.take_append, List.length_map, List.getLast?_append,
    ← List.map_take, ← List.map_take, List.getLast?_map] at h
  rcases hstored : ((storedMatches p.net p.db filters).take
    (n - (pendingMatches filters buf).length)).getLast? with - | r
  · rw [hstored, Option.map_none, Option.none_or] at h
    obtain ⟨e, he, heq⟩ := List.mem_map.mp (List.mem_of_getLast? h)
    exact .inr ⟨e, List.mem_of_mem_take he, heq⟩
  · rw [hstored, Option.map_some, Option.some_or] at h
    exact .inl ⟨r, rfl, Option.some.inj h⟩

/-- **Rows are told apart by the keys they show.** -/
theorem key_eq_of_shown
    (hshown : (storedMatches net db filters).Pairwise fun r r' => natKey r'.1 < natKey r.1)
    {r r' : (ℤ ×ₗ ℤ) × StoredExtrinsic} (hr : r ∈ storedMatches net db filters)
    (hr' : r' ∈ storedMatches net db filters) (heq : natKey r.1 = natKey r'.1) : r.1 = r'.1 := by
  refine le_antisymm (not_lt.mp fun hlt => ?_) (not_lt.mp fun hlt => ?_)
  · exact absurd heq ((stored_lt_iff_shown hshown hr' hr).mp hlt).ne'
  · exact absurd heq ((stored_lt_iff_shown hshown hr hr').mp hlt).ne

/-- A cursor of the walk is shown as it is stored. -/
theorem KeepsUp.shownAsStored (hkeep : KeepsUp p buf filters count) (h : Appended p buf.blocks)
    (hdb : ExtrinsicsTyped p.db) {m : ℕ} {a : Extrinsic}
    (ha : EndsPage p buf filters count m a) : ShownAsStored p filters a := by
  rintro r hr rfl
  rcases last_take_matching ha.last with ⟨r', hlast, heq⟩ | ⟨e, he, heq⟩
  · have hkey := congrArg extrinsicKey heq
    rw [extrinsicKey_rowToExtrinsic, extrinsicKey_rowToExtrinsic] at hkey
    have hmem : r' ∈ storedMatches p.net p.db filters :=
      List.mem_of_mem_take (List.mem_of_getLast? hlast)
    rw [← key_eq_of_shown hkeep.shown hmem hr hkey]
    exact hkeep.ends m r' ha.more hlast
  · have hlt := stored_lt_pending h hdb (List.mem_of_mem_filter he)
      (mem_rows_of_mem_storedMatches hr)
    have hkey := congrArg extrinsicKey heq
    rw [extrinsicKey_rowToExtrinsic] at hkey
    exact absurd hkey hlt.ne'

/-- **Where it keeps up, the walk lists all.** -/
theorem KeepsUp.listsMatching (hkeep : KeepsUp p buf filters count) (h : Appended p buf.blocks)
    (hdb : ExtrinsicsTyped p.db) (halike : filters.Alike) (hcount : 1 ≤ count) :
    ListsMatching p buf filters count := by
  have hsorted := (matching_pairwise_iff h hdb).mpr
    ⟨(pendingMatches_pairwise_iff h).mpr hkeep.inOrder, hkeep.shown⟩
  refine ⟨Enumerates.of_pages cursorOf (fun a => ∃ m, EndsPage p buf filters count m a) hcount
    hsorted (fun c hc => ?_) fun c hc hmore a ha => ?_, hsorted⟩
  · refine listBare_pageAfter h hdb halike hcount hkeep.probed hkeep.shown fun a ha => ?_
    obtain ⟨m, hends⟩ := hc a ha
    exact ⟨hends.mem, hkeep.shownAsStored h hdb hends, hends.stored_ne_nil hkeep.probed⟩
  · rcases c with - | a₀
    · rw [Option.map_none, olderThan_none] at hmore ha
      refine ⟨0 + 1, EndsPage.succ ?_ ?_⟩
      · rwa [Nat.zero_mul, List.drop_zero]
      · rwa [Nat.zero_mul, List.drop_zero]
    · obtain ⟨m, hends⟩ := hc a₀ rfl
      rw [Option.map_some, olderThan_take hsorted hends.last] at hmore ha
      exact ⟨m + 1, EndsPage.succ ha hmore⟩

/-! ## What a walk that lists all tells -/

/-- **It was not the buffer that ended the walk.** -/
theorem ListsMatching.probed (hlists : ListsMatching p buf filters count)
    (h : Appended p buf.blocks) (hdb : ExtrinsicsTyped p.db) (halike : filters.Alike)
    (hcount : 1 ≤ count) : storedMatches p.net p.db filters ≠ [] ∨
      (pendingMatches filters buf).length ≤ count := by
  by_contra hnot
  obtain ⟨hnil, hmany⟩ := not_or.mp hnot
  have hstored := not_not.mp hnil
  obtain ⟨page, hpage, hitems, hmore, hnext⟩ :=
    listBare_page (c := none) h hdb halike hcount fun k hk => absurd hk (Option.not_mem_none k)
  have hpend : pendingBelow filters buf none = pendingMatches filters buf :=
    List.filter_eq_self.mpr fun _ _ => rfl
  have hbelow : storedBelow p.net p.db filters none = [] := by
    rw [storedBelow, hstored, List.filter_nil]
  rw [hpend, if_pos (by omega), hbelow] at hmore
  rw [hmore] at hnext
  have hall := congrArg List.length (hlists.1.eq_of_first hpage hnext)
  rw [hitems, matchingBelow, hpend, hbelow, matchingExtrinsics, hstored, List.map_nil,
    List.append_nil, List.length_take, List.length_map] at hall
  omega

/-- **From a row with a negative number the list goes back**: it is below
its own cursor. -/
theorem shownAsStored_of_walk (h : Appended p buf.blocks) (hdb : ExtrinsicsTyped p.db)
    (halike : filters.Alike) (hcount : 1 ≤ count)
    (hsorted : (matchingExtrinsics p buf filters).Pairwise
      fun a b => extrinsicKey b < extrinsicKey a) {m : ℕ} {a : Extrinsic}
    (ha : EndsPage p buf filters count m a) {w : List (IndexedProvider × Page Extrinsic)}
    (hw : Walk (pageRead (listBare buf filters) count) (some (cursorOf a)) w)
    (hs : ∀ x ∈ w, x.1 = p)
    (hcontent : pagesContent w = (matchingExtrinsics p buf filters).drop (m * count)) :
    ShownAsStored p filters a := by
  rintro r hr rfl
  by_contra hneg
  have hshown := ((matching_pairwise_iff h hdb).mp hsorted).2
  have hfits := key_le_of_mem_matching h hdb ha.mem
  -- The row is among those below the cursor, and the first of them is no older.
  have hmem : r ∈ storedBelow p.net p.db filters (some (rowToExtrinsic p.net r).key) := by
    refine List.mem_filter.mpr ⟨hr, ?_⟩
    have hnum := hfits.1
    have hidx := hdb.idx r (mem_rows_of_mem_storedMatches hr)
    simp only [Extrinsic.key, rowToExtrinsic] at hnum
    have hindex : (max (ofLex r.1).2 0).toNat ≤ i32Max := by
      simp only [i32Max] at *
      omega
    rw [belowUpper, Option.all_some, decide_eq_true_eq, Prod.Lex.lt_iff]
    simp only [Extrinsic.key, rowToExtrinsic, ofLex_toLex, asI64_of_le hnum, asI32_of_le hindex]
    omega
  have hpending : pendingBelow filters buf (some (rowToExtrinsic p.net r).key) = [] := by
    refine List.filter_eq_nil_iff.mpr fun e he hold => ?_
    have hlt : extrinsicKey e < natKey r.1 := below_some.mp hold
    exact hlt.not_gt (stored_lt_pending h hdb (List.mem_of_mem_filter he)
      (mem_rows_of_mem_storedMatches hr))
  obtain ⟨r₀, rest, hrows⟩ := List.exists_cons_of_ne_nil (List.ne_nil_of_mem hmem)
  have hge : natKey r.1 ≤ natKey r₀.1 := by
    have hdesc := hshown.filter fun r' => belowUpper (some (rowToExtrinsic p.net r).key) r'.1
    change (storedBelow p.net p.db filters (some (rowToExtrinsic p.net r).key)).Pairwise _ at hdesc
    rw [hrows] at hdesc hmem
    rcases List.mem_cons.mp hmem with rfl | htail
    · exact le_rfl
    · exact ((List.pairwise_cons.mp hdesc).1 r htail).le
  -- So the walk goes on with a row that is not older than the page it comes after.
  obtain ⟨page, hpage, hitems, -⟩ :=
    listBare_page (c := some (rowToExtrinsic p.net r).key) h hdb halike hcount fun k hk => by
      obtain rfl := Option.some.inj hk
      exact hfits
  obtain ⟨later, rfl, -⟩ := hw.first_page hs hpage
  obtain ⟨n, rfl⟩ := Nat.exists_eq_add_of_le' hcount
  rw [matchingBelow, hpending, hrows, List.map_nil, List.nil_append, List.map_cons,
    List.take_succ_cons] at hitems
  rw [pagesContent_cons, hitems, List.cons_append] at hcontent
  have hnext : rowToExtrinsic p.net r₀ ∈ (matchingExtrinsics p buf filters).drop (m * (n + 1)) := by
    rw [← hcontent]
    exact List.mem_cons_self
  rw [← List.take_append_drop (m * (n + 1)) (matchingExtrinsics p buf filters),
    List.pairwise_append] at hsorted
  have hlt := hsorted.2.2 _ (List.mem_of_getLast? ha.last) _ hnext
  rw [extrinsicKey_rowToExtrinsic, extrinsicKey_rowToExtrinsic] at hlt
  exact absurd hge hlt.not_ge

/-- **The walk that lists all, page by page**: after `m` pages it is at the
last row of the `m`-th, and lists what is left. -/
theorem ListsMatching.walk_at (hlists : ListsMatching p buf filters count)
    (h : Appended p buf.blocks) (hdb : ExtrinsicsTyped p.db) (halike : filters.Alike)
    (hcount : 1 ≤ count) (m : ℕ) (hm : m * count < (matchingExtrinsics p buf filters).length) :
    ∃ (c : Option Extrinsic) (w : List (IndexedProvider × Page Extrinsic)),
      (m = 0 ∧ c = none ∨
        ∃ a, c = some a ∧ EndsPage p buf filters count m a ∧ ShownAsStored p filters a) ∧
      Walk (pageRead (listBare buf filters) count) (c.map cursorOf) w ∧ (∀ x ∈ w, x.1 = p) ∧
      pagesContent w = (matchingExtrinsics p buf filters).drop (m * count) := by
  have hsorted := hlists.2
  have hshown := ((matching_pairwise_iff h hdb).mp hsorted).2
  have hprobed := hlists.probed h hdb halike hcount
  induction m with
  | zero =>
    obtain ⟨w, hw, hs, hcontent, -⟩ := hlists.1
    refine ⟨none, w, .inl ⟨rfl, rfl⟩, hw, hs, ?_⟩
    rw [hcontent, Nat.zero_mul, List.drop_zero]
  | succ m ih =>
    rw [Nat.succ_mul] at hm
    obtain ⟨c, w, hc, hw, hs, hcontent⟩ := ih (by omega)
    have holder : olderThan extrinsicKey (matchingExtrinsics p buf filters) (c.map extrinsicKey) =
        (matchingExtrinsics p buf filters).drop (m * count) := by
      rcases hc with ⟨rfl, rfl⟩ | ⟨a, rfl, hends, -⟩
      · rw [Option.map_none, olderThan_none, Nat.zero_mul, List.drop_zero]
      · exact olderThan_take hsorted hends.last
    have hcursor : ∀ a ∈ c, a ∈ matchingExtrinsics p buf filters ∧ ShownAsStored p filters a ∧
        storedMatches p.net p.db filters ≠ [] := by
      rintro a ha
      rcases hc with ⟨-, rfl⟩ | ⟨a', rfl, hends, hexact⟩
      · cases ha
      · obtain rfl := Option.some.inj ha
        exact ⟨hends.mem, hexact, hends.stored_ne_nil hprobed⟩
    obtain ⟨page, hpage⟩ := listBare_pageAfter h hdb halike hcount hprobed hshown hcursor
    have hmore : count < ((matchingExtrinsics p buf filters).drop (m * count)).length := by
      rw [List.length_drop]
      omega
    obtain ⟨a, ha⟩ : ∃ a, (((matchingExtrinsics p buf filters).drop (m * count)).take
        count).getLast? = some a := by
      refine Option.ne_none_iff_exists'.mp fun hnone => ?_
      have hlen := congrArg List.length (List.getLast?_eq_none_iff.mp hnone)
      rw [List.length_take, List.length_nil] at hlen
      omega
    have hnext := hpage.next
    rw [holder, if_pos hmore, ha, Option.map_some] at hnext
    obtain ⟨rest, rfl, hrest⟩ := hw.first_page hs hpage.answers
    have hends : EndsPage p buf filters count (m + 1) a := EndsPage.succ ha hmore
    have hs' : ∀ x ∈ rest, x.1 = p := fun x hx => hs x (List.mem_cons_of_mem _ hx)
    have hleft : pagesContent rest = (matchingExtrinsics p buf filters).drop ((m + 1) * count) := by
      rw [pagesContent_cons, hpage.items, holder] at hcontent
      rw [Nat.succ_mul, ← List.drop_drop]
      exact List.append_cancel_left (hcontent.trans (List.take_append_drop count _).symm)
    exact ⟨some a, rest, .inr ⟨a, rfl, hends,
      shownAsStored_of_walk h hdb halike hcount hsorted hends (hrest _ hnext) hs' hleft⟩,
      hrest _ hnext, hs', hleft⟩

/-- **A walk that lists all keeps up.** -/
theorem ListsMatching.keepsUp (hlists : ListsMatching p buf filters count)
    (h : Appended p buf.blocks) (hdb : ExtrinsicsTyped p.db) (halike : filters.Alike)
    (hcount : 1 ≤ count) : KeepsUp p buf filters count := by
  obtain ⟨hpending, hshown⟩ := (matching_pairwise_iff h hdb).mp hlists.2
  refine ⟨hlists.probed h hdb halike hcount, (pendingMatches_pairwise_iff h).mp hpending, hshown,
    fun m r hm hlast => ?_⟩
  have hr : r ∈ storedMatches p.net p.db filters :=
    List.mem_of_mem_take (List.mem_of_getLast? hlast)
  obtain ⟨c, -, hc, -⟩ := hlists.walk_at h hdb halike hcount m hm
  have hrow : ((matchingExtrinsics p buf filters).take (m * count)).getLast? =
      some (rowToExtrinsic p.net r) := by
    rw [matchingExtrinsics, List.take_append, List.length_map, List.getLast?_append,
      ← List.map_take, ← List.map_take, List.getLast?_map, hlast]
    rfl
  rcases hc with ⟨rfl, -⟩ | ⟨a, -, hends, hexact⟩
  · rw [Nat.zero_mul, List.take_zero] at hrow
    cases hrow
  · exact hexact r hr (Option.some.inj (hrow.symm.trans hends.last))

/-- **The walk over the newest extrinsics** lists all that satisfies the
filters, buffered and stored, in strictly descending order, exactly when
the buffer has no more than a page of it or the database has some, each
buffered block has it in the order of the index, and no row with a
negative number comes in between. -/
theorem latestExtrinsics_listed_iff {p : IndexedProvider} {blocks : List BufferedBlock}
    {filters : ExtrinsicFilters} {count : ℕ} (hblocks : Appended p blocks)
    (hdb : ExtrinsicsTyped p.db) (halike : filters.Alike) (hcount : 1 ≤ count) :
    ListsMatching p (.filled blocks) filters count ↔
      KeepsUp p (.filled blocks) filters count := by
  have h := hblocks.of_suffix (filled_suffix blocks)
  exact ⟨fun hlists => hlists.keepsUp h hdb halike hcount,
    fun hkeep => hkeep.listsMatching h hdb halike hcount⟩

/-! ## A full buffer -/

/-- Nothing is stored. -/
def emptyTip : IndexedProvider where
  net := plainNetwork
  db := Db.empty
  node :=
    { chain := bareChain
      finalizedHead := 0
      bestHead := 0
      finalized_le := le_rfl
      best_le := Nat.zero_le _
      typed := fun _ _ =>
        { extrinsics := Nat.zero_le _
          tip := fun _ h => absurd h List.not_mem_nil
          fee := fun _ h => absurd h List.not_mem_nil } }

/-- Extrinsic `i` of block 1, which is signed. -/
def tipExtrinsic (i : ℕ) : Extrinsic :=
  { id := extrinsicId 1 i
    blockNumber := 1
    index := i
    hash := "0x"
    module := "Balances"
    call := "transfer_all"
    signed := true
    signer := some "5"
    args := .raw "0x"
    result := .success
    nonce := none
    tip := 0
    fee := 0
    timestampMs := 0
    events := [] }

/-- Block 1 with `n` such extrinsics. -/
def tipBlock (n : ℕ) : BufferedBlock := ⟨1, (List.range' 1 n).map tipExtrinsic⟩

theorem tipBlock_appended {p : IndexedProvider} {n : ℕ} (hhead : p.indexedHead < 1)
    (hn : n ≤ i32Max) : Appended p [tipBlock n] where
  ascending := List.pairwise_singleton _ _
  above := fun b hb => by
    rw [List.mem_singleton.mp hb]
    exact hhead
  num_le := fun b hb => by
    rw [List.mem_singleton.mp hb]
    exact (by decide : 1 ≤ i64Max)
  own := fun b hb e he => by
    rw [List.mem_singleton.mp hb] at he ⊢
    obtain ⟨i, hi, rfl⟩ := List.mem_map.mp he
    rw [List.mem_range'_1] at hi
    simp only [i32Max] at hn
    refine ⟨rfl, ?_⟩
    simp only [tipExtrinsic, u32Max]
    omega

theorem emptyTip_typed : ExtrinsicsTyped emptyTip.db where
  num := fun _ hk => absurd hk List.not_mem_nil
  idx := fun _ hr => absurd hr List.not_mem_nil
  references := fun _ hr => absurd hr List.not_mem_nil

/-- No filter. -/
def anyExtrinsic : ExtrinsicFilters := ⟨none, none, none, none⟩

/-- Block 0 is stored, with two extrinsics that are signed. -/
def storedTip : IndexedProvider :=
  { emptyTip with
    db := { Db.empty with
      blocks := Table.empty.insertNew 0 (Sink.blockRow (Blocks.map (bareChain 0) 0) none)
      extrinsics := Table.empty.insertAll
        ([0, 1].map fun i : ℤ =>
          (toLex (0, i),
            ⟨.fill 1, "Balances", "transfer", some (.fill 1), none, 0, none, true, [], 0⟩)) } }

theorem storedTip_typed : ExtrinsicsTyped storedTip.db where
  num := by decide
  idx := by decide
  references := by decide

/-- Two extrinsics that are buffered and two that are stored, in pages of
one. -/
theorem latestExtrinsics_listed_four :
    ListsMatching storedTip (.filled [tipBlock 2]) anyExtrinsic 1 ∧
      (matchingExtrinsics storedTip (.filled [tipBlock 2]) anyExtrinsic).length = 4 := by
  refine ⟨(latestExtrinsics_listed_iff (tipBlock_appended (by decide) (by decide))
    storedTip_typed (by decide) le_rfl).mpr ⟨.inl (by decide), ?_, by decide, ?_⟩, by decide⟩
  · intro b hb
    rw [List.mem_singleton.mp hb]
    decide
  · intro m r _ hlast
    have hall : ∀ r ∈ storedMatches storedTip.net storedTip.db anyExtrinsic,
        0 ≤ (ofLex r.1).1 ∧ 0 ≤ (ofLex r.1).2 := by decide
    exact hall r (List.mem_of_mem_take (List.mem_of_getLast? hlast))

/-- **Of two the walk lists one**: the page is full, and the database,
which is asked whether there is more, has nothing. -/
theorem not_latestExtrinsics_listed_two :
    Appended emptyTip [tipBlock 2] ∧ ExtrinsicsTyped emptyTip.db ∧ anyExtrinsic.Alike ∧
      ¬ ListsMatching emptyTip (.filled [tipBlock 2]) anyExtrinsic 1 := by
  have happended : Appended emptyTip [tipBlock 2] :=
    tipBlock_appended (by decide) (by decide)
  have halike : anyExtrinsic.Alike := by decide
  refine ⟨happended, emptyTip_typed, halike, fun hlists => ?_⟩
  rcases hlists.probed (happended.of_suffix (filled_suffix _)) emptyTip_typed halike le_rfl with
    hstored | hle
  · exact hstored rfl
  · revert hle
    decide

end AllfeatExplorer
