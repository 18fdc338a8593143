import AllfeatExplorer.Data.Model.LatestExtrinsics
import AllfeatExplorer.Data.Filters
import AllfeatExplorer.Data.Pagination
import AllfeatExplorer.Data.Helpers.Enumerate

/-!
# Helpers: a page of the newest extrinsics

What one page of `IndexedProvider::latest_extrinsics` holds
(`listBare_page`): the first of the matches older than its cursor, the
buffered ones before the stored ones. The bound that the loop over the
buffer hands to the database leaves the rows that the cursor leaves.
-/

namespace AllfeatExplorer

open Projections Queries

variable {net : Network} {db : Db} {filters : ExtrinsicFilters} {buf : PendingBuffer}
  {p : IndexedProvider} {count : ℕ} {c : Option (ℕ × ℕ)}

/-! ## What is listed -/

/-- An extrinsic but for its events, which another table fills in. -/
def Extrinsic.bare (ext : Extrinsic) : Extrinsic := ext.setEvents []

/-- **Filters that both sides read alike.** -/
def ExtrinsicFilters.Alike (filters : ExtrinsicFilters) : Prop :=
  filters.signed ≠ some false ∧ filters.pallet ≠ some "Timestamp"

instance : Decidable filters.Alike := inferInstanceAs (Decidable (_ ∧ _))

/-- The buffered extrinsics that satisfy the filters, as the list goes
through them. -/
def pendingMatches (filters : ExtrinsicFilters) (buf : PendingBuffer) : List Extrinsic :=
  buf.extrinsicsNewestFirst.filter fun ext => extrinsicSelected ext filters

/-- A stored extrinsic that satisfies the filters. -/
def storedSelected (net : Network) (filters : ExtrinsicFilters)
    (r : (ℤ ×ₗ ℤ) × StoredExtrinsic) : Bool :=
  !((ofLex r.1).2 = 0 && r.2.signer.isNone) &&
    extrinsicMatchesFilters (rowToExtrinsic net r) filters

/-- Those, newest first. -/
def storedMatches (net : Network) (db : Db) (filters : ExtrinsicFilters) :
    List ((ℤ ×ₗ ℤ) × StoredExtrinsic) :=
  (db.extrinsics.rows.filter (storedSelected net filters)).reverse

/-- **All that satisfies the filters**, buffered and stored. -/
def matchingExtrinsics (p : IndexedProvider) (buf : PendingBuffer) (filters : ExtrinsicFilters) :
    List Extrinsic :=
  (pendingMatches filters buf).map Extrinsic.bare ++
    (storedMatches p.net p.db filters).map (rowToExtrinsic p.net)

/-- A page of extrinsics without their events. -/
def barePage (page : Page Extrinsic) : Page Extrinsic :=
  { page with items := page.items.map Extrinsic.bare }

/-- `latest_extrinsics`, of extrinsics without their events. -/
def listBare (buf : PendingBuffer) (filters : ExtrinsicFilters) (p : IndexedProvider)
    (req : PageRequest) : Except BadRequest (Page Extrinsic) :=
  (p.latestExtrinsics (some buf) filters req).map barePage

/-- **The two filters agree** on a stored row where they read alike. -/
theorem extrinsicAdmitted_eq_storedSelected (h : filters.Alike)
    (r : (ℤ ×ₗ ℤ) × StoredExtrinsic) :
    extrinsicAdmitted filters r = storedSelected net filters r := by
  obtain ⟨hsigned, hpallet⟩ := h
  have hhide : (decide (filters.signed ≠ some false) &&
      decide (filters.pallet ≠ some "Timestamp")) = true := by
    rw [decide_eq_true hsigned, decide_eq_true hpallet]
    rfl
  have hsigner : ∀ signed : Bool, (if signed then r.2.signer.isSome else r.2.signer.isNone) =
      decide ((r.2.signer.map net.encodeSs58).isSome = signed) := by
    intro signed
    rw [Option.isSome_map, ← signer_eq_signed, Option.not_isSome]
  have hstatus : ∀ status : CallResult, decide (r.2.success = decide (status = .success)) =
      decide ((if r.2.success then CallResult.success else .failed) = status) :=
    fun status => decide_eq_decide.mpr success_eq_status
  simp only [extrinsicAdmitted, storedSelected, extrinsicMatchesFilters, rowToExtrinsic, hhide,
    hsigner, hstatus, Bool.not_true, Bool.false_or, Bool.and_assoc]
  rfl

/-! ## The pending slice -/

/-- Whether a buffered extrinsic is older than the cursor. -/
def olderPending (c : Option (ℕ × ℕ)) (ext : Extrinsic) : Bool :=
  below (c.map toLex) (extrinsicKey ext)

theorem not_skipped (c : Option (ℕ × ℕ)) (ext : Extrinsic) :
    (c.any fun c => decide (toLex c ≤ toLex ext.key)) = !olderPending c ext := by
  rcases c with - | c
  · rfl
  · have hle : decide (toLex c ≤ toLex ext.key) = !decide (toLex ext.key < toLex c) := by
      rw [← decide_not]
      exact decide_eq_decide.mpr not_lt.symm
    exact hle

/-- **The loop takes the first matches below the cursor**, up to a page of
them, and the key it keeps is that of a buffered extrinsic below the
cursor. -/
theorem pendingSlice_spec (l : List Extrinsic) {items : List Extrinsic} {last : Option (ℕ × ℕ)}
    (hitems : items.length ≤ count) :
    (IndexedProvider.pendingSlice count c filters l (items, last)).1 =
        items ++ ((l.filter fun e => extrinsicSelected e filters).filter (olderPending c)).take
          (count - items.length) ∧
      ((IndexedProvider.pendingSlice count c filters l (items, last)).2 = last ∨
        ∃ e ∈ l, olderPending c e = true ∧
          (IndexedProvider.pendingSlice count c filters l (items, last)).2 = some e.key) := by
  induction l generalizing items last with
  | nil => exact ⟨by simp [IndexedProvider.pendingSlice], .inl rfl⟩
  | cons e l ih =>
    have hlater : ∀ {items : List Extrinsic} {last' : Option (ℕ × ℕ)},
        ((last' = last ∨ olderPending c e = true ∧ last' = some e.key) ∧
          items.length ≤ count) →
        ((IndexedProvider.pendingSlice count c filters l (items, last')).2 = last ∨
          ∃ e' ∈ e :: l, olderPending c e' = true ∧
            (IndexedProvider.pendingSlice count c filters l (items, last')).2 = some e'.key) := by
      rintro items last' ⟨hlast, hlen⟩
      rcases (ih hlen).2 with heq | ⟨e', he', hold, heq⟩
      · rcases hlast with rfl | ⟨hold, rfl⟩
        · exact .inl heq
        · exact .inr ⟨e, List.mem_cons_self, hold, heq⟩
      · exact .inr ⟨e', List.mem_cons_of_mem _ he', hold, heq⟩
    rw [IndexedProvider.pendingSlice, not_skipped]
    by_cases hhidden : (decide (e.index = 0) && !e.signed) = true
    · -- The unsigned extrinsic at index 0.
      have hout : extrinsicSelected e filters = false := by
        rw [extrinsicSelected, hhidden]
        rfl
      rw [if_pos hhidden, List.filter_cons_of_neg (by rw [hout]; exact Bool.false_ne_true)]
      exact ⟨(ih hitems).1, hlater ⟨.inl rfl, hitems⟩⟩
    rw [if_neg hhidden]
    have hselected : extrinsicSelected e filters = extrinsicMatchesFilters e filters := by
      rw [extrinsicSelected, Bool.eq_false_iff.mpr hhidden]
      rfl
    rcases hold : olderPending c e with - | -
    · -- Not below the cursor.
      rw [Bool.not_false, if_pos rfl, List.filter_filter,
        List.filter_cons_of_neg (by rw [hold]; simp), ← List.filter_filter]
      exact ⟨(ih hitems).1, hlater ⟨.inl rfl, hitems⟩⟩
    rw [if_neg (by simp)]
    rcases hmatch : extrinsicMatchesFilters e filters with - | -
    · rw [Bool.not_false, if_pos rfl,
        List.filter_cons_of_neg (by rw [hselected, hmatch]; simp)]
      exact ⟨(ih hitems).1, hlater ⟨.inr ⟨hold, rfl⟩, hitems⟩⟩
    rw [if_neg (by simp), List.filter_cons_of_pos (by rw [hselected, hmatch]),
      List.filter_cons_of_pos hold]
    by_cases hfull : count ≤ items.length
    · rw [if_pos hfull, show count - items.length = 0 by omega, List.take_zero, List.append_nil]
      exact ⟨rfl, .inr ⟨e, List.mem_cons_self, hold, rfl⟩⟩
    · have hlen : (items ++ [e]).length = items.length + 1 := List.length_append
      rw [if_neg hfull]
      refine ⟨?_, hlater ⟨.inr ⟨hold, rfl⟩, by omega⟩⟩
      rw [(ih (by omega)).1, hlen, List.append_assoc, List.singleton_append,
        show count - items.length = count - (items.length + 1) + 1 by omega, List.take_succ_cons]

/-! ## The database side of a page -/

/-- The text of an extrinsic's cursor. -/
def cursorOf (ext : Extrinsic) : String := extrinsicCursor.toText ext.key

/-- The stored matches below a bound. -/
def storedBelow (net : Network) (db : Db) (filters : ExtrinsicFilters) (upper : Option (ℕ × ℕ)) :
    List ((ℤ ×ₗ ℤ) × StoredExtrinsic) :=
  (storedMatches net db filters).filter fun r => belowUpper upper r.1

theorem bare_fillEvents {x : Extrinsic} {evs : Option (List EventRef)} :
    (fillEvents x evs).bare = x.bare := by
  rcases evs with - | evs <;> rfl

/-- **Hydration touches nothing but the events.** -/
theorem map_bare_hydrateEvents {xts : List Extrinsic} :
    (hydrateEvents net db xts).map Extrinsic.bare = xts.map Extrinsic.bare :=
  map_hydrateEvents fun _ _ => bare_fillEvents

/-- A cursor is made of the key. -/
theorem nextCursor_bare {hasMore : Bool} (items : List Extrinsic) :
    nextCursor hasMore cursorOf items =
      if hasMore then ((items.map Extrinsic.bare).getLast?).map cursorOf else none := by
  rw [nextCursor, List.getLast?_map, Option.map_map]
  rfl

/-- **A page of the database below a bound.** -/
theorem listExtrinsics_below (net : Network) (db : Db) (h : filters.Alike)
    (upper : Option (ℕ × ℕ)) {n : ℕ} (hn : 1 ≤ n) :
    ∃ page, listExtrinsicsPageBounded net db upper filters ⟨n, none⟩ = .ok page ∧
      page.items.map Extrinsic.bare =
        ((storedBelow net db filters upper).take n).map (rowToExtrinsic net) ∧
      page.pageInfo.hasMore = decide (n < (storedBelow net db filters upper).length) ∧
      page.pageInfo.nextCursor =
        if n < (storedBelow net db filters upper).length then
          ((((storedBelow net db filters upper).take n).map (rowToExtrinsic net)).getLast?).map
            cursorOf
        else none := by
  have hrows : (db.extrinsics.rows.filter fun r =>
      extrinsicAdmitted filters r && belowUpper upper r.1).reverse =
        storedBelow net db filters upper := by
    rw [storedBelow, storedMatches, List.filter_reverse, List.filter_filter]
    refine congrArg List.reverse (List.filter_congr fun r _ => ?_)
    rw [extrinsicAdmitted_eq_storedSelected h, Bool.and_comm]
  have htightest : tightest none upper = upper := by cases upper <;> rfl
  generalize storedBelow net db filters upper = kept at hrows ⊢
  have hpage : listExtrinsicsPageBounded net db upper filters ⟨n, none⟩ =
      .ok
        { items := hydrateEvents net db ((kept.take n).map (rowToExtrinsic net))
          pageInfo :=
            { total := none
              nextCursor := nextCursor (decide (n < kept.length)) cursorOf
                (hydrateEvents net db ((kept.take n).map (rowToExtrinsic net)))
              hasMore := decide (n < kept.length) } } := by
    rw [listExtrinsicsPageBounded, if_neg (by change ¬ n = 0; omega)]
    simp only [parseCursor, ok_bind, htightest, hrows, trimProbe_map, trimProbe_take]
    rfl
  have hbare : (hydrateEvents net db ((kept.take n).map (rowToExtrinsic net))).map Extrinsic.bare =
      (kept.take n).map (rowToExtrinsic net) := by
    rw [map_bare_hydrateEvents, List.map_map]
    rfl
  refine ⟨_, hpage, hbare, rfl, ?_⟩
  rw [nextCursor_bare, hbare]
  simp only [decide_eq_true_eq]

/-! ## The buffer above the database -/

/-- **The columns of the database**: numbers fit them, and an extrinsic's
block is stored. -/
structure ExtrinsicsTyped (db : Db) : Prop where
  num : ∀ k ∈ db.blocks.keys, -9223372036854775808 ≤ k ∧ k ≤ i64Max
  idx : ∀ r ∈ db.extrinsics.rows, (ofLex r.1).2 ≤ i32Max
  references : ∀ r ∈ db.extrinsics.rows, (ofLex r.1).1 ∈ db.blocks.keys

/-- **Blocks as they are appended**: in ascending numbers above the
indexed head, with their own extrinsics. -/
structure Appended (p : IndexedProvider) (blocks : List BufferedBlock) : Prop where
  ascending : blocks.Pairwise fun a b => a.number < b.number
  above : ∀ b ∈ blocks, p.indexedHead < b.number
  num_le : ∀ b ∈ blocks, b.number ≤ i64Max
  own : ∀ b ∈ blocks, ∀ e ∈ b.extrinsics, e.blockNumber = b.number ∧ e.index ≤ u32Max

/-- A buffer filled with blocks. -/
def PendingBuffer.filled (blocks : List BufferedBlock) : PendingBuffer :=
  blocks.foldl PendingBuffer.appendBlock .new

/-- One block more, and what is held is still the newest. -/
theorem appendBlock_suffix {front : List BufferedBlock} (h : buf.blocks <:+ front)
    (b : BufferedBlock) : (buf.appendBlock b).blocks <:+ front ++ [b] := by
  have hkept : (if buf.blocks.length = bufferCapacity then buf.blocks.tail else buf.blocks) <:+
      front := by
    split
    · exact (List.tail_suffix _).trans h
    · exact h
  obtain ⟨older, rfl⟩ := hkept
  exact ⟨older, by rw [PendingBuffer.appendBlock, List.append_assoc]⟩

/-- It holds the newest of them. -/
theorem filled_suffix (blocks : List BufferedBlock) :
    (PendingBuffer.filled blocks).blocks <:+ blocks := by
  have hfold : ∀ (blocks front : List BufferedBlock) (buf : PendingBuffer), buf.blocks <:+ front →
      (blocks.foldl PendingBuffer.appendBlock buf).blocks <:+ front ++ blocks := by
    intro blocks
    induction blocks with
    | nil => exact fun front buf h => by rwa [List.append_nil]
    | cons b blocks ih =>
      intro front buf h
      have hrest := ih (front ++ [b]) (buf.appendBlock b) (appendBlock_suffix h b)
      rwa [List.append_assoc, List.singleton_append] at hrest
  exact hfold blocks [] .new (List.suffix_refl [])

/-- What is kept of appended blocks is as they were. -/
theorem Appended.of_suffix {blocks kept : List BufferedBlock} (h : Appended p blocks)
    (hkept : kept <:+ blocks) : Appended p kept where
  ascending := h.ascending.sublist hkept.sublist
  above := fun b hb => h.above b (hkept.subset hb)
  num_le := fun b hb => h.num_le b (hkept.subset hb)
  own := fun b hb => h.own b (hkept.subset hb)

/-- **A buffered number is above every stored one**, as stored and as
shown. -/
theorem Appended.stored_lt {blocks : List BufferedBlock} (h : Appended p blocks)
    (hdb : ExtrinsicsTyped p.db) {b : BufferedBlock} (hb : b ∈ blocks)
    {r : (ℤ ×ₗ ℤ) × StoredExtrinsic} (hr : r ∈ p.db.extrinsics.rows) :
    (ofLex r.1).1 < b.number ∧ (max (ofLex r.1).1 0).toNat < b.number := by
  have habove := h.above b hb
  have hfits := h.num_le b hb
  have hmem := hdb.references r hr
  rw [IndexedProvider.indexedHead, Queries.indexedHead] at habove
  rcases hmax : p.db.blocks.keys.max? with - | m
  · rw [List.max?_eq_none_iff.mp hmax] at hmem
    exact absurd hmem List.not_mem_nil
  · obtain ⟨hm, hge⟩ := List.max?_eq_some_iff.mp hmax
    have hle := hge _ hmem
    obtain ⟨hlow, hhigh⟩ := hdb.num m hm
    rw [hmax, Option.map_some, Option.getD_some, asU64] at habove
    simp only [i64Max] at hfits hhigh
    -- A negative maximum would read as a head no buffered block is above.
    omega

/-! ## A page -/

theorem belowUpper_of_lt {k : ℕ × ℕ} {key : ℤ ×ₗ ℤ} (hk : k.1 ≤ i64Max)
    (hlt : (ofLex key).1 < k.1) : belowUpper (some k) key = true := by
  rw [belowUpper, Option.all_some, decide_eq_true_eq, Prod.Lex.lt_iff, asI64_of_le hk]
  exact .inl hlt

/-- An extrinsic of the buffer is one of a buffered block. -/
theorem exists_block_of_mem {e : Extrinsic} (h : Appended p buf.blocks)
    (he : e ∈ buf.extrinsicsNewestFirst) :
    ∃ b ∈ buf.blocks, e ∈ b.extrinsics ∧ e.blockNumber = b.number ∧ e.index ≤ u32Max := by
  obtain ⟨b, hb, he⟩ := List.mem_flatMap.mp he
  have hmem := List.mem_reverse.mp hb
  exact ⟨b, hmem, List.mem_reverse.mp he, h.own b hmem e (List.mem_reverse.mp he)⟩

/-- A bound at a buffered block or above leaves every stored match. -/
theorem storedBelow_above (h : Appended p buf.blocks) (hdb : ExtrinsicsTyped p.db)
    {b : BufferedBlock} (hb : b ∈ buf.blocks) {k : ℕ × ℕ} (hk : k.1 ≤ i64Max)
    (hle : b.number ≤ k.1) :
    storedBelow p.net p.db filters (some k) = storedMatches p.net p.db filters := by
  refine List.filter_eq_self.mpr fun r hr => belowUpper_of_lt hk ?_
  have hlt := (h.stored_lt hdb hb (List.mem_of_mem_filter (List.mem_reverse.mp hr))).1
  omega

/-- **Where a buffered extrinsic is older than the cursor**, every stored
match is. -/
theorem storedBelow_of_older (filters : ExtrinsicFilters) (h : Appended p buf.blocks)
    (hdb : ExtrinsicsTyped p.db) (hc : ∀ k ∈ c, k.1 ≤ i64Max) {e : Extrinsic}
    (he : e ∈ buf.extrinsicsNewestFirst) (hold : olderPending c e = true) :
    storedBelow p.net p.db filters (some e.key) = storedMatches p.net p.db filters ∧
      storedBelow p.net p.db filters c = storedMatches p.net p.db filters := by
  obtain ⟨b, hb, -, hnumber, -⟩ := exists_block_of_mem h he
  refine ⟨storedBelow_above h hdb hb (hnumber.trans_le (h.num_le b hb)) hnumber.ge, ?_⟩
  rcases c with - | k
  · exact List.filter_eq_self.mpr fun _ _ => rfl
  · refine storedBelow_above h hdb hb (hc k rfl) ?_
    have hkey : toLex e.key < toLex k := below_some.mp hold
    rw [Prod.Lex.toLex_lt_toLex] at hkey
    rw [← hnumber]
    rcases hkey with hkey | ⟨hkey, -⟩
    · exact Nat.le_of_lt hkey
    · exact Nat.le_of_eq hkey

/-- The matches of the buffer that are older than the cursor. -/
def pendingBelow (filters : ExtrinsicFilters) (buf : PendingBuffer) (c : Option (ℕ × ℕ)) :
    List Extrinsic :=
  (pendingMatches filters buf).filter (olderPending c)

/-- All matches that are older. -/
def matchingBelow (p : IndexedProvider) (buf : PendingBuffer) (filters : ExtrinsicFilters)
    (c : Option (ℕ × ℕ)) : List Extrinsic :=
  (pendingBelow filters buf c).map Extrinsic.bare ++
    (storedBelow p.net p.db filters c).map (rowToExtrinsic p.net)

/-- **The page**, by what is taken from the buffer. -/
theorem listBare_eq (hcount : 1 ≤ count)
    (hcursor : parseCursor extrinsicCursor ⟨count, c.map extrinsicCursor.toText⟩ = .ok c)
    {items : List Extrinsic} {last : Option (ℕ × ℕ)}
    (hresult : IndexedProvider.pendingSlice count c filters buf.extrinsicsNewestFirst ([], none) =
      (items, last)) :
    listBare buf filters p ⟨count, c.map extrinsicCursor.toText⟩ =
      (if count ≤ items.length then do
        let probe ← listExtrinsicsPageBounded p.net p.db (last.or c) filters ⟨1, none⟩
        pure (⟨items, ⟨none, nextCursor (!probe.items.isEmpty) cursorOf items,
          !probe.items.isEmpty⟩⟩ : Page Extrinsic)
      else do
        let dbPage ← listExtrinsicsPageBounded p.net p.db (last.or c) filters
          ⟨count - items.length, none⟩
        pure (⟨items ++ dbPage.items, ⟨none,
          if dbPage.pageInfo.hasMore && dbPage.pageInfo.nextCursor.isNone then
            (items ++ dbPage.items).getLast?.map cursorOf
          else dbPage.pageInfo.nextCursor, dbPage.pageInfo.hasMore⟩⟩ : Page Extrinsic)).map
        barePage := by
  rw [listBare, IndexedProvider.latestExtrinsics, if_neg (by change ¬ count = 0; omega), hcursor,
    ok_bind]
  simp only [Option.elim_some, hresult]
  rfl

/-- The cursor of a page that ends in rows of the database is that of the
last row, whichever of the two it is taken from. -/
theorem toppedUp_cursor (items : List Extrinsic) (dbPage : Page Extrinsic)
    (hnext : dbPage.pageInfo.nextCursor = none ∧ dbPage.pageInfo.hasMore = false ∨
      dbPage.items.map Extrinsic.bare ≠ [] ∧ dbPage.pageInfo.hasMore = true ∧
        dbPage.pageInfo.nextCursor =
          ((dbPage.items.map Extrinsic.bare).getLast?).map cursorOf) :
    (if (dbPage.pageInfo.hasMore && dbPage.pageInfo.nextCursor.isNone) = true then
      (items ++ dbPage.items).getLast?.map cursorOf
    else dbPage.pageInfo.nextCursor) =
      if dbPage.pageInfo.hasMore = true then
        (((items ++ dbPage.items).map Extrinsic.bare).getLast?).map cursorOf
      else none := by
  have hsame : (((items ++ dbPage.items).map Extrinsic.bare).getLast?).map cursorOf =
      (items ++ dbPage.items).getLast?.map cursorOf := by
    rw [List.getLast?_map, Option.map_map]
    rfl
  rcases hnext with ⟨hnone, hmore⟩ | ⟨hne, hmore, hlast⟩
  · rw [hmore, hnone]
    rfl
  · rw [hmore, if_pos rfl, hsame]
    split
    · rfl
    · rw [hlast, ← hsame, List.map_append, List.getLast?_append_of_ne_nil _ hne]

/-- **A page**: the first of the older matches. Whether there is more it
tells from the database alone where the buffer fills it. -/
theorem listBare_page (h : Appended p buf.blocks) (hdb : ExtrinsicsTyped p.db)
    (halike : filters.Alike) (hcount : 1 ≤ count)
    (hc : ∀ k ∈ c, k.1 ≤ i64Max ∧ k.2 ≤ u32Max) :
    ∃ page, listBare buf filters p ⟨count, c.map extrinsicCursor.toText⟩ = .ok page ∧
      page.items = (matchingBelow p buf filters c).take count ∧
      page.pageInfo.hasMore =
        (if count ≤ (pendingBelow filters buf c).length then
          !(storedBelow p.net p.db filters c).isEmpty
        else decide (count < (matchingBelow p buf filters c).length)) ∧
      page.pageInfo.nextCursor =
        if page.pageInfo.hasMore then (page.items.getLast?).map cursorOf else none := by
  have hcursor : parseCursor extrinsicCursor ⟨count, c.map extrinsicCursor.toText⟩ = .ok c := by
    refine parseCursor_toText extrinsicCursor_roundTrips fun k hk => ?_
    obtain ⟨hfst, hsnd⟩ := hc k hk
    simp only [i64Max, u64Max] at *
    omega
  obtain ⟨hslice, hlast⟩ := @pendingSlice_spec filters count c buf.extrinsicsNewestFirst [] none
    (Nat.zero_le count)
  rw [List.nil_append, List.length_nil, Nat.sub_zero] at hslice
  rcases hresult : IndexedProvider.pendingSlice count c filters buf.extrinsicsNewestFirst ([], none)
    with ⟨items, last⟩
  rw [hresult] at hslice hlast
  dsimp only at hslice hlast
  change items = (pendingBelow filters buf c).take count at hslice
  have hbelow : storedBelow p.net p.db filters (last.or c) = storedBelow p.net p.db filters c := by
    rcases hlast with rfl | ⟨e, he, hold, rfl⟩
    · rfl
    · obtain ⟨hleft, hright⟩ := storedBelow_of_older filters h hdb (fun k hk => (hc k hk).1) he hold
      exact hleft.trans hright.symm
  have hlen : items.length = min count (pendingBelow filters buf c).length := by
    rw [hslice, List.length_take]
  have hlist := listBare_eq (p := p) hcount hcursor hresult
  by_cases hfull : count ≤ (pendingBelow filters buf c).length
  · -- The buffer fills the page.
    obtain ⟨probe, hprobe, hitems, -, -⟩ :=
      listExtrinsics_below p.net p.db halike (last.or c) (Nat.le_refl 1)
    rw [hbelow] at hitems
    have hempty : probe.items.isEmpty = (storedBelow p.net p.db filters c).isEmpty := by
      have hlength := congrArg List.length hitems
      rw [List.length_map, List.length_map, List.length_take] at hlength
      rw [Bool.eq_iff_iff, List.isEmpty_iff_length_eq_zero, List.isEmpty_iff_length_eq_zero]
      omega
    rw [if_pos (by omega), hprobe, ok_bind, hempty] at hlist
    have hbare : items.map Extrinsic.bare = (matchingBelow p buf filters c).take count := by
      rw [hslice, matchingBelow, List.take_append_of_le_length (by rwa [List.length_map]),
        List.map_take]
    refine ⟨_, hlist, hbare, (if_pos hfull).symm, ?_⟩
    exact nextCursor_bare items
  · -- It is topped up from the database.
    have hneed : 1 ≤ count - items.length := by omega
    obtain ⟨dbPage, hdbPage, hitems, hmore, hnext⟩ :=
      listExtrinsics_below p.net p.db halike (last.or c) hneed
    rw [hbelow] at hitems hmore hnext
    rw [if_neg (by omega), hdbPage, ok_bind] at hlist
    have hall : items = pendingBelow filters buf c := by
      rw [hslice, List.take_of_length_le (by omega)]
    have htake : ((pendingBelow filters buf c).map Extrinsic.bare).take count =
        (pendingBelow filters buf c).map Extrinsic.bare :=
      List.take_of_length_le (by rw [List.length_map]; omega)
    have hbare : (items ++ dbPage.items).map Extrinsic.bare =
        (matchingBelow p buf filters c).take count := by
      rw [List.map_append, hitems, matchingBelow, List.take_append, htake, List.length_map,
        List.map_take, hall]
    have hcount' : (count - items.length < (storedBelow p.net p.db filters c).length) ↔
        count < (matchingBelow p buf filters c).length := by
      rw [matchingBelow, List.length_append, List.length_map, List.length_map, ← hall]
      omega
    refine ⟨_, hlist, hbare, ?_, ?_⟩
    · rw [if_neg hfull]
      exact hmore.trans (decide_eq_decide.mpr hcount')
    · -- The rows taken from the database are the end of the page, if there are any.
      refine toppedUp_cursor items dbPage ?_
      rw [hnext, hmore, hitems]
      simp only [decide_eq_true_eq]
      split
      · rename_i hlt
        refine .inr ⟨?_, hlt, rfl⟩
        refine List.ne_nil_of_length_pos ?_
        rw [List.length_map, List.length_take]
        omega
      · rename_i hge
        exact .inl ⟨rfl, decide_eq_false hge⟩

end AllfeatExplorer
