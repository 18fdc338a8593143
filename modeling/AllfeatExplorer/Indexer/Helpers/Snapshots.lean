import AllfeatExplorer.Lib.Summary
import AllfeatExplorer.Indexer.Model.Sink
import Mathlib.Order.Bounds.Basic

/-!
# What snapshot calls sum up to

A row of `account_balances` sums up the blocks its account was snapshot
at (`RowSums`), in the numbers the database compares. The upsert keeps
that, so `account_balances` is a summary table and the calls are its
offers.
-/

namespace AllfeatExplorer

open Projections

/-- **What the node answers**: one snapshot a pair of account and block,
one timestamp a block. -/
structure SnapshotFeed where
  snap : AccountId → ℕ → AccountSnapshot
  timestampMs : ℕ → ℤ

/-- One call of `apply_account_snapshots`: a block and the accounts of the
batch. -/
structure SnapshotCall where
  block : ℕ
  accounts : List AccountId

namespace SnapshotFeed

variable (feed : SnapshotFeed)

/-- The batch of a call. -/
def batch (c : SnapshotCall) : List (AccountId × AccountSnapshot) :=
  c.accounts.map fun a => (a, feed.snap a c.block)

/-- The call. -/
def apply (t : AccountTable) (c : SnapshotCall) : Except DataError AccountTable :=
  Sink.applyAccountSnapshots t c.block (feed.timestampMs c.block) (feed.batch c)

/-- The calls, in order, until one fails. -/
def applyAll (t : AccountTable) (calls : List SnapshotCall) : Except DataError AccountTable :=
  calls.foldlM feed.apply t

end SnapshotFeed

/-- The blocks account `a` was snapshot at. -/
def snapshotBlocks (calls : List SnapshotCall) (a : AccountId) : Set ℕ :=
  {n | ∃ c ∈ calls, c.block = n ∧ a ∈ c.accounts}

variable {feed : SnapshotFeed} {calls calls' : List SnapshotCall} {a : AccountId} {S : Set ℕ}
  {row row' : AccountBalance} {t : AccountTable} {n : ℕ}

/-! ## One row -/

/-- **What a row says of the blocks of its account**, in stored numbers. -/
structure RowSums (feed : SnapshotFeed) (a : AccountId) (S : Set ℕ) (row : AccountBalance) :
    Prop where
  newest : ∃ n ∈ S, row.lastActivityBlock = asI64 n ∧ row.free = (feed.snap a n).free ∧
    row.reserved = (feed.snap a n).reserved ∧ row.frozen = (feed.snap a n).frozen
  last : IsGreatest (asI64 '' S) row.lastActivityBlock
  nonce : IsGreatest ((fun n => ((feed.snap a n).nonce : ℤ)) '' S) row.nonce
  first : IsLeast (asI64 '' S) row.firstSeenBlock
  firstMs : IsLeast (feed.timestampMs '' S) row.firstSeenMs
  lastMs : IsGreatest (feed.timestampMs '' S) row.lastActivityMs

theorem rowSums_singleton (feed : SnapshotFeed) (a : AccountId) (n : ℕ) :
    RowSums feed a {n} (Sink.snapshotRow n (feed.timestampMs n) (feed.snap a n)) where
  newest := ⟨n, Set.mem_singleton n, rfl, rfl, rfl, rfl⟩
  last := by rw [Set.image_singleton]; exact isGreatest_singleton
  nonce := by rw [Set.image_singleton]; exact isGreatest_singleton
  first := by rw [Set.image_singleton]; exact isLeast_singleton
  firstMs := by rw [Set.image_singleton]; exact isLeast_singleton
  lastMs := by rw [Set.image_singleton]; exact isGreatest_singleton

/-- **The upsert keeps what the row says.** -/
theorem rowSums_insert (feed : SnapshotFeed) (a : AccountId) (n : ℕ) (S : Set ℕ)
    (row : AccountBalance) (h : RowSums feed a S row) :
    RowSums feed a (insert n S)
      (Sink.mergeSnapshot (Sink.snapshotRow n (feed.timestampMs n) (feed.snap a n)) row) where
  newest := by
    obtain ⟨m, hm, hlast, hfree, hreserved, hfrozen⟩ := h.newest
    simp only [Sink.mergeSnapshot, Sink.snapshotRow]
    -- The `CASE` takes the new balance on a tie too: then the two blocks are one.
    by_cases hge : asI64 n ≥ row.lastActivityBlock
    · simp only [hge, if_true]
      exact ⟨n, Set.mem_insert n S, max_eq_right hge, rfl, rfl, rfl⟩
    · simp only [hge, if_false]
      have hle : asI64 n ≤ row.lastActivityBlock := (not_le.mp hge).le
      exact ⟨m, Set.mem_insert_of_mem n hm, (max_eq_left hle).trans hlast, hfree, hreserved,
        hfrozen⟩
  last := by
    rw [Set.image_insert_eq]
    simp only [Sink.mergeSnapshot, Sink.snapshotRow, max_comm row.lastActivityBlock]
    exact h.last.insert _
  nonce := by
    rw [Set.image_insert_eq]
    simp only [Sink.mergeSnapshot, Sink.snapshotRow, max_comm row.nonce]
    exact h.nonce.insert _
  first := by
    rw [Set.image_insert_eq]
    simp only [Sink.mergeSnapshot, Sink.snapshotRow, min_comm row.firstSeenBlock]
    exact h.first.insert _
  firstMs := by
    rw [Set.image_insert_eq]
    simp only [Sink.mergeSnapshot, Sink.snapshotRow, min_comm row.firstSeenMs]
    exact h.firstMs.insert _
  lastMs := by
    rw [Set.image_insert_eq]
    simp only [Sink.mergeSnapshot, Sink.snapshotRow, max_comm row.lastActivityMs]
    exact h.lastMs.insert _

/-- `account_balances` as a summary table. -/
def snapshotSummary (feed : SnapshotFeed) : Summary AccountId ℕ AccountBalance where
  offer a n := Sink.snapshotRow n (feed.timestampMs n) (feed.snap a n)
  merge := Sink.mergeSnapshot
  Sums := RowSums feed
  sums_singleton := rowSums_singleton feed
  sums_insert := rowSums_insert feed

/-- **The blocks determine the row**: stored numbers tell them apart. -/
theorem RowSums.unique (hS : ∀ n ∈ S, n ≤ u64Max) (h : RowSums feed a S row)
    (h' : RowSums feed a S row') : row = row' := by
  obtain ⟨n, hn, hlast, hfree, hreserved, hfrozen⟩ := h.newest
  obtain ⟨m, hm, hlast', hfree', hreserved', hfrozen'⟩ := h'.newest
  have hblock := h.last.unique h'.last
  have hsame : n = m := by
    rw [← asI64_inj (hS n hn) (hS m hm), ← hlast, ← hlast', hblock]
  subst hsame
  have hnonce := h.nonce.unique h'.nonce
  have hfirst := h.first.unique h'.first
  have hfirstMs := h.firstMs.unique h'.firstMs
  have hlastMs := h.lastMs.unique h'.lastMs
  cases row
  cases row'
  simp_all

/-! ## The calls -/

/-- **`apply_account_snapshots` on distinct accounts** goes through and
upserts them one by one. -/
theorem applyAccountSnapshots_eq {ts : ℤ} {snaps : List (AccountId × AccountSnapshot)}
    (h : (snaps.map Prod.fst).Nodup) :
    Sink.applyAccountSnapshots t n ts snaps =
      .ok (snaps.foldl (Sink.upsertSnapshot n ts) t) := by
  have hgoes : ∃ t', Sink.applyAccountSnapshots t n ts snaps = .ok t' := by
    refine inBatches_isOk fun t c hc => ?_
    rw [if_pos (h.sublist (hc.map Prod.fst))]
    exact ⟨_, rfl⟩
  obtain ⟨t', ht'⟩ := hgoes
  rw [ht']
  refine congrArg Except.ok (inBatches_foldl (by decide) ?_ ht')
  intro t c t' hstmt
  split at hstmt
  · exact (Except.ok.inj hstmt).symm
  · cases hstmt

/-- The pairs a call offers. -/
def SnapshotCall.offers (c : SnapshotCall) : List (AccountId × ℕ) :=
  c.accounts.map fun a => (a, c.block)

theorem SnapshotFeed.apply_eq {c : SnapshotCall} (h : c.accounts.Nodup) :
    feed.apply t c = .ok ((snapshotSummary feed).absorbAll t c.offers) := by
  have hnodup : ((feed.batch c).map Prod.fst).Nodup := by
    simpa [batch, Function.comp_def] using h
  rw [apply, applyAccountSnapshots_eq hnodup, batch, Summary.absorbAll, SnapshotCall.offers,
    List.foldl_map, List.foldl_map]
  rfl

/-- **Calls are offers**, one after the other. -/
theorem SnapshotFeed.applyAll_eq (h : ∀ c ∈ calls, c.accounts.Nodup) :
    feed.applyAll t calls =
      .ok ((snapshotSummary feed).absorbAll t (calls.flatMap SnapshotCall.offers)) := by
  induction calls generalizing t with
  | nil => rfl
  | cons c calls ih =>
    have hrest := ih (t := (snapshotSummary feed).absorbAll t c.offers)
      fun c' hc' => h c' (List.mem_cons_of_mem c hc')
    rw [applyAll, List.foldlM_cons, apply_eq (h c List.mem_cons_self)]
    refine hrest.trans ?_
    rw [List.flatMap_cons, Summary.absorbAll, Summary.absorbAll, Summary.absorbAll,
      List.foldl_append]

theorem offered_calls :
    Summary.offered (∅ ∪ {o | o ∈ calls.flatMap SnapshotCall.offers}) a =
      snapshotBlocks calls a := by
  ext n
  simp only [Summary.offered, snapshotBlocks, SnapshotCall.offers, Set.empty_union,
    Set.mem_ofPred_eq, List.mem_flatMap, List.mem_map, Prod.mk.injEq]
  constructor
  · rintro ⟨c, hc, a', ha, rfl, rfl⟩
    exact ⟨c, hc, rfl, ha⟩
  · rintro ⟨c, hc, rfl, ha⟩
    exact ⟨c, hc, a, ha, rfl, rfl⟩

/-- **The calls leave one row for each account they name**, which sums up
its blocks. -/
theorem applyAll_reflects (feed : SnapshotFeed) (h : ∀ c ∈ calls, c.accounts.Nodup) :
    ∃ t, feed.applyAll .empty calls = .ok t ∧
      (snapshotSummary feed).Reflects t (∅ ∪ {o | o ∈ calls.flatMap SnapshotCall.offers}) :=
  ⟨_, SnapshotFeed.applyAll_eq h, Summary.reflects_empty.absorbAll _⟩

/-- **Two lists of calls for the same pairs leave the same table.** -/
theorem applyAll_congr (h : ∀ c ∈ calls, c.accounts.Nodup) (h' : ∀ c ∈ calls', c.accounts.Nodup)
    (hbound : ∀ c ∈ calls, c.block ≤ u64Max)
    (hsame : ∀ a, snapshotBlocks calls a = snapshotBlocks calls' a) :
    feed.applyAll .empty calls = feed.applyAll .empty calls' := by
  obtain ⟨t, ht, hreflects⟩ := applyAll_reflects feed h
  obtain ⟨t', ht', hreflects'⟩ := applyAll_reflects feed h'
  have hoffers : (∅ ∪ {o | o ∈ calls'.flatMap SnapshotCall.offers} : Set (AccountId × ℕ)) =
      ∅ ∪ {o | o ∈ calls.flatMap SnapshotCall.offers} := by
    ext ⟨a, n⟩
    have hblocks : n ∈ snapshotBlocks calls' a ↔ n ∈ snapshotBlocks calls a := by rw [hsame]
    rw [← offered_calls, ← offered_calls] at hblocks
    exact hblocks
  rw [hoffers] at hreflects'
  rw [ht, ht', hreflects.unique hreflects' ?_]
  intro a row row'
  rw [offered_calls]
  refine RowSums.unique ?_
  rintro n ⟨c, hc, rfl, -⟩
  exact hbound c hc

end AllfeatExplorer
