import Mathlib.Data.Int.ConditionallyCompleteOrder
import AllfeatExplorer.Indexer.Helpers.Applied
import AllfeatExplorer.Indexer.Helpers.Snapshots
import AllfeatExplorer.Indexer.Touched

/-!
# Account snapshots are confluent

The calls of `apply_account_snapshots` can come in any order and any
number of times: the row of an account has the balance of the newest
block, the greatest nonce and the ends of the span. Two runs that have
indexed the same blocks hold the same table, and over a chain whose
balances move at genesis and in touched blocks only, a run that has
indexed the blocks up to one holds the chain's balances there.

A node counts blocks in `u32`, so a block's number is stored as itself.
-/

namespace AllfeatExplorer

open Projections

variable {feed : SnapshotFeed} {calls : List SnapshotCall} {a : AccountId} {S : Set ℕ}
  {row : AccountBalance} {t : AccountTable} {chain : Chain} {chunkSize : ℕ}
  {chunkSize' : ℕ} {as as' : List Action} {s s' : Sys} {bs bs' : List ℕ} {n N : ℕ}

/-! ## The row of an account -/

/-- **The row of an account applied at the blocks `S`**: the balance and
the time of the greatest block, the greatest nonce, and the least block
and its time. -/
structure RowOf (feed : SnapshotFeed) (a : AccountId) (S : Set ℕ) (row : AccountBalance) :
    Prop where
  newest : ∃ n, IsGreatest S n ∧ row.free = (feed.snap a n).free ∧
    row.reserved = (feed.snap a n).reserved ∧ row.frozen = (feed.snap a n).frozen ∧
    row.lastActivityBlock = n ∧ row.lastActivityMs = feed.timestampMs n
  nonce : IsGreatest ((fun n => ((feed.snap a n).nonce : ℤ)) '' S) row.nonce
  oldest : ∃ n, IsLeast S n ∧ row.firstSeenBlock = n ∧ row.firstSeenMs = feed.timestampMs n

/-- No row where no block was applied, and else the row of the blocks. -/
def RowFor (feed : SnapshotFeed) (a : AccountId) (S : Set ℕ) : Option AccountBalance → Prop
  | none => S = ∅
  | some row => RowOf feed a S row

/-- **Block numbers below `2^63` are compared as they are**, and with
timestamps in block order the ends of the span carry their own time. -/
theorem RowSums.rowOf (hmono : Monotone feed.timestampMs) (hS : ∀ n ∈ S, n ≤ i64Max)
    (h : RowSums feed a S row) : RowOf feed a S row where
  newest := by
    obtain ⟨n, hn, hlast, hfree, hreserved, hfrozen⟩ := h.newest
    have hgreatest : IsGreatest S n := by
      refine ⟨hn, fun m hm => ?_⟩
      have hle := h.last.2 (Set.mem_image_of_mem asI64 hm)
      rw [hlast, asI64_of_le (hS m hm), asI64_of_le (hS n hn)] at hle
      exact Int.ofNat_le.mp hle
    have hms : IsGreatest (feed.timestampMs '' S) (feed.timestampMs n) :=
      hmono.map_isGreatest hgreatest
    refine ⟨n, hgreatest, hfree, hreserved, hfrozen, ?_, h.lastMs.unique hms⟩
    rw [hlast, asI64_of_le (hS n hn)]
  nonce := h.nonce
  oldest := by
    obtain ⟨n, hn, hfirst⟩ := h.first.1
    have hleast : IsLeast S n := by
      refine ⟨hn, fun m hm => ?_⟩
      have hle := h.first.2 (Set.mem_image_of_mem asI64 hm)
      rw [← hfirst, asI64_of_le (hS m hm), asI64_of_le (hS n hn)] at hle
      exact Int.ofNat_le.mp hle
    have hms : IsLeast (feed.timestampMs '' S) (feed.timestampMs n) :=
      hmono.map_isLeast hleast
    refine ⟨n, hleast, ?_, h.firstMs.unique hms⟩
    rw [← hfirst, asI64_of_le (hS n hn)]

/-- **Every row is the row of its account's blocks.** -/
theorem applyAll_rowFor (hmono : Monotone feed.timestampMs)
    (h : ∀ c ∈ calls, c.accounts.Nodup ∧ c.block ≤ i64Max) :
    ∃ t, feed.applyAll .empty calls = .ok t ∧
      ∀ a, RowFor feed a (snapshotBlocks calls a) (t.find a) := by
  obtain ⟨t, ht, hreflects⟩ := applyAll_reflects feed fun c hc => (h c hc).1
  refine ⟨t, ht, fun a => ?_⟩
  cases hrow : t.find a with
  | none =>
    have hnone := (hreflects.fresh a).mp hrow
    rwa [offered_calls] at hnone
  | some row =>
    have hsums := hreflects.row a row hrow
    rw [offered_calls] at hsums
    refine RowSums.rowOf hmono ?_ hsums
    rintro n ⟨c, hc, rfl, -⟩
    exact (h c hc).2

/-! ## The calls of a block -/

/-- `System::Account` at block `n`. -/
def Chain.account (chain : Chain) (a : AccountId) (n : ℕ) : AccountSnapshot :=
  ((chain n).systemAccount.find a).getD default

/-- The snapshots of a chain. -/
def Chain.snapshotFeed (chain : Chain) : SnapshotFeed where
  snap := chain.account
  timestampMs n := fetchTimestamp (chain n)

/-- The calls `index_block` makes for block `n`: the touched accounts, and
at genesis every account. -/
def Chain.snapshotCalls (chain : Chain) (n : ℕ) : List SnapshotCall :=
  ⟨n, touchedAt (chain n) n⟩ :: if n = 0 then [⟨0, (chain 0).systemAccount.keys⟩] else []

theorem nodup_touchedAt (blk : NodeBlock) (n : ℕ) : (touchedAt blk n).Nodup := by
  unfold touchedAt
  rw [collectTouched_eq]
  exact nodup_firstSeen

theorem Chain.nodup_snapshotCalls {c : SnapshotCall} (h : c ∈ chain.snapshotCalls n) :
    c.accounts.Nodup := by
  rcases List.mem_cons.mp h with rfl | h
  · exact nodup_touchedAt _ _
  · split at h
    · rw [List.mem_singleton.mp h]
      exact (chain 0).systemAccount.nodup_keys
    · cases h

theorem Chain.block_snapshotCalls {c : SnapshotCall} (h : c ∈ chain.snapshotCalls n) :
    c.block = n := by
  rcases List.mem_cons.mp h with rfl | h
  · rfl
  · split at h
    · rename_i hzero
      rw [List.mem_singleton.mp h, hzero]
    · cases h

/-- The genesis walk reads what a fetch of every account would. -/
theorem projectGenesisAccounts_eq (blk : NodeBlock) :
    projectGenesisAccounts blk = fetchAccountsAt blk blk.systemAccount.keys := by
  unfold projectGenesisAccounts fetchAccountsAt Table.keys
  rw [List.map_map]
  refine (List.map_id _).symm.trans (List.map_congr_left fun r hr => ?_)
  have hfind : blk.systemAccount.find r.1 = some r.2 := Table.find_eq_some_iff.mpr hr
  simp [hfind]

/-- **A block's snapshots are its calls.** -/
theorem applySnapshotsOf_eq :
    applySnapshotsOf chain t n = chain.snapshotFeed.applyAll t (chain.snapshotCalls n) := by
  unfold applySnapshotsOf applyBlockSnapshots Chain.snapshotCalls
  rw [SnapshotFeed.applyAll, List.foldlM_cons]
  by_cases hzero : n = 0
  · subst hzero
    simp only [if_true, projectAt, projectGenesisAccounts_eq]
    refine bind_congr fun u => ?_
    rw [List.foldlM_cons]
    exact (bind_pure _).symm
  · simp only [if_neg hzero]
    rfl

/-- The calls of blocks applied one after the other. -/
theorem foldlM_applySnapshotsOf :
    bs.foldlM (applySnapshotsOf chain) t =
      chain.snapshotFeed.applyAll t (bs.flatMap chain.snapshotCalls) := by
  induction bs generalizing t with
  | nil => rfl
  | cons n bs ih =>
    rw [List.foldlM_cons, List.flatMap_cons, SnapshotFeed.applyAll, List.foldlM_append,
      applySnapshotsOf_eq]
    exact bind_congr fun u => ih

/-- The blocks an account is snapshot at: those that touch it, and
genesis if it is there. -/
theorem mem_snapshotBlocks_iff :
    n ∈ snapshotBlocks (bs.flatMap chain.snapshotCalls) a ↔
      n ∈ bs ∧ (a ∈ touchedAt (chain n) n ∨ n = 0 ∧ a ∈ (chain 0).systemAccount.keys) := by
  simp only [snapshotBlocks, Set.mem_ofPred_eq, List.mem_flatMap]
  constructor
  · rintro ⟨c, ⟨m, hm, hc⟩, rfl, ha⟩
    obtain rfl := Chain.block_snapshotCalls hc
    refine ⟨hm, ?_⟩
    rcases List.mem_cons.mp hc with hc | hc
    · rw [hc] at ha
      exact .inl ha
    · split at hc
      · rename_i hzero
        rw [List.mem_singleton.mp hc] at ha
        exact .inr ⟨hzero, ha⟩
      · cases hc
  · rintro ⟨hn, ha | ⟨rfl, ha⟩⟩
    · exact ⟨_, ⟨n, hn, List.mem_cons_self⟩, rfl, ha⟩
    · refine ⟨⟨0, (chain 0).systemAccount.keys⟩, ⟨0, hn, ?_⟩, rfl, ha⟩
      exact List.mem_cons_of_mem _ (List.mem_singleton.mpr rfl)

/-! ## Runs -/

theorem nodup_of_mem_flatMap {c : SnapshotCall} (h : c ∈ bs.flatMap chain.snapshotCalls) :
    c.accounts.Nodup := by
  obtain ⟨n, -, hc⟩ := List.mem_flatMap.mp h
  exact Chain.nodup_snapshotCalls hc

/-- **Runs that have indexed the same blocks hold the same table**,
whatever steps led there. -/
theorem accountBalances_eq
    (h : run (Sys.step chain chunkSize) (Sys.start Db.empty) as = some s)
    (h' : run (Sys.step chain chunkSize') (Sys.start Db.empty) as' = some s')
    (hsame : ∀ k, s.db.blocks.contains k = s'.db.blocks.contains k) :
    s.db.accountBalances = s'.db.accountBalances := by
  obtain ⟨bs, hbs⟩ := applied_run h
  obtain ⟨bs', hbs'⟩ := applied_run h'
  have hmem : ∀ n, n ∈ bs ↔ n ∈ bs' := by
    intro n
    constructor
    · intro hn
      have hn64 := hbs.bound n hn
      rw [← hbs'.hasBlock_iff hn64, Db.hasBlock, ← hsame]
      exact (hbs.hasBlock_iff hn64).mpr hn
    · intro hn
      have hn64 := hbs'.bound n hn
      rw [← hbs.hasBlock_iff hn64, Db.hasBlock, hsame]
      exact (hbs'.hasBlock_iff hn64).mpr hn
  have htables : chain.snapshotFeed.applyAll .empty (bs.flatMap chain.snapshotCalls) =
      chain.snapshotFeed.applyAll .empty (bs'.flatMap chain.snapshotCalls) := by
    refine applyAll_congr (fun _ => nodup_of_mem_flatMap) (fun _ => nodup_of_mem_flatMap) ?_ ?_
    · intro c hc
      obtain ⟨n, hn, hcall⟩ := List.mem_flatMap.mp hc
      rw [Chain.block_snapshotCalls hcall]
      exact hbs.bound n hn
    · intro a
      ext n
      rw [mem_snapshotBlocks_iff, mem_snapshotBlocks_iff, hmem]
  rw [← foldlM_applySnapshotsOf, ← foldlM_applySnapshotsOf, hbs.accounts, hbs'.accounts] at htables
  exact Except.ok.inj htables

/-! ## The chain's balances -/

/-- Free, reserved and frozen. -/
def AccountSnapshot.funds (snap : AccountSnapshot) : ℕ × ℕ × ℕ :=
  (snap.free, snap.reserved, snap.frozen)

/-- Free, reserved and frozen, as stored. -/
def AccountBalance.funds (row : AccountBalance) : ℕ × ℕ × ℕ :=
  (row.free, row.reserved, row.frozen)

/-- **Up to block `N` balances move at genesis and in touched blocks
only.** -/
def Chain.MovesTouched (chain : Chain) (N : ℕ) : Prop :=
  ∀ n < N, ∀ a, (chain.account a (n + 1)).funds ≠ (chain.account a n).funds →
    a ∈ touchedAt (chain (n + 1)) (n + 1)

/-- An account no block touches in between has the balance it had. -/
theorem Chain.MovesTouched.funds_eq (h : chain.MovesTouched N) (hn : n ≤ N)
    (hquiet : ∀ m, n < m → m ≤ N → a ∉ touchedAt (chain m) m) :
    (chain.account a N).funds = (chain.account a n).funds := by
  have hstay : ∀ m, n ≤ m → m ≤ N → (chain.account a m).funds = (chain.account a n).funds := by
    intro m hm
    induction m, hm using Nat.le_induction with
    | base => exact fun _ => rfl
    | succ m hm ih =>
      intro hmN
      have hold := ih (by omega)
      by_contra hmoved
      have htouched := h m (by omega) a fun heq => hmoved (heq.trans hold)
      exact hquiet (m + 1) (by omega) hmN htouched
  exact hstay N hn le_rfl

/-- **The stored balances are the chain's**, for a run that has indexed
the blocks up to `N` and no other. -/
theorem funds_of_run (h : run (Sys.step chain chunkSize) (Sys.start Db.empty) as = some s)
    (hN : N ≤ i64Max) (hblocks : ∀ n ≤ u64Max, s.db.hasBlock n ↔ n ≤ N)
    (hmoves : chain.MovesTouched N) (a : AccountId) :
    ((s.db.accountBalances.find a).elim (0, 0, 0) AccountBalance.funds) =
      (chain.account a N).funds := by
  obtain ⟨bs, hbs⟩ := applied_run h
  have hmem : ∀ n, n ∈ bs ↔ n ≤ N := by
    intro n
    constructor
    · exact fun hn => (hblocks n (hbs.bound n hn)).mp
        ((hbs.hasBlock_iff (hbs.bound n hn)).mpr hn)
    · intro hn
      have hn64 : n ≤ u64Max := by simp only [i64Max, u64Max] at *; omega
      exact (hbs.hasBlock_iff hn64).mp ((hblocks n hn64).mpr hn)
  have hnodup : ∀ c ∈ bs.flatMap chain.snapshotCalls, c.accounts.Nodup :=
    fun _ => nodup_of_mem_flatMap
  obtain ⟨t, ht, hreflects⟩ := applyAll_reflects chain.snapshotFeed hnodup
  have haccounts := hbs.accounts
  rw [foldlM_applySnapshotsOf, ht] at haccounts
  obtain rfl := Except.ok.inj haccounts
  cases hrow : s.db.accountBalances.find a with
  | none =>
    -- Never touched, and not there at genesis.
    have hnone := (hreflects.fresh a).mp hrow
    rw [offered_calls, Set.eq_empty_iff_forall_notMem] at hnone
    have hquiet : ∀ m, 0 < m → m ≤ N → a ∉ touchedAt (chain m) m := fun m _ hm htouched =>
      hnone m (mem_snapshotBlocks_iff.mpr ⟨(hmem m).mpr hm, .inl htouched⟩)
    have hgenesis : (chain 0).systemAccount.find a = none := by
      by_contra hthere
      have hkey : a ∈ (chain 0).systemAccount.keys :=
        Table.mem_keys_iff.mpr (Option.isSome_iff_ne_none.mpr hthere)
      exact hnone 0 (mem_snapshotBlocks_iff.mpr ⟨(hmem 0).mpr N.zero_le, .inr ⟨rfl, hkey⟩⟩)
    rw [hmoves.funds_eq N.zero_le hquiet, Chain.account, hgenesis]
    rfl
  | some row =>
    have hsums := hreflects.row a row hrow
    rw [offered_calls] at hsums
    obtain ⟨n, hn, hlast, hfree, hreserved, hfrozen⟩ := hsums.newest
    have hnN : n ≤ N := (hmem n).mp (mem_snapshotBlocks_iff.mp hn).1
    -- The row is of the newest block that touched the account, so none after it did.
    have hquiet : ∀ m, n < m → m ≤ N → a ∉ touchedAt (chain m) m := by
      intro m hnm hm htouched
      have hin := mem_snapshotBlocks_iff.mpr ⟨(hmem m).mpr hm, .inl htouched⟩
      have hle := hsums.last.2 (Set.mem_image_of_mem asI64 hin)
      rw [hlast, asI64_of_le (hm.trans hN), asI64_of_le (hnN.trans hN)] at hle
      omega
    rw [hmoves.funds_eq hnN hquiet]
    exact Prod.ext hfree (Prod.ext hreserved hfrozen)

/-! ## The result -/

/-- **Account snapshots are confluent.** The calls leave each account the
row of its blocks, and calls for the same blocks the same table; so do
runs that have indexed the same blocks; and where balances move at
genesis and in touched blocks only, a run that has indexed the blocks up
to `N` holds the chain's balances at `N`. -/
theorem snapshots_confluent (feed : SnapshotFeed) (hmono : Monotone feed.timestampMs) :
    (∀ calls : List SnapshotCall, (∀ c ∈ calls, c.accounts.Nodup ∧ c.block ≤ i64Max) →
      ∃ t, feed.applyAll .empty calls = .ok t ∧
        ∀ a, RowFor feed a (snapshotBlocks calls a) (t.find a)) ∧
    (∀ calls calls' : List SnapshotCall, (∀ c ∈ calls, c.accounts.Nodup ∧ c.block ≤ u64Max) →
      (∀ c ∈ calls', c.accounts.Nodup) →
      (∀ a, snapshotBlocks calls a = snapshotBlocks calls' a) →
      feed.applyAll .empty calls = feed.applyAll .empty calls') ∧
    (∀ chain chunkSize chunkSize' as as' s s',
      run (Sys.step chain chunkSize) (Sys.start Db.empty) as = some s →
      run (Sys.step chain chunkSize') (Sys.start Db.empty) as' = some s' →
      (∀ k, s.db.blocks.contains k = s'.db.blocks.contains k) →
      s.db.accountBalances = s'.db.accountBalances) ∧
    (∀ chain chunkSize as s N,
      run (Sys.step chain chunkSize) (Sys.start Db.empty) as = some s → N ≤ i64Max →
      (∀ n ≤ u64Max, s.db.hasBlock n ↔ n ≤ N) → chain.MovesTouched N →
      ∀ a, (s.db.accountBalances.find a).elim (0, 0, 0) AccountBalance.funds =
        (chain.account a N).funds) := by
  refine ⟨fun calls => applyAll_rowFor hmono, ?_, ?_, ?_⟩
  · intro calls calls' h h' hsame
    exact applyAll_congr (fun c hc => (h c hc).1) h' (fun c hc => (h c hc).2) hsame
  · intro chain chunkSize chunkSize' as as' s s' hs hs' hsame
    exact accountBalances_eq hs hs' hsame
  · intro chain chunkSize as s N hs hN hblocks hmoves a
    exact funds_of_run hs hN hblocks hmoves a

/-- A chain on which every account is worth the number of the block, a
block every six seconds. -/
def growingFeed : SnapshotFeed where
  snap _ n := ⟨n, 0, 0, n⟩
  timestampMs n := 6000 * n

/-- Block 5, then block 3, then genesis twice, its second batch naming an
account of the first again. -/
def shuffledCalls : List SnapshotCall :=
  [⟨5, [.fill 1, .fill 2]⟩, ⟨3, [.fill 1]⟩, ⟨0, [.fill 2]⟩, ⟨0, [.fill 2, .fill 3]⟩]

/-- The three accounts have the rows of their blocks. -/
theorem snapshots_confluent_shuffled :
    ∃ t, growingFeed.applyAll .empty shuffledCalls = .ok t ∧
      ∀ a, RowFor growingFeed a (snapshotBlocks shuffledCalls a) (t.find a) := by
  have hmono : Monotone growingFeed.timestampMs := by
    intro m n hmn
    simp only [growingFeed]
    omega
  exact (snapshots_confluent growingFeed hmono).1 shuffledCalls (by decide)

end AllfeatExplorer
