import AllfeatExplorer.Lib.Columns
import AllfeatExplorer.Lib.StableSort
import AllfeatExplorer.Indexer.Snapshots
import AllfeatExplorer.Indexer.Finalized
import AllfeatExplorer.Data.Model.Accounts

/-!
# Balances, indexed and on the chain

A row of `account_balances` is the account at the last indexed block that
touched it. Where no block changes an account without touching it, and
the blocks up to one are indexed and no more, that is the account at that
block: the balances and the list of the richest accounts are then the
node's, except that an account that was reaped stays, with nothing.
-/

namespace AllfeatExplorer

open Projections

variable {chain : Chain} {chunkSize : ℕ} {as : List Action} {s : Sys} {db : Db} {bs : List ℕ}
  {a : AccountId} {m n tip count : ℕ} {row : AccountBalance} {net : Network}

/-- **No block changes an account it does not touch.** -/
def Chain.TouchesChanges (chain : Chain) : Prop :=
  ∀ n a, (chain (n + 1)).systemAccount.find a ≠ (chain n).systemAccount.find a →
    a ∈ touchedAt (chain (n + 1)) (n + 1)

/-- The blocks up to `tip` are indexed, and no more. -/
def Db.IndexedUpTo (db : Db) (tip : ℕ) : Prop :=
  ∀ n ≤ u64Max, db.hasBlock n ↔ n ≤ tip

/-- The blocks such a database had applied. -/
theorem Db.IndexedUpTo.mem_iff (hup : db.IndexedUpTo tip) (htip : tip ≤ u64Max)
    (hbs : db.Applied chain bs) : n ∈ bs ↔ n ≤ tip := by
  constructor
  · intro hn
    have hn64 := hbs.bound n hn
    exact (hup n hn64).mp ((hbs.hasBlock_iff hn64).mpr hn)
  · intro hn
    have hn64 := hn.trans htip
    exact (hbs.hasBlock_iff hn64).mp ((hup n hn64).mpr hn)

/-- Untouched since block `m`, an account is as it was there. -/
theorem Chain.TouchesChanges.find_eq (h : chain.TouchesChanges) (hmn : m ≤ n)
    (hquiet : ∀ k, m < k → k ≤ n → a ∉ touchedAt (chain k) k) :
    (chain n).systemAccount.find a = (chain m).systemAccount.find a := by
  induction n with
  | zero =>
    obtain rfl : m = 0 := by omega
    rfl
  | succ n ih =>
    rcases Nat.lt_or_ge n m with hlt | hge
    · obtain rfl : m = n + 1 := by omega
      rfl
    · rw [← ih hge fun k hlo hhi => hquiet k hlo (by omega)]
      by_contra hne
      exact hquiet (n + 1) (by omega) le_rfl (h n a hne)

/-! ## One account -/

/-- **The row of an account** in a run, from the blocks it was snapshot
at. -/
theorem rowSums_run (h : run (Sys.step chain chunkSize) (Sys.start Db.empty) as = some s) :
    ∃ bs, s.db.Applied chain bs ∧ ∀ a,
      (∀ row, s.db.accountBalances.find a = some row → RowSums chain.snapshotFeed a
        (snapshotBlocks (bs.flatMap chain.snapshotCalls) a) row) ∧
      (s.db.accountBalances.find a = none ↔
        snapshotBlocks (bs.flatMap chain.snapshotCalls) a = ∅) := by
  obtain ⟨bs, hbs⟩ := applied_run h
  have hcalls := hbs.accounts
  rw [foldlM_applySnapshotsOf] at hcalls
  have hnodup : ∀ c ∈ bs.flatMap chain.snapshotCalls, c.accounts.Nodup :=
    fun c hc => nodup_of_mem_flatMap hc
  obtain ⟨t, ht, hreflects⟩ := applyAll_reflects chain.snapshotFeed hnodup
  obtain rfl := Except.ok.inj (ht.symm.trans hcalls)
  refine ⟨bs, hbs, fun a => ⟨fun row hrow => ?_, ?_⟩⟩
  · have hsums := hreflects.row a row hrow
    rwa [offered_calls] at hsums
  · rw [hreflects.fresh a, offered_calls]

/-- **The row is the account at the tip**, once the blocks up to it are
indexed. -/
theorem accountRow_run (h : run (Sys.step chain chunkSize) (Sys.start Db.empty) as = some s)
    (htouch : chain.TouchesChanges) (hup : s.db.IndexedUpTo tip) (htip : tip ≤ i64Max) :
    (∀ row, s.db.accountBalances.find a = some row →
      row.free = (chain.account a tip).free ∧ row.reserved = (chain.account a tip).reserved ∧
        ((chain.account a tip).nonce : ℤ) ≤ row.nonce ∧
        ∃ n ≤ tip, row.nonce = (chain.account a n).nonce) ∧
    (s.db.accountBalances.find a = none → (chain tip).systemAccount.find a = none) := by
  have htip64 : tip ≤ u64Max := by
    simp only [i64Max, u64Max] at *
    omega
  obtain ⟨bs, hbs, hrows⟩ := rowSums_run h
  have hmem : ∀ n, n ∈ bs ↔ n ≤ tip := fun _ => hup.mem_iff htip64 hbs
  obtain ⟨hsums, hnone⟩ := hrows a
  constructor
  · intro row hrow
    have hrow' := hsums row hrow
    obtain ⟨n, hn, hlast, hfree, hreserved, -⟩ := hrow'.newest
    have hn' := mem_snapshotBlocks_iff.mp hn
    have hntip : n ≤ tip := (hmem n).mp hn'.1
    have hfind : (chain tip).systemAccount.find a = (chain n).systemAccount.find a := by
      refine htouch.find_eq hntip fun k hlo hhi htouched => ?_
      -- A later block that touched the account would be the row's last.
      have hk : k ∈ snapshotBlocks (bs.flatMap chain.snapshotCalls) a :=
        mem_snapshotBlocks_iff.mpr ⟨(hmem k).mpr hhi, .inl htouched⟩
      have hle := hrow'.last.2 (Set.mem_image_of_mem asI64 hk)
      rw [hlast, asI64_of_le (hhi.trans htip), asI64_of_le (hntip.trans htip)] at hle
      omega
    have hstate : chain.account a tip = chain.account a n := by
      unfold Chain.account
      rw [hfind]
    obtain ⟨m, hm, hnonce⟩ := hrow'.nonce.1
    have hmtip : m ≤ tip := (hmem m).mp (mem_snapshotBlocks_iff.mp hm).1
    rw [hstate]
    refine ⟨hfree, hreserved, ?_, m, hmtip, hnonce.symm⟩
    exact hrow'.nonce.2
      (Set.mem_image_of_mem (fun k => ((chain.snapshotFeed.snap a k).nonce : ℤ)) hn)
  · intro hfree
    have hempty := hnone.mp hfree
    have hquiet : ∀ k, 0 < k → k ≤ tip → a ∉ touchedAt (chain k) k := by
      intro k hlo hhi htouched
      have hk : k ∈ snapshotBlocks (bs.flatMap chain.snapshotCalls) a :=
        mem_snapshotBlocks_iff.mpr ⟨(hmem k).mpr hhi, .inl htouched⟩
      rw [hempty] at hk
      exact hk
    rw [htouch.find_eq (Nat.zero_le tip) hquiet]
    rcases hgenesis : (chain 0).systemAccount.find a with - | snap
    · rfl
    · have hkey : a ∈ (chain 0).systemAccount.keys :=
        Table.mem_keys_iff.mpr (Table.contains_eq_true_iff.mpr ⟨snap, hgenesis⟩)
      have hzero : 0 ∈ snapshotBlocks (bs.flatMap chain.snapshotCalls) a :=
        mem_snapshotBlocks_iff.mpr ⟨(hmem 0).mpr (Nat.zero_le tip), .inr ⟨rfl, hkey⟩⟩
      rw [hempty] at hzero
      exact absurd hzero (Set.notMem_empty 0)

/-- **An account from the database is the node's**: where the node has it
the balance is the same and the nonce at least as high, and where the node
has it no more the database shows nothing or an empty balance. -/
theorem accountByAddress_run (net : Network) (parse : String → Option AccountId)
    (h : run (Sys.step chain chunkSize) (Sys.start Db.empty) as = some s)
    (htouch : chain.TouchesChanges) (hup : s.db.IndexedUpTo tip) (htip : tip ≤ i64Max)
    (htyped : ∀ n ≤ tip, ∀ a, (chain.account a n).nonce ≤ u32Max) (address : String) :
    (∀ acc, Rpc.fetchAccount net parse (chain tip).systemAccount address = some acc →
      ∃ acc', Queries.accountByAddress net parse s.db address = some acc' ∧
        acc'.address = acc.address ∧ acc'.balance = acc.balance ∧ acc.nonce ≤ acc'.nonce) ∧
    (Rpc.fetchAccount net parse (chain tip).systemAccount address = none →
      ∀ acc', Queries.accountByAddress net parse s.db address = some acc' →
        acc'.balance = ⟨0, 0, 0⟩) := by
  unfold Rpc.fetchAccount Queries.accountByAddress
  rcases parse address with - | id
  · exact ⟨nofun, nofun⟩
  · simp only
    obtain ⟨hrow, hgone⟩ := accountRow_run (a := id) h htouch hup htip
    constructor
    · intro acc hacc
      obtain ⟨info, hnode, rfl⟩ := Option.map_eq_some_iff.mp hacc
      have hstate : chain.account id tip = info := by
        unfold Chain.account
        rw [hnode]
        rfl
      rcases hfind : s.db.accountBalances.find id with - | row
      · rw [hgone hfind] at hnode
        cases hnode
      · obtain ⟨hfree, hreserved, hnonce, m, hm, hmost⟩ := hrow row hfind
        rw [hstate] at hfree hreserved hnonce
        refine ⟨Queries.rowToAccount net id row, rfl, rfl, ?_, ?_⟩
        · change accountBalance row.free row.reserved = accountBalance info.free info.reserved
          rw [hfree, hreserved]
        · -- The greatest nonce seen is a nonce, so the cast keeps it.
          have hle := htyped m hm id
          change info.nonce ≤ asU32 (max row.nonce 0)
          unfold asU32
          simp only [u32Max] at hle
          omega
    · intro hnone acc' hacc'
      obtain ⟨row, hfind, rfl⟩ := Option.map_eq_some_iff.mp hacc'
      obtain ⟨hfree, hreserved, -⟩ := hrow row hfind
      have hstate : chain.account id tip = default := by
        unfold Chain.account
        rw [Option.map_eq_none_iff.mp hnone]
        rfl
      rw [hstate] at hfree hreserved
      change accountBalance row.free row.reserved = _
      rw [hfree, hreserved]
      decide

/-- An account with 100 at genesis gives 30 of it to another in block 1. -/
def paidChain : Chain := fun n =>
  if n = 0 then
    { bareChain 0 with systemAccount := Table.empty.insertNew (.fill 1) ⟨100, 0, 0, 0⟩ }
  else
    { bareChain n with
      events := if n = 1 then [⟨.initialization, .transfer (.fill 1) (.fill 2) 30, []⟩] else []
      systemAccount := (Table.empty.insertNew (.fill 1) ⟨70, 0, 0, 1⟩).insertNew (.fill 2)
        ⟨30, 0, 0, 0⟩ }

theorem paidChain_touches : paidChain.TouchesChanges := by
  intro n a hne
  rcases Nat.eq_zero_or_pos n with rfl | hpos
  · have hone : touchedAt (paidChain (0 + 1)) (0 + 1) = [.fill 1, .fill 2] := by decide +kernel
    rw [hone]
    by_contra hout
    simp only [List.mem_cons, List.not_mem_nil, or_false, not_or] at hout
    refine hne ?_
    simp [paidChain, hout.1, hout.2]
  · refine absurd ?_ hne
    simp [paidChain, hpos.ne']

/-- A seed at a head, and a worker that indexes the one chunk below it. -/
def backfilled (head : UInt64) : List Action :=
  [.publish head, .seed 0 .readHead, .seed 0 .readExisting, .seed 0 (.insert .acked),
    .worker 0 (.claim [])] ++
  List.replicate (head.toNat + 1) (.worker 0 (.index {})) ++ [.worker 0 .markDone]

/-- Whatever the chain, no block past the head is indexed. -/
theorem backfilled_indexedUpTo {head : UInt64}
    (hrun : (run (Sys.step chain 100) (Sys.start Db.empty) (backfilled head)).map
      (fun s => decide (∀ n ∈ List.range (head.toNat + 1), s.db.hasBlock n)) = some true) :
    ∃ s, run (Sys.step chain 100) (Sys.start Db.empty) (backfilled head) = some s ∧
      s.db.IndexedUpTo head.toNat := by
  obtain ⟨s, hs, hthere⟩ := Option.map_eq_some_iff.mp hrun
  refine ⟨s, hs, fun n hn => ⟨fun hn' => ?_, fun hle => ?_⟩⟩
  · refine le_of_hasBlock_run hs ?_ hn hn'
    intro head' hmem
    simp only [backfilled, List.mem_append, List.mem_cons, List.mem_replicate,
      Action.publish.injEq, reduceCtorEq, List.not_mem_nil, and_false, or_false] at hmem
    exact hmem ▸ le_rfl
  · exact of_decide_eq_true hthere n (List.mem_range.mpr (Nat.lt_succ_of_le hle))

theorem paidChain_backfilled :
    ∃ s, run (Sys.step paidChain 100) (Sys.start Db.empty) (backfilled 1) = some s ∧
      s.db.IndexedUpTo 1 :=
  backfilled_indexedUpTo (by decide +kernel)

/-- The payer reads from the database as it does from the node. -/
theorem accountByAddress_run_backfilled :
    ∃ s acc, run (Sys.step paidChain 100) (Sys.start Db.empty) (backfilled 1) = some s ∧
      Queries.accountByAddress plainNetwork (fun _ => some (.fill 1)) s.db "payer" = some acc ∧
      acc.balance = ⟨70, 70, 0⟩ := by
  obtain ⟨s, hs, hup⟩ := paidChain_backfilled
  have htyped : ∀ n ≤ 1, ∀ a, (paidChain.account a n).nonce ≤ u32Max := by
    intro n hn a
    have hrows : ∀ n ≤ 1, ∀ r ∈ (paidChain n).systemAccount.rows, r.2.nonce ≤ u32Max := by
      decide +kernel
    unfold Chain.account
    cases hfind : (paidChain n).systemAccount.find a with
    | none => decide
    | some info => exact hrows n hn _ (Table.find_eq_some_iff.mp hfind)
  obtain ⟨acc, hacc, -, hbalance, -⟩ := (accountByAddress_run plainNetwork
    (fun _ => some (.fill 1)) hs paidChain_touches hup (by decide) htyped "payer").1 _
      (by rfl)
  exact ⟨s, acc, hs, hacc, hbalance⟩

/-! ## The richest accounts -/

/-- What an account is listed with. -/
def shownTotal (free reserved : ℕ) : ℕ := min (free + reserved) u128Max

theorem totals_topAccounts (scan : List (AccountId × AccountBalance)) :
    (Queries.topAccounts net scan count).map (fun acc => acc.balance.total) =
      ((scan.mergeSort fun a b => decide (b.2.free + b.2.reserved ≤ a.2.free + a.2.reserved)).map
        fun r => shownTotal r.2.free r.2.reserved).take count := by
  unfold Queries.topAccounts
  split
  · rename_i hzero
    rw [hzero, List.take_zero, List.map_nil]
  · rw [List.map_map, List.map_take]
    rfl

theorem totals_fetchTopAccounts (entries : List (AccountId × AccountSnapshot)) :
    (Rpc.fetchTopAccounts net entries count).map (fun acc => acc.balance.total) =
      ((((entries.take Rpc.maxScanAccounts).map fun e => Rpc.mapAccountInfo net e.1 e.2).mergeSort
        fun a b => decide (b.balance.total ≤ a.balance.total)).map
          fun acc => acc.balance.total).take count := by
  unfold Rpc.fetchTopAccounts
  split
  · rename_i hzero
    rw [hzero, List.take_zero, List.map_nil]
  · rw [List.map_take]

/-- **The two columns of totals**: the node's, and zeros for the accounts
it has no more. -/
theorem totals_perm (h : run (Sys.step chain chunkSize) (Sys.start Db.empty) as = some s)
    (htouch : chain.TouchesChanges) (hup : s.db.IndexedUpTo tip) (htip : tip ≤ i64Max) :
    ∃ reaped, (s.db.accountBalances.column fun row => shownTotal row.free row.reserved).Perm
      ((chain tip).systemAccount.column (fun info => shownTotal info.free info.reserved) ++
        List.replicate reaped 0) := by
  have hsplit := Table.column_perm_filter (t := s.db.accountBalances)
    (fun a _ => (chain tip).systemAccount.contains a)
    (f := fun row => shownTotal row.free row.reserved)
  have hlive : (s.db.accountBalances.filter fun a _ => (chain tip).systemAccount.contains a).column
      (fun row => shownTotal row.free row.reserved) =
        (chain tip).systemAccount.column fun info => shownTotal info.free info.reserved := by
    refine Table.column_eq fun a => ?_
    obtain ⟨hrow, hgone⟩ := accountRow_run (a := a) h htouch hup htip
    rw [Table.find_filter]
    rcases hnode : (chain tip).systemAccount.find a with - | info
    · have hout : (chain tip).systemAccount.contains a = false :=
        Table.contains_eq_false_iff.mpr hnode
      rcases s.db.accountBalances.find a with - | row
      · rfl
      · rw [Option.filter_some, if_neg (by simp [hout])]
        rfl
    · have hin : (chain tip).systemAccount.contains a = true :=
        Table.contains_eq_true_iff.mpr ⟨info, hnode⟩
      rcases hfind : s.db.accountBalances.find a with - | row
      · rw [hgone hfind] at hnode
        cases hnode
      · obtain ⟨hfree, hreserved, -⟩ := hrow row hfind
        have hstate : chain.account a tip = info := by
          unfold Chain.account
          rw [hnode]
          rfl
        rw [hstate] at hfree hreserved
        rw [Option.filter_some, if_pos hin, Option.map_some, Option.map_some, hfree, hreserved]
  have hdead : ∀ n ∈ (s.db.accountBalances.filter fun a _ =>
      !(chain tip).systemAccount.contains a).column
        (fun row => shownTotal row.free row.reserved), n = 0 := by
    intro n hn
    obtain ⟨⟨a, row⟩, hr, rfl⟩ := List.mem_map.mp hn
    obtain ⟨hmem, hout⟩ := List.mem_filter.mp hr
    obtain ⟨hrow, -⟩ := accountRow_run (a := a) h htouch hup htip
    obtain ⟨hfree, hreserved, -⟩ := hrow row (Table.find_eq_some_iff.mpr hmem)
    have hnone : (chain tip).systemAccount.find a = none :=
      Table.contains_eq_false_iff.mp (by simpa using hout)
    have hstate : chain.account a tip = default := by
      unfold Chain.account
      rw [hnone]
      rfl
    rw [hstate] at hfree hreserved
    change shownTotal row.free row.reserved = 0
    rw [hfree, hreserved]
    decide
  rw [hlive, List.eq_replicate_of_mem hdead] at hsplit
  exact ⟨_, hsplit⟩

/-- **The richest accounts**, from the database and from the node, in
whatever order either meets entries of one total: the totals are the same
as far as the node has accounts, and zeros follow in the database for those
that were reaped. -/
theorem topAccounts_run (net : Network) {scan : List (AccountId × AccountBalance)}
    {entries : List (AccountId × AccountSnapshot)}
    (h : run (Sys.step chain chunkSize) (Sys.start Db.empty) as = some s)
    (htouch : chain.TouchesChanges) (hup : s.db.IndexedUpTo tip) (htip : tip ≤ i64Max)
    (hscan : scan.Perm s.db.accountBalances.rows)
    (hentries : entries.Perm (chain tip).systemAccount.rows)
    (hcap : entries.length ≤ Rpc.maxScanAccounts) (count : ℕ) :
    (Rpc.fetchTopAccounts net entries count).map (fun acc => acc.balance.total) =
      ((Queries.topAccounts net scan count).map fun acc => acc.balance.total).take
        entries.length ∧
    ∀ n ∈ ((Queries.topAccounts net scan count).map fun acc => acc.balance.total).drop
      entries.length, n = 0 := by
  obtain ⟨reaped, hperm⟩ := totals_perm h htouch hup htip
  rw [totals_topAccounts, totals_fetchTopAccounts, List.take_of_length_le hcap]
  generalize hnode : ((entries.map fun e => Rpc.mapAccountInfo net e.1 e.2).mergeSort
    fun a b => decide (b.balance.total ≤ a.balance.total)).map
      (fun acc => acc.balance.total) = node
  have hdesc : node.Pairwise fun m n => n ≤ m := by
    rw [← hnode]
    exact List.pairwise_map.mpr (pairwise_mergeSort_desc _ _)
  have hnodePerm : node.Perm
      ((chain tip).systemAccount.column fun info => shownTotal info.free info.reserved) := by
    rw [← hnode]
    refine ((List.mergeSort_perm _ _).map _).trans ?_
    rw [List.map_map]
    exact hentries.map _
  have hlen : node.length = entries.length := by
    rw [← hnode, List.length_map, List.length_mergeSort, List.length_map]
  have hdb : (scan.mergeSort fun a b =>
      decide (b.2.free + b.2.reserved ≤ a.2.free + a.2.reserved)).map
        (fun r => shownTotal r.2.free r.2.reserved) = node ++ List.replicate reaped 0 := by
    refine map_eq_of_descending ?_ (descending_append_zeros hdesc reaped) ?_
    · refine (pairwise_mergeSort_desc (fun r : AccountId × AccountBalance =>
        r.2.free + r.2.reserved) scan).imp fun {a b} hle => ?_
      unfold shownTotal
      omega
    · refine ((List.mergeSort_perm _ _).map _).trans ((hscan.map _).trans (hperm.trans ?_))
      exact hnodePerm.symm.append_right _
  rw [hdb, ← hlen, List.take_take, List.drop_take]
  constructor
  · rw [List.take_append_of_le_length (Nat.min_le_left _ _), Nat.min_comm, ← List.take_take,
      List.take_length]
  · intro n hn
    have hrest := List.mem_of_mem_take hn
    rw [List.drop_append_of_le_length le_rfl, List.drop_length, List.nil_append] at hrest
    exact List.eq_of_mem_replicate hrest

/-- Two accounts, and the richer one first. -/
theorem topAccounts_run_backfilled :
    ∃ s, run (Sys.step paidChain 100) (Sys.start Db.empty) (backfilled 1) = some s ∧
      ((Queries.topAccounts plainNetwork s.db.accountBalances.rows 10).map
        fun acc => acc.balance.total).take 2 = [70, 30] := by
  obtain ⟨s, hs, hup⟩ := paidChain_backfilled
  have hlist := (topAccounts_run plainNetwork hs paidChain_touches hup (by decide)
    (List.Perm.refl _) (List.Perm.refl (paidChain 1).systemAccount.rows) (by decide) 10).1
  refine ⟨s, hs, hlist.symm.trans ?_⟩
  unfold Rpc.fetchTopAccounts
  simp only [Nat.reduceEqDiff, if_false]
  rw [List.mergeSort_of_pairwise (by decide +kernel)]
  decide +kernel

end AllfeatExplorer
