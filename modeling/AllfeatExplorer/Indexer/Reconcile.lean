import AllfeatExplorer.Indexer.Model.Reconcile
import AllfeatExplorer.Indexer.Snapshots

/-!
# The sweep beside the workers

A worker's write is guarded by the row's activity mark; the sweep's is
not. So a batch fetched at the pinned block can land on a row that a
newer block has marked, and the row is older than its mark until a block
touches the account again. Between a state at or after its mark and the
state at the pinned block there is nothing else a row can hold, and the
rows stay at or after their marks exactly as long as no batch is written
over a mark it is behind (`current_run_iff`).
-/

namespace AllfeatExplorer

open Projections

variable {chain : Chain} {h n : ℕ} {t t' : AccountTable} {a : AccountId} {row : AccountBalance}
  {ts : ℤ}

/-! ## What a row may hold -/

/-- **The row is at or after its mark**: its balance is the account's at
some block from `last_activity_block` on. -/
def AccountBalance.CurrentFor (row : AccountBalance) (chain : Chain) (a : AccountId) : Prop :=
  ∃ n : ℕ, row.lastActivityBlock ≤ n ∧ row.funds = (chain.account a n).funds

/-- Every row is at or after its mark. -/
def AccountTable.Current (chain : Chain) (t : AccountTable) : Prop :=
  ∀ a row, t.find a = some row → row.CurrentFor chain a

/-- Every row is at or after its mark, or at the pinned block. -/
def AccountTable.CurrentOrAt (chain : Chain) (h : ℕ) (t : AccountTable) : Prop :=
  ∀ a row, t.find a = some row →
    row.CurrentFor chain a ∨ row.funds = (chain.account a h).funds

/-! ## A worker's write -/

/-- **A merge** takes balance and mark from one side. -/
theorem mergeSnapshot_cases (excluded old : AccountBalance) :
    ((Sink.mergeSnapshot excluded old).funds = excluded.funds ∧
        (Sink.mergeSnapshot excluded old).lastActivityBlock = excluded.lastActivityBlock) ∨
      ((Sink.mergeSnapshot excluded old).funds = old.funds ∧
        (Sink.mergeSnapshot excluded old).lastActivityBlock = old.lastActivityBlock) := by
  rcases le_or_gt old.lastActivityBlock excluded.lastActivityBlock with hle | hlt
  · left
    simp only [Sink.mergeSnapshot, AccountBalance.funds, ge_iff_le, if_pos hle, max_eq_right hle,
      and_self]
  · right
    simp only [Sink.mergeSnapshot, AccountBalance.funds, ge_iff_le, if_neg (not_le.mpr hlt),
      max_eq_left (le_of_lt hlt), and_self]

/-- **A property of balances under marks** that the block's own balance
has, upserts of the block's snapshots keep. -/
theorem find_upsertSnapshots {P : AccountId → ℤ → ℕ × ℕ × ℕ → Prop}
    (hP : ∀ a, P a (asI64 n) (chain.account a n).funds) (accounts : List AccountId)
    (ht : ∀ a row, t.find a = some row → P a row.lastActivityBlock row.funds)
    (hrow : ((fetchAccountsAt (chain n) accounts).foldl (Sink.upsertSnapshot n ts) t).find a =
      some row) : P a row.lastActivityBlock row.funds := by
  induction accounts generalizing t with
  | nil => exact ht a row hrow
  | cons b accounts ih =>
    refine ih (t := Sink.upsertSnapshot n ts t (b, chain.account b n)) ?_ hrow
    intro a row hrow
    simp only [Sink.upsertSnapshot, Table.find_upsert] at hrow
    split at hrow
    · rename_i hab
      subst hab
      rcases hold : t.find a with - | old
      · rw [hold] at hrow
        obtain rfl := Option.some.inj hrow
        exact hP a
      · rw [hold] at hrow
        obtain rfl := Option.some.inj hrow
        simp only [Option.elim_some]
        obtain ⟨hfunds, hmark⟩ | ⟨hfunds, hmark⟩ :=
          mergeSnapshot_cases (Sink.snapshotRow n ts (chain.account a n)) old
        · rw [hfunds, hmark]
          exact hP a
        · rw [hfunds, hmark]
          exact ht a old hold
    · exact ht a row hrow

/-- And so does a worker's write. -/
theorem find_applyAt {P : AccountId → ℤ → ℕ × ℕ × ℕ → Prop} {accounts : List AccountId}
    (hP : ∀ a, P a (asI64 n) (chain.account a n).funds)
    (ht : ∀ a row, t.find a = some row → P a row.lastActivityBlock row.funds)
    (hrow : (Reconcile.applyAt chain t n accounts).find a = some row) :
    P a row.lastActivityBlock row.funds := by
  unfold Reconcile.applyAt at hrow
  split at hrow
  · rename_i t' hok
    have hfold : t' = (fetchAccountsAt (chain n) accounts).foldl
        (Sink.upsertSnapshot n (fetchTimestamp (chain n))) t := by
      refine inBatches_foldl (by decide) (fun t c t' hstmt => ?_) hok
      split at hstmt
      · exact (Except.ok.inj hstmt).symm
      · cases hstmt
    rw [hfold] at hrow
    exact find_upsertSnapshots hP accounts ht hrow
  · exact ht a row hrow

/-! ## The sweep's write -/

theorem foldl_reconcileChunk (chunks : List (List (AccountId × AccountSnapshot)))
    (st : AccountTable × ℕ) :
    (chunks.foldl Sink.reconcileChunk st).1 =
      chunks.flatten.foldl (fun t s => t.update s.1 (Sink.reconcileRow s.2)) st.1 := by
  induction chunks generalizing st with
  | nil => rfl
  | cons c chunks ih => rw [List.foldl_cons, ih, List.flatten_cons, List.foldl_append]; rfl

/-- **The sweep's write** gives the accounts it names their balance at the
pinned block, under the mark they had, and leaves the others alone. -/
theorem find_reconcile (chain : Chain) (h : ℕ) (accounts : List AccountId) (t : AccountTable)
    (a : AccountId) :
    ((Sink.reconcileAccountBalances t (fetchAccountsAt (chain h) accounts)).1.find a = none ↔
        t.find a = none) ∧
      ∀ row, (Sink.reconcileAccountBalances t (fetchAccountsAt (chain h) accounts)).1.find a =
          some row →
        ∃ old, t.find a = some old ∧ row.lastActivityBlock = old.lastActivityBlock ∧
          row.funds = if a ∈ accounts then (chain.account a h).funds else old.funds := by
  unfold Sink.reconcileAccountBalances
  rw [foldl_reconcileChunk, flatten_chunks (by decide)]
  simp only [fetchAccountsAt, List.foldl_map]
  induction accounts generalizing t with
  | nil => exact ⟨Iff.rfl, fun row hrow => ⟨row, hrow, rfl, rfl⟩⟩
  | cons b accounts ih =>
    rw [List.foldl_cons]
    obtain ⟨hnone, hsome⟩ :=
      ih (t.update b (Sink.reconcileRow (((chain h).systemAccount.find b).getD default)))
    constructor
    · rw [hnone, Table.find_update]
      split
      · rename_i hab
        rw [hab, Option.map_eq_none_iff]
      · exact Iff.rfl
    · intro row hrow
      obtain ⟨mid, hmid, hmark, hfunds⟩ := hsome row hrow
      rw [Table.find_update] at hmid
      split at hmid
      · rename_i hab
        subst hab
        obtain ⟨old, hold, rfl⟩ := Option.map_eq_some_iff.mp hmid
        refine ⟨old, hold, hmark, ?_⟩
        rw [if_pos List.mem_cons_self, hfunds]
        split <;> rfl
      · rename_i hab
        refine ⟨mid, hmid, hmark, ?_⟩
        simp only [List.mem_cons, hab, false_or]
        exact hfunds

/-! ## Runs -/

namespace Reconcile

/-- **What the sweep holds is the state at the pinned block.** -/
def State.Fetched (chain : Chain) (h : ℕ) (s : State) : Prop :=
  ∀ accounts snapshots, s.phase = .fetched accounts snapshots →
    snapshots = fetchAccountsAt (chain h) accounts

/-- **The step writes no batch over a mark it is behind**: an account of
the batch has, at the pinned block, a balance it has at some block from
its row's mark on. So it is where the mark is at or below the pinned
block. -/
def Ahead (chain : Chain) (h : ℕ) (s : State) : Action → Prop
  | .write => ∀ accounts snapshots, s.phase = .fetched accounts snapshots →
    ∀ a ∈ accounts, ∀ row, s.accounts.find a = some row →
      ∃ n : ℕ, row.lastActivityBlock ≤ n ∧ (chain.account a h).funds = (chain.account a n).funds
  | _ => True

variable {s s' : State} {act : Action}

/-- **What a step does to the table**: a worker's write, the write of a
batch fetched, or nothing. -/
theorem accounts_step (hstep : step chain h s act = some s') :
    (∃ n accounts, act = .apply n accounts ∧
        s'.accounts = applyAt chain s.accounts n accounts ∧ s'.phase = s.phase) ∨
      (∃ accounts snapshots, act = .write ∧ s.phase = .fetched accounts snapshots ∧
        s'.accounts = (Sink.reconcileAccountBalances s.accounts snapshots).1) ∨
      (act ≠ .write ∧ s'.accounts = s.accounts) := by
  cases act with
  | apply n accounts =>
    obtain rfl := Option.some.inj hstep
    exact .inl ⟨n, accounts, rfl, rfl, rfl⟩
  | write =>
    simp only [step] at hstep
    split at hstep
    · rename_i accounts snapshots hphase
      obtain rfl := Option.some.inj hstep
      exact .inr (.inl ⟨accounts, snapshots, rfl, hphase, rfl⟩)
    · cases hstep
  | select =>
    simp only [step] at hstep
    split at hstep
    · split at hstep <;>
        · obtain rfl := Option.some.inj hstep
          exact .inr (.inr ⟨Action.noConfusion, rfl⟩)
    · cases hstep
  | fetch =>
    simp only [step] at hstep
    split at hstep
    · obtain rfl := Option.some.inj hstep
      exact .inr (.inr ⟨Action.noConfusion, rfl⟩)
    · cases hstep
  | fail =>
    simp only [step] at hstep
    split at hstep
    · cases hstep
    · cases hstep
    · obtain rfl := Option.some.inj hstep
      exact .inr (.inr ⟨Action.noConfusion, rfl⟩)

/-- Only a fetch puts snapshots in the sweep's hands. -/
theorem fetched_step (hs : s.Fetched chain h) (hstep : step chain h s act = some s') :
    s'.Fetched chain h := by
  intro accounts snapshots hphase
  cases act with
  | apply n accounts' =>
    obtain rfl := Option.some.inj hstep
    exact hs accounts snapshots hphase
  | write =>
    simp only [step] at hstep
    split at hstep
    · obtain rfl := Option.some.inj hstep
      simp only at hphase
      split at hphase <;> cases hphase
    · cases hstep
  | select =>
    simp only [step] at hstep
    split at hstep
    · split at hstep <;>
        · obtain rfl := Option.some.inj hstep
          cases hphase
    · cases hstep
  | fetch =>
    simp only [step] at hstep
    split at hstep
    · obtain rfl := Option.some.inj hstep
      cases hphase
      rfl
    · cases hstep
  | fail =>
    simp only [step] at hstep
    split at hstep
    · cases hstep
    · cases hstep
    · obtain rfl := Option.some.inj hstep
      cases hphase

/-- **No step leaves a row older than both**: its mark and the pinned
block. -/
theorem currentOrAt_step (hs : s.Fetched chain h) (hcur : s.accounts.CurrentOrAt chain h)
    (hstep : step chain h s act = some s') : s'.accounts.CurrentOrAt chain h := by
  obtain ⟨n, accounts, -, htable, -⟩ | ⟨accounts, snapshots, -, hphase, htable⟩ | ⟨-, htable⟩ :=
    accounts_step hstep
  · intro a row hrow
    rw [htable] at hrow
    exact find_applyAt
      (P := fun a mark funds => (∃ n : ℕ, mark ≤ n ∧ funds = (chain.account a n).funds) ∨
        funds = (chain.account a h).funds)
      (fun a => .inl ⟨n, asI64_le n, rfl⟩) hcur hrow
  · intro a row hrow
    rw [htable, hs accounts snapshots hphase] at hrow
    obtain ⟨old, hold, hmark, hfunds⟩ := (find_reconcile _ _ accounts s.accounts a).2 row hrow
    split at hfunds
    · exact .inr hfunds
    · rcases hcur a old hold with ⟨n, hn, hat⟩ | hat
      · exact .inl ⟨n, hmark ▸ hn, hfunds.trans hat⟩
      · exact .inr (hfunds.trans hat)
  · rw [htable]
    exact hcur

/-- **A step ahead of the marks it writes over** keeps every row at or
after its mark. -/
theorem current_step (hs : s.Fetched chain h) (hcur : s.accounts.Current chain)
    (hahead : Ahead chain h s act) (hstep : step chain h s act = some s') :
    s'.accounts.Current chain := by
  obtain ⟨n, accounts, -, htable, -⟩ | ⟨accounts, snapshots, rfl, hphase, htable⟩ | ⟨-, htable⟩ :=
    accounts_step hstep
  · intro a row hrow
    rw [htable] at hrow
    exact find_applyAt
      (P := fun a mark funds => ∃ n : ℕ, mark ≤ n ∧ funds = (chain.account a n).funds)
      (fun a => ⟨n, asI64_le n, rfl⟩) hcur hrow
  · intro a row hrow
    rw [htable, hs accounts snapshots hphase] at hrow
    obtain ⟨old, hold, hmark, hfunds⟩ := (find_reconcile _ _ accounts s.accounts a).2 row hrow
    split at hfunds
    · rename_i hin
      obtain ⟨n, hn, hat⟩ := hahead accounts snapshots hphase a hin old hold
      exact ⟨n, hmark ▸ hn, hfunds.trans hat⟩
    · obtain ⟨n, hn, hat⟩ := hcur a old hold
      exact ⟨n, hmark ▸ hn, hfunds.trans hat⟩
  · rw [htable]
    exact hcur

/-- **And a step that keeps them so was ahead.** -/
theorem ahead_of_current (hs : s.Fetched chain h) (hcur' : s'.accounts.Current chain)
    (hstep : step chain h s act = some s') : Ahead chain h s act := by
  cases act with
  | write =>
    intro accounts snapshots hphase a ha row hrow
    simp only [step, hphase] at hstep
    obtain rfl := Option.some.inj hstep
    simp only [hs accounts snapshots hphase] at hcur'
    obtain ⟨hnone, hsome⟩ := find_reconcile chain h accounts s.accounts a
    rcases hnew : (Sink.reconcileAccountBalances s.accounts
        (fetchAccountsAt (chain h) accounts)).1.find a with - | new
    · rw [hnone.mp hnew] at hrow
      cases hrow
    · obtain ⟨old, hold, hmark, hfunds⟩ := hsome new hnew
      obtain rfl := Option.some.inj (hold.symm.trans hrow)
      obtain ⟨n, hn, hat⟩ := hcur' a new hnew
      rw [if_pos ha] at hfunds
      exact ⟨n, hmark ▸ hn, hfunds.symm.trans hat⟩
  | select | fetch | fail | apply => trivial

variable {as : List Action}

theorem fetched_start : (State.start t h).Fetched chain h :=
  fun _ _ hphase => Phase.noConfusion hphase

/-- **Every row is at or after its mark, or at the pinned block**, in
every state the sweep and the workers reach. -/
theorem currentOrAt_run (ht : t.Current chain)
    (hrun : run (step chain h) (State.start t h) as = some s) :
    s.accounts.CurrentOrAt chain h := by
  have hinv : s.Fetched chain h ∧ s.accounts.CurrentOrAt chain h :=
    inv_run (I := fun u : State => u.Fetched chain h ∧ u.accounts.CurrentOrAt chain h)
      (fun _ _ _ hu hstep => ⟨fetched_step hu.1 hstep, currentOrAt_step hu.1 hu.2 hstep⟩)
      ⟨fetched_start, fun a row hrow => .inl (ht a row hrow)⟩ hrun
  exact hinv.2

/-- **The rows stay at or after their marks throughout the run** where no
batch is written over a mark it is behind, and in no other case. -/
theorem current_run_iff (ht : t.Current chain)
    (hrun : run (step chain h) (State.start t h) as = some s) :
    (∀ pre u, pre <+: as → run (step chain h) (State.start t h) pre = some u →
        u.accounts.Current chain) ↔
      EveryStep (step chain h) (Ahead chain h) (State.start t h) as := by
  refine holds_iff_everyStep (I := fun u : State => u.Fetched chain h ∧ u.accounts.Current chain)
    (fun _ _ _ hu hok hstep => ⟨fetched_step hu.1 hstep, current_step hu.1 hu.2 hok hstep⟩)
    (fun _ hu => hu.2) ?_ ⟨fetched_start, ht⟩ hrun
  intro u act v hu hstep hv
  exact ahead_of_current hu.1 hv hstep

/-! ## The result -/

/-- **The sweep beside the workers.** From a table whose rows are at or
after their marks, every row stays at or after its mark or is at the
pinned block; and all rows are at or after their marks in every state of
the run exactly when no batch is written over a mark it is behind. -/
theorem sweep_beside_workers (chain : Chain) (h : ℕ) (t : AccountTable) (ht : t.Current chain)
    (as : List Action) (s : State)
    (hrun : run (step chain h) (State.start t h) as = some s) :
    s.accounts.CurrentOrAt chain h ∧
      ((∀ pre u, pre <+: as → run (step chain h) (State.start t h) pre = some u →
          u.accounts.Current chain) ↔
        EveryStep (step chain h) (Ahead chain h) (State.start t h) as) :=
  ⟨currentOrAt_run ht hrun, current_run_iff ht hrun⟩

/-- A chain on which account 1 holds as much as the number of the
block. -/
def risingChain : Chain := fun n =>
  { bareChain n with systemAccount := Table.empty.insertNew (.fill 1) ⟨n, 0, 0, 0⟩ }

/-- Its table after block 0. -/
def risingTable : AccountTable :=
  Table.empty.insertNew (.fill 1) (Sink.snapshotRow 0 0 ⟨0, 0, 0, 0⟩)

theorem current_risingTable : risingTable.Current risingChain := by
  intro a row hrow
  simp only [risingTable, Table.find_insertNew, Table.find_empty, Option.getD_none] at hrow
  split at hrow
  · rename_i ha
    obtain rfl := Option.some.inj hrow
    exact ⟨0, le_refl _, by rw [ha]; rfl⟩
  · cases hrow

/-- A worker writes block 2 between the fetch at block 3 and its write,
and block 5 after it. -/
def writtenBetween : List Action :=
  [.select, .fetch, .apply 2 [.fill 1, .fill 2], .write, .apply 5 [.fill 1]]

/-- The batch is ahead of the mark that the worker left, and no row falls
behind its own. -/
theorem sweep_beside_workers_between :
    ∃ s, run (step risingChain 3) (State.start risingTable 3) writtenBetween = some s ∧
      s.accounts.CurrentOrAt risingChain 3 ∧ s.accounts.Current risingChain := by
  obtain ⟨s, hs⟩ : ∃ s, run (step risingChain 3) (State.start risingTable 3) writtenBetween =
    some s := ⟨_, rfl⟩
  obtain ⟨hcurrent, hexact⟩ :=
    sweep_beside_workers risingChain 3 risingTable current_risingTable writtenBetween s hs
  refine ⟨s, hs, hcurrent, hexact.mpr ⟨trivial, trivial, trivial, ?_, trivial, trivial⟩
    writtenBetween s List.prefix_rfl hs⟩
  intro accounts snapshots hphase a _ row hrow
  -- No row has a mark above the pinned block.
  have hmarks : ∀ r ∈ (applyAt risingChain risingTable 2 [.fill 1, .fill 2]).rows,
      r.2.lastActivityBlock ≤ 3 := by decide
  exact ⟨3, hmarks _ (Table.find_eq_some_iff.mp hrow), rfl⟩

/-- **Block 2 is written between the fetch at block 1 and its write**: the
row holds the balance of block 1 under the mark 2, and the account never
holds it again. -/
theorem not_current_overtaken :
    risingTable.Current risingChain ∧
      ∃ s, run (step risingChain 1) (State.start risingTable 1)
          [.select, .fetch, .apply 2 [.fill 1], .write] = some s ∧
        ¬ s.accounts.Current risingChain := by
  refine ⟨current_risingTable, _, rfl, fun hcurrent => ?_⟩
  obtain ⟨n, hmark, hfunds⟩ := hcurrent (.fill 1)
    ⟨1, 0, 0, 0, 0, 2, 0, 0⟩ (by decide)
  have hfree : (risingChain.account (.fill 1) n).free = n := by
    simp [Chain.account, risingChain]
  have hone : 1 = (risingChain.account (.fill 1) n).free := congrArg Prod.fst hfunds
  simp only at hmark
  omega

end Reconcile

end AllfeatExplorer
