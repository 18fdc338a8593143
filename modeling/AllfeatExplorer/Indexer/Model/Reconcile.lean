import AllfeatExplorer.Indexer.Model.Sink

/-!
# The reconcile sweep

`reconcile_network`: walk `account_balances` in batches, fetch each
batch's accounts at one pinned block, write what was fetched. The
workers go on writing the table meanwhile, so the select, the fetch and
the write of a batch are steps of their own, and a worker's write of a
block may come between any two.
-/

namespace AllfeatExplorer

open Projections

namespace Sink

/-- The `SET` of `reconcile_account_balances`: the balance is replaced,
the nonce only raised, the span kept. -/
def reconcileRow (snap : AccountSnapshot) (old : AccountBalance) : AccountBalance :=
  { old with
    free := snap.free
    reserved := snap.reserved
    frozen := snap.frozen
    nonce := max old.nonce snap.nonce }

/-- One statement: the accounts that have a row are updated, and
counted. -/
def reconcileChunk (st : AccountTable × ℕ) (chunk : List (AccountId × AccountSnapshot)) :
    AccountTable × ℕ :=
  (chunk.foldl (fun t s => t.update s.1 (reconcileRow s.2)) st.1,
    st.2 + chunk.countP fun s => st.1.contains s.1)

/-- **`reconcile_account_balances`**: the table written, and how many
rows were. -/
def reconcileAccountBalances (t : AccountTable) (snapshots : List (AccountId × AccountSnapshot)) :
    AccountTable × ℕ :=
  (chunks (maxBindsPerQuery / 5) snapshots).foldl reconcileChunk (t, 0)

end Sink

namespace Reconcile

/-- `BATCH_SIZE`. -/
def batchSize : ℕ := 500

/-- `ReconcileReport`: what the sweep has come through so far. -/
structure ReconcileReport where
  headBlock : ℕ
  accountsScanned : ℕ
  rowsUpdated : ℕ
deriving DecidableEq

/-- Where the sweep is in its loop. The empty cursor it starts from is
below every account. -/
inductive Phase where
  | selecting (cursor : Option AccountId)
  | selected (accounts : List AccountId)
  | fetched (accounts : List AccountId) (snapshots : List (AccountId × AccountSnapshot))
  | complete
  | failed
deriving DecidableEq

/-- **The table and the sweep over it.** -/
structure State where
  accounts : AccountTable
  phase : Phase
  report : ReconcileReport

/-- A sweep pinned at block `h`, before its first batch. -/
def State.start (t : AccountTable) (h : ℕ) : State :=
  { accounts := t, phase := .selecting none, report := ⟨h, 0, 0⟩ }

/-- What happens next: a step of the sweep, or a worker's write of one
block's snapshots. -/
inductive Action where
  | select
  | fetch
  | write
  | fail
  | apply (block : ℕ) (accounts : List AccountId)
deriving DecidableEq

/-- The next batch: `WHERE account > $cursor ORDER BY account LIMIT 500`. -/
def nextBatch (t : AccountTable) (cursor : Option AccountId) : List AccountId :=
  (t.keys.filter fun a => cursor.all fun c => decide (c < a)).take batchSize

/-- A worker's write at `block`: a statement Postgres refuses leaves the
table as it was. -/
def applyAt (chain : Chain) (t : AccountTable) (block : ℕ) (accounts : List AccountId) :
    AccountTable :=
  match Sink.applyAccountSnapshots t block (fetchTimestamp (chain block))
      (fetchAccountsAt (chain block) accounts) with
  | .ok t' => t'
  | .error _ => t

/-- **`reconcile_network` among the workers' writes**, one step. -/
def step (chain : Chain) (h : ℕ) (s : State) : Action → Option State
  | .select =>
    match s.phase with
    | .selecting cursor =>
      match nextBatch s.accounts cursor with
      | [] => some { s with phase := .complete }
      | accounts => some { s with phase := .selected accounts }
    | _ => none
  | .fetch =>
    match s.phase with
    | .selected accounts =>
      some { s with phase := .fetched accounts (fetchAccountsAt (chain h) accounts) }
    | _ => none
  | .write =>
    match s.phase with
    | .fetched accounts snapshots =>
      let (t, updated) := Sink.reconcileAccountBalances s.accounts snapshots
      some
        { accounts := t
          -- A batch that is not full is the last.
          phase := if accounts.length < batchSize then .complete
            else .selecting accounts.getLast?
          report :=
            { s.report with
              accountsScanned := satAddU64 s.report.accountsScanned accounts.length
              rowsUpdated := satAddU64 s.report.rowsUpdated updated } }
    | _ => none
  | .fail =>
    match s.phase with
    | .complete | .failed => none
    | _ => some { s with phase := .failed }
  | .apply block accounts => some { s with accounts := applyAt chain s.accounts block accounts }

end Reconcile

end AllfeatExplorer
