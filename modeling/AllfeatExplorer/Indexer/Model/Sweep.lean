import AllfeatExplorer.Indexer.Model.Reconcile
import AllfeatExplorer.Lib.Run
import AllfeatExplorer.Lib.Sweep

/-!
# The sweep at any batch size

`reconcile_network` with the batch size as a parameter and any writer
beside it: the others may insert rows and put anything in those that are
there, between any two steps. Two logs are kept that the source does not
have, the accounts it fetched and the rows it updated.
-/

namespace AllfeatExplorer

open Projections

namespace Reconcile

/-- **A sweep and its logs.** -/
structure Sweep extends State where
  /-- The accounts `fetch_accounts_at` was called with. -/
  fetched : List AccountId
  /-- The rows `reconcile_account_balances` found and wrote. -/
  updated : List AccountId

/-- A sweep pinned at block `h`, before its first batch. -/
def Sweep.start (t : AccountTable) (h : ℕ) : Sweep :=
  { State.start t h with fetched := [], updated := [] }

/-- **The loop's next step**, until it is complete. -/
def turn (size : ℕ) (blk : NodeBlock) (s : Sweep) : Option Sweep :=
  match s.phase with
  | .selecting cursor =>
    match sweepBatch size s.accounts.keys cursor with
    | [] => some { s with phase := .complete }
    | accounts => some { s with phase := .selected accounts }
  | .selected accounts =>
    some
      { s with
        phase := .fetched accounts (fetchAccountsAt blk accounts)
        fetched := s.fetched ++ accounts }
  | .fetched accounts snapshots =>
    let (t, updated) := Sink.reconcileAccountBalances s.accounts snapshots
    some
      { s with
        accounts := t
        phase := if accounts.length < size then .complete else .selecting accounts.getLast?
        report :=
          { s.report with
            accountsScanned := satAddU64 s.report.accountsScanned accounts.length
            rowsUpdated := satAddU64 s.report.rowsUpdated updated }
        updated := s.updated ++ (snapshots.map Prod.fst).filter s.accounts.contains }
  | .complete => none
  | .failed => none

/-- What happens next: a step of the sweep, or the others leave the table
as it is given. -/
inductive SweepAction where
  | turn
  | others (t : AccountTable)

/-- It is a step of the sweep. -/
def SweepAction.isTurn : SweepAction → Bool
  | .turn => true
  | .others _ => false

/-- **The sweep among other writers**, which delete no row. -/
def sweepStep (size : ℕ) (blk : NodeBlock) (s : Sweep) : SweepAction → Option Sweep
  | .turn => turn size blk s
  | .others t => if s.accounts.keys.all t.contains then some { s with accounts := t } else none

end Reconcile

end AllfeatExplorer
