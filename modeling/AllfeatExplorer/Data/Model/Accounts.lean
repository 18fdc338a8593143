import AllfeatExplorer.Data.Model.Provider

/-!
# Accounts

An account by its address, and the richest accounts, from the database's
snapshots and from `System::Account`. The order of entries with one total
is that of the rows Postgres meets, or of the node's storage keys: either
is an argument.
-/

namespace AllfeatExplorer

/-- `domain::Balance`. -/
structure Balance where
  total : ℕ
  transferable : ℕ
  reserved : ℕ
deriving DecidableEq

/-- `domain::Account`. -/
structure Account where
  address : String
  balance : Balance
  nonce : ℕ
  firstSeenMs : ℤ
  lastActiveMs : ℤ
deriving DecidableEq

/-- `free.saturating_add(reserved)`: a lock is no balance of its own. -/
def accountBalance (free reserved : ℕ) : Balance where
  total := min (free + reserved) u128Max
  transferable := free
  reserved := reserved

namespace Queries

/-- `row_to_account`. -/
def rowToAccount (net : Network) (id : AccountId) (row : AccountBalance) : Account where
  address := net.encodeSs58 id
  balance := accountBalance row.free row.reserved
  nonce := asU32 (max row.nonce 0)
  firstSeenMs := row.firstSeenMs
  lastActiveMs := row.lastActivityMs

/-- **`queries::accounts::account_by_address`**; `parse` is the
`AccountId32` parser. -/
def accountByAddress (net : Network) (parse : String → Option AccountId) (db : Db)
    (address : String) : Option Account :=
  match parse address with
  | none => none
  | some id => (db.accountBalances.find id).map (rowToAccount net id)

/-- **`queries::accounts::top_accounts`** of the rows in the order `scan`:
`ORDER BY (free + reserved) DESC LIMIT count`. -/
def topAccounts (net : Network) (scan : List (AccountId × AccountBalance)) (count : ℕ) :
    List Account :=
  if count = 0 then []
  else
    ((scan.mergeSort fun a b =>
      decide (b.2.free + b.2.reserved ≤ a.2.free + a.2.reserved)).take count).map fun r =>
        rowToAccount net r.1 r.2

end Queries

namespace Rpc

/-- `map_account_info`. -/
def mapAccountInfo (net : Network) (id : AccountId) (info : AccountSnapshot) : Account where
  address := net.encodeSs58 id
  balance := accountBalance info.free info.reserved
  nonce := info.nonce
  firstSeenMs := 0
  lastActiveMs := 0

/-- **`fetch_account`** at a block. -/
def fetchAccount (net : Network) (parse : String → Option AccountId)
    (systemAccount : Table AccountId AccountSnapshot) (address : String) : Option Account :=
  match parse address with
  | none => none
  | some id => (systemAccount.find id).map (mapAccountInfo net id)

/-- `MAX_SCAN_ACCOUNTS`. -/
def maxScanAccounts : ℕ := 10000

/-- **`fetch_top_accounts`** of the entries the node's iterator gives. -/
def fetchTopAccounts (net : Network) (entries : List (AccountId × AccountSnapshot)) (count : ℕ) :
    List Account :=
  if count = 0 then []
  else
    let accounts := (entries.take maxScanAccounts).map fun e => mapAccountInfo net e.1 e.2
    (accounts.mergeSort fun a b => decide (b.balance.total ≤ a.balance.total)).take count

end Rpc

end AllfeatExplorer
