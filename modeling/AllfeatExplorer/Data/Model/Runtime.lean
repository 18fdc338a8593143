import AllfeatExplorer.Lib.Distinct
import AllfeatExplorer.Data.Model.Provider

/-!
# The runtime timeline

`runtime_upgrades`: the versions seen in the indexed blocks, each with its
first block, newest first. The provider flags the one that runs at the
head, and puts it in front where no indexed block has it yet.
-/

namespace AllfeatExplorer

/-- `domain::RuntimeUpgrade`. -/
structure RuntimeUpgrade where
  specVersion : ℕ
  firstBlock : Option ℕ
  firstBlockTimestampMs : Option ℤ
  isCurrent : Bool
deriving DecidableEq

namespace Queries

/-- The columns the aggregate reads. -/
structure ObservedVersion where
  specVersion : ℤ
  num : ℤ
  timestampMs : ℤ
deriving DecidableEq

/-- The rows of `blocks`, by number. -/
def observedVersions (db : Db) : List ObservedVersion :=
  db.blocks.rows.map fun r =>
    { specVersion := r.2.specVersion, num := r.1, timestampMs := r.2.timestampMs }

/-- `SELECT DISTINCT ON (spec_version) … ORDER BY spec_version, num ASC`. -/
def firstBlocks (db : Db) : List ObservedVersion :=
  Distinct.distinctOn ObservedVersion.specVersion <|
    (observedVersions db).mergeSort fun a b =>
      decide (toLex (a.specVersion, a.num) ≤ toLex (b.specVersion, b.num))

/-- A row of the timeline; the time of the genesis block is 0, and not
shown. -/
def rowToUpgrade (row : ObservedVersion) : RuntimeUpgrade where
  specVersion := (max row.specVersion 0).toNat
  firstBlock := some (max row.num 0).toNat
  firstBlockTimestampMs := if row.timestampMs > 0 then some row.timestampMs else none
  isCurrent := false

/-- **`queries::runtime::runtime_upgrades`.** -/
def runtimeUpgrades (db : Db) : List RuntimeUpgrade :=
  ((firstBlocks db).mergeSort fun a b => decide (b.num ≤ a.num)).map rowToUpgrade

end Queries

/-- `RpcProvider::runtime_upgrades`: what runs now, since an unknown
block. -/
def Rpc.runtimeUpgrades (current : ℕ) : List RuntimeUpgrade :=
  [{ specVersion := current, firstBlock := none, firstBlockTimestampMs := none, isCurrent := true }]

/-- **`IndexedProvider::runtime_upgrades`** of an indexed network;
`current` is the version `runtime_details` reads from the head, if it
can. -/
def IndexedProvider.runtimeUpgrades (p : IndexedProvider) (current : Option ℕ) :
    List RuntimeUpgrade :=
  let upgrades := Queries.runtimeUpgrades p.db
  match current with
  | none => upgrades
  | some current =>
    let upgrades := upgrades.map fun u =>
      if u.specVersion = current then { u with isCurrent := true } else u
    if !upgrades.any fun u => u.specVersion = current then
      { specVersion := current
        firstBlock := none
        firstBlockTimestampMs := none
        isCurrent := true } :: upgrades
    else upgrades

end AllfeatExplorer
