import Mathlib.Data.Finset.Card
import AllfeatExplorer.Data.Model.Queries
import AllfeatExplorer.Data.Model.Registry
import AllfeatExplorer.Data.Model.Token

/-!
# The ATS statistics

`AtsStats`, twice: the database aggregates the registry and version rows
in one query, the mapper scans the records of the node. A version is in a
window of the one from the window's edge on, and in a window of the other
past the edge.
-/

namespace AllfeatExplorer

open Projections Token

/-- `AtsStats`. -/
structure AtsStats where
  total : ℕ
  totalVersions : ℕ
  last24h : ℕ
  last7d : ℕ
  last30d : ℕ
  uniqueOwners : ℕ
  avgPerDay : ℕ
  protocolVersion : ℕ
  genesisBlock : ℕ
  firstRegisteredAtMs : ℤ
  totalDeposited : ℕ
  /-- The two counts whose quotient it is, in `f32`. Absent, it is 0. -/
  multiVersionShare : Option (ℕ × ℕ)
deriving DecidableEq

/-- `H24_MS`. -/
def h24Ms : ℤ := 24 * 60 * 60 * 1000

/-- `D7_MS`. -/
def d7Ms : ℤ := 7 * h24Ms

/-- `D30_MS`. -/
def d30Ms : ℤ := 30 * h24Ms

/-- `multi_version_share`. -/
def multiVersionShare (multiVersion total : ℕ) : Option (ℕ × ℕ) :=
  if total = 0 then none else some (multiVersion, total)

namespace Queries

/-- `v.max(0) as u32`, of a `BIGINT`. -/
def countU32 (v : ℤ) : ℕ := asU32 (max v 0)

/-- `SELECT MAX(timestamp_ms) FROM blocks`. -/
def latestTimestamp (db : Db) : Option ℤ := (db.blocks.rows.map fun r => r.2.timestampMs).max?

/-- A version joined with its block, where the block is not older than
`window`. A comparison with `NULL` does not hold. -/
def inWindow (db : Db) (window : ℤ) (v : AtsVersionEntry) : Bool :=
  match db.blocks.find v.blockNum, latestTimestamp db with
  | some block, some now => decide (now - window ≤ block.timestampMs)
  | _, _ => false

/-- `COUNT(*) FILTER (WHERE b.timestamp_ms >= now - window)`. -/
def versionsInWindow (db : Db) (window : ℤ) : ℕ :=
  db.ats.children.rows.countP fun r => inWindow db window r.2

/-- **`ats_stats`.** -/
def atsStats (db : Db) : AtsStats :=
  let registry := db.ats.parents.rows.map Prod.snd
  let total := countU32 registry.length
  let multiVersion := countU32 (registry.countP fun row => decide (1 < row.versionCount))
  let totalVersions := countU32 (registry.map (·.versionCount)).sum
  let genesisBlock := (registry.map (·.createdBlock)).min?
  let last24h := countU32 (versionsInWindow db h24Ms)
  { total := total
    totalVersions := totalVersions
    last24h := last24h
    last7d := countU32 (versionsInWindow db d7Ms)
    last30d := countU32 (versionsInWindow db d30Ms)
    uniqueOwners := countU32 (registry.map (·.owner)).toFinset.card
    avgPerDay := last24h
    protocolVersion := 1
    genesisBlock := asU64 (max (genesisBlock.getD 0) 0)
    firstRegisteredAtMs :=
      ((genesisBlock.bind fun num => db.blocks.find num).map fun row => row.timestampMs).getD 0
    totalDeposited := satMulU128 totalVersions versionDeposit
    multiVersionShare := multiVersionShare multiVersion total }

end Queries

namespace Rpc

/-- The counters of `build_ats_stats`. -/
structure StatsTally where
  total : ℕ := 0
  totalVersions : ℕ := 0
  uniqueOwners : Finset String := ∅
  totalDeposited : ℕ := 0
  multiVersionCount : ℕ := 0
  last24h : ℕ := 0
  last7d : ℕ := 0
  last30d : ℕ := 0
  firstRegisteredAtMs : ℤ := 0
  genesisBlock : ℕ := 0

/-- `if age < window { last += 1 }`, over the versions of a record. -/
def countYounger (nowMs window : ℤ) (versions : List AtsVersion) (last : ℕ) : ℕ :=
  versions.foldl
    (fun last v => if nowMs - v.createdAtMs < window then wrapU32 (last + 1) else last) last

/-- The loop of `build_ats_stats`, at one record. -/
def StatsTally.step (nowMs : ℤ) (tally : StatsTally) (rec : AtsRecord) : StatsTally :=
  let first := decide (tally.firstRegisteredAtMs = 0) ||
    decide (rec.createdAtMs < tally.firstRegisteredAtMs)
  { total := satAddU32 tally.total 1
    totalVersions := satAddU32 tally.totalVersions rec.versionCount
    uniqueOwners := insert rec.owner tally.uniqueOwners
    totalDeposited := satAddU128 tally.totalDeposited rec.totalDeposit
    multiVersionCount :=
      if 1 < rec.versionCount then satAddU32 tally.multiVersionCount 1
      else tally.multiVersionCount
    last24h := countYounger nowMs h24Ms rec.versions tally.last24h
    last7d := countYounger nowMs d7Ms rec.versions tally.last7d
    last30d := countYounger nowMs d30Ms rec.versions tally.last30d
    firstRegisteredAtMs := if first then rec.createdAtMs else tally.firstRegisteredAtMs
    genesisBlock := if first then rec.createdAtBlock else tally.genesisBlock }

/-- **`build_ats_stats`**: the records from the newest id down, a revoked
id having none. -/
def buildAtsStats (net : Network) (node : AtsNode) (atTip : NodeBlock) : AtsStats :=
  let nowMs := fetchTimestamp atTip
  let tally := ((List.range node.nextAtsId).reverse.filterMap (buildAtsRecord net node)).foldl
    (StatsTally.step nowMs) {}
  { total := tally.total
    totalVersions := tally.totalVersions
    last24h := tally.last24h
    last7d := tally.last7d
    last30d := tally.last30d
    uniqueOwners := wrapU32 tally.uniqueOwners.card
    avgPerDay := tally.last24h
    protocolVersion := 1
    genesisBlock := tally.genesisBlock
    firstRegisteredAtMs := tally.firstRegisteredAtMs
    totalDeposited := tally.totalDeposited
    multiVersionShare := multiVersionShare tally.multiVersionCount tally.total }

end Rpc

end AllfeatExplorer
