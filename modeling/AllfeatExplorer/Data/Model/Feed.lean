import AllfeatExplorer.Data.Model.Registry
import AllfeatExplorer.Data.Model.Lists

/-!
# The node's ATS feed

`build_ats_feed` flattens the live records into their versions, newest
record and newest version first, breaks off at `count` of them and sorts
what it has by time. `RpcProvider::ats_version_feed` asks it for a
buffer and pages through that in memory.
-/

namespace AllfeatExplorer

open Queries

namespace Rpc

/-- The item of one version. `version_index + 1` is a `u32`. -/
def feedItem (rec : AtsRecord) (v : AtsVersion) : AtsFeedItem :=
  { atsId := rec.atsId
    owner := rec.owner
    versionIndex := v.versionIndex
    isInitial := v.versionIndex = 0
    isLatest := wrapU32 (v.versionIndex + 1) = rec.versionCount
    versionCount := rec.versionCount
    commitment := v.commitment
    protocolVersion := v.protocolVersion
    blockNumber := v.blockNumber
    extrinsicId := v.extrinsicId
    timestampMs := v.createdAtMs
    signer := v.signer }

/-- The loop over one record's versions: how many were skipped so far,
and the items. -/
def feedVersions (count fromIndex : ℕ) (rec : AtsRecord) :
    List AtsVersion → ℕ × List AtsFeedItem → ℕ × List AtsFeedItem
  | [], st => st
  | v :: versions, (skipped, out) =>
    if skipped < fromIndex then feedVersions count fromIndex rec versions (skipped + 1, out)
    else if count ≤ out.length then (skipped, out)
    else feedVersions count fromIndex rec versions (skipped, out ++ [feedItem rec v])

/-- The loop over the stream of records. -/
def feedRecords (count fromIndex : ℕ) :
    List (Option AtsRecord) → ℕ × List AtsFeedItem → List AtsFeedItem
  | [], st => st.2
  | none :: stream, st => feedRecords count fromIndex stream st
  | some rec :: stream, st =>
    let st := feedVersions count fromIndex rec rec.versions.reverse st
    if count ≤ st.2.length then st.2 else feedRecords count fromIndex stream st

/-- `sort_by_key(|f| Reverse(f.timestamp_ms))`, which is stable. -/
def newestFirst (a b : AtsFeedItem) : Bool := decide (b.timestampMs ≤ a.timestampMs)

/-- **`build_ats_feed`.** -/
def buildAtsFeed (net : Network) (node : AtsNode) (count fromIndex : ℕ) : List AtsFeedItem :=
  if count = 0 then []
  else if node.nextAtsId = 0 then []
  else
    (feedRecords count fromIndex
      ((List.range node.nextAtsId).reverse.map (buildAtsRecord net node)) (0, [])).mergeSort
        newestFirst

/-- The `buffer` of `ats_version_feed`. -/
def feedBuffer (count : ℕ) : ℕ := max (satAddU32 count count) 64

/-- What the feed is ordered by. -/
def feedKey (item : AtsFeedItem) : ℕ ×ₗ ℕ ×ₗ ℕ :=
  toLex (item.blockNumber, toLex (item.atsId, item.versionIndex))

/-- **`RpcProvider::ats_version_feed`.** -/
def atsVersionFeed (net : Network) (node : AtsNode) (req : PageRequest) :
    Except BadRequest (Page AtsFeedItem) :=
  if req.count = 0 then .ok .empty
  else do
    let cursor ← parseCursor atsFeedCursor req
    let raw := buildAtsFeed net node (feedBuffer req.count) 0
    let filtered := raw.filter fun item =>
      cursor.all fun c => decide (feedKey item < toLex (c.1, toLex (c.2.1, c.2.2)))
    let (items, hasMore) := trimProbe req.count filtered
    pure
      { items := items
        pageInfo :=
          { total := none
            nextCursor := nextCursor hasMore
              (fun item => atsFeedCursor.toText (item.blockNumber, item.atsId, item.versionIndex))
              items
            hasMore := hasMore } }

end Rpc

end AllfeatExplorer
