import AllfeatExplorer.Lib.Table
import AllfeatExplorer.Lib.Linked
import AllfeatExplorer.Lib.Batch
import AllfeatExplorer.Lib.Run
import AllfeatExplorer.Lib.Decimal
import AllfeatExplorer.Lib.Buckets
import AllfeatExplorer.Lib.FirstSeen
import AllfeatExplorer.Lib.Summary
import AllfeatExplorer.Common.Machine
import AllfeatExplorer.Common.Chain
import AllfeatExplorer.Indexer.Model.Projections
import AllfeatExplorer.Indexer.Model.Sink
import AllfeatExplorer.Indexer.Model.Backfill
import AllfeatExplorer.Indexer.Model.Worker
import AllfeatExplorer.Indexer.Model.System
import AllfeatExplorer.Indexer.Helpers.Frame
import AllfeatExplorer.Indexer.Helpers.Rows
import AllfeatExplorer.Indexer.Helpers.Queue
import AllfeatExplorer.Indexer.Helpers.Steps
import AllfeatExplorer.Indexer.Helpers.Coverage
import AllfeatExplorer.Indexer.Helpers.Lease
import AllfeatExplorer.Indexer.Helpers.Live
import AllfeatExplorer.Indexer.Helpers.Applied
import AllfeatExplorer.Indexer.Helpers.Snapshots
import AllfeatExplorer.Indexer.Helpers.Ats
import AllfeatExplorer.Indexer.Helpers.AtsHistory
import AllfeatExplorer.Indexer.Helpers.AtsBlocks
import AllfeatExplorer.Indexer.Helpers.AtsReplay
import AllfeatExplorer.Indexer.Backfill
import AllfeatExplorer.Indexer.Lease
import AllfeatExplorer.Indexer.Live
import AllfeatExplorer.Indexer.Seam
import AllfeatExplorer.Indexer.Touched
import AllfeatExplorer.Indexer.Snapshots
import AllfeatExplorer.Indexer.Ats
import AllfeatExplorer.Data.Model.Domain
import AllfeatExplorer.Data.Model.Queries
import AllfeatExplorer.Data.Model.Rpc
import AllfeatExplorer.Data.Model.Provider
import AllfeatExplorer.Data.Helpers.Stored
import AllfeatExplorer.Data.BlockViews
import AllfeatExplorer.Data.IndexedRuns
import AllfeatExplorer.Lib.Keyset
import AllfeatExplorer.Indexer.Model.Reconcile
import AllfeatExplorer.Indexer.Reconcile
import AllfeatExplorer.Data.Model.Pages
import AllfeatExplorer.Data.Model.Filters
import AllfeatExplorer.Data.Model.Lists
import AllfeatExplorer.Data.Filters
import AllfeatExplorer.Indexer.Helpers.Movements
import AllfeatExplorer.Indexer.Movements
import AllfeatExplorer.Data.Transfers
import AllfeatExplorer.Data.Readback
import AllfeatExplorer.Data.Helpers.Paging
import AllfeatExplorer.Data.Pagination
import AllfeatExplorer.Data.Model.Registry
import AllfeatExplorer.Lib.Offsets
import AllfeatExplorer.Data.Registry
import AllfeatExplorer.Data.Helpers.Latest
import AllfeatExplorer.Data.Latest
import AllfeatExplorer.Data.Caches
import AllfeatExplorer.Indexer.Gaps
import AllfeatExplorer.Data.Helpers.Enumerate
import AllfeatExplorer.Data.Model.Events
import AllfeatExplorer.Data.Events
import AllfeatExplorer.Data.Versions
import AllfeatExplorer.Data.Model.Feed
import AllfeatExplorer.Lib.StableSort
import AllfeatExplorer.Data.Feed
import AllfeatExplorer.Data.AtsStream
import AllfeatExplorer.Data.LatestExtrinsics
import AllfeatExplorer.Lib.Window
import AllfeatExplorer.Live.Model.Streams
import AllfeatExplorer.Live.Streams
import AllfeatExplorer.Live.Model.RuntimeCaches
import AllfeatExplorer.Live.RuntimeCaches
import AllfeatExplorer.Live.Model.Socket
import AllfeatExplorer.Live.Encoder
import AllfeatExplorer.Live.Socket
import AllfeatExplorer.Data.Hydration
import AllfeatExplorer.Data.Below
import AllfeatExplorer.Live.Buffers
import AllfeatExplorer.Live.Transfers
import AllfeatExplorer.Data.Model.Token
import AllfeatExplorer.Data.Token
import AllfeatExplorer.Indexer.Model.Sweep
import AllfeatExplorer.Indexer.Sweep
import AllfeatExplorer.Lib.Numeral
import AllfeatExplorer.Lib.Rounding
import AllfeatExplorer.Web.Model.Format
import AllfeatExplorer.Web.Format
import AllfeatExplorer.Data.Helpers.AtsCensus
import AllfeatExplorer.Data.Model.Stats
import AllfeatExplorer.Data.Stats
import AllfeatExplorer.Lib.LastWrite
import AllfeatExplorer.Indexer.Model.Buffer
import AllfeatExplorer.Indexer.Buffer
import AllfeatExplorer.Indexer.BufferLookup
import AllfeatExplorer.Indexer.Lookups
import AllfeatExplorer.Indexer.Model.Lookups
import AllfeatExplorer.Server.Health
import AllfeatExplorer.Server.Model.Health
import AllfeatExplorer.Live.Model.Session
import AllfeatExplorer.Live.Session
import AllfeatExplorer.Live.RateLimit
import AllfeatExplorer.Web.Model.Search
import AllfeatExplorer.Web.Search
import AllfeatExplorer.Lib.Joined
import AllfeatExplorer.Lib.Urlencoded
import AllfeatExplorer.Web.Model.PaginatedList
import AllfeatExplorer.Web.PaginatedList
import AllfeatExplorer.Lib.Radix
import AllfeatExplorer.Data.Model.Ss58
import AllfeatExplorer.Data.Ss58
import AllfeatExplorer.Web.Model.Ss58
import AllfeatExplorer.Web.Ss58
import AllfeatExplorer.Lib.Mutex
import AllfeatExplorer.Live.Model.Client
import AllfeatExplorer.Live.Client
import AllfeatExplorer.Lib.Interned
import AllfeatExplorer.Indexer.Model.AuthorLookup
import AllfeatExplorer.Indexer.AuthorLookup
import AllfeatExplorer.Indexer.Helpers.Authors
import AllfeatExplorer.Indexer.Helpers.Authored
import AllfeatExplorer.Indexer.Finalized
import AllfeatExplorer.Data.IndexedBlocks
import AllfeatExplorer.Lib.Distinct
import AllfeatExplorer.Data.Model.Runtime
import AllfeatExplorer.Data.Runtime
import AllfeatExplorer.Lib.Columns
import AllfeatExplorer.Data.Model.Accounts
import AllfeatExplorer.Data.Accounts
import AllfeatExplorer.Lib.Scan
import AllfeatExplorer.Data.Model.ChainScan
import AllfeatExplorer.Data.Helpers.Scanned
import AllfeatExplorer.Data.ChainScan
import AllfeatExplorer.Lib.Progress
import AllfeatExplorer.Indexer.Helpers.Order
import AllfeatExplorer.Indexer.Helpers.Lands
import AllfeatExplorer.Indexer.Progress
import AllfeatExplorer.Data.Model.AtsRecords
import AllfeatExplorer.Data.Helpers.AddedVersions
import AllfeatExplorer.Data.AtsRecords
import AllfeatExplorer.Data.AccountAts
import AllfeatExplorer.Data.AtsRuns
import AllfeatExplorer.Data.Allocations
