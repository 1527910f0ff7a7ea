import DurableCache.Blobs
import DurableCache.Blobs.Directory
import DurableCache.Blobs.File
import DurableCache.Blobs.Watched
import DurableCache.Cache
import DurableCache.Cache.Population
import DurableCache.Calendar
import DurableCache.Clock
import DurableCache.Config
import DurableCache.Converter
import DurableCache.Decimal.Layout
import DurableCache.Decimal.Shortest
import DurableCache.Engine
import DurableCache.Engine.Jobs
import DurableCache.Engine.PurgeTask
import DurableCache.Entry
import DurableCache.Entry.Blob
import DurableCache.Error
import DurableCache.Estimator
import DurableCache.Gateway
import DurableCache.Http.Bodies
import DurableCache.Http.MediaType
import DurableCache.Http.Percent
import DurableCache.Http.Server
import DurableCache.Http.SetRequest
import DurableCache.Http.Target
import DurableCache.Http.Token
import DurableCache.Json.Decode
import DurableCache.Json.Error
import DurableCache.Json.Number
import DurableCache.Json.Structure
import DurableCache.Json.Text
import DurableCache.Json.Value
import DurableCache.Json.Writer
import DurableCache.Proofs.Engine.Calls
import DurableCache.Proofs.Engine.Changes
import DurableCache.Proofs.Store.Eviction
import DurableCache.Proofs.Store.Merge
import DurableCache.Proofs.Store.Sound
import DurableCache.Proofs.Table.Total
import DurableCache.Staleness
import DurableCache.Stats
import DurableCache.Store
import DurableCache.Store.Batch
import DurableCache.Store.Eviction
import DurableCache.Store.Lemmas
import DurableCache.Table
import DurableCache.Table.Lemmas
import DurableCache.Text.Blank
import DurableCache.Text.Integer
import DurableCache.Text.Printable
import DurableCache.Text.Quoted
import DurableCache.Text.Units
import DurableCache.Word
import DurableCache.Proofs.Load.Fence
import DurableCache.Proofs.Load.LiveWrites
import DurableCache.Proofs.Json.Objects
import DurableCache.Proofs.Json.RoundTrip
import DurableCache.Proofs.Blobs.Directory
import DurableCache.Proofs.Blobs.File
import DurableCache.Proofs.Blobs.Lawful
import DurableCache.Proofs.Gateway.Commit
import DurableCache.Proofs.Gateway.Load
import DurableCache.Proofs.Blobs.Durable
import DurableCache.Proofs.Engine.Blobs
import DurableCache.Proofs.Engine.Restart
import DurableCache.Proofs.Engine.FailedLoad
import DurableCache.Proofs.Store.Runs
import DurableCache.Proofs.Store.Intact
import DurableCache.Proofs.Engine.Budget
import DurableCache.Proofs.Engine.Removals
import DurableCache.Proofs.Store.Oldest
import DurableCache.Proofs.Engine.FreshWrites
import DurableCache.Proofs.Json.CanonicalBlobs
import DurableCache.Proofs.Store.Counts
import DurableCache.Proofs.Engine.Ledger
import DurableCache.Proofs.Engine.Balance
import DurableCache.Proofs.Engine.Clock
import DurableCache.Proofs.Engine.Effects
import DurableCache.Proofs.Gateway.Persisted
import DurableCache.Proofs.Load.Stepwise
import DurableCache.Proofs.Load.Survival
import DurableCache.Proofs.Blobs.Refinement
import DurableCache.Proofs.Gateway.Breakdown
import DurableCache.Proofs.Load.Ending
import DurableCache.Proofs.Load.Books
import DurableCache.Proofs.Engine.Histories
import DurableCache.Proofs.Engine.Provenance
import DurableCache.Proofs.Engine.Memoized
import DurableCache.Proofs.Gateway.StaleEntries
import DurableCache.Proofs.Store.Shedding
import DurableCache.Proofs.Engine.Purging
import DurableCache.Proofs.Engine.Crew
import DurableCache.Proofs.Blobs.Agreement
import DurableCache.Proofs.Blobs.LongNames
import DurableCache.Proofs.Blobs.Namespaces
import DurableCache.Proofs.Blobs.Neighbours
import DurableCache.Proofs.Engine.Alike
import DurableCache.Proofs.Gateway.Failures
import DurableCache.Proofs.Http.Bodies
import DurableCache.Proofs.Http.Rejections
import DurableCache.Proofs.Http.Segments
import DurableCache.Proofs.Http.Transparency
import DurableCache.Proofs.Store.Rescan
import DurableCache.Proofs.Gateway.RefusedWrites
import DurableCache.Proofs.Store.OneByOne
import DurableCache.Proofs.Store.Suffixes
import DurableCache.Proofs.Engine.NewestWrites
import DurableCache.Proofs.Engine.Populations
import DurableCache.Proofs.Blobs.Hosts
import DurableCache.Proofs.Blobs.FailedFlush
import DurableCache.Proofs.Store.Endless
import DurableCache.Proofs.Json.ByName
import DurableCache.Proofs.Engine.JsonValues
