import DurableCache.Calendar
import DurableCache.Gateway
import DurableCache.Stats

/-!
# Response bodies

The JSON objects that the server answers with. Their members stand in a fixed order.
-/

namespace DurableCache.Http

open Json (Value)

/-- The body of an answered value. -/
def valueBody (key value : String) : Value :=
  .object [("key", .string key), ("value", .string value)]

/-- The body of a write. -/
def setBody (key : String) : Value :=
  .object [("message", .string ("Key '" ++ key ++ "' set successfully")), ("key", .string key)]

/-- The body of a deletion. -/
def deleteBody (key : String) : Value :=
  .object
    [("message", .string ("Key '" ++ key ++ "' deleted successfully")), ("key", .string key)]

/-- The body of a removal of all entries. -/
def clearBody (removed : Nat) : Value :=
  .object [("message", .string "Cache cleared"), ("removed", .natural removed)]

/-- The body of a commit. -/
def commitBody (report : CommitReport) : Value :=
  .object
    [("message", .string ("Committed " ++ toString report.written ++ " entries")),
     ("written", .natural report.written),
     ("stale", .natural report.stale),
     ("evicted", .natural report.evicted),
     ("removed", .natural report.removed),
     ("failed", .natural report.failed)]

/-- The body of the statistics, with the part of the lookups that were hits. -/
def statsBody (stats : Stats) (hitRate : Float) : Value :=
  .object
    [("hits", .natural stats.counters.hits.toNat),
     ("misses", .natural stats.counters.misses.toNat),
     ("stale", .natural stats.counters.stale.toNat),
     ("fetches", .natural stats.counters.fetches.toNat),
     ("fetch_failures", .natural stats.counters.fetchFailures.toNat),
     ("conversion_failures", .natural stats.counters.conversionFailures.toNat),
     ("evictions", .natural stats.counters.evictions.toNat),
     ("total_entries", .natural stats.totalEntries),
     ("estimated_bytes", .natural stats.estimatedBytes),
     ("hit_rate", .float hitRate)]

/-- The body of the server's health. A server that answers is healthy. -/
def healthBody (ready : Bool) (now : Timestamp) : Value :=
  .object
    [("status", .string "healthy"), ("ready", .bool ready),
     ("timestamp", .string (Calendar.timeText now))]

end DurableCache.Http
