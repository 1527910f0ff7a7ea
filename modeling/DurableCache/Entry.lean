import DurableCache.Staleness

/-!
# Entries

An entry is a text with the time of its writing and, if it has one, a time to live of its
own. The text is already serialized; the cache never looks into it.
-/

namespace DurableCache

/-- A cached value. -/
structure Entry where
  /-- The serialized value. -/
  value : String
  /-- The time of writing. -/
  timestamp : Timestamp
  /-- Milliseconds after which the value is stale; the default applies where there is none. -/
  timeToLive : Option UInt64
  deriving DecidableEq, Repr, Inhabited

namespace Entry

/-- The milliseconds since the entry was written. -/
def age (e : Entry) (now : Timestamp) : Nat := ageAt e.timestamp now

/-- Whether the entry is stale now. -/
def isStale (e : Entry) (default : Option UInt64) (now : Timestamp) : Bool :=
  DurableCache.isStale e.timeToLive default e.timestamp now

end Entry

end DurableCache
