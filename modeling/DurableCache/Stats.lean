import DurableCache.Word

/-!
# Statistics

Counters of what became of lookups, fetches, conversions and entries. A counter is a word
and starts again at zero beyond the greatest one.
-/

namespace DurableCache

/-- How often each event has happened. -/
structure Counters where
  /-- Lookups that found a fresh entry. -/
  hits : UInt64
  /-- Lookups that found no entry. -/
  misses : UInt64
  /-- Lookups that found a stale entry. -/
  stale : UInt64
  /-- Fetches that were run. -/
  fetches : UInt64
  /-- Fetches that came to no value. -/
  fetchFailures : UInt64
  /-- Conversions that came to no value. -/
  conversionFailures : UInt64
  /-- Entries that were evicted. -/
  evictions : UInt64
  deriving DecidableEq, Repr

namespace Counters

/-- Nothing has happened yet. -/
def zero : Counters := ⟨0, 0, 0, 0, 0, 0, 0⟩

instance : Inhabited Counters := ⟨zero⟩

/-- Counts a lookup that found a fresh entry. -/
def hit (c : Counters) : Counters := { c with hits := c.hits + 1 }

/-- Counts a lookup that found no entry. -/
def miss (c : Counters) : Counters := { c with misses := c.misses + 1 }

/-- Counts a lookup that found a stale entry. -/
def staleLookup (c : Counters) : Counters := { c with stale := c.stale + 1 }

/-- Counts a fetch. -/
def fetch (c : Counters) : Counters := { c with fetches := c.fetches + 1 }

/-- Counts a fetch without a value. -/
def fetchFailure (c : Counters) : Counters := { c with fetchFailures := c.fetchFailures + 1 }

/-- Counts a conversion without a value. -/
def conversionFailure (c : Counters) : Counters :=
  { c with conversionFailures := c.conversionFailures + 1 }

/-- Counts `n` evicted entries. -/
def evicted (c : Counters) (n : Nat) : Counters :=
  { c with evictions := c.evictions + UInt64.ofNat n }

@[simp] theorem evicted_zero (c : Counters) : c.evicted 0 = c := by
  simp [evicted]

end Counters

/-- The counters together with the extent of the store. -/
structure Stats where
  counters : Counters
  totalEntries : Nat
  estimatedBytes : Nat
  deriving DecidableEq, Repr

/-- The number of lookups, if it fits into a word. -/
def Stats.lookups? (s : Stats) : Option Nat :=
  fits? (s.counters.hits.toNat + s.counters.misses.toNat + s.counters.stale.toNat)

/-- The part of the lookups that found a fresh entry, and zero before the first lookup. -/
def Stats.hitRate? (s : Stats) : Option Float :=
  s.lookups?.map fun total =>
    if total = 0 then 0.0 else s.counters.hits.toFloat / (UInt64.ofNat total).toFloat

end DurableCache
