import DurableCache.Clock
import DurableCache.Converter
import DurableCache.Stats
import DurableCache.Store.Batch
import DurableCache.Store.Eviction

/-!
# The cache in memory

The memory half of the engine: a store with its counters, and a fence that stands as long as
the start-up load runs. The fence remembers what is removed meanwhile, so that the load does
not bring it back.
-/

namespace DurableCache

/-- What was removed since the load began. -/
structure Fence where
  /-- Whether everything was removed at some time. -/
  cleared : Bool
  /-- The keys that were removed one by one. -/
  removed : Table String Unit
  deriving DecidableEq

/-- Nothing was removed yet. -/
def Fence.fresh : Fence := ⟨false, ∅⟩

/-- The rules that a cache keeps for as long as it lives. -/
structure CacheRules where
  estimator : Estimator
  /-- The time to live of entries that have none of their own. -/
  defaultTtl : Option UInt64
  /-- The estimated bytes that the entries may take. -/
  budget : Nat

/-- A store with its counters and the fence of a load. -/
structure Cache where
  rules : CacheRules
  store : Store
  counters : Counters
  /-- Stands while a load runs. -/
  fence : Option Fence

namespace Cache

/-- The cache without entries. -/
def empty (rules : CacheRules) : Cache := ⟨rules, .empty, .zero, none⟩

/-- The counters and the extent of the store. -/
def stats (c : Cache) : Stats := ⟨c.counters, c.store.size, c.store.total⟩

/-- The value under `key` if it is fresh. Every lookup that answers is counted as one of three
kinds, and the clock is read only if there is an entry. -/
def lookup (c : Cache) (now : Timestamp) (key : String) : Except Abort (Option String) × Cache :=
  match c.store.find? key with
  | none => (.ok none, { c with counters := c.counters.miss })
  | some entry =>
    match readClock now with
    | .error why => (.error why, c)
    | .ok now =>
      if entry.isStale c.rules.defaultTtl now then
        (.ok none, { c with counters := c.counters.staleLookup })
      else (.ok (some entry.value), { c with counters := c.counters.hit })

/-- Brings the store within the budget and counts the evicted entries. -/
def trim (c : Cache) : Except Abort Nat × Cache :=
  match c.store.trim c.rules.budget with
  | none => (.error .endless, c)
  | some (evicted, store) =>
    (.ok evicted.length, { c with store, counters := c.counters.evicted evicted.length })

/-- Writes an entry and trims. -/
def insert (c : Cache) (key : String) (entry : Entry) : Except Abort Unit × Cache :=
  match c.store.put c.rules.estimator key entry with
  | (.error why, store) => (.error why, { c with store })
  | (.ok _, store) =>
    match trim { c with store } with
    | (.error why, c) => (.error why, c)
    | (.ok _, c) => (.ok (), c)

/-- Writes a value at the time `now`. -/
def write (c : Cache) (now : Timestamp) (key value : String) (timeToLive : Option UInt64) :
    Except Abort Unit × Cache :=
  match readClock now with
  | .error why => (.error why, c)
  | .ok now => c.insert key ⟨value, now, timeToLive⟩

/-- Removes the entry under `key`, from a running load as well, and answers whether there
was one. -/
def remove (c : Cache) (key : String) : Bool × Cache :=
  let fence := c.fence.map fun f => { f with removed := f.removed.insert key () }
  let (removed, store) := c.store.remove key
  (removed.isSome, { c with store, fence })

/-- Removes all entries, from a running load as well, and answers their number. -/
def clear (c : Cache) : Nat × Cache :=
  let fence := c.fence.map fun f => { f with cleared := true }
  let (removed, store) := c.store.clear
  (removed, { c with store, fence })

/-- Removes the stale entries and answers their number. -/
def purge (c : Cache) (now : Timestamp) : Except Abort Nat × Cache :=
  match readClock now with
  | .error why => (.error why, c)
  | .ok now =>
    let (removed, store) :=
      c.store.retain fun _ entry => !entry.isStale c.rules.defaultTtl now
    (.ok removed, { c with store })

/-- Puts up the fence of a load. -/
def beginLoad (c : Cache) : Cache := { c with fence := some .fresh }

/-- Whether a load is running. -/
def isLoading (c : Cache) : Bool := c.fence.isSome

/-- Takes the fence down and merges what was loaded, less what was removed meanwhile; answers
the number of entries stored. -/
def finishLoad (c : Cache) (loaded : Option Store) : Except Abort Nat × Cache :=
  let fence := c.fence.getD .fresh
  let c := { c with fence := none }
  match loaded with
  | none => (.ok 0, c)
  | some loaded =>
    if fence.cleared then (.ok 0, c)
    else
      let batch := loaded.entries.rows.filter fun row => !fence.removed.contains row.1
      let (stored, store) := c.store.merge c.rules.estimator batch
      (stored, { c with store })

/-- Converts a text; a failure is counted and comes to nothing. -/
def convert {α : Type} (c : Cache) (converter : Converter α) (text : String) :
    Option α × Cache :=
  match converter text with
  | .ok a => (some a, c)
  | .error _ => (none, { c with counters := c.counters.conversionFailure })

/-- The value under `key`, converted, if it is fresh. -/
def lookupAs {α : Type} (c : Cache) (now : Timestamp) (converter : Converter α) (key : String) :
    Except Abort (Option α) × Cache :=
  match c.lookup now key with
  | (.error why, c) => (.error why, c)
  | (.ok none, c) => (.ok none, c)
  | (.ok (some text), c) =>
    let (converted, c) := c.convert converter text
    (.ok converted, c)

end Cache

end DurableCache
