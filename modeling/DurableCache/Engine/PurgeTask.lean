import DurableCache.Engine

/-!
# The purge task

A task purges stale entries at regular intervals of whole seconds. An interval of no seconds
counts as one second. A task whose purge is abandoned has ended and purges no more.
-/

namespace DurableCache

/-- What can be seen of a purge task. -/
structure PurgeRun where
  /-- The number of entries after each second. -/
  sizes : List Nat
  /-- Whether the task still ran at the end. -/
  running : Bool
  /-- The time at the end. -/
  finished : Timestamp

namespace Engine

variable {σ : Type}

/-- Runs the task for a number of seconds of which some have passed. -/
def purgeSeconds (interval : Nat) : (seconds passed : Nat) → (running : Bool) →
    (now : Timestamp) → Engine σ → PurgeRun × Engine σ
  | 0, _, running, now, e => (⟨[], running, now⟩, e)
  | seconds + 1, passed, running, now, e =>
    let now := now + 1000
    let passed := passed + 1
    let (running, e) :=
      if running && passed % max interval 1 = 0 then
        match e.purgeStale now with
        | (.ok _, e) => (true, e)
        | (.error _, e) => (false, e)
      else (running, e)
    let (run, last) := purgeSeconds interval seconds passed running now e
    ({ run with sizes := e.cache.store.size :: run.sizes }, last)

/-- Runs the task from its begin for a number of seconds. -/
def runPurgeTask (e : Engine σ) (interval seconds : Nat) (now : Timestamp) :
    PurgeRun × Engine σ :=
  purgeSeconds interval seconds 0 true now e

end Engine

end DurableCache
