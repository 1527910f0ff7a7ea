import DurableCache.Cache.Population
import DurableCache.Config
import DurableCache.Gateway

/-!
# The engine

An engine is a cache in memory over a blob store. It begins with a load of the persisted
entries and is ready when that has ended; a load that breaks down never ends. Every call
may come before, while or after the load runs.
-/

namespace DurableCache

/-- A job that populates a key for its caller. -/
structure Job where
  id : String
  key : String
  timeToLive : Option UInt64
  fetch : Fetch
  /-- The milliseconds from the time at which the fetch is let go to its return. -/
  duration : UInt64

/-- The workers of an engine and the jobs that they have to do. -/
structure Workers where
  size : Nat
  /-- Whether the load holds a worker. -/
  loading : Bool
  /-- Jobs that are inside their fetch, in the order of their begin. -/
  fetching : List Job
  /-- Jobs that wait for a worker, in the order of their arrival. -/
  queued : List Job

namespace Workers

/-- At least one worker, and nothing to do but the load. The workers and the one that watches
over them are counted in one word. -/
def ofSize (size : Nat) : Except Abort Workers :=
  if max size 1 + 1 < wordLimit then .ok ⟨max size 1, true, [], []⟩ else .error .sizeOverflow

/-- The workers that no job holds. -/
def idle (w : Workers) : Nat := w.size - (if w.loading then 1 else 0) - w.fetching.length

/-- The workers that a new job could have. -/
def free (w : Workers) : Nat := w.idle - w.queued.length

end Workers

/-- A cache over a blob store. -/
structure Engine (σ : Type) where
  cache : Cache
  blobs : σ
  retentionDays : Nat
  /-- Whether the load has ended. -/
  ready : Bool
  workers : Workers

namespace Engine

variable {σ α : Type}

/-- An engine whose load is about to run. -/
def start (config : Config) (estimator : Estimator) (blobs : σ) : Except Abort (Engine σ) :=
  (Workers.ofSize config.workers).map fun workers =>
    { cache := (Cache.empty ⟨estimator, config.defaultTtl, config.maxMemoryBytes⟩).beginLoad
      blobs
      retentionDays := config.retentionDays
      ready := false
      workers }

/-- Makes a call that concerns nothing but the memory. -/
def onCache (e : Engine σ) (call : Cache → α × Cache) : α × Engine σ :=
  let (answer, cache) := call e.cache
  (answer, { e with cache })

/-- The rules by which the load judges entries. What is loaded is sized by the standard
estimate until it is merged. -/
def loadRules (e : Engine σ) : Gateway.LoadRules :=
  ⟨.standard, e.cache.rules.defaultTtl, e.retentionDays⟩

/-- Runs the load. The entries are loaded aside and merged in one step; a load that fails
ends without entries. -/
def runLoad [BlobStore σ] (e : Engine σ) (now : Timestamp) : Except Abort Unit × Engine σ :=
  let e := { e with workers := { e.workers with loading := false } }
  let (outcome, staged, blobs) := Gateway.load e.loadRules now .empty e.blobs
  let e := { e with blobs }
  let loaded := match outcome with
    | .done _ => Except.ok (some staged)
    | .failed _ => Except.ok none
    | .abandoned why => Except.error why
  match loaded with
  | .error why => (.error why, e)
  | .ok loaded =>
    match e.cache.finishLoad loaded with
    | (.error why, cache) => (.error why, { e with cache })
    | (.ok _, cache) =>
      match cache.trim with
      | (.error why, cache) => (.error why, { e with cache })
      | (.ok _, cache) => (.ok (), { e with cache, ready := true })

/-- The fresh value of a key. -/
def get (e : Engine σ) (now : Timestamp) (key : String) :
    Except Abort (Option String) × Engine σ :=
  e.onCache fun c => c.lookup now key

/-- The fresh value of a key, converted. -/
def getAs (e : Engine σ) (now : Timestamp) (converter : Converter α) (key : String) :
    Except Abort (Option α) × Engine σ :=
  e.onCache fun c => c.lookupAs now converter key

/-- Writes a value under a key. -/
def put (e : Engine σ) (now : Timestamp) (key value : String) (timeToLive : Option UInt64) :
    Except Abort Unit × Engine σ :=
  e.onCache fun c => c.write now key value timeToLive

/-- Writes the JSON text of a value under a key, unless the value cannot be serialized. -/
def putJson (e : Engine σ) (now : Timestamp) (key : String) (value : Except String Json.Value)
    (timeToLive : Option UInt64) : Outcome Unit × Engine σ :=
  match value with
  | .error reason => (.failed (.serialization (.mismatch none (.other reason))), e)
  | .ok value =>
    match e.put now key value.render timeToLive with
    | (.ok (), e) => (.done (), e)
    | (.error why, e) => (.abandoned why, e)

/-- Removes the entry under a key and answers whether there was one. The next commit deletes
its blob. -/
def invalidate (e : Engine σ) (key : String) : Bool × Engine σ :=
  e.onCache fun c => c.remove key

/-- Removes all entries and answers their number. -/
def clear (e : Engine σ) : Nat × Engine σ := e.onCache Cache.clear

/-- Removes the stale entries and answers their number. -/
def purgeStale (e : Engine σ) (now : Timestamp) : Except Abort Nat × Engine σ :=
  e.onCache fun c => c.purge now

/-- Answers the fresh value of a key, or fetches and writes it. -/
def populate (e : Engine σ) (now returned : Timestamp) (key : String)
    (timeToLive : Option UInt64) (fetch : Fetch) : Delivery String × Engine σ :=
  e.onCache fun c => c.populate now returned key timeToLive fetch

/-- Populates a key and converts its value. -/
def populateAs (e : Engine σ) (now returned : Timestamp) (converter : Converter α)
    (key : String) (timeToLive : Option UInt64) (fetch : Fetch) : Delivery α × Engine σ :=
  e.onCache fun c => c.populateAs now returned converter key timeToLive fetch

/-- The key of an operation's output: the operation, and its parts if it has any, with
colons between them. -/
def operationKey (operation : String) (parts : List String) : String :=
  match parts with
  | [] => operation
  | parts => operation ++ ":" ++ ":".intercalate parts

/-- What a producer of an operation's output comes to. -/
inductive Produced where
  | output (text : String)
  | failed
  | broken
  deriving DecidableEq, Repr

/-- A producer as a fetch. -/
def Produced.fetched : Produced → Fetched
  | .output text => .value text
  | .failed => .failed
  | .broken => .broken

/-- Answers the output of an operation from the cache, or produces and writes it. -/
def memoize (e : Engine σ) (now returned : Timestamp) (operation : String)
    (parts : List String) (timeToLive : Option UInt64) (produced : Produced) :
    Delivery String × Engine σ :=
  e.populate now returned (operationKey operation parts) timeToLive fun _ => produced.fetched

/-- Writes the fresh entries to the blobs. While the load runs, blobs that may not have been
loaded yet are kept; after it, the blobs of keys that were not written are deleted. -/
def commit [BlobStore σ] (e : Engine σ) (now : Timestamp) : Outcome CommitReport × Engine σ :=
  let rules := e.cache.rules
  let (outcome, store, blobs) :=
    Gateway.commit rules.defaultTtl rules.budget (!e.cache.isLoading) now e.cache.store e.blobs
  let counters := match outcome with
    | .done report => e.cache.counters.evicted report.evicted
    | _ => e.cache.counters
  (outcome, { e with cache := { e.cache with store, counters }, blobs })

end Engine

end DurableCache
