import DurableCache.Engine

/-!
# Runs of an engine

A run is a list of calls, each made on the engine that the calls before it leave behind. A job
of the engine may look its key up and write it later, with other calls in between, so both are
calls of their own. What a run does to the entries in memory is the list of its changes.
-/

namespace DurableCache

/-- A call on an engine, with the times at which it would read the clock. -/
inductive Call : Type 1 where
  | get (now : Timestamp) (key : String)
  | getAs {α : Type} (now : Timestamp) (converter : Converter α) (key : String)
  | put (now : Timestamp) (key value : String) (timeToLive : Option UInt64)
  | putJson (now : Timestamp) (key : String) (value : Except String Json.Value)
      (timeToLive : Option UInt64)
  | invalidate (key : String)
  | clear
  | purge (now : Timestamp)
  | populate (now returned : Timestamp) (key : String) (timeToLive : Option UInt64)
      (fetch : Fetch)
  | populateAs {α : Type} (now returned : Timestamp) (converter : Converter α) (key : String)
      (timeToLive : Option UInt64) (fetch : Fetch)
  | memoize (now returned : Timestamp) (operation : String) (parts : List String)
      (timeToLive : Option UInt64) (produced : Engine.Produced)
  /-- The lookup of a job that may fetch. -/
  | beginJob (now : Timestamp) (key : String)
  /-- The write of a job whose fetch has come back. -/
  | finishJob (returned : Timestamp) (key : String) (timeToLive : Option UInt64)
      (fetched : Fetched)
  | commit (now : Timestamp)

/-- What a call does to the entries in memory. -/
inductive Change where
  | keep
  /-- An entry is written and the store is trimmed. -/
  | write (key : String) (entry : Entry)
  | remove (key : String)
  | clear
  /-- The entries that are stale at that time go. -/
  | purge (now : Timestamp)
  | trim
  deriving DecidableEq, Repr

namespace Change

/-- The write of a value at a time, if the clock can show it. -/
def writeAt (now : Timestamp) (key value : String) (timeToLive : Option UInt64) : Change :=
  if now ≤ latestTime then .write key ⟨value, now, timeToLive⟩ else .keep

/-- The write of what a fetch came to. -/
def ofFetched (returned : Timestamp) (key : String) (timeToLive : Option UInt64) :
    Fetched → Change
  | .value text => writeAt returned key text timeToLive
  | .nothing | .failed | .broken => .keep

/-- The entry that a change writes under a key. -/
def written? (key : String) : Change → Option Entry
  | .write k entry => if k = key then some entry else none
  | .keep | .remove _ | .clear | .purge _ | .trim => none

/-- What a fence remembers of a change. -/
def mark (f : Fence) : Change → Fence
  | .remove key => { f with removed := f.removed.insert key () }
  | .clear => { f with cleared := true }
  | .keep | .write _ _ | .purge _ | .trim => f

/-- The last entry that a list of changes writes under a key. -/
def lastWritten? (key : String) : List Change → Option Entry
  | [] => none
  | change :: rest => (lastWritten? key rest).or (change.written? key)

end Change

/-- What a population does: it writes what the fetch comes to if nothing fresh is found. -/
def Cache.populationChange (c : Cache) (now returned : Timestamp) (key : String)
    (timeToLive : Option UInt64) (fetched : Fetched) : Change :=
  match (c.lookup now key).1 with
  | .ok none => .ofFetched returned key timeToLive fetched
  | .ok (some _) | .error _ => .keep

/-- What a call does to the entries of a cache. -/
def Cache.change (c : Cache) : Call → Change
  | .get _ _ | .getAs _ _ _ | .beginJob _ _ => .keep
  | .put now key value timeToLive => .writeAt now key value timeToLive
  | .putJson _ _ (.error _) _ => .keep
  | .putJson now key (.ok value) timeToLive => .writeAt now key value.render timeToLive
  | .invalidate key => .remove key
  | .clear => .clear
  | .purge now => if now ≤ latestTime then .purge now else .keep
  | .populate now returned key timeToLive fetch
  | .populateAs now returned _ key timeToLive fetch =>
    c.populationChange now returned key timeToLive (fetch key)
  | .memoize now returned operation parts timeToLive produced =>
    c.populationChange now returned (Engine.operationKey operation parts) timeToLive
      produced.fetched
  | .finishJob returned key timeToLive fetched => .ofFetched returned key timeToLive fetched
  | .commit _ => .trim

namespace Engine

variable {σ : Type} [BlobStore σ]

/-- Makes a call, and answers why it was abandoned if it was. -/
def perform (e : Engine σ) : Call → Option Abort × Engine σ
  | .get now key => (e.get now key).map abort? id
  | .getAs now converter key => (e.getAs now converter key).map abort? id
  | .put now key value timeToLive => (e.put now key value timeToLive).map abort? id
  | .putJson now key value timeToLive =>
    (e.putJson now key value timeToLive).map Outcome.abort? id
  | .invalidate key => (none, (e.invalidate key).2)
  | .clear => (none, e.clear.2)
  | .purge now => (e.purgeStale now).map abort? id
  | .populate now returned key timeToLive fetch =>
    (e.populate now returned key timeToLive fetch).map (fun d => abort? d.result) id
  | .populateAs now returned converter key timeToLive fetch =>
    (e.populateAs now returned converter key timeToLive fetch).map (fun d => abort? d.result) id
  | .memoize now returned operation parts timeToLive produced =>
    (e.memoize now returned operation parts timeToLive produced).map
      (fun d => abort? d.result) id
  | .beginJob now key => (e.onCache fun c => c.beginPopulation now key).map abort? id
  | .finishJob returned key timeToLive fetched =>
    (e.onCache fun c => c.finishPopulation returned key timeToLive fetched).map abort? id
  | .commit now => (e.commit now).map Outcome.abort? id

/-- The engine after a list of calls. -/
def run (e : Engine σ) : List Call → Engine σ
  | [] => e
  | call :: rest => (e.perform call).2.run rest

/-- What a list of calls does to the entries in memory. -/
def changes (e : Engine σ) : List Call → List Change
  | [] => []
  | call :: rest => e.cache.change call :: (e.perform call).2.changes rest

/-- No call of a list is abandoned because a size or a sum of sizes does not fit into a word. -/
def Fits (e : Engine σ) : List Call → Prop
  | [] => True
  | call :: rest => (e.perform call).1 ≠ some .sizeOverflow ∧ (e.perform call).2.Fits rest

/-- The engines that calls and the load make of an engine, as long as all sizes fit. The load
runs once, when its worker is let go. It is one step here: its blobs are listed, judged and merged
at one time with no calls in between, and its merge and the trim behind it are one operation, as a
write is with its trim. `Loading` has the steps of the load, between which calls may come. -/
inductive Reaches (e₀ : Engine σ) : Engine σ → Prop
  | start : Reaches e₀ e₀
  | call {e : Engine σ} (call : Call) : Reaches e₀ e →
      (e.perform call).1 ≠ some .sizeOverflow → Reaches e₀ (e.perform call).2
  | load {e : Engine σ} (now : Timestamp) : Reaches e₀ e → e.workers.loading = true →
      abort? (e.runLoad now).1 ≠ some .sizeOverflow → Reaches e₀ (e.runLoad now).2

/-- An engine with the standard settings over an empty memory. -/
def standard : Engine MemoryBlobs where
  cache := (Cache.empty ⟨.standard, none, Config.standard.maxMemoryBytes⟩).beginLoad
  blobs := ⟨∅⟩
  retentionDays := Config.standard.retentionDays
  ready := false
  workers := ⟨10, true, [], []⟩

/-- It is what such settings start. -/
theorem start_standard : start .standard .standard (⟨∅⟩ : MemoryBlobs) = .ok standard := rfl

end Engine

end DurableCache
