import DurableCache.Blobs
import DurableCache.Clock
import DurableCache.Entry.Blob
import DurableCache.Store.Eviction

/-!
# Between memory and blobs

A load brings persisted entries into a store, and a commit brings the entries of a store
into the blobs. Trouble with one key does not stop the others; it is counted in a report.
-/

namespace DurableCache

/-- What became of the blobs of a load. -/
structure LoadReport where
  /-- Entries that were stored. -/
  loaded : Nat
  /-- Entries that were stale. -/
  stale : Nat
  /-- Blobs beyond the retention, which were to be deleted. -/
  expired : Nat
  /-- Blobs that could not be read. -/
  corrupt : Nat
  deriving DecidableEq, Repr

/-- What became of the entries and blobs of a commit. -/
structure CommitReport where
  /-- Entries that were written. -/
  written : Nat
  /-- Entries that were stale. -/
  stale : Nat
  /-- Entries that were evicted before. -/
  evicted : Nat
  /-- Blobs that were deleted because no entry was written under their key. -/
  removed : Nat
  /-- Entries that could not be written and blobs that could not be deleted. -/
  failed : Nat
  deriving DecidableEq, Repr

namespace Gateway

/-- The milliseconds of a day. -/
def dayLength : Nat := 24 * 60 * 60 * 1000

variable {σ : Type} [BlobStore σ]

/-- Whether an entry is older than persisted entries may become. -/
def outlived (retentionDays : Nat) (now : Timestamp) (e : Entry) : Bool :=
  retentionDays * dayLength < e.age now

/-- How persisted entries are judged in a load. -/
structure LoadRules where
  estimator : Estimator
  defaultTtl : Option UInt64
  retentionDays : Nat

/-- Loads the blobs of a list, one after the other. -/
def loadRows (rules : LoadRules) (now : Timestamp) :
    List (String × String) → LoadReport → Store → σ → Outcome LoadReport × Store × σ
  | [], report, store, blobs => (.done report, store, blobs)
  | (key, blob) :: rest, report, store, blobs =>
    match Entry.ofBlob? blob with
    | .error _ => loadRows rules now rest { report with corrupt := report.corrupt + 1 } store blobs
    | .ok entry =>
      if outlived rules.retentionDays now entry then
        match BlobStore.remove key blobs with
        | (.abandoned why, blobs) => (.abandoned why, store, blobs)
        | (_, blobs) =>
          loadRows rules now rest { report with expired := report.expired + 1 } store blobs
      else if entry.isStale rules.defaultTtl now then
        loadRows rules now rest { report with stale := report.stale + 1 } store blobs
      else
        match store.putIfNewer rules.estimator key entry with
        | (.error why, store) => (.abandoned why, store, blobs)
        | (.ok true, store) =>
          loadRows rules now rest { report with loaded := report.loaded + 1 } store blobs
        | (.ok false, store) => loadRows rules now rest report store blobs

/-- Loads every fresh persisted entry into a store, unless its key holds a newer write, and
deletes the blobs beyond the retention. -/
def load (rules : LoadRules) (now : Timestamp) (store : Store) (blobs : σ) :
    Outcome LoadReport × Store × σ :=
  match BlobStore.getAll blobs with
  | (.failed e, blobs) => (.failed e, store, blobs)
  | (.abandoned why, blobs) => (.abandoned why, store, blobs)
  | (.done persisted, blobs) =>
    match readClock now with
    | .error why => (.abandoned why, store, blobs)
    | .ok now =>
      match loadRows rules now persisted.rows ⟨0, 0, 0, 0⟩ store blobs with
      | (.done report, store, blobs) =>
        if report.expired = 0 then (.done report, store, blobs)
        else
          match BlobStore.flush blobs with
          | (.done (), blobs) => (.done report, store, blobs)
          | (.failed e, blobs) => (.failed e, store, blobs)
          | (.abandoned why, blobs) => (.abandoned why, store, blobs)
      | unfinished => unfinished

/-- Writes the fresh entries of a list, and answers the keys that were written beside the
report. -/
def writeRows (defaultTtl : Option UInt64) (now : Timestamp) :
    List (String × Entry) → CommitReport → List String → σ →
      Outcome (CommitReport × List String) × σ
  | [], report, written, blobs => (.done (report, written), blobs)
  | (key, entry) :: rest, report, written, blobs =>
    match readClock now with
    | .error why => (.abandoned why, blobs)
    | .ok now =>
      if entry.isStale defaultTtl now then
        writeRows defaultTtl now rest { report with stale := report.stale + 1 } written blobs
      else
        match BlobStore.put key entry.toBlob blobs with
        | (.done (), blobs) =>
          writeRows defaultTtl now rest { report with written := report.written + 1 }
            (key :: written) blobs
        | (.failed _, blobs) =>
          writeRows defaultTtl now rest { report with failed := report.failed + 1 } written blobs
        | (.abandoned why, blobs) => (.abandoned why, blobs)

/-- Deletes the blobs under a list of keys. -/
def removeKeys : List String → CommitReport → σ → Outcome CommitReport × σ
  | [], report, blobs => (.done report, blobs)
  | key :: rest, report, blobs =>
    match BlobStore.remove key blobs with
    | (.done (), blobs) => removeKeys rest { report with removed := report.removed + 1 } blobs
    | (.failed _, blobs) => removeKeys rest { report with failed := report.failed + 1 } blobs
    | (.abandoned why, blobs) => (.abandoned why, blobs)

/-- Deletes every blob whose key was not written. -/
def prune (written : List String) (report : CommitReport) (blobs : σ) :
    Outcome CommitReport × σ :=
  match BlobStore.getAll blobs with
  | (.failed e, blobs) => (.failed e, blobs)
  | (.abandoned why, blobs) => (.abandoned why, blobs)
  | (.done persisted, blobs) =>
    removeKeys (persisted.keys.filter fun key => !written.contains key) report blobs

/-- Writes the entries of a list, deletes the other blobs if `pruning`, and flushes. -/
def save (defaultTtl : Option UInt64) (now : Timestamp) (pruning : Bool)
    (entries : List (String × Entry)) (report : CommitReport) (blobs : σ) :
    Outcome CommitReport × σ :=
  match writeRows defaultTtl now entries report [] blobs with
  | (.failed e, blobs) => (.failed e, blobs)
  | (.abandoned why, blobs) => (.abandoned why, blobs)
  | (.done (report, written), blobs) =>
    match if pruning then prune written report blobs else (.done report, blobs) with
    | (.done report, blobs) =>
      match BlobStore.flush blobs with
      | (.done (), blobs) => (.done report, blobs)
      | (.failed e, blobs) => (.failed e, blobs)
      | (.abandoned why, blobs) => (.abandoned why, blobs)
    | unfinished => unfinished

/-- Trims a store to its budget and writes its fresh entries to the blobs. With `pruning` the
blobs end up with exactly those entries; without it, blobs of other keys stay. -/
def commit (defaultTtl : Option UInt64) (budget : Nat) (pruning : Bool) (now : Timestamp)
    (store : Store) (blobs : σ) : Outcome CommitReport × Store × σ :=
  match store.trim budget with
  | none => (.abandoned .endless, store, blobs)
  | some (evicted, store) =>
    let (outcome, blobs) :=
      save defaultTtl now pruning store.entries.rows ⟨0, 0, evicted.length, 0, 0⟩ blobs
    (outcome, store, blobs)

end Gateway

end DurableCache
