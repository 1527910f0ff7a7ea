import DurableCache.Gateway
import DurableCache.Table.Lemmas

/-!
# Orders of visits

A load visits the listed blobs one after the other. A commit visits the entries in memory, and the
listed blobs if it prunes. Here they visit them in any order; in the order of the keys they are
`load` and `commit`.
-/

namespace DurableCache

/-- An order in which the rows of tables are visited. -/
structure Visits (α : Type) where
  /-- The rows of a table in this order. -/
  rows : Table String α → List (String × α)
  /-- Every row is visited once. -/
  perm : ∀ t, (rows t).Perm t.rows

namespace Visits

variable {α : Type} (order : Visits α) (t : Table String α)

/-- Visits in the order of the keys. -/
def ascending : Visits α := ⟨Table.rows, fun _ => List.Perm.refl _⟩

/-- Visits in the order of the keys, the greatest one first. -/
def descending : Visits α := ⟨fun t => t.rows.reverse, fun t => t.rows.reverse_perm⟩

/-- No key is visited twice. -/
theorem keys_nodup : ((order.rows t).map Prod.fst).Nodup :=
  ((order.perm t).map Prod.fst).nodup_iff.mpr t.keys_nodup

/-- The rows are looked up as in the table. -/
theorem find?_rows (key : String) : Rows.find? key (order.rows t) = t.find? key := by
  apply Option.ext
  intro value
  rw [Rows.find?_eq_some_iff (order.keys_nodup t), (order.perm t).mem_iff, Table.mem_rows_iff]

end Visits

namespace Gateway

variable {σ : Type} [BlobStore σ]

/-- Loads the listed blobs in a given order. -/
def loadThrough (order : Visits String) (rules : LoadRules) (now : Timestamp) (store : Store)
    (blobs : σ) : Outcome LoadReport × Store × σ :=
  match BlobStore.getAll blobs with
  | (.failed e, blobs) => (.failed e, store, blobs)
  | (.abandoned why, blobs) => (.abandoned why, store, blobs)
  | (.done persisted, blobs) =>
    match readClock now with
    | .error why => (.abandoned why, store, blobs)
    | .ok now =>
      match loadRows rules now (order.rows persisted) ⟨0, 0, 0, 0⟩ store blobs with
      | (.done report, store, blobs) =>
        if report.expired = 0 then (.done report, store, blobs)
        else
          match BlobStore.flush blobs with
          | (.done (), blobs) => (.done report, store, blobs)
          | (.failed e, blobs) => (.failed e, store, blobs)
          | (.abandoned why, blobs) => (.abandoned why, store, blobs)
      | unfinished => unfinished

/-- In the order of the keys the blobs are loaded as ever. -/
theorem loadThrough_ascending (rules : LoadRules) (now : Timestamp) (store : Store) (blobs : σ) :
    loadThrough .ascending rules now store blobs = load rules now store blobs := rfl

/-- Deletes every blob whose key was not written, in a given order. -/
def pruneThrough (order : Visits String) (written : List String) (report : CommitReport)
    (blobs : σ) : Outcome CommitReport × σ :=
  match BlobStore.getAll blobs with
  | (.failed e, blobs) => (.failed e, blobs)
  | (.abandoned why, blobs) => (.abandoned why, blobs)
  | (.done persisted, blobs) =>
    removeKeys (((order.rows persisted).map Prod.fst).filter fun key => !written.contains key)
      report blobs

/-- Writes the entries of a list and deletes the other blobs if `pruning`, in a given order. -/
def unflushed (order : Visits String) (defaultTtl : Option UInt64) (now : Timestamp)
    (pruning : Bool) (entries : List (String × Entry)) (report : CommitReport) (blobs : σ) :
    Outcome CommitReport × σ :=
  match writeRows defaultTtl now entries report [] blobs with
  | (.failed e, blobs) => (.failed e, blobs)
  | (.abandoned why, blobs) => (.abandoned why, blobs)
  | (.done (report, written), blobs) =>
    if pruning then pruneThrough order written report blobs else (.done report, blobs)

/-- The flush at the end of a commit. -/
def flushed (x : Outcome CommitReport × σ) : Outcome CommitReport × σ :=
  match x with
  | (.done report, blobs) =>
    match BlobStore.flush blobs with
    | (.done (), blobs) => (.done report, blobs)
    | (.failed e, blobs) => (.failed e, blobs)
    | (.abandoned why, blobs) => (.abandoned why, blobs)
  | unfinished => unfinished

/-- In the order of the keys the entries are saved as ever. -/
theorem flushed_unflushed_ascending (defaultTtl : Option UInt64) (now : Timestamp) (pruning : Bool)
    (entries : List (String × Entry)) (report : CommitReport) (blobs : σ) :
    flushed (unflushed .ascending defaultTtl now pruning entries report blobs) =
      save defaultTtl now pruning entries report blobs := by
  unfold unflushed save
  cases writeRows defaultTtl now entries report [] blobs with
  | mk outcome wrote => cases outcome <;> rfl

/-- Commits a store whose entries are visited in one given order and the blobs in another. -/
def commitThrough (entryOrder : Visits Entry) (blobOrder : Visits String)
    (defaultTtl : Option UInt64) (budget : Nat) (pruning : Bool) (now : Timestamp) (store : Store)
    (blobs : σ) : Outcome CommitReport × Store × σ :=
  match store.trim budget with
  | none => (.abandoned .endless, store, blobs)
  | some (evicted, store) =>
    let (outcome, blobs) :=
      flushed (unflushed blobOrder defaultTtl now pruning (entryOrder.rows store.entries)
        ⟨0, 0, evicted.length, 0, 0⟩ blobs)
    (outcome, store, blobs)

/-- In the order of the keys a store is committed as ever. -/
theorem commitThrough_ascending (defaultTtl : Option UInt64) (budget : Nat) (pruning : Bool)
    (now : Timestamp) (store : Store) (blobs : σ) :
    commitThrough .ascending .ascending defaultTtl budget pruning now store blobs =
      commit defaultTtl budget pruning now store blobs := by
  unfold commitThrough commit
  cases store.trim budget with
  | none => rfl
  | some result =>
    obtain ⟨evicted, trimmed⟩ := result
    show (let (outcome, left) := flushed (unflushed .ascending defaultTtl now pruning
      trimmed.entries.rows ⟨0, 0, evicted.length, 0, 0⟩ blobs); (outcome, trimmed, left)) = _
    rw [flushed_unflushed_ascending]

/-- How far a commit has come with the trimmed memory just before it flushes the blobs. -/
def beforeFlush (entryOrder : Visits Entry) (blobOrder : Visits String)
    (defaultTtl : Option UInt64) (pruning : Bool) (now : Timestamp) (evicted : List String)
    (trimmed : Store) (s : σ) : Outcome CommitReport × σ :=
  unflushed blobOrder defaultTtl now pruning (entryOrder.rows trimmed.entries)
    ⟨0, 0, evicted.length, 0, 0⟩ s

/-- A commit trims the memory and does no more to it. -/
theorem commitThrough_cases {entryOrder : Visits Entry} {blobOrder : Visits String}
    {defaultTtl : Option UInt64} {budget : Nat} {pruning : Bool} {now : Timestamp}
    {store after : Store} {s next : σ} {outcome : Outcome CommitReport}
    (h : commitThrough entryOrder blobOrder defaultTtl budget pruning now store s =
      (outcome, after, next)) :
    (store.trim budget = none ∧ outcome = .abandoned .endless ∧ after = store ∧ next = s) ∨
      ∃ evicted, store.trim budget = some (evicted, after) ∧
        flushed (beforeFlush entryOrder blobOrder defaultTtl pruning now evicted after s) =
          (outcome, next) := by
  unfold commitThrough at h
  cases htrim : store.trim budget with
  | none =>
    rw [htrim] at h
    cases h
    exact Or.inl ⟨rfl, rfl, rfl, rfl⟩
  | some result =>
    obtain ⟨evicted, trimmed⟩ := result
    rw [htrim] at h
    cases h
    exact Or.inr ⟨evicted, rfl, rfl⟩

end Gateway

end DurableCache
