import DurableCache.Proofs.Gateway.Reports

/-!
# Entries that cannot be written

Pruning deletes every blob whose key was not written. That of an entry that is fresh in memory and
whose write was refused is one of them: the commit deletes the older copy and counts the key twice
(`refused_write_loses_iff`).
-/

namespace DurableCache.Gateway

open LawfulBlobs

variable {σ : Type} [BlobStore σ] [LawfulBlobs σ] {s next : σ}
variable {defaultTtl : Option UInt64} {now : Timestamp} {report : CommitReport}
variable {rows : List (String × Entry)} {pruning : Bool} {entryOrder : Visits Entry}
variable {blobOrder : Visits String} {budget : Nat} {store trimmed after : Store}
variable {evicted : List String} {outcome : Outcome CommitReport} {key : String} {entry : Entry}

/-- The keys whose blobs a commit removes. -/
def removedKeys (defaultTtl : Option UInt64) (now : Timestamp) (pruning : Bool) (s : σ)
    (rows : List (String × Entry)) : List String :=
  if pruning then deletable s (unwrittenKeys defaultTtl now s rows) else []

/-- A commit removes the blobs of the keys that it has not written, if it prunes and their deletion
has no fault. -/
theorem mem_removedKeys_iff : key ∈ removedKeys defaultTtl now pruning s trimmed.entries.rows ↔
    pruning = true ∧ fault s (.delete key) = none ∧ (contents s).contains key = true ∧
      (freshBlob? defaultTtl now (trimmed.find? key) = none ∨ fault s (.write key) ≠ none) := by
  have hfind : Rows.find? key trimmed.entries.rows = trimmed.find? key :=
    Store.find?_entries trimmed key
  have hwritten : key ∉ writtenKeys defaultTtl now s trimmed.entries.rows ↔
      freshBlob? defaultTtl now (trimmed.find? key) = none ∨ fault s (.write key) ≠ none := by
    rw [mem_writtenKeys_iff trimmed.entries.keys_nodup, hfind, writtenBlob?]
    by_cases hfault : fault s (.write key) = none <;> simp [hfault]
  have hunwritten : key ∈ unwrittenKeys defaultTtl now s trimmed.entries.rows ↔
      (contents s).contains key = true ∧
        (freshBlob? defaultTtl now (trimmed.find? key) = none ∨ fault s (.write key) ≠ none) := by
    rw [unwrittenKeys, List.mem_filter, Table.mem_keys_iff, ← Table.contains_eq_true_iff,
      ← hwritten]
    simp
  cases pruning with
  | false => simp [removedKeys]
  | true =>
    rw [removedKeys, if_pos rfl, deletable, List.mem_filter, hunwritten, Option.isNone_iff_eq_none]
    simp only [true_and]
    exact and_comm

/-- As long as no call breaks down, entries are saved without being abandoned if the clock can show
the time. -/
theorem unflushed_answered (hsteady : Steady s) (hkeys : (rows.map Prod.fst).Nodup)
    (hclock : now ≤ latestTime) (why : Abort) :
    (unflushed blobOrder defaultTtl now pruning rows report s).1 ≠ .abandoned why := by
  by_cases hlist : pruning = true → fault s .list = none
  · obtain ⟨left, hleft⟩ : ∃ left, unflushed blobOrder defaultTtl now pruning rows report s =
        (.done (finalReport defaultTtl now pruning s report rows), left) :=
      unflushed_steady hsteady hkeys (Or.inl hclock) hlist
    rw [hleft]
    exact fun h => by cases h
  · -- The blobs are to be pruned and cannot be listed, which fails the save.
    obtain ⟨rfl, hunlisted⟩ : pruning = true ∧ fault s .list ≠ none := by
      simpa using hlist
    obtain ⟨kept, wrote, hwrite⟩ : ∃ kept wrote, writeRows defaultTtl now rows report [] s =
        (.done (withEntries defaultTtl now s report rows, kept), wrote) :=
      writeRows_steady hsteady hclock
    have hmeets := getAll_meets wrote
    rw [fault_writeRows hwrite] at hmeets
    simp only [unflushed, hwrite, if_true, pruneThrough]
    cases hlisting : BlobStore.getAll wrote with
    | mk outcome listed =>
      rw [hlisting] at hmeets
      cases hfault : fault s .list with
      | none => exact absurd hfault hunlisted
      | some trouble =>
        rw [hfault] at hmeets
        cases trouble with
        | breakDown => exact absurd hfault (hsteady _)
        | refuse =>
          obtain ⟨e, rfl⟩ := hmeets
          exact fun h => by cases h

/-- The blobs that a commit leaves whose trim ends, as long as no call breaks down: those of written
entries, and the others if they are not pruned. Once the clock has run past its last time, all blobs
stay if there is any entry in memory. -/
theorem find?_contents_commitThrough (hsteady : Steady s)
    (htrim : store.trim budget = some (evicted, trimmed)) (hsome : trimmed.size ≠ 0)
    (hcommit : commitThrough entryOrder blobOrder defaultTtl budget pruning now store s =
      (outcome, after, next)) (key : String) :
    (contents next).find? key =
      if now ≤ latestTime then
        (writtenBlob? defaultTtl now s key (trimmed.find? key)).or
          (if pruning = true ∧ Prunes s key then none else (contents s).find? key)
      else (contents s).find? key := by
  rcases commitThrough_cases hcommit with ⟨hendless, -, -, -⟩ | ⟨others, hothers, hflushed⟩
  · rw [hendless] at htrim
    cases htrim
  · rw [htrim] at hothers
    cases hothers
    have hnext := contents_flushed
      (beforeFlush entryOrder blobOrder defaultTtl pruning now evicted trimmed s)
    rw [hflushed] at hnext
    rw [hnext, beforeFlush]
    split
    · rename_i hclock
      have hkeys := entryOrder.keys_nodup trimmed.entries
      rw [unflushed_answers hkeys (unflushed_answered hsteady hkeys hclock) key,
        entryOrder.find?_rows, Store.find?_entries]
    · rename_i hclock
      have hrows : entryOrder.rows trimmed.entries ≠ [] :=
        fun hnone => hsome (rows_entries_eq_nil_iff.mp hnone)
      cases hvisited : entryOrder.rows trimmed.entries with
      | nil => exact absurd hvisited hrows
      | cons row rest => simp [unflushed, writeRows, readClock, hclock]

/-- As long as no call breaks down, a commit that prunes loses the older copy of an entry that is
fresh in memory and whose write is refused, if there is one and it can be deleted; and only then.
Such a key is counted among the failures, and among the removals as well if its blob is lost. The
removals are the blobs of all keys that were not written, fresh or not. -/
theorem refused_write_loses_iff (hsteady : Steady s)
    (htrim : store.trim budget = some (evicted, trimmed)) (hheld : trimmed.find? key = some entry)
    (hfresh : entry.isStale defaultTtl now = false)
    (hrefused : fault s (.write key) = some .refuse)
    (hcommit : commitThrough entryOrder blobOrder defaultTtl budget pruning now store s =
      (outcome, after, next)) :
    ((contents next).find? key ≠ (contents s).find? key ↔
      now ≤ latestTime ∧ pruning = true ∧ Prunes s key ∧ (contents s).contains key = true) ∧
    ∀ report, outcome = .done report →
      report.failed = (refusedKeys defaultTtl now s trimmed.entries.rows).length +
          (if pruning then
            (undeletable s (unwrittenKeys defaultTtl now s trimmed.entries.rows)).length else 0) ∧
        key ∈ refusedKeys defaultTtl now s trimmed.entries.rows ∧
        report.removed = (removedKeys defaultTtl now pruning s trimmed.entries.rows).length ∧
        ∀ other, other ∈ removedKeys defaultTtl now pruning s trimmed.entries.rows ↔
          pruning = true ∧ fault s (.delete other) = none ∧ (contents s).contains other = true ∧
            (freshBlob? defaultTtl now (trimmed.find? other) = none ∨
              fault s (.write other) ≠ none) := by
  have hentry : (key, entry) ∈ trimmed.entries.rows :=
    Table.mem_rows_iff.mpr ((Store.find?_entries trimmed key).trans hheld)
  have hsome : trimmed.size ≠ 0 := by
    rw [← length_entries]
    exact fun hnone => List.not_mem_nil (List.length_eq_zero_iff.mp hnone ▸ hentry)
  constructor
  · have hunwritten : writtenBlob? defaultTtl now s key (trimmed.find? key) = none := by
      simp [writtenBlob?, hrefused]
    rw [find?_contents_commitThrough hsteady htrim hsome hcommit, hunwritten, Option.none_or,
      Table.contains_eq_true_iff]
    by_cases hclock : now ≤ latestTime
    · rw [if_pos hclock]
      by_cases hpruned : pruning = true ∧ Prunes s key
      · rw [if_pos hpruned]
        cases (contents s).find? key <;> simp [hclock, hpruned]
      · rw [if_neg hpruned]
        exact ⟨fun hlost => absurd rfl hlost, fun hall => absurd ⟨hall.2.1, hall.2.2.1⟩ hpruned⟩
    · rw [if_neg hclock]
      exact ⟨fun hlost => absurd rfl hlost, fun hall => absurd hall.1 hclock⟩
  · rintro report rfl
    obtain ⟨others, hothers, heffect⟩ := effect_of_commitThrough hsteady hcommit
    rw [htrim] at hothers
    cases hothers
    refine ⟨heffect.failed, ?_, ?_, fun other => mem_removedKeys_iff⟩
    · refine List.mem_map.mpr ⟨(key, entry), List.mem_filter.mpr ⟨hentry, ?_⟩, rfl⟩
      simp [hfresh, hrefused]
    · rw [heffect.counted]
      cases pruning <;> simp [finalReport, withDeletions, withEntries, removedKeys]

/-- A blob under a key whose writes are refused. -/
def shut : Watched MemoryBlobs :=
  .start ⟨Table.ofList [("a", Entry.toBlob ⟨"old", 1, none⟩)]⟩
    { Faults.none with put := Table.ofList [("a", .refuse)] }

/-- A newer entry under that key. -/
def rewritten : Store := (Store.empty.put .standard "a" ⟨"new", 2, none⟩).2

/-- The older copy is lost, and the one key is counted as a failure and as a removal. -/
theorem refused_write_loses_iff_shut :
    ∃ next, commitThrough .descending .descending none 100 true 3 rewritten shut =
        (.done ⟨0, 0, 0, 1, 1⟩, rewritten, next) ∧
      (contents next).find? "a" ≠ (contents shut).find? "a" ∧
      "a" ∈ refusedKeys none 3 shut rewritten.entries.rows ∧
      "a" ∈ removedKeys none 3 true shut rewritten.entries.rows := by
  have hsteady : Steady shut := steady_start (by decide) (by decide) (by decide)
  have hdone : (commitThrough .descending .descending none 100 true 3 rewritten shut).1 =
      .done ⟨0, 0, 0, 1, 1⟩ := by decide
  have hkept : (commitThrough .descending .descending none 100 true 3 rewritten shut).2.1 =
      rewritten := by decide
  cases hcommit : commitThrough .descending .descending none 100 true 3 rewritten shut with
  | mk outcome left =>
    obtain ⟨after, next⟩ := left
    rw [hcommit] at hdone hkept
    cases hdone
    cases hkept
    have htrim : rewritten.trim 100 = some ([], rewritten) := by decide
    obtain ⟨hloses, hcounts⟩ := refused_write_loses_iff hsteady htrim
      (by decide : rewritten.find? "a" = some ⟨"new", 2, none⟩) (by decide) (by decide) hcommit
    obtain ⟨-, hrefused, -, hremoved⟩ := hcounts _ rfl
    exact ⟨next, rfl, hloses.mpr (by decide), hrefused, (hremoved "a").mpr (by decide)⟩

/-- A commit does not always keep the older copy of an entry that it could not write. -/
theorem not_refused_write_kept :
    ¬ ∀ (budget : Nat) (pruning : Bool) (now : Timestamp) (store trimmed : Store)
      (evicted : List String) (s : Watched MemoryBlobs) (key : String) (entry : Entry),
      store.trim budget = some (evicted, trimmed) → trimmed.find? key = some entry →
      entry.isStale none now = false → s.faults.put.find? key = some .refuse →
      (contents (commit none budget pruning now store s).2.2).find? key =
        (contents s).find? key := by
  intro hkept
  have hsame := hkept 100 true 3 rewritten rewritten [] shut "a" ⟨"new", 2, none⟩ (by decide)
    (by decide) (by decide) (by decide)
  have hlost : (contents (commit none 100 true 3 rewritten shut).2.2).find? "a" = none := by decide
  have hheld : (contents shut).find? "a" = some (Entry.toBlob ⟨"old", 1, none⟩) := by decide
  rw [hlost, hheld] at hsame
  cases hsame

end DurableCache.Gateway
