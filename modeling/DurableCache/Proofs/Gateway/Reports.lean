import DurableCache.Proofs.Gateway.Commit
import DurableCache.Proofs.Store.Intact

/-!
# Commits and faults of single keys

A call that is refused costs a commit the one key that it is about: the commit counts it and goes
on. As long as no call breaks down, what a commit does to the blobs and what it reports can be told
from the entries, the blobs and the faults alone, whatever the order in which it visits them
(`commit_effect`).
-/

namespace DurableCache.Gateway

open LawfulBlobs

variable {σ : Type} [BlobStore σ] [LawfulBlobs σ] {s next wrote : σ}
variable {defaultTtl : Option UInt64} {now : Timestamp} {report answer : CommitReport}
variable {kept written keys : List String} {rows : List (String × Entry)}

/-- No call breaks down, though any may be refused. -/
def Steady (s : σ) : Prop := ∀ access, fault s access ≠ some .breakDown

/-- What is steady depends on the faults alone. -/
theorem Steady.congr (h : Steady s) (hsame : fault next = fault s) : Steady next := by
  intro access
  rw [hsame]
  exact h access

/-! ### The keys of a commit -/

/-- The keys of the entries that are stale. -/
def staleKeys (defaultTtl : Option UInt64) (now : Timestamp) (rows : List (String × Entry)) :
    List String :=
  (rows.filter fun row => row.2.isStale defaultTtl now).map Prod.fst

/-- The keys of the fresh entries that are written. -/
def writtenKeys (defaultTtl : Option UInt64) (now : Timestamp) (s : σ)
    (rows : List (String × Entry)) : List String :=
  (rows.filter fun row => !row.2.isStale defaultTtl now && (fault s (.write row.1)).isNone).map
    Prod.fst

/-- The keys of the fresh entries whose write has a fault. -/
def refusedKeys (defaultTtl : Option UInt64) (now : Timestamp) (s : σ)
    (rows : List (String × Entry)) : List String :=
  (rows.filter fun row => !row.2.isStale defaultTtl now && (fault s (.write row.1)).isSome).map
    Prod.fst

/-- The keys of the blobs that are not those of written entries. -/
def unwrittenKeys (defaultTtl : Option UInt64) (now : Timestamp) (s : σ)
    (rows : List (String × Entry)) : List String :=
  (contents s).keys.filter fun key => !(writtenKeys defaultTtl now s rows).contains key

/-- Of some keys, those whose deletion has no fault. -/
def deletable (s : σ) (keys : List String) : List String :=
  keys.filter fun key => (fault s (.delete key)).isNone

/-- Of some keys, those whose deletion has a fault. -/
def undeletable (s : σ) (keys : List String) : List String :=
  keys.filter fun key => (fault s (.delete key)).isSome

/-- Every entry is stale, written or refused. -/
theorem length_keys (s : σ) (rows : List (String × Entry)) :
    (writtenKeys defaultTtl now s rows).length + (staleKeys defaultTtl now rows).length +
      (refusedKeys defaultTtl now s rows).length = rows.length := by
  induction rows with
  | nil => rfl
  | cons row rest ih =>
    simp only [writtenKeys, staleKeys, refusedKeys, List.length_map, List.filter_cons,
      List.length_cons] at ih ⊢
    cases row.2.isStale defaultTtl now <;> cases fault s (.write row.1) <;> simp <;> omega

/-- The deletion of a blob has a fault or none. -/
theorem length_deletable (s : σ) (keys : List String) :
    (deletable s keys).length + (undeletable s keys).length = keys.length := by
  induction keys with
  | nil => rfl
  | cons key rest ih =>
    simp only [deletable, undeletable, List.filter_cons, List.length_cons] at ih ⊢
    cases fault s (.delete key) <;> simp <;> omega

/-- A blob is written if there is an entry, it is fresh, and its write has no fault. -/
theorem writtenBlob?_isSome_iff {key : String} {entry : Option Entry} :
    (writtenBlob? defaultTtl now s key entry).isSome = true ↔
      ∃ e, entry = some e ∧ e.isStale defaultTtl now = false ∧ fault s (.write key) = none := by
  rw [writtenBlob?, Option.isSome_iff_exists]
  constructor
  · rintro ⟨blob, hblob⟩
    split at hblob
    · rename_i hfault
      obtain ⟨e, he, hfresh, -⟩ := freshBlob?_eq_some_iff.mp hblob
      exact ⟨e, he, hfresh, hfault⟩
    · cases hblob
  · rintro ⟨e, he, hfresh, hfault⟩
    exact ⟨e.toBlob, by rw [if_pos hfault, freshBlob?_eq_some_iff.mpr ⟨e, he, hfresh, rfl⟩]⟩

/-- The written keys are those of the blobs that are written. -/
theorem mem_writtenKeys_iff (hkeys : (rows.map Prod.fst).Nodup) {key : String} :
    key ∈ writtenKeys defaultTtl now s rows ↔
      (writtenBlob? defaultTtl now s key (Rows.find? key rows)).isSome = true := by
  simp only [writtenKeys, List.mem_map, List.mem_filter, Bool.and_eq_true, Bool.not_eq_true',
    Option.isNone_iff_eq_none, writtenBlob?_isSome_iff, Rows.find?_eq_some_iff hkeys]
  constructor
  · rintro ⟨⟨_, entry⟩, ⟨hrow, hwritten⟩, rfl⟩
    exact ⟨entry, hrow, hwritten⟩
  · rintro ⟨entry, hrow, hwritten⟩
    exact ⟨(key, entry), ⟨hrow, hwritten⟩, rfl⟩

/-! ### Calls that may be refused -/

/-- A report with the entries of a list counted. -/
def withEntries (defaultTtl : Option UInt64) (now : Timestamp) (s : σ) (report : CommitReport)
    (rows : List (String × Entry)) : CommitReport :=
  { report with
    written := report.written + (writtenKeys defaultTtl now s rows).length
    stale := report.stale + (staleKeys defaultTtl now rows).length
    failed := report.failed + (refusedKeys defaultTtl now s rows).length }

/-- What is counted depends on the faults alone. -/
theorem withEntries_congr (h : fault next = fault s) (report : CommitReport)
    (rows : List (String × Entry)) :
    withEntries defaultTtl now next report rows = withEntries defaultTtl now s report rows := by
  unfold withEntries writtenKeys refusedKeys
  rw [h]

/-- The entries of a list are counted one by one. -/
theorem withEntries_cons (s : σ) (report : CommitReport) (key : String) (entry : Entry)
    (rest : List (String × Entry)) :
    withEntries defaultTtl now s report ((key, entry) :: rest) =
      withEntries defaultTtl now s
        (if entry.isStale defaultTtl now then { report with stale := report.stale + 1 }
        else if fault s (.write key) = none then { report with written := report.written + 1 }
        else { report with failed := report.failed + 1 }) rest := by
  cases hstale : entry.isStale defaultTtl now <;> cases hfault : fault s (.write key) <;>
    simp [withEntries, writtenKeys, staleKeys, refusedKeys, hstale, hfault, Nat.add_assoc,
      Nat.add_comm 1]

/-- Writing entries comes to its end as long as no call breaks down, and counts them all. -/
theorem writeRows_steady (hsteady : Steady s) (hclock : now ≤ latestTime) :
    ∃ kept wrote, writeRows defaultTtl now rows report written s =
      (.done (withEntries defaultTtl now s report rows, kept), wrote) := by
  have hread : readClock now = .ok now := readClock_eq_ok_iff.mpr ⟨hclock, rfl⟩
  induction rows generalizing report written s with
  | nil => exact ⟨written, s, rfl⟩
  | cons row rest ih =>
    obtain ⟨key, entry⟩ := row
    rw [withEntries_cons]
    simp only [writeRows, hread]
    cases entry.isStale defaultTtl now with
    | true => exact ih hsteady
    | false =>
      have hmeets := put_meets key entry.toBlob s
      have hkeep := fault_put key entry.toBlob s
      simp only [Bool.false_eq_true, if_false]
      cases hput : BlobStore.put key entry.toBlob s with
      | mk outcome wrote =>
        rw [hput] at hmeets hkeep
        rw [← withEntries_congr hkeep]
        cases hfault : fault s (.write key) with
        | none =>
          rw [hfault] at hmeets
          cases hmeets
          exact ih (hsteady.congr hkeep)
        | some trouble =>
          cases trouble with
          | breakDown => exact absurd hfault (hsteady _)
          | refuse =>
            rw [hfault] at hmeets
            obtain ⟨e, rfl⟩ := hmeets
            exact ih (hsteady.congr hkeep)

/-- A report with the deletions of some blobs counted. -/
def withDeletions (s : σ) (report : CommitReport) (keys : List String) : CommitReport :=
  { report with
    removed := report.removed + (deletable s keys).length
    failed := report.failed + (undeletable s keys).length }

/-- What is counted depends on the faults alone. -/
theorem withDeletions_congr (h : fault next = fault s) (report : CommitReport)
    (keys : List String) : withDeletions next report keys = withDeletions s report keys := by
  unfold withDeletions deletable undeletable
  rw [h]

/-- The deletions are counted one by one. -/
theorem withDeletions_cons (s : σ) (report : CommitReport) (key : String) (rest : List String) :
    withDeletions s report (key :: rest) =
      withDeletions s
        (if fault s (.delete key) = none then { report with removed := report.removed + 1 }
        else { report with failed := report.failed + 1 }) rest := by
  cases hfault : fault s (.delete key) <;>
    simp [withDeletions, deletable, undeletable, hfault, Nat.add_assoc, Nat.add_comm 1]

/-- The order of the deletions does not matter to their counts. -/
theorem withDeletions_perm {others : List String} (h : keys.Perm others) :
    withDeletions s report keys = withDeletions s report others := by
  simp only [withDeletions, deletable, undeletable, (h.filter _).length_eq]

/-- Deleting blobs comes to its end as long as no call breaks down, and counts them all. -/
theorem removeKeys_steady (hsteady : Steady s) :
    ∃ next, removeKeys keys report s = (.done (withDeletions s report keys), next) := by
  induction keys generalizing report s with
  | nil => exact ⟨s, rfl⟩
  | cons key rest ih =>
    have hmeets := remove_meets key s
    have hkeep := fault_remove key s
    rw [withDeletions_cons]
    simp only [removeKeys]
    cases hremove : BlobStore.remove key s with
    | mk outcome removed =>
      rw [hremove] at hmeets hkeep
      rw [← withDeletions_congr hkeep]
      cases hfault : fault s (.delete key) with
      | none =>
        rw [hfault] at hmeets
        cases hmeets
        exact ih (hsteady.congr hkeep)
      | some trouble =>
        cases trouble with
        | breakDown => exact absurd hfault (hsteady _)
        | refuse =>
          rw [hfault] at hmeets
          obtain ⟨e, rfl⟩ := hmeets
          exact ih (hsteady.congr hkeep)

/-- Pruning whose blobs can be listed comes to its end as long as no call breaks down. It counts the
blobs that were not written, in whatever order it deletes them. -/
theorem pruneThrough_steady {order : Visits String} (hsteady : Steady s)
    (hlist : fault s .list = none) (hunwritten : ∀ key,
      key ∈ keys ↔ (∃ blob, (contents s).find? key = some blob) ∧ key ∉ written)
    (hkeys : keys.Nodup) :
    ∃ next, pruneThrough order written report s = (.done (withDeletions s report keys), next) := by
  have hmeets := getAll_meets s
  have hkeep := fault_getAll s
  rw [hlist] at hmeets
  unfold pruneThrough
  cases hlisted : BlobStore.getAll s with
  | mk outcome listed =>
    rw [hlisted] at hmeets hkeep
    cases hmeets
    have hperm : (((order.rows (contents s)).map Prod.fst).filter
        fun key => !written.contains key).Perm keys := by
      refine (List.perm_ext_iff_of_nodup ((order.keys_nodup (contents s)).filter _) hkeys).mpr
        fun key => ?_
      rw [List.mem_filter, ((order.perm (contents s)).map Prod.fst).mem_iff, hunwritten,
        ← Table.mem_keys_iff]
      simp [Table.keys]
    rw [← withDeletions_congr hkeep, ← withDeletions_perm hperm]
    exact removeKeys_steady (hsteady.congr hkeep)

/-! ### Commits -/

variable {pruning : Bool} {entryOrder : Visits Entry} {blobOrder : Visits String}

/-- The report of a commit that is done. -/
def finalReport (defaultTtl : Option UInt64) (now : Timestamp) (pruning : Bool) (s : σ)
    (report : CommitReport) (rows : List (String × Entry)) : CommitReport :=
  if pruning then
    withDeletions s (withEntries defaultTtl now s report rows) (unwrittenKeys defaultTtl now s rows)
  else withEntries defaultTtl now s report rows

/-- The order of the entries does not matter to the report. -/
theorem finalReport_perm {others : List (String × Entry)} (h : rows.Perm others) :
    finalReport defaultTtl now pruning s report rows =
      finalReport defaultTtl now pruning s report others := by
  have hwritten : (writtenKeys defaultTtl now s rows).Perm (writtenKeys defaultTtl now s others) :=
    (h.filter _).map _
  have hunwritten : unwrittenKeys defaultTtl now s rows = unwrittenKeys defaultTtl now s others :=
    List.filter_congr fun key _ => by rw [hwritten.contains_eq]
  have hentries : withEntries defaultTtl now s report rows =
      withEntries defaultTtl now s report others := by
    simp only [withEntries, writtenKeys, staleKeys, refusedKeys, List.length_map,
      (h.filter _).length_eq]
  rw [finalReport, finalReport, hunwritten, hentries]

/-- As long as no call breaks down, entries are saved to the end if the clock can show the time, or
there are none, and if the blobs can be listed, or they need not be. -/
theorem unflushed_steady (hsteady : Steady s) (hkeys : (rows.map Prod.fst).Nodup)
    (hclock : now ≤ latestTime ∨ rows = []) (hlist : pruning = true → fault s .list = none) :
    ∃ left, unflushed blobOrder defaultTtl now pruning rows report s =
      (.done (finalReport defaultTtl now pruning s report rows), left) := by
  have hwrites : ∃ kept wrote, writeRows defaultTtl now rows report [] s =
      (.done (withEntries defaultTtl now s report rows, kept), wrote) := by
    rcases hclock with hclock | rfl
    · exact writeRows_steady hsteady hclock
    · exact ⟨[], s, rfl⟩
  obtain ⟨kept, wrote, hwrite⟩ := hwrites
  simp only [unflushed, hwrite, finalReport]
  cases pruning with
  | false => exact ⟨wrote, rfl⟩
  | true =>
    obtain ⟨hkept, hfind⟩ := writeRows_done hkeys hwrite
    have hfaults := fault_writeRows hwrite
    simp only [if_true]
    rw [← withDeletions_congr hfaults]
    refine pruneThrough_steady (hsteady.congr hfaults) (by rw [hfaults]; exact hlist rfl)
      (fun key => ?_) ((contents s).keys_nodup.filter _)
    -- The listed blobs are those of before and the written ones.
    have hmem : key ∈ kept ↔ key ∈ writtenKeys defaultTtl now s rows := by
      rw [hkept, mem_writtenKeys_iff hkeys]
      simp
    rw [unwrittenKeys, List.mem_filter, Table.mem_keys_iff, hmem, hfind]
    cases hblob : writtenBlob? defaultTtl now s key (Rows.find? key rows) with
    | none => simp
    | some blob =>
      have hwritten : key ∈ writtenKeys defaultTtl now s rows := by
        rw [mem_writtenKeys_iff hkeys, hblob]
        rfl
      simp [hwritten]

/-- Entries that were saved to the end needed a clock that can show the time, unless there were
none, and blobs that can be listed if they were to be pruned. -/
theorem of_unflushed_done
    (h : (unflushed blobOrder defaultTtl now pruning rows report s).1 = .done answer) :
    (now ≤ latestTime ∨ rows = []) ∧ (pruning = true → fault s .list = none) := by
  unfold unflushed at h
  cases hwrite : writeRows defaultTtl now rows report [] s with
  | mk outcome wrote =>
    rw [hwrite] at h
    cases outcome with
    | failed e => cases h
    | abandoned why => cases h
    | done result =>
      constructor
      · cases rows with
        | nil => exact Or.inr rfl
        | cons row rest =>
          by_cases hclock : now ≤ latestTime
          · exact Or.inl hclock
          · simp [writeRows, readClock, hclock] at hwrite
      · rintro rfl
        have hfaults := fault_writeRows hwrite
        have hmeets := getAll_meets wrote
        simp only [if_true, pruneThrough] at h
        cases hlist : BlobStore.getAll wrote with
        | mk listing listed =>
          rw [hlist, hfaults] at hmeets
          rw [hlist] at h
          cases listing with
          | failed e => cases h
          | abandoned why => cases h
          | done persisted => exact Outcome.fault_of_done hmeets

omit [LawfulBlobs σ] in
/-- What is flushed is done if it was done before and the flush succeeds. -/
theorem flushed_eq_done_iff {x : Outcome CommitReport × σ} :
    (flushed x).1 = .done report ↔ x.1 = .done report ∧ (BlobStore.flush x.2).1 = .done () := by
  obtain ⟨outcome, left⟩ := x
  cases outcome with
  | failed e => simp [flushed]
  | abandoned why => simp [flushed]
  | done counted =>
    simp only [flushed]
    cases BlobStore.flush left with
    | mk outcome last => cases outcome <;> simp

/-- The blob under a key that a commit leaves where no call has a fault: that of a fresh entry if
there is one, else none with pruning, and the one from before without. -/
def committedBlob? (defaultTtl : Option UInt64) (now : Timestamp) (pruning : Bool)
    (held : Option Entry) (before : Option String) : Option String :=
  (freshBlob? defaultTtl now held).or (if pruning then none else before)

/-- What a commit does that is done. -/
structure CommitEffect (defaultTtl : Option UInt64) (now : Timestamp) (pruning : Bool)
    (after : Store) (evicted : List String) (s next : σ) (report : CommitReport) : Prop where
  /-- Each key without a fault has the blob that it is to have. -/
  blobs : ∀ key, fault s (.write key) = none → fault s (.delete key) = none →
    (contents next).find? key =
      committedBlob? defaultTtl now pruning (after.find? key) ((contents s).find? key)
  /-- The report can be told from the entries, the blobs and the faults. -/
  counted : report = finalReport defaultTtl now pruning s ⟨0, 0, evicted.length, 0, 0⟩
    after.entries.rows
  /-- The evicted entries are counted. -/
  evicted : report.evicted = evicted.length
  /-- The entries in memory are written, stale or refused. -/
  entries : report.written + report.stale +
    (refusedKeys defaultTtl now s after.entries.rows).length = after.size
  /-- With pruning the blobs that were not written are removed, or their deletion is refused. -/
  others : report.removed + (if pruning then
      (undeletable s (unwrittenKeys defaultTtl now s after.entries.rows)).length else 0) =
    if pruning then (unwrittenKeys defaultTtl now s after.entries.rows).length else 0
  /-- The refused writes and deletions are counted. -/
  failed : report.failed = (refusedKeys defaultTtl now s after.entries.rows).length +
    if pruning then (undeletable s (unwrittenKeys defaultTtl now s after.entries.rows)).length
    else 0

variable {budget : Nat} {store after : Store} {outcome : Outcome CommitReport}

omit [BlobStore σ] [LawfulBlobs σ] in
/-- Each entry has one row. -/
theorem length_entries (store : Store) : store.entries.rows.length = store.size := by
  simp [Store.entries, Table.mapValues, Store.size, Table.size]

omit [BlobStore σ] [LawfulBlobs σ] in
/-- There is something to visit unless the store is empty. -/
theorem rows_entries_eq_nil_iff : entryOrder.rows after.entries = [] ↔ after.size = 0 := by
  rw [← List.length_eq_zero_iff, (entryOrder.perm after.entries).length_eq, length_entries]

/-- A commit is done exactly if its trim ends, the clock can show the time or no entry is left, the
blobs can be listed if it prunes, and its flush succeeds. -/
theorem commitThrough_done_iff (hsteady : Steady s)
    (hcommit : commitThrough entryOrder blobOrder defaultTtl budget pruning now store s =
      (outcome, after, next)) :
    (∃ report, outcome = .done report) ↔ ∃ evicted, store.trim budget = some (evicted, after) ∧
      (now ≤ latestTime ∨ after.size = 0) ∧ (pruning = true → fault s .list = none) ∧
      (BlobStore.flush
          (beforeFlush entryOrder blobOrder defaultTtl pruning now evicted after s).2).1 =
        .done () := by
  rcases commitThrough_cases hcommit with ⟨hendless, rfl, -, -⟩ | ⟨evicted, htrim, hflushed⟩
  · simp [hendless]
  · have hdone (report : CommitReport) : outcome = .done report ↔
        (beforeFlush entryOrder blobOrder defaultTtl pruning now evicted after s).1 = .done report ∧
          (BlobStore.flush
            (beforeFlush entryOrder blobOrder defaultTtl pruning now evicted after s).2).1 =
              .done () := by
      rw [← flushed_eq_done_iff, hflushed]
    constructor
    · rintro ⟨report, hreport⟩
      obtain ⟨hbefore, hflush⟩ := (hdone report).mp hreport
      obtain ⟨hclock, hlist⟩ := of_unflushed_done hbefore
      exact ⟨evicted, htrim, hclock.imp_right rows_entries_eq_nil_iff.mp, hlist, hflush⟩
    · rintro ⟨others, hothers, hclock, hlist, hflush⟩
      rw [htrim] at hothers
      cases hothers
      obtain ⟨left, hleft⟩ := unflushed_steady hsteady (entryOrder.keys_nodup after.entries)
        (hclock.imp_right rows_entries_eq_nil_iff.mpr) hlist
      exact ⟨_, (hdone _).mpr ⟨congrArg Prod.fst hleft, hflush⟩⟩

/-- The report of a commit that is done depends on no order. -/
theorem report_of_commitThrough (hsteady : Steady s)
    (hcommit : commitThrough entryOrder blobOrder defaultTtl budget pruning now store s =
      (.done report, after, next)) :
    ∃ evicted, store.trim budget = some (evicted, after) ∧
      report = finalReport defaultTtl now pruning s ⟨0, 0, evicted.length, 0, 0⟩
        after.entries.rows := by
  rcases commitThrough_cases hcommit with ⟨-, hnot, -, -⟩ | ⟨evicted, htrim, hflushed⟩
  · cases hnot
  · obtain ⟨hbefore, -⟩ := flushed_eq_done_iff.mp (congrArg Prod.fst hflushed)
    obtain ⟨hclock, hlist⟩ := of_unflushed_done hbefore
    obtain ⟨left, hleft⟩ :=
      unflushed_steady hsteady (entryOrder.keys_nodup after.entries) hclock hlist
    rw [beforeFlush, hleft] at hbefore
    rw [← Outcome.done.inj hbefore, finalReport_perm (entryOrder.perm after.entries)]
    exact ⟨evicted, htrim, rfl⟩

/-- A commit that is done gives every key without a fault the blob that it is to have. -/
theorem blobs_of_commitThrough (hsteady : Steady s)
    (hcommit : commitThrough entryOrder blobOrder defaultTtl budget pruning now store s =
      (.done report, after, next)) {key : String} (hwrite : fault s (.write key) = none)
    (hdelete : fault s (.delete key) = none) :
    (contents next).find? key =
      committedBlob? defaultTtl now pruning (after.find? key) ((contents s).find? key) := by
  obtain ⟨evicted, htrim, -, hlist, -⟩ :=
    (commitThrough_done_iff hsteady hcommit).mp ⟨report, rfl⟩
  have hanswered : ∀ why, (commitThrough entryOrder blobOrder defaultTtl budget pruning now store
      s).1 ≠ .abandoned why := by
    rw [hcommit]
    exact fun why h => by cases h
  have hanswers := commitThrough_answers htrim hanswered key
  rw [hcommit] at hanswers
  rw [hanswers, writtenBlob?, if_pos hwrite, committedBlob?]
  cases pruning with
  | false => simp
  | true => simp [Prunes, hlist rfl, hdelete]

/-- A commit that is done counts every entry and every blob. -/
theorem effect_of_commitThrough (hsteady : Steady s)
    (hcommit : commitThrough entryOrder blobOrder defaultTtl budget pruning now store s =
      (.done report, after, next)) :
    ∃ evicted, store.trim budget = some (evicted, after) ∧
      CommitEffect defaultTtl now pruning after evicted s next report := by
  obtain ⟨evicted, htrim, rfl⟩ := report_of_commitThrough hsteady hcommit
  have hentries : (writtenKeys defaultTtl now s after.entries.rows).length +
      (staleKeys defaultTtl now after.entries.rows).length +
      (refusedKeys defaultTtl now s after.entries.rows).length = after.size :=
    (length_keys s after.entries.rows).trans (length_entries after)
  have hblobs := length_deletable s (unwrittenKeys defaultTtl now s after.entries.rows)
  refine ⟨evicted, htrim, fun key => blobs_of_commitThrough hsteady hcommit, rfl, ?_, ?_, ?_, ?_⟩
  all_goals
    cases pruning <;> simp [finalReport, withDeletions, withEntries, hentries, hblobs]

/-- As long as no call breaks down, a commit is done exactly if its trim ends, the clock can show
the time or no entry is left, the blobs can be listed if it prunes, and its flush succeeds. It trims
the memory and does no more to it. Once it is done, each key without a fault has the blob of its
fresh entry, or else none with pruning and the one from before without. That does not depend on the
other keys, on their faults or on any order, and the report counts every entry and every blob. -/
theorem commit_effect (hsteady : Steady s)
    (hcommit : commitThrough entryOrder blobOrder defaultTtl budget pruning now store s =
      (outcome, after, next)) :
    ((∃ report, outcome = .done report) ↔ ∃ evicted, store.trim budget = some (evicted, after) ∧
      (now ≤ latestTime ∨ after.size = 0) ∧ (pruning = true → fault s .list = none) ∧
      (BlobStore.flush
          (beforeFlush entryOrder blobOrder defaultTtl pruning now evicted after s).2).1 =
        .done ()) ∧
    (∀ evicted trimmed, store.trim budget = some (evicted, trimmed) → after = trimmed) ∧
    ∀ report, outcome = .done report →
      (∃ evicted, store.trim budget = some (evicted, after) ∧
        CommitEffect defaultTtl now pruning after evicted s next report) ∧
      ∀ (entryOrder' : Visits Entry) (blobOrder' : Visits String) (s' next' : σ)
        (report' : CommitReport) (after' : Store), Steady s' →
        commitThrough entryOrder' blobOrder' defaultTtl budget pruning now store s' =
          (.done report', after', next') →
        ∀ key, (contents s').find? key = (contents s).find? key →
          fault s (.write key) = none → fault s (.delete key) = none →
          fault s' (.write key) = none → fault s' (.delete key) = none →
          (contents next').find? key = (contents next).find? key := by
  have htrimmed (evicted : List String) (trimmed : Store)
      (htrim : store.trim budget = some (evicted, trimmed)) : after = trimmed := by
    rcases commitThrough_cases hcommit with ⟨hendless, -, -, -⟩ | ⟨others, hothers, -⟩
    · rw [hendless] at htrim
      cases htrim
    · rw [hothers] at htrim
      cases htrim
      rfl
  refine ⟨commitThrough_done_iff hsteady hcommit, htrimmed, ?_⟩
  rintro report rfl
  obtain ⟨evicted, htrim, heffect⟩ := effect_of_commitThrough hsteady hcommit
  refine ⟨⟨evicted, htrim, heffect⟩, ?_⟩
  intro entryOrder' blobOrder' s' next' report' after' hsteady' hcommit' key hsame hwrite hdelete
    hwrite' hdelete'
  obtain ⟨others, hothers, -⟩ := report_of_commitThrough hsteady' hcommit'
  obtain rfl : after' = after := by
    rw [htrim] at hothers
    cases hothers
    rfl
  rw [blobs_of_commitThrough hsteady' hcommit' hwrite' hdelete', hsame,
    heffect.blobs key hwrite hdelete]

/-- A watched memory is steady if none of its faults is a breakdown. -/
theorem steady_start {blobs : MemoryBlobs} {faults : Faults}
    (hlist : faults.getAll ≠ some .breakDown)
    (hput : ∀ row ∈ faults.put.rows, row.2 ≠ .breakDown)
    (hremove : ∀ row ∈ faults.remove.rows, row.2 ≠ .breakDown) :
    Steady (Watched.start blobs faults) := by
  intro access hbroken
  have hown : (Watched.ownFault faults access).or none = some .breakDown := hbroken
  rw [Option.or_none] at hown
  cases access with
  | list => exact hlist hown
  | write key => exact hput (key, .breakDown) (Table.mem_rows_iff.mpr hown) rfl
  | delete key => exact hremove (key, .breakDown) (Table.mem_rows_iff.mpr hown) rfl

/-- Blobs with a write and a deletion that are refused. -/
def obstructed : Watched MemoryBlobs :=
  .start ⟨Table.ofList [("gone", "x"), ("late", "x"), ("shut", "x"), ("stuck", "x")]⟩
    { Faults.none with
      put := Table.ofList [("shut", .refuse)]
      remove := Table.ofList [("stuck", .refuse)] }

/-- Four entries, two of them older. -/
def crowded : Store :=
  Store.empty.run (.perUnit 0 1)
    [.operate (.put "dropped" ⟨"x", 0, none⟩), .operate (.put "fresh" ⟨"x", 9, none⟩),
      .operate (.put "late" ⟨"x", 0, none⟩), .operate (.put "shut" ⟨"x", 9, none⟩)]

/-- One entry is evicted, and of the other three one is stale and one cannot be written. -/
theorem commit_effect_obstructed :
    ∃ after next, commitThrough .descending .ascending (some 5) 3 true 9 crowded obstructed =
        (.done ⟨1, 1, 1, 3, 2⟩, after, next) ∧
      (contents next).find? "fresh" = some (Entry.toBlob ⟨"x", 9, none⟩) ∧
      (contents next).find? "gone" = none := by
  have hsteady : Steady obstructed := steady_start (by decide) (by decide) (by decide)
  have hdone : (commitThrough .descending .ascending (some 5) 3 true 9 crowded obstructed).1 =
      .done ⟨1, 1, 1, 3, 2⟩ := by decide
  cases hcommit : commitThrough .descending .ascending (some 5) 3 true 9 crowded obstructed with
  | mk outcome left =>
    obtain ⟨after, next⟩ := left
    rw [hcommit] at hdone
    cases hdone
    obtain ⟨-, -, hreported⟩ := commit_effect hsteady hcommit
    obtain ⟨⟨evicted, htrim, heffect⟩, -⟩ := hreported _ rfl
    have hleft : (crowded.trim 3).map (fun found => (found.2.find? "fresh", found.2.find? "gone")) =
        some (some ⟨"x", 9, none⟩, none) := by decide
    rw [htrim] at hleft
    obtain ⟨hfresh, hgone⟩ := Prod.mk.inj (Option.some.inj hleft)
    refine ⟨after, next, rfl, ?_, ?_⟩
    · rw [heffect.blobs "fresh" (by decide) (by decide), hfresh]
      rfl
    · rw [heffect.blobs "gone" (by decide) (by decide), hgone]
      rfl

/-- A memory whose index holds the age of an entry that was not stored, as its size and that of the
other entry do not fit. -/
def overfilled : Store :=
  ((Store.empty.put Store.quarter "b" ⟨"yy", 6, none⟩).2.put Store.quarter "a" ⟨"xx", 1, none⟩).2

/-- A commit over blobs that can be listed and flushed is abandoned all the same if the clock has
run past its last time, or if its trim does not end. -/
theorem not_commit_done_iff :
    (¬ ∀ (budget : Nat) (now : Timestamp) (store : Store) (s : MemoryBlobs),
      (∃ report, (commit none budget true now store s).1 = .done report) ↔
        (BlobStore.getAll s).1 = .done s.blobs ∧
          ∀ left : MemoryBlobs, (BlobStore.flush left).1 = .done ()) ∧
      (commit none 0 true 7 overfilled (⟨∅⟩ : MemoryBlobs)).1 = .abandoned .endless := by
  refine ⟨fun hdone => ?_, by decide⟩
  obtain ⟨report, hreport⟩ :=
    (hdone 9 (latestTime + 1) crowded ⟨∅⟩).mpr ⟨rfl, fun _ => rfl⟩
  have habandoned : (commit none 9 true (latestTime + 1) crowded (⟨∅⟩ : MemoryBlobs)).1 =
      .abandoned .clockOverrun := by decide
  rw [habandoned] at hreport
  cases hreport

end DurableCache.Gateway
