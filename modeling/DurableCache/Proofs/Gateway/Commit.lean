import DurableCache.Proofs.Blobs.Lawful
import DurableCache.Proofs.Gateway.Orders
import DurableCache.Store.Lemmas

/-!
# What a commit does to the blobs

Each step of a commit is described by the lookups after it. A commit that is not abandoned
writes the blob of every fresh entry whose write has no fault. With pruning it deletes every
other blob whose deletion has none, unless the blobs cannot be listed.
-/

namespace DurableCache.Gateway

open LawfulBlobs

variable {σ : Type} [BlobStore σ] {P : σ → Prop} {s next : σ}
variable {defaultTtl : Option UInt64} {now : Timestamp} {report answer : CommitReport}
variable {written kept keys : List String} {rows : List (String × Entry)}

/-- The blob of an entry, if there is one and it is fresh. -/
def freshBlob? (defaultTtl : Option UInt64) (now : Timestamp) (entry : Option Entry) :
    Option String :=
  (entry.filter fun e => !e.isStale defaultTtl now).map Entry.toBlob

/-- The blob of a fresh entry. -/
theorem freshBlob?_eq_some_iff {entry : Option Entry} {blob : String} :
    freshBlob? defaultTtl now entry = some blob ↔
      ∃ e, entry = some e ∧ e.isStale defaultTtl now = false ∧ e.toBlob = blob := by
  rw [freshBlob?, Option.map_eq_some_iff]
  simp only [Option.filter_eq_some_iff, Bool.not_eq_true', and_assoc]

/-! ### Properties that are kept -/

/-- Writing entries keeps what each of the writes keeps. -/
theorem kept_writeRows
    (h : ∀ row ∈ rows, ∀ s, P s → P (BlobStore.put row.1 row.2.toBlob s).2) (hs : P s) :
    P (writeRows defaultTtl now rows report written s).2 := by
  induction rows generalizing report written s with
  | nil => exact hs
  | cons row rest ih =>
    obtain ⟨hfirst, hrest⟩ := List.forall_mem_cons.mp h
    obtain ⟨key, entry⟩ := row
    unfold writeRows
    split
    · exact hs
    · rename_i read hclock
      obtain ⟨-, rfl⟩ := readClock_eq_ok_iff.mp hclock
      split
      · exact ih hrest hs
      · have hput := hfirst s hs
        split
        · rename_i heq
          rw [heq] at hput
          exact ih hrest hput
        · rename_i heq
          rw [heq] at hput
          exact ih hrest hput
        · rename_i heq
          rw [heq] at hput
          exact hput

/-- What each write brings about holds once entries have been written, if any was. -/
theorem writeRows_of_put (h : BlobStore.Kept P)
    (hput : ∀ key blob s, P (BlobStore.put key blob s).2)
    (hdone : writeRows defaultTtl now rows report written s = (.done (answer, kept), next)) :
    kept = written ∨ P next := by
  induction rows generalizing report written s with
  | nil =>
    cases hdone
    exact Or.inl rfl
  | cons row rest ih =>
    obtain ⟨key, entry⟩ := row
    have hwrite := hput key entry.toBlob s
    unfold writeRows at hdone
    split at hdone
    · cases hdone
    · rename_i read hclock
      obtain ⟨-, rfl⟩ := readClock_eq_ok_iff.mp hclock
      split at hdone
      · exact ih hdone
      · split at hdone
        · rename_i heq
          rw [heq] at hwrite
          have hkept : P (writeRows defaultTtl now rest
              { report with written := report.written + 1 } (key :: written) _).2 :=
            kept_writeRows (fun row _ => h.put row.1 row.2.toBlob) hwrite
          rw [hdone] at hkept
          exact Or.inr hkept
        · exact ih hdone
        · cases hdone

/-- Deleting the blobs of some keys keeps what each of these deletions keeps. -/
theorem kept_removeKeys_of_mem (h : ∀ key ∈ keys, ∀ s, P s → P (BlobStore.remove key s).2)
    (hs : P s) : P (removeKeys keys report s).2 := by
  induction keys generalizing report s with
  | nil => exact hs
  | cons key rest ih =>
    obtain ⟨hfirst, hrest⟩ := List.forall_mem_cons.mp h
    have hremove := hfirst s hs
    unfold removeKeys
    split
    · rename_i heq
      rw [heq] at hremove
      exact ih hrest hremove
    · rename_i heq
      rw [heq] at hremove
      exact ih hrest hremove
    · rename_i heq
      rw [heq] at hremove
      exact hremove

/-- Deleting blobs keeps what each deletion keeps. -/
theorem kept_removeKeys (h : BlobStore.KeptByDeletion P) (hs : P s) :
    P (removeKeys keys report s).2 :=
  kept_removeKeys_of_mem (fun key _ => h.remove key) hs

/-- Pruning keeps what listing and deletions keep, in whatever order. -/
theorem kept_pruneThrough (order : Visits String) (h : BlobStore.KeptByDeletion P) (hs : P s) :
    P (pruneThrough order written report s).2 := by
  have hlist := h.getAll s hs
  unfold pruneThrough
  split
  · rename_i heq
    rw [heq] at hlist
    exact hlist
  · rename_i heq
    rw [heq] at hlist
    exact hlist
  · rename_i heq
    rw [heq] at hlist
    exact kept_removeKeys h hlist

/-- Pruning keeps what listing and deletions keep. -/
theorem kept_prune (h : BlobStore.KeptByDeletion P) (hs : P s) : P (prune written report s).2 :=
  kept_pruneThrough .ascending h hs

/-- Pruning that may be left out keeps what listing and deletions keep. -/
theorem kept_prune_if (h : BlobStore.KeptByDeletion P) {pruning : Bool} (hs : P s) :
    P (if pruning then prune written report s else (.done report, s)).2 := by
  split
  · exact kept_prune h hs
  · exact hs

/-- A save keeps what its writes and its flush keep, if pruning keeps it once the entries are
written. -/
theorem kept_save_of_prune {pruning : Bool}
    (hput : ∀ row ∈ rows, ∀ s, P s → P (BlobStore.put row.1 row.2.toBlob s).2)
    (hprune : pruning = true → ∀ counted written wrote,
      writeRows defaultTtl now rows report [] s = (.done (counted, written), wrote) →
      P wrote → P (prune written counted wrote).2)
    (hflush : ∀ s, P s → P (BlobStore.flush s).2) (hs : P s) :
    P (save defaultTtl now pruning rows report s).2 := by
  have hwrite : P (writeRows defaultTtl now rows report [] s).2 := kept_writeRows hput hs
  unfold save
  split
  · rename_i heq
    rwa [heq] at hwrite
  · rename_i heq
    rwa [heq] at hwrite
  · rename_i counted written wrote heq
    rw [heq] at hwrite
    have hpruned :
        P (if pruning then prune written counted wrote else (.done counted, wrote)).2 := by
      cases hcase : pruning with
      | false => exact hwrite
      | true => exact hprune hcase counted written wrote heq hwrite
    split
    · rename_i pruned hdone
      rw [hdone] at hpruned
      have hlast := hflush pruned hpruned
      split
      · rename_i hflushed
        rwa [hflushed] at hlast
      · rename_i hflushed
        rwa [hflushed] at hlast
      · rename_i hflushed
        rwa [hflushed] at hlast
    · exact hpruned

/-- A save keeps what its writes, listing, deletions and a flush keep. -/
theorem kept_save (h : BlobStore.KeptByDeletion P)
    (hput : ∀ row ∈ rows, ∀ s, P s → P (BlobStore.put row.1 row.2.toBlob s).2)
    (hflush : ∀ s, P s → P (BlobStore.flush s).2) {pruning : Bool} (hs : P s) :
    P (save defaultTtl now pruning rows report s).2 :=
  kept_save_of_prune hput (fun _ _ _ _ _ hwrote => kept_prune h hwrote) hflush hs

/-- What comes before the flush of a commit keeps what each call but a flush keeps. -/
theorem kept_unflushed (order : Visits String) (h : BlobStore.Kept P) {pruning : Bool} (hs : P s) :
    P (unflushed order defaultTtl now pruning rows report s).2 := by
  have hwrite : P (writeRows defaultTtl now rows report [] s).2 :=
    kept_writeRows (fun row _ => h.put row.1 row.2.toBlob) hs
  unfold unflushed
  split
  · rename_i heq
    rwa [heq] at hwrite
  · rename_i heq
    rwa [heq] at hwrite
  · rename_i heq
    rw [heq] at hwrite
    split
    · exact kept_pruneThrough order h.byDeletion hwrite
    · exact hwrite

/-- The same of what comes before the flush with the trimmed memory. -/
theorem kept_beforeFlush (entryOrder : Visits Entry) (blobOrder : Visits String)
    (h : BlobStore.Kept P) {pruning : Bool} {evicted : List String} {trimmed : Store} (hs : P s) :
    P (beforeFlush entryOrder blobOrder defaultTtl pruning now evicted trimmed s).2 :=
  kept_unflushed blobOrder h hs

/-- A commit keeps what each call and a flush keep. -/
theorem kept_commit (h : BlobStore.Kept P) (hflush : ∀ s, P s → P (BlobStore.flush s).2)
    {budget : Nat} {pruning : Bool} {store : Store} (hs : P s) :
    P (commit defaultTtl budget pruning now store s).2.2 := by
  unfold commit
  split
  · exact hs
  · exact kept_save h.byDeletion (fun row _ => h.put row.1 row.2.toBlob) hflush hs

variable [LawfulBlobs σ]

/-! ### Writing -/

/-- The blob that is written for a key: that of its fresh entry, unless the write has a fault. -/
def writtenBlob? (defaultTtl : Option UInt64) (now : Timestamp) (s : σ) (key : String)
    (entry : Option Entry) : Option String :=
  if fault s (.write key) = none then freshBlob? defaultTtl now entry else none

/-- Without an entry there is nothing to write. -/
@[simp] theorem writtenBlob?_none (s : σ) (key : String) :
    writtenBlob? defaultTtl now s key none = none := by
  simp [writtenBlob?, freshBlob?]

/-- A stale entry is not written. -/
theorem writtenBlob?_of_isStale {entry : Entry} (h : entry.isStale defaultTtl now = true) (s : σ)
    (key : String) : writtenBlob? defaultTtl now s key (some entry) = none := by
  simp [writtenBlob?, freshBlob?, Option.filter_some, h]

/-- A fresh entry is written unless its write has a fault. -/
theorem writtenBlob?_of_fresh {entry : Entry} (h : entry.isStale defaultTtl now = false) (s : σ)
    (key : String) : writtenBlob? defaultTtl now s key (some entry) =
      if fault s (.write key) = none then some entry.toBlob else none := by
  simp [writtenBlob?, freshBlob?, Option.filter_some, h]

/-- What is written depends on the faults alone. -/
theorem writtenBlob?_congr (h : fault next = fault s) (key : String) (entry : Option Entry) :
    writtenBlob? defaultTtl now next key entry = writtenBlob? defaultTtl now s key entry := by
  unfold writtenBlob?
  rw [h]

/-- Writing the first entry leaves the others to be written. -/
theorem writeRows_cons {key : String} {entry : Entry}
    (h : writeRows defaultTtl now ((key, entry) :: rows) report written s =
      (.done (answer, kept), next)) :
    ∃ report' s', writeRows defaultTtl now rows report'
        (if (writtenBlob? defaultTtl now s key (some entry)).isSome then key :: written
          else written) s' = (.done (answer, kept), next) ∧
      fault s' = fault s ∧
      ∀ other, (contents s').find? other =
        if other = key then
          (writtenBlob? defaultTtl now s key (some entry)).or ((contents s).find? key)
        else (contents s).find? other := by
  unfold writeRows at h
  split at h
  · cases h
  · rename_i read hclock
    obtain ⟨-, rfl⟩ := readClock_eq_ok_iff.mp hclock
    split at h
    · rename_i hstale
      rw [writtenBlob?_of_isStale hstale]
      refine ⟨_, s, h, rfl, fun other => ?_⟩
      split
      · rename_i hother
        rw [hother, Option.none_or]
      · rfl
    · rename_i hstale
      have hfresh : entry.isStale defaultTtl now = false := by simpa using hstale
      have hmeets := put_meets key entry.toBlob s
      have hlookup := find?_contents_put key entry.toBlob s
      have hkeep := fault_put key entry.toBlob s
      rw [writtenBlob?_of_fresh hfresh]
      split at h
      · rename_i hput
        rw [hput] at hmeets hlookup hkeep
        have hfault := Outcome.fault_of_done hmeets
        rw [if_pos hfault]
        refine ⟨_, _, h, hkeep, fun other => ?_⟩
        rw [hlookup, Option.some_or]
        simp only [hfault, and_true]
      · rename_i hput
        rw [hput] at hmeets hlookup hkeep
        have hfault := Outcome.fault_of_failed hmeets
        have hne : fault s (.write key) ≠ none := by rw [hfault]; exact fun h => by cases h
        rw [if_neg hne]
        refine ⟨_, _, h, hkeep, fun other => ?_⟩
        rw [hlookup, if_neg (fun h => hne h.2), Option.none_or]
        split
        · rename_i hother
          rw [hother]
        · rfl
      · cases h

/-- Writing entries of different keys writes the blob of each one that is fresh, and answers the
keys of these. -/
theorem writeRows_done (hkeys : (rows.map Prod.fst).Nodup)
    (h : writeRows defaultTtl now rows report written s = (.done (answer, kept), next)) :
    (∀ key, key ∈ kept ↔ key ∈ written ∨
      (writtenBlob? defaultTtl now s key (Rows.find? key rows)).isSome = true) ∧
    ∀ key, (contents next).find? key =
      (writtenBlob? defaultTtl now s key (Rows.find? key rows)).or
        ((contents s).find? key) := by
  induction rows generalizing report written s with
  | nil =>
    cases h
    exact ⟨fun key => by simp [Rows.find?], fun key => by simp [Rows.find?]⟩
  | cons row rest ih =>
    obtain ⟨first, entry⟩ := row
    obtain ⟨hfirst, hrest⟩ := List.nodup_cons.mp hkeys
    have hnone := Rows.find?_eq_none_of_not_mem hfirst
    obtain ⟨report', s', hlater, hkeep, hlookup⟩ := writeRows_cons h
    obtain ⟨hkept, hfind⟩ := ih hrest hlater
    refine ⟨fun key => ?_, fun key => ?_⟩
    · rw [hkept, writtenBlob?_congr hkeep]
      by_cases hkey : key = first
      · subst hkey
        rw [hnone, Rows.find?_cons_self, writtenBlob?_none]
        cases writtenBlob? defaultTtl now s key (some entry) <;> simp
      · rw [Rows.find?_cons_of_ne hkey]
        cases writtenBlob? defaultTtl now s first (some entry) <;> simp [hkey]
    · rw [hfind, writtenBlob?_congr hkeep, hlookup]
      by_cases hkey : key = first
      · subst hkey
        rw [hnone, Rows.find?_cons_self, writtenBlob?_none, if_pos rfl, Option.none_or]
      · rw [Rows.find?_cons_of_ne hkey, if_neg hkey]

/-- Writing entries keeps the faults. -/
theorem fault_writeRows
    (h : writeRows defaultTtl now rows report written s = (.done (answer, kept), next)) :
    fault next = fault s := by
  have hkept : fault (writeRows defaultTtl now rows report written s).2 = fault s :=
    kept_writeRows (fun row _ => (kept_fault (fault s)).put row.1 row.2.toBlob) rfl
  rwa [h] at hkept

omit [LawfulBlobs σ] in
/-- Writing entries never fails as a whole. -/
theorem writeRows_ne_failed {e : CacheError} :
    (writeRows defaultTtl now rows report written s).1 ≠ .failed e := by
  induction rows generalizing report written s with
  | nil => exact fun h => by cases h
  | cons row rest ih =>
    obtain ⟨key, entry⟩ := row
    unfold writeRows
    split
    · exact fun h => by cases h
    · rename_i read hclock
      obtain ⟨-, rfl⟩ := readClock_eq_ok_iff.mp hclock
      split
      · exact ih
      · split
        · exact ih
        · exact ih
        · exact fun h => by cases h

/-! ### Deleting -/

/-- Deleting blobs deletes each one whose deletion has no fault. -/
theorem removeKeys_done (h : removeKeys keys report s = (.done answer, next)) (key : String) :
    (contents next).find? key =
      if key ∈ keys ∧ fault s (.delete key) = none then none else (contents s).find? key := by
  induction keys generalizing report s with
  | nil =>
    cases h
    simp
  | cons first rest ih =>
    have hlookup := find?_contents_remove first s key
    have hkeep := fault_remove first s
    have hstep : ∃ report' s', removeKeys rest report' s' = (.done answer, next) ∧
        fault s' = fault s ∧ (contents s').find? key =
          if key = first ∧ fault s (.delete first) = none then none
          else (contents s).find? key := by
      unfold removeKeys at h
      split at h
      · rename_i hremove
        rw [hremove] at hlookup hkeep
        exact ⟨_, _, h, hkeep, hlookup⟩
      · rename_i hremove
        rw [hremove] at hlookup hkeep
        exact ⟨_, _, h, hkeep, hlookup⟩
      · cases h
    obtain ⟨report', s', hlater, hsame, hfirst⟩ := hstep
    rw [ih hlater, hsame, hfirst]
    by_cases hkey : key = first
    · subst hkey
      by_cases hfault : fault s (.delete key) = none <;> simp [hfault]
    · simp [hkey]

omit [LawfulBlobs σ] in
/-- Deleting blobs never fails as a whole. -/
theorem removeKeys_ne_failed {e : CacheError} : (removeKeys keys report s).1 ≠ .failed e := by
  induction keys generalizing report s with
  | nil => exact fun h => by cases h
  | cons first rest ih =>
    unfold removeKeys
    split
    · exact ih
    · exact ih
    · exact fun h => by cases h

/-- Whether pruning deletes the blob of a key that was not written. -/
def Prunes (s : σ) (key : String) : Prop :=
  fault s .list = none ∧ fault s (.delete key) = none

instance (s : σ) (key : String) : Decidable (Prunes s key) :=
  inferInstanceAs (Decidable (_ ∧ _))

/-- Pruning that is not abandoned deletes the blobs of the other keys. -/
theorem pruneThrough_answers {order : Visits String}
    (h : ∀ why, (pruneThrough order written report s).1 ≠ .abandoned why) (key : String) :
    (contents (pruneThrough order written report s).2).find? key =
      if Prunes s key ∧ key ∉ written then none else (contents s).find? key := by
  have hmeets := getAll_meets s
  have hcontents := contents_getAll s
  have hkeep := fault_getAll s
  unfold pruneThrough at h ⊢
  split
  · rename_i hlist
    rw [hlist] at hmeets hcontents
    have hfault := Outcome.fault_of_failed hmeets
    simp [Prunes, hfault, hcontents]
  · rename_i why _ hlist
    rw [hlist] at h
    exact absurd rfl (h why)
  · rename_i persisted listed hlist
    rw [hlist] at hmeets hcontents hkeep h
    have hfault := Outcome.fault_of_done hmeets
    rw [hfault] at hmeets
    cases hmeets
    simp only at h hcontents hkeep
    cases hremove : removeKeys
      (((order.rows (contents s)).map Prod.fst).filter fun key => !written.contains key) report
      listed with
    | mk outcome last =>
      rw [hremove] at h
      cases outcome with
      | failed e => exact absurd (congrArg Prod.fst hremove) removeKeys_ne_failed
      | abandoned why => exact absurd rfl (h why)
      | done answer =>
        rw [removeKeys_done hremove, hcontents, hkeep]
        by_cases hwritten : key ∈ written
        · simp [hwritten]
        · cases hfind : (contents s).find? key with
          | none => simp
          | some blob =>
            have hmem : key ∈ (order.rows (contents s)).map Prod.fst := by
              rw [((order.perm (contents s)).map Prod.fst).mem_iff]
              exact Table.mem_keys_iff.mpr ⟨blob, hfind⟩
            have hunwritten : key ∈ ((order.rows (contents s)).map Prod.fst).filter
                fun key => !written.contains key :=
              List.mem_filter.mpr ⟨hmem, by simp [hwritten]⟩
            simp only [Prunes, hfault, hwritten, hunwritten, true_and, not_false_eq_true, and_true]

/-! ### Commits -/

variable {pruning : Bool} {entries : List (String × Entry)}

omit [LawfulBlobs σ] in
/-- A save that is done has written the entries, pruned if it was to, and flushed. -/
theorem save_done (h : save defaultTtl now pruning entries report s = (.done answer, next)) :
    ∃ counted kept wrote pruned,
      writeRows defaultTtl now entries report [] s = (.done (counted, kept), wrote) ∧
      (if pruning then prune kept counted wrote else (.done counted, wrote)) =
        (.done answer, pruned) ∧
      BlobStore.flush pruned = (.done (), next) := by
  unfold save at h
  split at h
  · cases h
  · cases h
  · rename_i counted kept wrote hwrite
    split at h
    · rename_i total pruned hprune
      split at h
      · rename_i hflush
        cases h
        exact ⟨counted, kept, wrote, pruned, hwrite, hprune, hflush⟩
      · cases h
      · cases h
    · rename_i hunfinished
      exact absurd h (hunfinished answer next)

omit [LawfulBlobs σ] in
/-- Writing entries leaves the count of the evicted ones. -/
theorem evicted_writeRows
    (h : writeRows defaultTtl now rows report written s = (.done (answer, kept), next)) :
    answer.evicted = report.evicted := by
  induction rows generalizing report written s with
  | nil =>
    cases h
    rfl
  | cons row rest ih =>
    obtain ⟨key, entry⟩ := row
    unfold writeRows at h
    split at h
    · cases h
    · rename_i read hclock
      obtain ⟨-, rfl⟩ := readClock_eq_ok_iff.mp hclock
      split at h
      · have hrest := ih h
        exact hrest
      · split at h
        · have hrest := ih h
          exact hrest
        · have hrest := ih h
          exact hrest
        · cases h

omit [LawfulBlobs σ] in
/-- Deleting blobs leaves the count of the evicted entries. -/
theorem evicted_removeKeys (h : removeKeys keys report s = (.done answer, next)) :
    answer.evicted = report.evicted := by
  induction keys generalizing report s with
  | nil =>
    cases h
    rfl
  | cons key rest ih =>
    unfold removeKeys at h
    split at h
    · have hrest := ih h
      exact hrest
    · have hrest := ih h
      exact hrest
    · cases h

omit [LawfulBlobs σ] in
/-- A save leaves the count of the evicted entries. -/
theorem evicted_save (h : save defaultTtl now pruning entries report s = (.done answer, next)) :
    answer.evicted = report.evicted := by
  obtain ⟨counted, kept, wrote, pruned, hwrite, hprune, -⟩ := save_done h
  rw [← evicted_writeRows hwrite]
  cases pruning with
  | false =>
    cases hprune
    rfl
  | true =>
    rw [if_pos rfl] at hprune
    unfold prune at hprune
    split at hprune
    · cases hprune
    · cases hprune
    · exact evicted_removeKeys hprune

/-- Pruning that is left out deletes nothing. -/
theorem pruneThrough_if_answers {order : Visits String}
    (h : ∀ why, (if pruning then pruneThrough order written report s else (.done report, s)).1 ≠
      .abandoned why) (key : String) :
    (contents (if pruning then pruneThrough order written report s else (.done report, s)).2).find?
        key =
      if pruning = true ∧ Prunes s key ∧ key ∉ written then none else (contents s).find? key := by
  cases pruning with
  | false => simp
  | true =>
    simp only [if_true, true_and] at h ⊢
    exact pruneThrough_answers h key

/-- Entries that are saved without being abandoned leave the blob of each fresh one, and the blobs
of the other keys are deleted with pruning. -/
theorem unflushed_answers {order : Visits String} (hkeys : (entries.map Prod.fst).Nodup)
    (h : ∀ why, (unflushed order defaultTtl now pruning entries report s).1 ≠ .abandoned why)
    (key : String) :
    (contents (unflushed order defaultTtl now pruning entries report s).2).find? key =
      (writtenBlob? defaultTtl now s key (Rows.find? key entries)).or
        (if pruning = true ∧ Prunes s key then none else (contents s).find? key) := by
  unfold unflushed at h ⊢
  cases hwrite : writeRows defaultTtl now entries report [] s with
  | mk outcome wrote =>
    rw [hwrite] at h
    cases outcome with
    | failed e => exact absurd (congrArg Prod.fst hwrite) writeRows_ne_failed
    | abandoned why => exact absurd rfl (h why)
    | done result =>
      obtain ⟨counted, kept⟩ := result
      obtain ⟨hkept, hfind⟩ := writeRows_done hkeys hwrite
      have hfaults := fault_writeRows hwrite
      have hprunes : Prunes wrote key ↔ Prunes s key := by
        simp only [Prunes, hfaults]
      have hmem := hkept key
      simp only at h ⊢
      rw [pruneThrough_if_answers h, hfind]
      cases hblob : writtenBlob? defaultTtl now s key (Rows.find? key entries) with
      | none => simp [hmem, hblob, hprunes]
      | some blob => simp [hmem, hblob]

/-- A flush writes and deletes nothing. -/
theorem contents_flushed (x : Outcome CommitReport × σ) :
    contents (flushed x).2 = contents x.2 := by
  obtain ⟨outcome, left⟩ := x
  cases outcome with
  | failed e => rfl
  | abandoned why => rfl
  | done report =>
    simp only [flushed]
    rw [← contents_flush left]
    cases BlobStore.flush left with
    | mk outcome last => cases outcome <;> rfl

omit [LawfulBlobs σ] in
/-- What comes before a flush that is not abandoned is not abandoned. -/
theorem unflushed_ne_abandoned {x : Outcome CommitReport × σ}
    (h : ∀ why, (flushed x).1 ≠ .abandoned why) (why : Abort) : x.1 ≠ .abandoned why := by
  obtain ⟨outcome, left⟩ := x
  rintro rfl
  exact h why rfl

/-- A commit that is not abandoned brings the store within its budget, writes the blob of each fresh
entry that is left, and deletes the blobs of the other keys if it prunes, in whatever order. -/
theorem commitThrough_answers {entryOrder : Visits Entry} {blobOrder : Visits String} {budget : Nat}
    {store trimmed : Store} {evicted : List String}
    (htrim : store.trim budget = some (evicted, trimmed))
    (h : ∀ why,
      (commitThrough entryOrder blobOrder defaultTtl budget pruning now store s).1 ≠ .abandoned why)
    (key : String) :
    (contents (commitThrough entryOrder blobOrder defaultTtl budget pruning now store s).2.2).find?
        key =
      (writtenBlob? defaultTtl now s key (trimmed.find? key)).or
        (if pruning = true ∧ Prunes s key then none else (contents s).find? key) := by
  have hfind : Rows.find? key (entryOrder.rows trimmed.entries) = trimmed.find? key :=
    (entryOrder.find?_rows trimmed.entries key).trans (Store.find?_entries trimmed key)
  unfold commitThrough at h ⊢
  rw [htrim] at h ⊢
  rw [← hfind, contents_flushed]
  exact unflushed_answers (entryOrder.keys_nodup trimmed.entries) (unflushed_ne_abandoned h) key

/-- A commit that is not abandoned brings the store within its budget, writes the blob of each fresh
entry that is left, and deletes the blobs of the other keys if it prunes. -/
theorem commit_answers {budget : Nat} {store trimmed : Store} {evicted : List String}
    (htrim : store.trim budget = some (evicted, trimmed))
    (h : ∀ why, (commit defaultTtl budget pruning now store s).1 ≠ .abandoned why)
    (key : String) :
    (contents (commit defaultTtl budget pruning now store s).2.2).find? key =
      (writtenBlob? defaultTtl now s key (trimmed.find? key)).or
        (if pruning = true ∧ Prunes s key then none else (contents s).find? key) := by
  rw [← commitThrough_ascending] at h ⊢
  exact commitThrough_answers htrim h key

end DurableCache.Gateway
