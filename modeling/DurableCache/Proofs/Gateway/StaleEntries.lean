import DurableCache.Proofs.Blobs.Refinement
import DurableCache.Proofs.Gateway.Commit

/-!
# Commits and stale entries

A commit passes stale entries over. So without some of the stale entries it makes the same calls on
the blob store, and its report differs in their number alone (`save_of_stale`), whatever faults the
blob store has.
-/

namespace DurableCache

/-- A report without the number of stale entries. -/
def CommitReport.uncounted (report : CommitReport) : CommitReport := { report with stale := 0 }

/-- Two reports are the same but for the number of stale entries. -/
theorem CommitReport.uncounted_eq_iff {report counted : CommitReport} :
    report.uncounted = counted.uncounted ↔ report.written = counted.written ∧
      report.evicted = counted.evicted ∧ report.removed = counted.removed ∧
      report.failed = counted.failed := by
  simp [uncounted]

namespace Gateway

variable {σ : Type} [BlobStore σ] {s : σ} {defaultTtl : Option UInt64} {now : Timestamp}
variable {report counted : CommitReport} {written keys : List String}
variable {rows : List (String × Entry)} {keep : String × Entry → Bool}

/-- What a commit answers but for the number of stale entries, and the blobs that it leaves. -/
def forgetting (x : Outcome CommitReport × σ) : Outcome CommitReport × σ :=
  x.map (Outcome.map CommitReport.uncounted) id

/-- The same for written entries, whose keys are answered as well. -/
def forgettingWritten (x : Outcome (CommitReport × List String) × σ) :
    Outcome (CommitReport × List String) × σ :=
  x.map (Outcome.map (Prod.map CommitReport.uncounted id)) id

/-- Writing entries without some of the stale ones writes the same blobs. -/
theorem writeRows_of_stale (hclock : now ≤ latestTime)
    (hkeep : ∀ row ∈ rows, keep row = false → row.2.isStale defaultTtl now = true)
    (hreport : report.uncounted = counted.uncounted) :
    forgettingWritten (writeRows defaultTtl now (rows.filter keep) report written s) =
      forgettingWritten (writeRows defaultTtl now rows counted written s) := by
  induction rows generalizing report counted written s with
  | nil => simp [writeRows, forgettingWritten, Outcome.map, hreport]
  | cons row rest ih =>
    obtain ⟨hfirst, hrest⟩ := List.forall_mem_cons.mp hkeep
    obtain ⟨key, entry⟩ := row
    have hread : readClock now = .ok now := readClock_eq_ok_iff.mpr ⟨hclock, rfl⟩
    obtain ⟨hwrote, hevicted, hremoved, hfailed⟩ := CommitReport.uncounted_eq_iff.mp hreport
    cases hstale : entry.isStale defaultTtl now with
    | true =>
      have hall : writeRows defaultTtl now ((key, entry) :: rest) counted written s =
          writeRows defaultTtl now rest { counted with stale := counted.stale + 1 } written s := by
        simp only [writeRows, hread, hstale, if_true]
      rw [hall]
      cases hkept : keep (key, entry) with
      | true =>
        have hsome :
            writeRows defaultTtl now (((key, entry) :: rest).filter keep) report written s =
              writeRows defaultTtl now (rest.filter keep)
                { report with stale := report.stale + 1 } written s := by
          simp only [List.filter_cons, hkept, if_true, writeRows, hread, hstale]
        rw [hsome]
        exact ih hrest hreport
      | false =>
        rw [List.filter_cons, hkept, if_neg Bool.false_ne_true]
        exact ih hrest hreport
    | false =>
      have hkept : keep (key, entry) = true := by
        by_contra hnot
        have hdropped := hfirst (by simpa using hnot)
        rw [hstale] at hdropped
        cases hdropped
      rw [List.filter_cons, hkept, if_pos rfl]
      simp only [writeRows, hread, hstale, Bool.false_eq_true, if_false]
      cases BlobStore.put key entry.toBlob s with
      | mk outcome wrote =>
        cases outcome with
        | abandoned why => rfl
        | done _ =>
          apply ih hrest
          simp [CommitReport.uncounted, hwrote, hevicted, hremoved, hfailed]
        | failed err =>
          apply ih hrest
          simp [CommitReport.uncounted, hwrote, hevicted, hremoved, hfailed]

/-- Deleting blobs does not depend on the number of stale entries. -/
theorem removeKeys_uncounted (hreport : report.uncounted = counted.uncounted) :
    forgetting (removeKeys keys report s) = forgetting (removeKeys keys counted s) := by
  induction keys generalizing report counted s with
  | nil => simp [removeKeys, forgetting, Outcome.map, hreport]
  | cons key rest ih =>
    obtain ⟨hwrote, hevicted, hremoved, hfailed⟩ := CommitReport.uncounted_eq_iff.mp hreport
    simp only [removeKeys]
    cases BlobStore.remove key s with
    | mk outcome removed =>
      cases outcome with
      | abandoned why => rfl
      | done _ =>
        apply ih
        simp [CommitReport.uncounted, hwrote, hevicted, hremoved, hfailed]
      | failed err =>
        apply ih
        simp [CommitReport.uncounted, hwrote, hevicted, hremoved, hfailed]

/-- Pruning does not depend on the number of stale entries. -/
theorem prune_uncounted (hreport : report.uncounted = counted.uncounted) :
    forgetting (prune written report s) = forgetting (prune written counted s) := by
  unfold prune
  cases BlobStore.getAll s with
  | mk outcome listed =>
    cases outcome with
    | done persisted => exact removeKeys_uncounted hreport
    | failed err => rfl
    | abandoned why => rfl

/-- The flush does not depend on the number of stale entries. -/
theorem flushed_uncounted {x y : Outcome CommitReport × σ} (h : forgetting x = forgetting y) :
    forgetting (flushed x) = forgetting (flushed y) := by
  obtain ⟨x, blobs⟩ := x
  obtain ⟨y, others⟩ := y
  obtain ⟨houtcome, hblobs⟩ := Prod.mk.inj h
  simp only [id_eq] at hblobs
  subst hblobs
  cases x <;> cases y <;> simp only [Outcome.map, Outcome.done.injEq, reduceCtorEq] at houtcome
  · simp only [flushed]
    cases BlobStore.flush blobs with
    | mk outcome left => cases outcome <;> simp [forgetting, Outcome.map, houtcome]
  · exact h
  · exact h

/-- Saving entries without some of the stale ones makes the same calls on the blob store, and the
report differs in their number alone. -/
theorem save_of_stale {pruning : Bool} (hclock : now ≤ latestTime)
    (hkeep : ∀ row ∈ rows, keep row = false → row.2.isStale defaultTtl now = true) :
    forgetting (save defaultTtl now pruning (rows.filter keep) report s) =
      forgetting (save defaultTtl now pruning rows report s) := by
  have hwritten : forgettingWritten (writeRows defaultTtl now (rows.filter keep) report [] s) =
      forgettingWritten (writeRows defaultTtl now rows report [] s) :=
    writeRows_of_stale hclock hkeep rfl
  unfold save
  cases hsome : writeRows defaultTtl now (rows.filter keep) report [] s with
  | mk x blobs =>
    cases hall : writeRows defaultTtl now rows report [] s with
    | mk y others =>
      rw [hsome, hall] at hwritten
      obtain ⟨houtcome, hblobs⟩ := Prod.mk.inj hwritten
      simp only [id_eq] at hblobs
      subst hblobs
      cases x <;> cases y <;> simp only [Outcome.map, Outcome.done.injEq, Outcome.failed.injEq,
        Outcome.abandoned.injEq, reduceCtorEq] at houtcome
      · rename_i x y
        obtain ⟨hreport, hkeys⟩ := Prod.mk.inj houtcome
        simp only [id_eq] at hkeys
        show forgetting (flushed (if pruning then prune x.2 x.1 blobs else (.done x.1, blobs))) =
          forgetting (flushed (if pruning then prune y.2 y.1 blobs else (.done y.1, blobs)))
        apply flushed_uncounted
        split
        · rw [hkeys]
          exact prune_uncounted hreport
        · simp [forgetting, Outcome.map, hreport]
      · rw [houtcome]
      · rw [houtcome]

/-- Saving any entry at a time that the clock cannot show is abandoned. -/
theorem save_of_clockOverrun {pruning : Bool} (hclock : ¬ now ≤ latestTime) (hrows : rows ≠ []) :
    (save defaultTtl now pruning rows report s).1 = .abandoned .clockOverrun := by
  cases rows with
  | nil => exact absurd rfl hrows
  | cons row rest => simp [save, writeRows, readClock, hclock]

end Gateway

end DurableCache
