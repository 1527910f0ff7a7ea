import DurableCache.Proofs.Blobs.Refinement
import DurableCache.Proofs.Gateway.Load
import DurableCache.Proofs.Store.Sound

/-!
# Loads that break down

Once the blobs are listed, the calls that a load makes on the blob store are known: the deletions
of the blobs beyond the retention, and a flush behind them. A load breaks down exactly if the host
does in one of these calls or while it lists the blobs, if the clock has run past its last time, or
if the sizes of the staged entries do not fit (`load_ends_iff`). It does not break down because a
call fails, and nothing at all is required of the blob store.
-/

namespace DurableCache

/-- The bytes of a list of entries fit into a word beside others. -/
def Estimator.Fits (estimator : Estimator) (taken : Nat) (rows : List (String × Entry)) : Prop :=
  (Store.sumSizes? estimator rows).any (fun bytes => taken + bytes < wordLimit) = true

/-- One more entry fits if there is room for it and then for the others. -/
theorem Estimator.fits_cons {estimator : Estimator} {taken : Nat} {row : String × Entry}
    {rest : List (String × Entry)} :
    estimator.Fits taken (row :: rest) ↔
      ∃ size, estimator.size? row.2 = some size ∧ taken + size < wordLimit ∧
        estimator.Fits (taken + size) rest := by
  unfold Fits
  rw [Store.sumSizes?]
  cases hsize : estimator.size? row.2 with
  | none => simp
  | some size =>
    cases Store.sumSizes? estimator rest with
    | none => simp
    | some others =>
      simp only [Option.any_some, decide_eq_true_eq, Option.some.injEq, exists_eq_left']
      omega

namespace Gateway

open BlobStore

variable {σ : Type} [BlobStore σ] {s : σ} {rules : LoadRules} {now : Timestamp}
variable {report : LoadReport} {store : Store} {key blob : String} {entry : Entry}
variable {rows : List (String × String)}

/-- The deletions that a load makes. -/
def deletions (rules : LoadRules) (now : Timestamp) (rows : List (String × String)) :
    List BlobCall :=
  (rows.filter fun row => expires rules now row.2).map fun row => .remove row.1

/-- The calls that a load makes once the blobs are listed. -/
def cleanup (rules : LoadRules) (now : Timestamp) (rows : List (String × String)) :
    List BlobCall :=
  if deletions rules now rows = [] then [] else deletions rules now rows ++ [.flush]

/-- The entries that a load stages. -/
def stagedEntries (rules : LoadRules) (now : Timestamp) (rows : List (String × String)) :
    List (String × Entry) :=
  rows.filterMap fun row => (loadedFrom? rules now (some row.2)).map (Prod.mk row.1)

/-- No call of a list breaks down. -/
def Bears (s : σ) (calls : List BlobCall) : Prop := ∀ answer ∈ answers s calls, answer.abort? = none

/-- A load comes to an end over a blob store: the host does not break down in a call that the load
makes, the clock can show the time, and the staged entries fit. If the blobs cannot be listed the
load makes no other call. -/
def Ends (rules : LoadRules) (now : Timestamp) (s : σ) : Prop :=
  match getAll s with
  | (.failed _, _) => True
  | (.abandoned _, _) => False
  | (.done persisted, listed) =>
    now ≤ latestTime ∧ Bears listed (cleanup rules now persisted.rows) ∧
      rules.estimator.Fits 0 (stagedEntries rules now persisted.rows)

/-! ### Loading blobs one by one -/

/-- A blob that is neither beyond the retention nor to be staged makes no difference. -/
theorem skips_of_not_loaded (key : String) (rows : List (String × String))
    (hexpires : expires rules now blob = false)
    (hloaded : loadedFrom? rules now (some blob) = none) :
    deletions rules now ((key, blob) :: rows) = deletions rules now rows ∧
      stagedEntries rules now ((key, blob) :: rows) = stagedEntries rules now rows := by
  constructor
  · simp [deletions, hexpires]
  · simp [stagedEntries, hloaded]

/-- A blob of an entry beyond the retention is deleted and not staged. -/
theorem deletes_of_expires (key : String) (rows : List (String × String))
    (hread : Entry.ofBlob? blob = .ok entry)
    (houtlived : outlived rules.retentionDays now entry = true) :
    deletions rules now ((key, blob) :: rows) = .remove key :: deletions rules now rows ∧
      stagedEntries rules now ((key, blob) :: rows) = stagedEntries rules now rows := by
  have hexpires : expires rules now blob = true := by simp [expires, hread, houtlived]
  have hloaded : loadedFrom? rules now (some blob) = none := by
    simp [loadedFrom?, hread, Except.toOption, houtlived]
  constructor
  · simp [deletions, hexpires]
  · simp [stagedEntries, hloaded]

/-- A blob of a fresh entry within the retention is staged and not deleted. -/
theorem stages_of_fresh (key : String) (rows : List (String × String))
    (hread : Entry.ofBlob? blob = .ok entry)
    (hwithin : outlived rules.retentionDays now entry = false)
    (hfresh : entry.isStale rules.defaultTtl now = false) :
    deletions rules now ((key, blob) :: rows) = deletions rules now rows ∧
      stagedEntries rules now ((key, blob) :: rows) =
        (key, entry) :: stagedEntries rules now rows := by
  have hexpires : expires rules now blob = false := by simp [expires, hread, hwithin]
  have hloaded : loadedFrom? rules now (some blob) = some entry := by
    simp [loadedFrom?, hread, Except.toOption, hwithin, hfresh]
  constructor
  · simp [deletions, hexpires]
  · simp [stagedEntries, hloaded]

/-- A put under a key that holds no entry succeeds exactly if there is room, and takes it. -/
theorem putIfNewer_of_free (estimator : Estimator) (entry : Entry)
    (hfree : store.find? key = none) :
    (∃ size, estimator.size? entry = some size ∧ store.total + size < wordLimit ∧
      ∃ written, store.putIfNewer estimator key entry = (.ok true, written) ∧
        written.total = store.total + size) ∨
    ((¬ ∃ size, estimator.size? entry = some size ∧ store.total + size < wordLimit) ∧
      ∃ written, store.putIfNewer estimator key entry = (.error .sizeOverflow, written)) := by
  have hslot : store.slots.find? key = none := by simpa [Store.find?] using hfree
  unfold Store.putIfNewer
  cases hsize : estimator.size? entry with
  | none => exact Or.inr ⟨by simp, _, rfl⟩
  | some size =>
    have hnewer : store.holdsNewer key entry = false := by simp [Store.holdsNewer, hfree]
    simp only [Store.insertIfNewer, hnewer, Bool.false_eq_true, if_false, Store.insert,
      Store.erase_of_find?_eq_none hslot, Store.mark]
    by_cases hroom : store.total + size < wordLimit
    · rw [if_pos hroom]
      exact Or.inl ⟨size, rfl, hroom, _, rfl, rfl⟩
    · rw [if_neg hroom]
      refine Or.inr ⟨?_, _, rfl⟩
      rintro ⟨other, hother, hfits⟩
      cases hother
      exact hroom hfits

/-- What loading blobs comes to: it ends exactly if the host bears the deletions and the sizes fit,
and then the deletions have been made and are counted. -/
def Settles (s : σ) (calls : List BlobCall) (fits : Prop) (expired : Nat)
    (x : Outcome LoadReport × Store × σ) : Prop :=
  (Bears s calls ∧ fits ∧ ∃ answer staged, answer.expired = expired + calls.length ∧
    x = (.done answer, staged, after s calls)) ∨
  (¬ (Bears s calls ∧ fits) ∧ ∃ why staged next, x = (.abandoned why, staged, next))

variable {calls : List BlobCall} {fits : Prop} {expired : Nat} {x : Outcome LoadReport × Store × σ}

/-- The host bears a deletion and then others if it bears each of them. -/
theorem bears_remove : Bears s (.remove key :: calls) ↔
    (BlobStore.remove key s).1.abort? = none ∧ Bears (BlobStore.remove key s).2 calls := by
  have hanswer : (perform s (.remove key)).1.abort? = (BlobStore.remove key s).1.abort? := by
    show (((BlobStore.remove key s).1).map _).abort? = _
    cases (BlobStore.remove key s).1 <;> rfl
  unfold Bears
  rw [answers, List.forall_mem_cons, hanswer]
  rfl

/-- A deletion that breaks down is the end of the load. -/
theorem settles_broken {why : Abort} (h : (BlobStore.remove key s).1 = .abandoned why)
    (staged : Store) (next : σ) :
    Settles s (.remove key :: calls) fits expired (.abandoned why, staged, next) := by
  refine Or.inr ⟨?_, why, staged, next, rfl⟩
  rintro ⟨hbears, -⟩
  obtain ⟨hborne, -⟩ := bears_remove.mp hbears
  rw [h] at hborne
  cases hborne

/-- A deletion that the host bears is counted, whether it fails or not. -/
theorem Settles.of_removed (hborne : (BlobStore.remove key s).1.abort? = none)
    (h : Settles (BlobStore.remove key s).2 calls fits (expired + 1) x) :
    Settles s (.remove key :: calls) fits expired x := by
  unfold Settles
  rw [bears_remove, and_iff_right hborne]
  rcases h with ⟨hbears, hfits, answer, staged, hcount, hx⟩ | hbroken
  · refine Or.inl ⟨hbears, hfits, answer, staged, ?_, hx⟩
    rw [hcount, List.length_cons]
    omega
  · exact Or.inr hbroken

/-- Loading blobs of different keys into a store without them settles in their deletions and in the
sizes of the staged entries. -/
theorem loadRows_settles (report : LoadReport) (store : Store) (s : σ)
    (hkeys : (rows.map Prod.fst).Nodup)
    (hfree : ∀ row ∈ rows, store.find? row.1 = none) (hroom : store.total < wordLimit) :
    Settles s (deletions rules now rows)
      (rules.estimator.Fits store.total (stagedEntries rules now rows)) report.expired
      (loadRows rules now rows report store s) := by
  induction rows generalizing report store s with
  | nil =>
    refine Or.inl ⟨?_, ?_, report, store, rfl, rfl⟩
    · intro answer hanswer
      cases hanswer
    · simpa [Estimator.Fits, stagedEntries, Store.sumSizes?] using hroom
  | cons row rest ih =>
    obtain ⟨first, blob⟩ := row
    obtain ⟨hfirst, hrest⟩ := List.nodup_cons.mp hkeys
    have hfree' (row : String × String) (hrow : row ∈ rest) : store.find? row.1 = none :=
      hfree row (List.mem_cons_of_mem _ hrow)
    rw [loadRows]
    cases hread : Entry.ofBlob? blob with
    | error why =>
      obtain ⟨hdeletions, hstaged⟩ := skips_of_not_loaded first rest
        (by simp [expires, hread]) (by simp [loadedFrom?, hread, Except.toOption] :
          loadedFrom? rules now (some blob) = none)
      rw [hdeletions, hstaged]
      exact ih { report with corrupt := report.corrupt + 1 } store s hrest hfree' hroom
    | ok entry =>
      simp only
      cases houtlived : outlived rules.retentionDays now entry with
      | true =>
        obtain ⟨hdeletions, hstaged⟩ := deletes_of_expires first rest hread houtlived
        rw [hdeletions, hstaged, if_pos rfl]
        have hlater := ih { report with expired := report.expired + 1 } store
          (BlobStore.remove first s).2 hrest hfree' hroom
        cases hremove : BlobStore.remove first s with
        | mk outcome removed =>
          rw [hremove] at hlater
          cases outcome with
          | abandoned why => exact settles_broken (by rw [hremove]) store removed
          | done _ => exact .of_removed (by rw [hremove]; rfl) (by rw [hremove]; exact hlater)
          | failed err => exact .of_removed (by rw [hremove]; rfl) (by rw [hremove]; exact hlater)
      | false =>
        rw [if_neg Bool.false_ne_true]
        cases hstale : entry.isStale rules.defaultTtl now with
        | true =>
          obtain ⟨hdeletions, hstaged⟩ := skips_of_not_loaded first rest
            (by simp [expires, hread, houtlived])
            (by simp [loadedFrom?, hread, Except.toOption, hstale] :
              loadedFrom? rules now (some blob) = none)
          rw [hdeletions, hstaged, if_pos rfl]
          exact ih { report with stale := report.stale + 1 } store s hrest hfree' hroom
        | false =>
          obtain ⟨hdeletions, hstaged⟩ := stages_of_fresh first rest hread houtlived hstale
          rw [hdeletions, hstaged, Estimator.fits_cons, if_neg Bool.false_ne_true]
          have hhead : store.find? first = none := hfree (first, blob) List.mem_cons_self
          rcases putIfNewer_of_free rules.estimator entry hhead with
            ⟨size, hsize, hfits, written, hput, htotal⟩ | ⟨hnone, written, hput⟩
          · have hothers (row : String × String) (hrow : row ∈ rest) :
                written.find? row.1 = none := by
              have hne : row.1 ≠ first := by
                intro heq
                exact hfirst (List.mem_map.mpr ⟨row, hrow, heq⟩)
              rw [find?_putIfNewer hhead hput, if_neg hne]
              exact hfree' row hrow
            have hlater := ih { report with loaded := report.loaded + 1 } written s hrest hothers
              (by rw [htotal]; exact hfits)
            rw [hput]
            simpa [Settles, hsize, hfits, htotal] using hlater
          · rw [hput]
            refine Or.inr ⟨?_, _, _, _, rfl⟩
            rintro ⟨-, size, hsize, hfits, -⟩
            exact hnone ⟨size, hsize, hfits⟩

/-- The host bears the calls of a load if it bears the deletions and the flush behind them. -/
theorem bears_cleanup : Bears s (cleanup rules now rows) ↔
    Bears s (deletions rules now rows) ∧ (deletions rules now rows ≠ [] →
      (BlobStore.flush (after s (deletions rules now rows))).1.abort? = none) := by
  unfold cleanup
  by_cases hnone : deletions rules now rows = []
  · simp [hnone]
  · have hanswer (t : σ) : (perform t .flush).1.abort? = (BlobStore.flush t).1.abort? := by
      show (((BlobStore.flush t).1).map _).abort? = _
      cases (BlobStore.flush t).1 <;> rfl
    unfold Bears
    rw [if_neg hnone, answers_append, List.forall_mem_append, answers, answers,
      List.forall_mem_singleton, hanswer]
    simp [hnone]

/-- A load that is not abandoned comes to an end, and only such a load does. -/
theorem load_ends_iff (rules : LoadRules) (now : Timestamp) (s : σ) :
    (load rules now .empty s).1.abort? = none ↔ Ends rules now s := by
  unfold load Ends
  cases hlist : getAll s with
  | mk outcome listed =>
    cases outcome with
    | failed err => simp [Outcome.abort?]
    | abandoned why => simp [Outcome.abort?]
    | done persisted =>
      by_cases hclock : now ≤ latestTime
      · have hroom : Store.empty.total < wordLimit := by decide
        have hsettles : Settles listed (deletions rules now persisted.rows)
            (rules.estimator.Fits 0 (stagedEntries rules now persisted.rows)) 0
            (loadRows rules now persisted.rows ⟨0, 0, 0, 0⟩ .empty listed) :=
          loadRows_settles ⟨0, 0, 0, 0⟩ .empty listed persisted.keys_nodup
            (fun row _ => Store.find?_empty row.1) hroom
        simp only [readClock_eq_ok_iff.mpr ⟨hclock, rfl⟩, hclock, true_and, bears_cleanup]
        rcases hsettles with ⟨hbears, hfits, answer, staged, hcount, hrows⟩ |
          ⟨hnot, why, staged, next, hrows⟩
        · have hexpired : answer.expired = 0 ↔ deletions rules now persisted.rows = [] := by
            rw [hcount, Nat.zero_add, List.length_eq_zero_iff]
          simp only [hrows, hexpired, hbears, hfits, true_and, and_true]
          by_cases hnone : deletions rules now persisted.rows = []
          · simp [hnone, Outcome.abort?]
          · rw [if_neg hnone]
            cases hflush : BlobStore.flush (after listed (deletions rules now persisted.rows)) with
            | mk outcome flushed => cases outcome <;> simp [hnone, Outcome.abort?]
        · simp only [hrows, Outcome.abort?, reduceCtorEq, false_iff]
          rintro ⟨⟨hbears, -⟩, hfits⟩
          exact hnot ⟨hbears, hfits⟩
      · simp [readClock, hclock, Outcome.abort?]

end Gateway

end DurableCache
