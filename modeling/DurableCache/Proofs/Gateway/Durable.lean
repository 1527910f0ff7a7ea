import DurableCache.Proofs.Blobs.Durable
import DurableCache.Proofs.Gateway.Commit
import DurableCache.Proofs.Gateway.Load
import DurableCache.Proofs.Json.RoundTrip

/-!
# Commits and loads of durable blobs

A commit that is done leaves the blobs of exactly the fresh entries, and durable. Once a flush has
saved something, a load comes to its end and brings in what is fresh and within the retention.
-/

namespace DurableCache.Gateway

open LawfulBlobs DurableBlobs

variable {σ : Type} [BlobStore σ] [LawfulBlobs σ] [DurableBlobs σ]
variable {s next : σ} {defaultTtl : Option UInt64} {rules : LoadRules} {now : Timestamp}

/-! ### Commits -/

variable {report answer : CommitReport} {store trimmed after : Store} {budget : Nat}
variable {evicted kept : List String}

/-- Writing entries leaves something to save, unless none of them is fresh. -/
theorem writeRows_pending {rows : List (String × Entry)} (hkeys : (rows.map Prod.fst).Nodup)
    (h : writeRows defaultTtl now rows report [] s = (.done (answer, kept), next)) :
    Pending next ∨ ∀ key, freshBlob? defaultTtl now (Rows.find? key rows) = none := by
  rcases writeRows_of_put kept_pending pending_put h with rfl | hpending
  · right
    intro key
    obtain ⟨hkept, -⟩ := writeRows_done hkeys h
    simpa [writtenBlob?, faultless] using hkept key
  · exact Or.inl hpending

/-- What comes before the flush of a commit leaves something to save, unless none of the entries is
fresh. -/
theorem beforeFlush_pending {entryOrder : Visits Entry} {blobOrder : Visits String}
    {pruning : Bool}
    (h : beforeFlush entryOrder blobOrder defaultTtl pruning now evicted trimmed s =
      (.done answer, next)) :
    Pending next ∨ ∀ key, freshBlob? defaultTtl now (trimmed.find? key) = none := by
  have hkeys := entryOrder.keys_nodup trimmed.entries
  unfold beforeFlush unflushed at h
  split at h
  · cases h
  · cases h
  · rename_i counted written wrote hwrite
    rcases writeRows_pending hkeys hwrite with hpending | hnone
    · left
      cases pruning with
      | false =>
        cases h
        exact hpending
      | true =>
        have hpruned : Pending (pruneThrough blobOrder written counted wrote).2 :=
          kept_pruneThrough blobOrder kept_pending.byDeletion hpending
        rw [if_pos rfl] at h
        rwa [h] at hpruned
    · refine Or.inr fun key => ?_
      rw [← Store.find?_entries, ← entryOrder.find?_rows]
      exact hnone key

/-- A save that is done is durable. If it has written anything, its flush has saved it. -/
theorem save_durable {pruning : Bool} (hopened : Opened s)
    (h : save defaultTtl now pruning store.entries.rows report s = (.done answer, next)) :
    Opened next ∧ Saved next ∧
      (Proven next ∨ ∀ key, freshBlob? defaultTtl now (store.find? key) = none) := by
  obtain ⟨counted, kept, wrote, pruned, hwrite, hprune, hflush⟩ := save_done h
  have hwrote : Opened (writeRows defaultTtl now store.entries.rows report [] s).2 :=
    kept_writeRows (fun row _ => kept_opened.put row.1 row.2.toBlob) hopened
  rw [hwrite] at hwrote
  have hpruned :
      Opened (if pruning then prune kept counted wrote else (.done counted, wrote)).2 :=
    kept_prune_if kept_opened.byDeletion hwrote
  rw [hprune] at hpruned
  have hdone : (BlobStore.flush pruned).1 = .done () := by rw [hflush]
  have hopen := opened_flush hpruned
  have hsaved := saved_flush hpruned hdone
  rw [hflush] at hopen hsaved
  refine ⟨hopen, hsaved, ?_⟩
  rcases writeRows_pending store.entries.keys_nodup hwrite with hpending | hnone
  · left
    have hstill :
        Pending (if pruning then prune kept counted wrote else (.done counted, wrote)).2 :=
      kept_prune_if kept_pending.byDeletion hpending
    rw [hprune] at hstill
    have hproven := proven_flush hpruned hstill hdone
    rwa [hflush] at hproven
  · refine Or.inr fun key => ?_
    rw [← Store.find?_entries]
    exact hnone key

/-- A commit that is done is durable. -/
theorem commit_durable {pruning : Bool} (hopened : Opened s)
    (h : commit defaultTtl budget pruning now store s = (.done report, after, next)) :
    Opened next ∧ Saved next := by
  unfold commit at h
  split at h
  · cases h
  · obtain ⟨hsave, hrest⟩ := Prod.mk.inj h
    obtain ⟨hopen, hsaved, -⟩ := save_durable hopened (Prod.ext hsave (Prod.mk.inj hrest).2)
    exact ⟨hopen, hsaved⟩

/-- A pruning commit that is done leaves durable the blobs of the fresh entries and no others. If
there are any, a flush has saved them. -/
theorem commit_done (htrim : store.trim budget = some (evicted, trimmed)) (hopened : Opened s)
    (h : commit defaultTtl budget true now store s = (.done report, after, next)) :
    after = trimmed ∧ Opened next ∧ Saved next ∧
      (∀ key, (contents next).find? key = freshBlob? defaultTtl now (trimmed.find? key)) ∧
      (Proven next ∨ ∀ key, (contents next).find? key = none) := by
  have hanswered : ∀ why, (commit defaultTtl budget true now store s).1 ≠ .abandoned why := by
    intro why
    rw [h]
    exact fun h => by cases h
  have hlookup (key : String) :
      (contents next).find? key = freshBlob? defaultTtl now (trimmed.find? key) := by
    have hcommit := commit_answers htrim hanswered key
    rw [h] at hcommit
    simp only [writtenBlob?, Prunes, faultless, if_true, and_self] at hcommit
    rw [hcommit, Option.or_none]
  unfold commit at h
  rw [htrim] at h
  obtain ⟨hsave, hrest⟩ := Prod.mk.inj h
  obtain ⟨rfl, hnext⟩ := Prod.mk.inj hrest
  obtain ⟨hopen, hsaved, hproven⟩ := save_durable hopened (Prod.ext hsave hnext)
  refine ⟨rfl, hopen, hsaved, hlookup, ?_⟩
  rcases hproven with hproven | hnone
  · exact Or.inl hproven
  · exact Or.inr fun key => (hlookup key).trans (hnone key)

/-! ### Loads -/

variable {loaded : LoadReport} {staged : Store}

/-- Loading all blobs brings in the entries that are within the retention and fresh, and keeps the
blobs that are within the retention. -/
theorem loadRows_contents
    (h : loadRows rules now (contents s).rows ⟨0, 0, 0, 0⟩ .empty s =
      (.done loaded, staged, next)) :
    (∀ key, staged.find? key = loadedFrom? rules now ((contents s).find? key)) ∧
      ∀ key, (contents next).find? key =
        ((contents s).find? key).filter fun blob => !expires rules now blob := by
  obtain ⟨hlookup, hstaged⟩ := loadRows_done (contents s).keys_nodup (fun _ _ => rfl) h
  have hrow (key : String) : Rows.find? key (contents s).rows = (contents s).find? key := rfl
  constructor
  · intro key
    rw [hstaged, hrow, Store.find?_empty, Option.or_none]
  · intro key
    rw [hlookup, hrow]
    simp only [faultless, and_true]
    cases (contents s).find? key with
    | none => rfl
    | some blob => cases hexpires : expires rules now blob <;> simp [Option.filter_some, hexpires]

/-- Loading all blobs leaves a flush that works if any blob was beyond the retention. -/
theorem loadRows_proven (hproven : Proven s ∨ ∀ key, (contents s).find? key = none)
    (h : loadRows rules now (contents s).rows ⟨0, 0, 0, 0⟩ .empty s =
      (.done loaded, staged, next)) (hexpired : loaded.expired ≠ 0) : Proven next := by
  rcases hproven with hproven | hnone
  · have hkept : Proven (loadRows rules now (contents s).rows ⟨0, 0, 0, 0⟩ .empty s).2.2 :=
      kept_loadRows kept_proven.byDeletion hproven
    rw [h] at hkept
    exact hkept
  · have hempty : contents s = ∅ := Table.ext_find? hnone
    rw [hempty] at h
    cases h
    exact absurd rfl hexpired

/-- A load over a blob store that a flush has saved, or that holds nothing, brings in every
persisted entry that is within the retention and fresh, unless sizes do not fit. -/
theorem load_proven (hclock : now ≤ latestTime)
    (hproven : Proven s ∨ ∀ key, (contents s).find? key = none)
    (hfits : (load rules now .empty s).1 ≠ .abandoned .sizeOverflow) :
    ∃ answer staged loaded, load rules now .empty s = (.done answer, staged, loaded) ∧
      (∀ key, staged.find? key = loadedFrom? rules now ((contents s).find? key)) ∧
      ∀ key, (contents loaded).find? key =
        ((contents s).find? key).filter fun blob => !expires rules now blob := by
  have hmeets := getAll_meets s
  have hcontents := contents_getAll s
  have hlisted := kept_proven.getAll s
  rw [faultless] at hmeets
  have hread : readClock now = .ok now := readClock_eq_ok_iff.mpr ⟨hclock, rfl⟩
  unfold load at hfits ⊢
  cases hlist : BlobStore.getAll s with
  | mk outcome listed =>
    rw [hlist] at hmeets hcontents hlisted
    cases hmeets
    simp only [hlist, hread] at hfits hcontents hlisted ⊢
    rw [← hcontents] at hfits hproven ⊢
    have hrowsFit : (loadRows rules now (contents listed).rows ⟨0, 0, 0, 0⟩ .empty listed).1 ≠
        .abandoned .sizeOverflow := by
      intro habandoned
      apply hfits
      split
      · rename_i hrows
        rw [hrows] at habandoned
        cases habandoned
      · exact habandoned
    obtain ⟨answer, staged, loaded, hrows⟩ := loadRows_faultless (faultless listed) hrowsFit
    obtain ⟨hbrought, hloaded⟩ := loadRows_contents hrows
    simp only [hrows]
    by_cases hexpired : answer.expired = 0
    · rw [if_pos hexpired]
      exact ⟨answer, staged, loaded, rfl, hbrought, hloaded⟩
    · rw [if_neg hexpired]
      have hdone := flush_of_proven (loadRows_proven (hproven.imp_left hlisted) hrows hexpired)
      have hflush := contents_flush loaded
      cases hflushed : BlobStore.flush loaded with
      | mk outcome saved =>
        rw [hflushed] at hdone hflush
        cases hdone
        refine ⟨answer, staged, saved, rfl, hbrought, fun key => ?_⟩
        rw [← hloaded]
        exact congrArg (fun blobs => Table.find? blobs key) hflush

/-! ### Written blobs -/

/-- A load brings back the entry of a written blob if it is within the retention and fresh. -/
theorem loadedFrom?_freshBlob? {saved loaded : Timestamp}
    {held : Option Entry} {entry : Entry} :
    loadedFrom? rules loaded (freshBlob? rules.defaultTtl saved held) = some entry ↔
      held = some entry ∧ entry.isStale rules.defaultTtl saved = false ∧
        outlived rules.retentionDays loaded entry = false ∧
        entry.isStale rules.defaultTtl loaded = false := by
  rw [loadedFrom?_eq_some_iff]
  constructor
  · rintro ⟨⟨text, htext, hread⟩, hwithin, hfresh⟩
    obtain ⟨e, hheld, hsaved, rfl⟩ := freshBlob?_eq_some_iff.mp htext
    rw [Entry.ofBlob?_toBlob] at hread
    cases hread
    exact ⟨hheld, hsaved, hwithin, hfresh⟩
  · rintro ⟨hheld, hsaved, hwithin, hfresh⟩
    exact ⟨⟨entry.toBlob, freshBlob?_eq_some_iff.mpr ⟨entry, hheld, hsaved, rfl⟩,
      Entry.ofBlob?_toBlob entry⟩, hwithin, hfresh⟩

/-- A written blob is beyond the retention exactly if its entry is. -/
theorem expires_toBlob (rules : LoadRules) (now : Timestamp) (entry : Entry) :
    expires rules now entry.toBlob = outlived rules.retentionDays now entry := by
  rw [expires, Entry.ofBlob?_toBlob]

end DurableCache.Gateway
