import DurableCache.Proofs.Engine.Blobs

/-!
# Keys that are not in memory

A key that is not in memory stays out of it as long as no call writes it. What a commit does to its
blob is then decided by the load alone: the blob is kept while the load runs, and deleted after it
unless a fault prevents that.
-/

namespace DurableCache.Engine

open LawfulBlobs

variable {σ : Type} [BlobStore σ] {e : Engine σ} {key : String} {call : Call} {now : Timestamp}

/-- A sound engine with nothing in memory under a key. -/
structure Lacks (e : Engine σ) (key : String) : Prop where
  sound : e.Sound
  absent : e.cache.store.find? key = none

/-- A call that does not write a key leaves the memory without it. -/
theorem Lacks.perform (h : e.Lacks key) (hfits : (e.perform call).1 ≠ some .sizeOverflow)
    (hunwritten : (e.cache.change call).written? key = none) : (e.perform call).2.Lacks key := by
  have hturns := turns_perform h.sound call hfits
  refine ⟨h.sound.perform call hfits, ?_⟩
  rcases hturns.store.find? key with hnone | hsame
  · exact hnone
  · rw [hsame, hunwritten, h.absent, Option.none_or]

/-- Calls neither begin nor end a load. -/
theorem isLoading_perform (hs : e.Sound) (hfits : (e.perform call).1 ≠ some .sizeOverflow) :
    (e.perform call).2.cache.isLoading = e.cache.isLoading := by
  have hfence := (turns_perform hs call hfits).fence
  rw [Cache.isLoading, Cache.isLoading, hfence, Option.isSome_map]

omit [BlobStore σ] in
/-- The trim of a commit leaves the memory without a key that is not in it. -/
theorem Lacks.trim (h : e.Lacks key) :
    ∃ evicted, e.cache.store.trim e.cache.rules.budget =
        some (evicted, e.cache.store.eraseAll evicted) ∧
      (e.cache.store.eraseAll evicted).find? key = none := by
  obtain ⟨evicted, htrim, -⟩ := Store.Sound.trim h.sound e.cache.rules.budget
  refine ⟨evicted, htrim, ?_⟩
  rw [Store.find?_eraseAll, h.absent, ite_self]

variable [LawfulBlobs σ]

/-- A commit deletes the blob of a key that is not in memory exactly if the load has ended and
nothing keeps the blob from being deleted. -/
theorem find?_blobs_commit (h : e.Lacks key)
    (hanswered : ∀ why, (e.commit now).1 ≠ .abandoned why) :
    (contents (e.commit now).2.blobs).find? key =
      if e.cache.isLoading = false ∧ Gateway.Prunes e.blobs key then none
      else (contents e.blobs).find? key := by
  obtain ⟨evicted, htrim, habsent⟩ := h.trim
  rw [blobs_commit, Gateway.commit_answers htrim hanswered]
  simp only [habsent, Gateway.writtenBlob?_none, Option.none_or, Bool.not_eq_true']

/-- A key that has neither an entry in memory nor a blob gets no blob from a call. -/
theorem find?_blobs_perform_eq_none (h : e.Lacks key)
    (hblob : (contents e.blobs).find? key = none) (call : Call) :
    (contents (e.perform call).2.blobs).find? key = none := by
  by_cases hcommit : ∃ now, call = .commit now
  · obtain ⟨now, rfl⟩ := hcommit
    obtain ⟨evicted, htrim, habsent⟩ := h.trim
    show (contents (e.commit now).2.blobs).find? key = none
    rw [blobs_commit]
    unfold Gateway.commit
    rw [htrim]
    refine Gateway.kept_save (kept_absent key) ?_ ?_ hblob
    · intro row hrow s hs
      have hne : key ≠ row.1 := by
        rintro rfl
        have hfind := Table.mem_rows_iff.mp hrow
        rw [Store.find?_entries, habsent] at hfind
        cases hfind
      rw [find?_contents_put, if_neg (fun hboth => hne hboth.1), hs]
    · intro s hs
      rw [contents_flush, hs]
  · rw [blobs_perform e fun now hcall => hcommit ⟨now, hcall⟩, hblob]

end DurableCache.Engine
