import DurableCache.Blobs.File
import DurableCache.Blobs.Watched
import DurableCache.Proofs.Gateway.Commit

/-!
# Errors of commits

A commit passes on the errors of listing and flushing the blobs, and has none of its own. The status
of such an error is the blob store's to choose: it is blameless if it never blames its caller, and
the blob stores here are.
-/

namespace DurableCache

/-- A blob store whose errors of listing and flushing are none that a caller is to blame for. -/
class BlobStore.Blameless (σ : Type) [BlobStore σ] : Prop where
  getAll : ∀ (s : σ) (err : CacheError), (BlobStore.getAll s).1 = .failed err → 500 ≤ err.status
  flush : ∀ (s : σ) (err : CacheError), (BlobStore.flush s).1 = .failed err → 500 ≤ err.status

instance : BlobStore.Blameless MemoryBlobs where
  getAll s err h := by cases h
  flush s err h := by cases h

instance : BlobStore.Blameless FileBlobs where
  getAll s err h := by cases h
  flush s err h := by
    obtain ⟨failed, rfl⟩ : ∃ failed, err = .io failed := by
      simp only [BlobStore.flush, FileBlobs.save] at h
      split at h
      · split at h
        · cases h
        · rename_i hsave
          split at hsave
          · cases hsave
            cases h
            exact ⟨none, rfl⟩
          · split at hsave
            · cases hsave
              cases h
              exact ⟨none, rfl⟩
            · cases hsave
      · cases h
    exact Nat.le_refl 500

/-- A guarded call fails as the call does, or is refused by the guard. -/
theorem Watched.failure_of_guard {σ α : Type} {fault : Option Fault} {name : String}
    {call : σ → Outcome α × σ} {s : Watched σ} {err : CacheError}
    (h : (guard fault name call s).1 = .failed err) :
    (∃ reason, err = .persistence reason) ∨ (call s.inner).1 = .failed err := by
  unfold guard at h
  split at h
  · cases h
    exact Or.inl ⟨_, rfl⟩
  · cases h
  · exact Or.inr h

instance {σ : Type} [BlobStore σ] [BlobStore.Blameless σ] : BlobStore.Blameless (Watched σ) where
  getAll s err h := by
    rcases Watched.failure_of_guard h with ⟨reason, rfl⟩ | hinner
    · exact Nat.le_refl 500
    · exact BlobStore.Blameless.getAll s.inner err hinner
  flush s err h := by
    rcases Watched.failure_of_guard h with ⟨reason, rfl⟩ | hinner
    · exact Nat.le_refl 500
    · exact BlobStore.Blameless.flush s.inner err hinner

namespace Gateway

variable {σ : Type} [BlobStore σ] {defaultTtl : Option UInt64} {now : Timestamp} {budget : Nat}
variable {pruning : Bool} {store : Store} {blobs : σ} {written : List String}
variable {report : CommitReport} {err : CacheError}

/-- Pruning fails only if the blobs cannot be listed. -/
theorem failure_of_pruneThrough {order : Visits String}
    (h : (pruneThrough order written report blobs).1 = .failed err) :
    (BlobStore.getAll blobs).1 = .failed err := by
  unfold pruneThrough at h
  split at h
  · rename_i hlist
    cases h
    exact congrArg Prod.fst hlist
  · cases h
  · exact absurd h removeKeys_ne_failed

/-- What comes before the flush of a commit fails only if the blobs cannot be listed. -/
theorem failure_of_unflushed {order : Visits String} {entries : List (String × Entry)}
    (h : (unflushed order defaultTtl now pruning entries report blobs).1 = .failed err) :
    ∃ s : σ, (BlobStore.getAll s).1 = .failed err := by
  unfold unflushed at h
  split at h
  · rename_i hwrite
    exact absurd (congrArg Prod.fst hwrite) writeRows_ne_failed
  · cases h
  · rename_i counted kept wrote _
    cases pruning with
    | false => cases h
    | true => exact ⟨wrote, failure_of_pruneThrough h⟩

/-- A flush at the end passes on the error before it, or fails itself. -/
theorem failure_of_flushed {x : Outcome CommitReport × σ} (h : (flushed x).1 = .failed err) :
    x.1 = .failed err ∨ BlobStore.flush x.2 = (.failed err, (flushed x).2) := by
  obtain ⟨outcome, left⟩ := x
  cases outcome with
  | failed e => exact Or.inl h
  | abandoned why => cases h
  | done report =>
    simp only [flushed] at h ⊢
    split at h
    · cases h
    · rename_i hflush
      cases h
      rw [hflush]
      exact Or.inr rfl
    · cases h

/-- A commit fails only if the blobs cannot be listed or flushed. -/
theorem failure_of_commit
    (h : (commit defaultTtl budget pruning now store blobs).1 = .failed err) :
    (∃ s : σ, (BlobStore.getAll s).1 = .failed err) ∨
      ∃ s : σ, (BlobStore.flush s).1 = .failed err := by
  rw [← commitThrough_ascending] at h
  unfold commitThrough at h
  split at h
  · cases h
  · rcases failure_of_flushed h with hbefore | hflush
    · exact Or.inl (failure_of_unflushed hbefore)
    · exact Or.inr ⟨_, congrArg Prod.fst hflush⟩

/-- A commit over a blameless blob store has no error that its caller is to blame for. -/
theorem status_of_commit [BlobStore.Blameless σ]
    (h : (commit defaultTtl budget pruning now store blobs).1 = .failed err) :
    500 ≤ err.status := by
  rcases failure_of_commit h with ⟨s, hlist⟩ | ⟨s, hflush⟩
  · exact BlobStore.Blameless.getAll s err hlist
  · exact BlobStore.Blameless.flush s err hflush

end Gateway

end DurableCache
