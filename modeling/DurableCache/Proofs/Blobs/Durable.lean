import DurableCache.Proofs.Blobs.File
import DurableCache.Proofs.Blobs.Lawful

/-!
# Durable blob stores

A durable blob store can be opened again with what a flush has saved. Its calls have no faults;
only a flush may fail, and not any more once a flush has saved something.
-/

namespace DurableCache

/-- A blob store without faults that can be opened again. -/
class DurableBlobs (σ : Type) [BlobStore σ] [LawfulBlobs σ] where
  /-- Opens the blob store again, as it would be opened after the end of its program. -/
  reopen : σ → Except CacheError σ
  /-- What holds of a blob store from its opening on. -/
  Opened : σ → Prop
  /-- Every write is durable. -/
  Saved : σ → Prop
  /-- Some write may have to be saved. -/
  Pending : σ → Prop
  /-- A flush has saved writes before. -/
  Proven : σ → Prop
  faultless (s : σ) (access : Access) : LawfulBlobs.fault s access = none
  opened_of_reopen {s t : σ} : reopen s = .ok t → Opened t
  kept_opened : BlobStore.Kept Opened
  kept_pending : BlobStore.Kept Pending
  kept_proven : BlobStore.Kept Proven
  opened_flush {s : σ} : Opened s → Opened (BlobStore.flush s).2
  pending_put (key blob : String) (s : σ) : Pending (BlobStore.put key blob s).2
  saved_flush {s : σ} : Opened s → (BlobStore.flush s).1 = .done () → Saved (BlobStore.flush s).2
  proven_flush {s : σ} : Opened s → Pending s → (BlobStore.flush s).1 = .done () →
    Proven (BlobStore.flush s).2
  flush_of_proven {s : σ} : Proven s → (BlobStore.flush s).1 = .done ()
  reopen_of_saved {s : σ} : Opened s → Saved s → reopen s = .ok s

/-- In memory everything is durable at once. -/
instance : DurableBlobs MemoryBlobs where
  reopen s := .ok s
  Opened _ := True
  Saved _ := True
  Pending _ := True
  Proven _ := True
  faultless _ _ := rfl
  opened_of_reopen _ := trivial
  kept_opened := ⟨fun _ _ => trivial, fun _ _ _ _ => trivial, fun _ _ _ => trivial⟩
  kept_pending := ⟨fun _ _ => trivial, fun _ _ _ _ => trivial, fun _ _ _ => trivial⟩
  kept_proven := ⟨fun _ _ => trivial, fun _ _ _ _ => trivial, fun _ _ _ => trivial⟩
  opened_flush _ := trivial
  pending_put _ _ _ := trivial
  saved_flush _ _ := trivial
  proven_flush _ _ _ := trivial
  flush_of_proven _ := rfl
  reopen_of_saved _ _ := rfl

namespace FileBlobs

open Directory

variable {s : FileBlobs}

/-- Opens the namespace again in the same folder. -/
def reopen (s : FileBlobs) : Except CacheError FileBlobs :=
  (openIn s.directory s.folder s.namespaceName).1

/-- A namespace that was opened: its folder is there, and unless there are changes the file holds
the blobs. -/
structure Opened (s : FileBlobs) : Prop where
  named : isNamespace s.namespaceName = true
  made : ∀ later, s.directory.Keeps later → later.makePath s.folder = (.ok (), later)
  saved : s.dirty = false → load s.directory s.folder s.namespaceName = .ok s.blobs

/-- An opening answers the blobs of the file in a folder that is there. -/
theorem opened_of_openIn {d left : Directory} {folder name : String}
    (h : openIn d folder name = (.ok s, left)) : s.Opened := by
  unfold openIn at h
  split at h
  · cases h
  · rename_i hname
    split at h
    · cases h
    · rename_i made hmake
      split at h
      · cases h
      · rename_i blobs hload
        cases h
        exact ⟨by simpa using hname, fun later hkeeps => makePath_again hmake hkeeps,
          fun _ => hload⟩

/-- Without changes an opening brings back the same blob store. -/
theorem Opened.reopen (h : s.Opened) (hsaved : s.dirty = false) : s.reopen = .ok s := by
  have hmake := h.made s.directory (keeps_refl s.directory)
  have hload := h.saved hsaved
  have hsame : { s with dirty := false } = s := by rw [← hsaved]
  unfold FileBlobs.reopen openIn
  rw [h.named, hmake]
  simp only [hload, Bool.not_true, Bool.false_eq_true, if_false]
  exact congrArg Except.ok hsame

/-- A change of the blobs keeps the folder. -/
theorem Opened.of_dirty (h : s.Opened) (blobs : BlobMap) :
    Opened { s with blobs, dirty := true } where
  named := h.named
  made := h.made
  saved hsaved := by cases hsaved

/-- A deletion changes the blobs or nothing at all. -/
theorem remove_snd (key : String) (s : FileBlobs) :
    (BlobStore.remove key s).2 =
      if s.blobs.contains key then { s with blobs := s.blobs.erase key, dirty := true } else s := by
  simp only [BlobStore.remove]
  split <;> rfl

/-- A save keeps the folder, whether it succeeds or not. -/
theorem Opened.save (h : s.Opened) (hdirty : s.dirty = true) : s.save.2.Opened := by
  cases hsave : s.save with
  | mk answer next =>
    cases answer with
    | ok _ =>
      obtain ⟨stem, hplaces⟩ := exists_places_of_save h.named hsave
      rw [hplaces.save] at hsave
      cases hsave
      exact ⟨h.named, fun later hkeeps => h.made later (hplaces.keeps_saved.trans hkeeps),
        fun _ => hplaces.load⟩
    | error e =>
      unfold FileBlobs.save at hsave
      split at hsave
      · cases hsave
        exact h
      · rename_i written hwrite
        obtain ⟨stem, name, -, -, -, hfree, rfl⟩ := write_ok hwrite
        have hkeeps := keeps_insert hfree (.file (some (encode s.blobs)))
        split at hsave
        · cases hsave
          refine ⟨h.named, fun later hlater => h.made later (hkeeps.trans hlater), fun hsaved => ?_⟩
          rw [hdirty] at hsaved
          cases hsaved
        · cases hsave

/-- A flush that is done has saved the blobs if there were changes. -/
theorem save_of_flush (hdirty : s.dirty = true) (h : (BlobStore.flush s).1 = .done ()) :
    s.save.1 = .ok () := by
  simp only [BlobStore.flush, hdirty, if_true] at h
  split at h
  · rename_i hsave
    rw [hsave]
  · cases h

end FileBlobs

/-- Blob files are durable from a flush on. -/
instance : DurableBlobs FileBlobs where
  reopen := FileBlobs.reopen
  Opened := FileBlobs.Opened
  Saved s := s.dirty = false
  Pending s := s.dirty = true
  Proven s := ∃ stem, s.Places stem
  faultless _ _ := rfl
  opened_of_reopen {s t} h :=
    FileBlobs.opened_of_openIn (Prod.ext h rfl :
      FileBlobs.openIn s.directory s.folder s.namespaceName = (.ok t, _))
  kept_opened :=
    { getAll := fun _ h => h
      put := fun _ _ _ h => h.of_dirty _
      remove := fun key s h => by
        rw [FileBlobs.remove_snd]
        split
        · exact h.of_dirty _
        · exact h }
  kept_pending :=
    { getAll := fun _ h => h
      put := fun _ _ _ _ => rfl
      remove := fun key s h => by
        rw [FileBlobs.remove_snd]
        split
        · rfl
        · exact h }
  kept_proven :=
    { getAll := fun _ h => h
      put := fun _ _ _ h => h.imp fun _ hplaces => hplaces.of_blobs _ _
      remove := fun key s h => by
        rw [FileBlobs.remove_snd]
        split
        · exact h.imp fun _ hplaces => hplaces.of_blobs _ _
        · exact h }
  opened_flush {s} h := by
    rw [FileBlobs.flush_snd]
    split
    · exact h.save ‹_›
    · exact h
  pending_put _ _ _ := rfl
  saved_flush {s} h hdone := by
    rw [FileBlobs.flush_snd]
    split
    · rename_i hdirty
      have hsave := FileBlobs.save_of_flush hdirty hdone
      obtain ⟨stem, hplaces⟩ := FileBlobs.exists_places_of_save h.named (Prod.ext hsave rfl)
      rw [hplaces.save]
    · rename_i hclean
      simpa using hclean
  proven_flush {s} h hdirty hdone := by
    have hsave := FileBlobs.save_of_flush hdirty hdone
    obtain ⟨stem, hplaces⟩ := FileBlobs.exists_places_of_save h.named (Prod.ext hsave rfl)
    rw [FileBlobs.flush_snd, if_pos hdirty, hplaces.save]
    exact ⟨stem, hplaces.of_save⟩
  flush_of_proven {s} h := by
    obtain ⟨stem, hplaces⟩ := h
    simp only [BlobStore.flush, hplaces.save]
    split <;> rfl
  reopen_of_saved h hsaved := h.reopen hsaved

end DurableCache
