import DurableCache.Blobs.File
import DurableCache.Blobs.Watched
import DurableCache.Table.Lemmas

/-!
# Lawful blob stores

A lawful blob store holds a map of blobs. A call that has no fault does to that map what its
name says, and a call that has one changes nothing. The faults stay as they are.
-/

namespace DurableCache

/-- The calls that read or change the map of a blob store. -/
inductive Access where
  | list
  | write (key : String)
  | delete (key : String)
  deriving DecidableEq, Repr

/-- A call has the fault that it is said to have: without one it answers `result`. -/
def Outcome.Meets {α : Type} (outcome : Outcome α) (result : α) : Option Fault → Prop
  | none => outcome = .done result
  | some .refuse => ∃ e, outcome = .failed e
  | some .breakDown => ∃ why, outcome = .abandoned why

/-- A call that is done has no fault. -/
theorem Outcome.fault_of_done {α : Type} {answer result : α} {fault : Option Fault}
    (h : (Outcome.done answer).Meets result fault) : fault = none := by
  match fault, h with
  | none, _ => rfl
  | some .refuse, h =>
    obtain ⟨e, he⟩ := h
    cases he
  | some .breakDown, h =>
    obtain ⟨why, he⟩ := h
    cases he

/-- A call that fails is refused. -/
theorem Outcome.fault_of_failed {α : Type} {e : CacheError} {result : α} {fault : Option Fault}
    (h : (Outcome.failed e).Meets result fault) : fault = some .refuse := by
  match fault, h with
  | none, h => cases h
  | some .refuse, _ => rfl
  | some .breakDown, h =>
    obtain ⟨why, he⟩ := h
    cases he

/-- A blob store that holds a map and keeps to it. -/
class LawfulBlobs (σ : Type) [BlobStore σ] where
  /-- The blobs by key, whether they are durable yet or not. -/
  contents : σ → BlobMap
  /-- What becomes of a call. -/
  fault : σ → Access → Option Fault
  getAll_meets (s : σ) : (BlobStore.getAll s).1.Meets (contents s) (fault s .list)
  contents_getAll (s : σ) : contents (BlobStore.getAll s).2 = contents s
  fault_getAll (s : σ) : fault (BlobStore.getAll s).2 = fault s
  put_meets (key blob : String) (s : σ) :
    (BlobStore.put key blob s).1.Meets () (fault s (.write key))
  contents_put (key blob : String) (s : σ) : contents (BlobStore.put key blob s).2 =
    if fault s (.write key) = none then (contents s).insert key blob else contents s
  fault_put (key blob : String) (s : σ) : fault (BlobStore.put key blob s).2 = fault s
  remove_meets (key : String) (s : σ) :
    (BlobStore.remove key s).1.Meets () (fault s (.delete key))
  contents_remove (key : String) (s : σ) : contents (BlobStore.remove key s).2 =
    if fault s (.delete key) = none then (contents s).erase key else contents s
  fault_remove (key : String) (s : σ) : fault (BlobStore.remove key s).2 = fault s
  contents_flush (s : σ) : contents (BlobStore.flush s).2 = contents s
  fault_flush (s : σ) : fault (BlobStore.flush s).2 = fault s

/-- A property that all calls but a flush keep. -/
structure BlobStore.Kept {σ : Type} [BlobStore σ] (P : σ → Prop) : Prop where
  getAll : ∀ s, P s → P (BlobStore.getAll s).2
  put : ∀ key blob s, P s → P (BlobStore.put key blob s).2
  remove : ∀ key s, P s → P (BlobStore.remove key s).2

/-- A property that listing and deletions keep. -/
structure BlobStore.KeptByDeletion {σ : Type} [BlobStore σ] (P : σ → Prop) : Prop where
  getAll : ∀ s, P s → P (BlobStore.getAll s).2
  remove : ∀ key s, P s → P (BlobStore.remove key s).2

/-- What all calls keep is kept by listing and deletions. -/
theorem BlobStore.Kept.byDeletion {σ : Type} [BlobStore σ] {P : σ → Prop}
    (h : BlobStore.Kept P) : BlobStore.KeptByDeletion P :=
  ⟨h.getAll, h.remove⟩

namespace LawfulBlobs

variable {σ : Type} [BlobStore σ] [LawfulBlobs σ]

/-- The faults are kept. -/
theorem kept_fault (faults : Access → Option Fault) :
    BlobStore.Kept fun s : σ => fault s = faults where
  getAll s h := (fault_getAll s).trans h
  put key blob s h := (fault_put key blob s).trans h
  remove key s h := (fault_remove key s).trans h

/-- The lookups after a write. -/
theorem find?_contents_put (key blob : String) (s : σ) (other : String) :
    (contents (BlobStore.put key blob s).2).find? other =
      if other = key ∧ fault s (.write key) = none then some blob
      else (contents s).find? other := by
  rw [contents_put]
  by_cases hfault : fault s (.write key) = none
  · simp [hfault, Table.find?_insert]
  · simp [hfault]

/-- The lookups after a deletion. -/
theorem find?_contents_remove (key : String) (s : σ) (other : String) :
    (contents (BlobStore.remove key s).2).find? other =
      if other = key ∧ fault s (.delete key) = none then none
      else (contents s).find? other := by
  rw [contents_remove]
  by_cases hfault : fault s (.delete key) = none
  · simp [hfault, Table.find?_erase]
  · simp [hfault]

/-- Listing and deletions write no blob. -/
theorem kept_absent (key : String) :
    BlobStore.KeptByDeletion fun s : σ => (contents s).find? key = none where
  getAll s h := by rw [contents_getAll, h]
  remove other s h := by rw [find?_contents_remove, h, ite_self]

end LawfulBlobs

/-! ### The blob stores -/

instance : LawfulBlobs MemoryBlobs where
  contents s := s.blobs
  fault _ _ := none
  getAll_meets _ := rfl
  contents_getAll _ := rfl
  fault_getAll _ := rfl
  put_meets _ _ _ := rfl
  contents_put _ _ _ := rfl
  fault_put _ _ _ := rfl
  remove_meets _ _ := rfl
  contents_remove _ _ := rfl
  fault_remove _ _ := rfl
  contents_flush _ := rfl
  fault_flush _ := rfl

namespace FileBlobs

/-- A deletion is done whether there was a blob or not. -/
theorem remove_fst (key : String) (s : FileBlobs) :
    (BlobStore.remove key s).1 = .done () := by
  simp only [BlobStore.remove]
  split <;> rfl

/-- A deletion leaves the other blobs. -/
theorem blobs_remove (key : String) (s : FileBlobs) :
    (BlobStore.remove key s).2.blobs = s.blobs.erase key := by
  simp only [BlobStore.remove]
  split
  · rfl
  · rename_i habsent
    have hnone : s.blobs.find? key = none := by
      simpa [Table.contains] using habsent
    exact (Table.erase_of_find?_eq_none s.blobs hnone).symm

/-- A flush keeps the blobs. -/
theorem blobs_save (s : FileBlobs) : s.save.2.blobs = s.blobs := by
  unfold save
  split
  · rfl
  · split <;> rfl

/-- A flush answers whether the file was saved. -/
theorem flush_snd (s : FileBlobs) :
    (BlobStore.flush s).2 = if s.dirty then s.save.2 else s := by
  simp only [BlobStore.flush]
  split
  · split
    · rename_i hsave
      rw [hsave]
    · rename_i hsave
      rw [hsave]
  · rfl

end FileBlobs

instance : LawfulBlobs FileBlobs where
  contents s := s.blobs
  fault _ _ := none
  getAll_meets _ := rfl
  contents_getAll _ := rfl
  fault_getAll _ := rfl
  put_meets _ _ _ := rfl
  contents_put _ _ _ := rfl
  fault_put _ _ _ := rfl
  remove_meets := FileBlobs.remove_fst
  contents_remove := FileBlobs.blobs_remove
  fault_remove _ _ := rfl
  contents_flush s := by
    rw [FileBlobs.flush_snd]
    split
    · exact s.blobs_save
    · rfl
  fault_flush _ := rfl

namespace Watched

variable {σ α : Type}

/-- A watched call meets its own fault, or else the fault of the call that is watched. -/
theorem guard_meets {fault inner : Option Fault} {name : String} {call : σ → Outcome α × σ}
    {s : Watched σ} {result : α} (h : (call s.inner).1.Meets result inner) :
    (guard fault name call s).1.Meets result (fault.or inner) := by
  cases fault with
  | none => exact h
  | some fault =>
    cases fault with
    | refuse => exact ⟨_, rfl⟩
    | breakDown => exact ⟨_, rfl⟩

/-- A call with a fault does not reach the watched blob store. -/
theorem inner_guard (fault : Option Fault) (name : String) (call : σ → Outcome α × σ)
    (s : Watched σ) :
    (guard fault name call s).2.inner = if fault = none then (call s.inner).2 else s.inner := by
  cases fault with
  | none => rfl
  | some fault => cases fault <;> rfl

/-- A watched call does not change the faults. -/
theorem faults_guard (fault : Option Fault) (name : String) (call : σ → Outcome α × σ)
    (s : Watched σ) : (guard fault name call s).2.faults = s.faults := by
  cases fault with
  | none => rfl
  | some fault => cases fault <;> rfl

/-- The fault of a call on a watched blob store itself. -/
def ownFault (faults : Faults) : Access → Option Fault
  | .list => faults.getAll
  | .write key => faults.put.find? key
  | .delete key => faults.remove.find? key

end Watched

instance {σ : Type} [BlobStore σ] [LawfulBlobs σ] : LawfulBlobs (Watched σ) where
  contents s := LawfulBlobs.contents s.inner
  fault s access := (Watched.ownFault s.faults access).or (LawfulBlobs.fault s.inner access)
  getAll_meets s := Watched.guard_meets (LawfulBlobs.getAll_meets s.inner)
  contents_getAll s := by
    simp only [BlobStore.getAll, Watched.inner_guard]
    split
    · exact LawfulBlobs.contents_getAll s.inner
    · rfl
  fault_getAll s := by
    funext access
    simp only [BlobStore.getAll, Watched.inner_guard, Watched.faults_guard]
    split
    · rw [LawfulBlobs.fault_getAll]
    · rfl
  put_meets key blob s := Watched.guard_meets (LawfulBlobs.put_meets key blob s.inner)
  contents_put key blob s := by
    simp only [BlobStore.put, Watched.inner_guard, Watched.ownFault, Option.or_eq_none_iff]
    by_cases hown : s.faults.put.find? key = none
    · simp only [hown, if_true, true_and]
      exact LawfulBlobs.contents_put key blob s.inner
    · simp only [hown, if_false, false_and]
  fault_put key blob s := by
    funext access
    simp only [BlobStore.put, Watched.inner_guard, Watched.faults_guard]
    split
    · rw [LawfulBlobs.fault_put]
    · rfl
  remove_meets key s := Watched.guard_meets (LawfulBlobs.remove_meets key s.inner)
  contents_remove key s := by
    simp only [BlobStore.remove, Watched.inner_guard, Watched.ownFault, Option.or_eq_none_iff]
    by_cases hown : s.faults.remove.find? key = none
    · simp only [hown, if_true, true_and]
      exact LawfulBlobs.contents_remove key s.inner
    · simp only [hown, if_false, false_and]
  fault_remove key s := by
    funext access
    simp only [BlobStore.remove, Watched.inner_guard, Watched.faults_guard]
    split
    · rw [LawfulBlobs.fault_remove]
    · rfl
  contents_flush s := by
    simp only [BlobStore.flush, Watched.inner_guard]
    split
    · exact LawfulBlobs.contents_flush s.inner
    · rfl
  fault_flush s := by
    funext access
    simp only [BlobStore.flush, Watched.inner_guard, Watched.faults_guard]
    split
    · rw [LawfulBlobs.fault_flush]
    · rfl

end DurableCache
