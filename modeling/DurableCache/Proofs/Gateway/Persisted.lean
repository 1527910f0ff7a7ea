import DurableCache.Proofs.Gateway.Commit
import DurableCache.Proofs.Engine.Effects
import DurableCache.Proofs.Json.RoundTrip

/-!
# Blobs that a commit keeps

An entry is persisted under a key if the blob there is read as this entry. A commit that does not
prune keeps what is persisted under keys that the memory does not hold, and a commit without faults
keeps what the memory holds and is fresh, whatever the commit answers.
-/

namespace DurableCache.Gateway

open LawfulBlobs

variable {σ : Type} [BlobStore σ] [LawfulBlobs σ] {s : σ}
variable {defaultTtl : Option UInt64} {now : Timestamp} {report answer : CommitReport}
variable {rows : List (String × Entry)} {key : String} {entry : Entry}

/-- The blob under a key is read as an entry. -/
def Persisted (s : σ) (key : String) (entry : Entry) : Prop :=
  ∃ text, (contents s).find? key = some text ∧ Entry.ofBlob? text = .ok entry

/-- What is persisted depends on the blob of the key alone. -/
theorem Persisted.congr {next : σ} (h : Persisted s key entry)
    (hsame : (contents next).find? key = (contents s).find? key) : Persisted next key entry := by
  obtain ⟨text, htext, hread⟩ := h
  exact ⟨text, hsame.trans htext, hread⟩

/-- Writing the blob of the entry itself, or that of another key, keeps what is persisted. -/
theorem Persisted.put (h : Persisted s key entry) {other : String} {held : Entry}
    (hheld : other = key → held = entry) :
    Persisted (BlobStore.put other held.toBlob s).2 key entry := by
  have hlookup := find?_contents_put other held.toBlob s key
  split at hlookup
  · rename_i hwritten
    refine ⟨held.toBlob, hlookup, ?_⟩
    rw [hheld hwritten.1.symm]
    exact Entry.ofBlob?_toBlob entry
  · exact h.congr hlookup

/-- Deleting the blob of another key keeps what is persisted. -/
theorem Persisted.remove (h : Persisted s key entry) {other : String} (hne : other ≠ key) :
    Persisted (BlobStore.remove other s).2 key entry := by
  have hlookup := find?_contents_remove other s key
  rw [if_neg (fun hdeleted => hne hdeleted.1.symm)] at hlookup
  exact h.congr hlookup

/-- A flush keeps what is persisted. -/
theorem Persisted.flush (h : Persisted s key entry) : Persisted (BlobStore.flush s).2 key entry :=
  h.congr (by rw [contents_flush])

/-- Pruning keeps what is persisted under a key that was written. -/
theorem Persisted.prune (h : Persisted s key entry) {written : List String} (hkey : key ∈ written) :
    Persisted (Gateway.prune written report s).2 key entry := by
  have hlisted : Persisted (BlobStore.getAll s).2 key entry := h.congr (by rw [contents_getAll])
  unfold Gateway.prune
  split
  · rename_i hlist
    rwa [hlist] at hlisted
  · rename_i hlist
    rwa [hlist] at hlisted
  · rename_i persisted listed hlist
    rw [hlist] at hlisted
    refine kept_removeKeys_of_mem (P := fun s => Persisted s key entry)
      (fun other hother s hs => ?_) hlisted
    refine hs.remove ?_
    rintro rfl
    simp [hkey] at hother

/-- A save keeps what is persisted under a key if it writes no other entry there and, when it
prunes, has written the key. -/
theorem Persisted.save (h : Persisted s key entry) {pruning : Bool}
    (hrows : ∀ row ∈ rows, row.1 = key → row.2 = entry)
    (hwritten : pruning = true → ∀ counted written wrote,
      writeRows defaultTtl now rows report [] s = (.done (counted, written), wrote) →
      key ∈ written) :
    Persisted (Gateway.save defaultTtl now pruning rows report s).2 key entry := by
  refine kept_save_of_prune (P := fun s => Persisted s key entry) (fun row hrow s hs => ?_)
    (fun hpruning counted written wrote hdone hs => ?_) (fun s hs => hs.flush) h
  · exact hs.put (hrows row hrow)
  · exact hs.prune (hwritten hpruning counted written wrote hdone)

variable {store : Store} {budget : Nat}

/-- A commit keeps what is persisted under a key if the memory holds no other entry there and, when
the commit prunes, holds that one, fresh, and neither its trim nor a fault is in the way. -/
theorem Persisted.commit (h : Persisted s key entry) {pruning : Bool}
    (hheld : ∀ held, store.find? key = some held → held = entry)
    (hpruned : pruning = true → store.find? key = some entry ∧
      key ∉ store.trimmedKeys budget ∧ entry.isStale defaultTtl now = false ∧
      fault s (.write key) = none) :
    Persisted (Gateway.commit defaultTtl budget pruning now store s).2.2 key entry := by
  unfold Gateway.commit
  cases htrim : store.trim budget with
  | none => exact h
  | some result =>
    obtain ⟨evicted, trimmed⟩ := result
    obtain ⟨-, hkept⟩ := Store.trimmedKeys_of_trim htrim
    have hfind : trimmed.find? key =
        if key ∈ store.trimmedKeys budget then none else store.find? key := by
      rw [hkept, Store.find?_eraseAll]
    refine h.save (fun row hrow hkey => ?_) (fun hpruning counted written wrote hdone => ?_)
    · have hrow : trimmed.find? row.1 = some row.2 := by
        rw [← Store.find?_entries]
        exact Table.mem_rows_iff.mp hrow
      rw [hkey, hfind] at hrow
      split at hrow
      · cases hrow
      · exact hheld row.2 hrow
    · -- The entry is written, because it is held, left by the trim, fresh and without a fault.
      obtain ⟨hstored, hleft, hfresh, hfault⟩ := hpruned hpruning
      have hrow : Rows.find? key trimmed.entries.rows = some entry := by
        have hentries : Rows.find? key trimmed.entries.rows = trimmed.find? key :=
          Store.find?_entries trimmed key
        rw [hentries, hfind, if_neg hleft, hstored]
      have hmem := (writeRows_done trimmed.entries.keys_nodup hdone).1 key
      rw [hrow, writtenBlob?_of_fresh hfresh, if_pos hfault] at hmem
      exact hmem.mpr (Or.inr rfl)

end DurableCache.Gateway
