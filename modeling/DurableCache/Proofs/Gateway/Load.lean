import DurableCache.Proofs.Gateway.Verdicts
import DurableCache.Proofs.Store.Abandoned

/-!
# What a load does to the blobs

A load that ends brings every persisted entry into the store that is within the retention and
fresh. It deletes the blobs of entries beyond the retention and no others.
-/

namespace DurableCache.Gateway

open LawfulBlobs

variable {σ : Type} [BlobStore σ] {P : σ → Prop} {s next : σ} {rules : LoadRules}
variable {now : Timestamp} {report answer : LoadReport} {store staged : Store}
variable {rows : List (String × String)}

/-- An entry is within the retention exactly if its age does not exceed it. -/
theorem outlived_eq_false_iff {retentionDays : Nat} {entry : Entry} :
    outlived retentionDays now entry = false ↔ entry.age now ≤ retentionDays * dayLength := by
  rw [outlived, decide_eq_false_iff_not, Nat.not_lt]

/-- Whether a blob is that of an entry beyond the retention. -/
def expires (rules : LoadRules) (now : Timestamp) (blob : String) : Bool :=
  match Entry.ofBlob? blob with
  | .ok entry => outlived rules.retentionDays now entry
  | .error _ => false

/-- The entry that a load brings from a blob: it can be read, is within the retention and fresh. -/
def loadedFrom? (rules : LoadRules) (now : Timestamp) (blob : Option String) : Option Entry :=
  (blob.bind fun blob => (Entry.ofBlob? blob).toOption).filter fun entry =>
    !outlived rules.retentionDays now entry && !entry.isStale rules.defaultTtl now

/-- The entry that is loaded from a blob. -/
theorem loadedFrom?_eq_some_iff {blob : Option String} {entry : Entry} :
    loadedFrom? rules now blob = some entry ↔
      (∃ text, blob = some text ∧ Entry.ofBlob? text = .ok entry) ∧
        outlived rules.retentionDays now entry = false ∧
        entry.isStale rules.defaultTtl now = false := by
  have hread (text : String) : (Entry.ofBlob? text).toOption = some entry ↔
      Entry.ofBlob? text = .ok entry := by
    cases Entry.ofBlob? text <;> simp [Except.toOption]
  rw [loadedFrom?, Option.filter_eq_some_iff, Option.bind_eq_some_iff]
  simp only [hread, Bool.and_eq_true, Bool.not_eq_true']

/-- Loading blobs keeps what each deletion keeps. -/
theorem kept_loadRows (h : BlobStore.KeptByDeletion P) (hs : P s) :
    P (loadRows rules now rows report store s).2.2 := by
  induction rows generalizing report store s with
  | nil => exact hs
  | cons row rest ih =>
    obtain ⟨key, blob⟩ := row
    have hremove := h.remove key s hs
    unfold loadRows
    split
    · exact ih hs
    · split
      · split
        · rename_i heq
          rw [heq] at hremove
          exact hremove
        · rename_i heq
          rw [heq] at hremove
          exact ih hremove
      · split
        · exact ih hs
        · split
          · exact hs
          · exact ih hs
          · exact ih hs

/-- A load keeps what listing, deletions and a flush keep. -/
theorem kept_load (h : BlobStore.KeptByDeletion P) (hflush : ∀ s, P s → P (BlobStore.flush s).2)
    (hs : P s) : P (load rules now store s).2.2 := by
  have hlist := h.getAll s hs
  unfold load
  split
  · rename_i heq
    rwa [heq] at hlist
  · rename_i heq
    rwa [heq] at hlist
  · rename_i persisted listed heq
    rw [heq] at hlist
    split
    · exact hlist
    · rename_i read _
      have hrows : P (loadRows rules read persisted.rows ⟨0, 0, 0, 0⟩ store listed).2.2 :=
        kept_loadRows h hlist
      split
      · rename_i loaded hdone
        rw [hdone] at hrows
        split
        · exact hrows
        · have hlast := hflush loaded hrows
          split
          · rename_i hflushed
            rwa [hflushed] at hlast
          · rename_i hflushed
            rwa [hflushed] at hlast
          · rename_i hflushed
            rwa [hflushed] at hlast
      · exact hrows

/-- An entry is written under a key that holds none. -/
theorem find?_putIfNewer {estimator : Estimator} {key : String} {entry : Entry} {stored : Bool}
    (hfree : store.find? key = none)
    (h : store.putIfNewer estimator key entry = (.ok stored, staged)) (other : String) :
    staged.find? other = if other = key then some entry else store.find? other := by
  rw [(putIfNewer_settles h).2, hfree]
  rfl

/-- The blobs that expire are those judged so. -/
theorem expires_iff {blob : String} :
    expires rules now blob = true ↔ judge rules now blob = .expired := by
  unfold expires
  cases hread : Entry.ofBlob? blob with
  | error e => simp [judge, hread]
  | ok entry =>
    show outlived rules.retentionDays now entry = true ↔ judge rules now blob = .expired
    rw [judge_of_read hread]
    cases outlived rules.retentionDays now entry with
    | true => simp
    | false => cases entry.isStale rules.defaultTtl now <;> simp

/-- Under a key without an entry, what is loaded is what the blob there settles. -/
theorem settledEntry_none (blob : Option String) :
    settledEntry rules now blob none = loadedFrom? rules now blob := by
  cases blob with
  | none => rfl
  | some text =>
    unfold settledEntry loadedFrom?
    cases hread : Entry.ofBlob? text with
    | error e => simp [judge, hread, Except.toOption, Verdict.settle]
    | ok entry =>
      simp only [judge_of_read hread, Option.bind_some, hread, Except.toOption, Option.filter_some]
      cases outlived rules.retentionDays now entry with
      | true => rfl
      | false => cases entry.isStale rules.defaultTtl now <;> rfl

variable [LawfulBlobs σ]

/-- Loading blobs of different keys brings in the entries that are within the retention and fresh,
and deletes the blobs that are beyond the retention. -/
theorem loadRows_done (hkeys : (rows.map Prod.fst).Nodup)
    (hfree : ∀ row ∈ rows, store.find? row.1 = none)
    (h : loadRows rules now rows report store s = (.done answer, staged, next)) :
    (∀ key, (contents next).find? key =
      if (Rows.find? key rows).any (expires rules now) = true ∧ fault s (.delete key) = none then
        none
      else (contents s).find? key) ∧
    ∀ key, staged.find? key =
      (loadedFrom? rules now (Rows.find? key rows)).or (store.find? key) := by
  obtain ⟨hstaged, hdeleted, -, -⟩ := loadRows_effect hkeys h
  refine ⟨fun key => ?_, fun key => ?_⟩
  · rw [hdeleted]
    cases Rows.find? key rows with
    | none => simp
    | some blob => simp [expires_iff]
  · rw [hstaged]
    cases hrow : Rows.find? key rows with
    | none => simp [settledEntry, loadedFrom?]
    | some blob =>
      rw [hfree (key, blob) (Rows.mem_of_find? hrow), settledEntry_none, Option.or_none]

omit [LawfulBlobs σ] in
/-- Loading blobs never fails as a whole. -/
theorem loadRows_ne_failed {e : CacheError} :
    (loadRows rules now rows report store s).1 ≠ .failed e := by
  induction rows generalizing report store s with
  | nil => exact fun h => by cases h
  | cons row rest ih =>
    obtain ⟨key, blob⟩ := row
    unfold loadRows
    split
    · exact ih
    · split
      · split
        · exact fun h => by cases h
        · exact ih
      · split
        · exact ih
        · split
          · exact fun h => by cases h
          · exact ih
          · exact ih

/-- Loading blobs without faults ends, unless sizes do not fit. -/
theorem loadRows_faultless (hfault : ∀ access, fault s access = none)
    (hfits : (loadRows rules now rows report store s).1 ≠ .abandoned .sizeOverflow) :
    ∃ answer staged next,
      loadRows rules now rows report store s = (.done answer, staged, next) := by
  induction rows generalizing report store s with
  | nil => exact ⟨report, store, s, rfl⟩
  | cons row rest ih =>
    obtain ⟨key, blob⟩ := row
    rw [loadRows] at hfits ⊢
    cases hread : Entry.ofBlob? blob with
    | error e =>
      simp only [hread] at hfits ⊢
      exact ih hfault hfits
    | ok entry =>
      simp only [hread] at hfits ⊢
      by_cases houtlived : outlived rules.retentionDays now entry = true
      · rw [if_pos houtlived] at hfits ⊢
        have hmeets := remove_meets key s
        have hkeep := fault_remove key s
        rw [hfault (.delete key)] at hmeets
        cases hremove : BlobStore.remove key s with
        | mk outcome removed =>
          rw [hremove] at hmeets hkeep hfits
          cases hmeets
          exact ih (fun access => by rw [hkeep, hfault]) hfits
      · rw [if_neg houtlived] at hfits ⊢
        by_cases hstale : entry.isStale rules.defaultTtl now = true
        · rw [if_pos hstale] at hfits ⊢
          exact ih hfault hfits
        · rw [if_neg hstale] at hfits ⊢
          cases hput : store.putIfNewer rules.estimator key entry with
          | mk stored written =>
            rw [hput] at hfits
            cases stored with
            | error why =>
              exact absurd (congrArg Outcome.abandoned (Store.putIfNewer_error hput).1) hfits
            | ok newer =>
              cases newer with
              | true => exact ih hfault hfits
              | false => exact ih hfault hfits

/-! ### Loads -/

/-- A load that fails keeps every blob that is not beyond the retention. -/
theorem load_failed {e : CacheError} (h : load rules now store s = (.failed e, staged, next))
    (hfree : ∀ key, store.find? key = none) {key blob : String}
    (hblob : (contents s).find? key = some blob) (hwithin : expires rules now blob = false) :
    (contents next).find? key = some blob := by
  have hmeets := getAll_meets s
  have hcontents := contents_getAll s
  unfold load at h
  split at h
  · rename_i hlist
    rw [hlist] at hcontents
    cases h
    rw [hcontents, hblob]
  · cases h
  · rename_i persisted listed hlist
    rw [hlist] at hmeets hcontents
    have hfault := Outcome.fault_of_done hmeets
    rw [hfault] at hmeets
    cases hmeets
    split at h
    · cases h
    · rename_i read hclock
      obtain ⟨-, rfl⟩ := readClock_eq_ok_iff.mp hclock
      split at h
      · rename_i report' staged' loaded hrows
        obtain ⟨hlookup, -⟩ :=
          loadRows_done (contents s).keys_nodup (fun row _ => hfree row.1) hrows
        have hkept : (contents loaded).find? key = some blob := by
          have hrow : Rows.find? key (contents s).rows = some blob := hblob
          rw [hlookup, hrow, hcontents]
          simp [hwithin, hblob]
        split at h
        · cases h
        · have hflush := contents_flush loaded
          split at h
          · cases h
          · rename_i hflushed
            rw [hflushed] at hflush
            cases h
            rw [hflush, hkept]
          · cases h
      · rename_i hrows
        exact absurd (congrArg Prod.fst h) loadRows_ne_failed

/-- A load that is done brings in the entries that can be read from the blobs, are within the
retention and fresh. -/
theorem find?_load_done (h : load rules now store s = (.done answer, staged, next))
    (hfree : ∀ key, store.find? key = none) (key : String) :
    staged.find? key = loadedFrom? rules now ((contents s).find? key) := by
  rw [← loadThrough_ascending] at h
  rw [(effect_of_loadThrough h).settled, hfree, settledEntry_none]

end DurableCache.Gateway
