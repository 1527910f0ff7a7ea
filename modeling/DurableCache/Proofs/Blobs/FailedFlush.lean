import DurableCache.Proofs.Blobs.Agreement
import DurableCache.Proofs.Blobs.Hosts
import DurableCache.Proofs.Gateway.Failures

/-!
# Flushes that fail

A flush that fails has at most written the temporary file. So the blob file is as it was, and what
has not been saved is still there for the next flush. On the way no opening would find anything but
the blobs that were saved before or those that are being saved (`failed_flush_loses_nothing`).
-/

namespace DurableCache

namespace FileBlobs

open Directory

variable {s next last : FileBlobs} {host : Host} {d : Directory} {stem : Place}
variable {text : Option String} {folder name : String} {blobs : BlobMap}

/-! ### The blob file and the temporary file -/

/-- The path of a folder is a path if that of a name in it is. -/
theorem isPath_of_join (h : isPath (join folder name) = true) : isPath folder = true := by
  unfold isPath at h ⊢
  simp only [Bool.and_eq_true, decide_eq_true_eq, Bool.not_eq_true', List.contains_eq_mem,
    decide_eq_false_iff_not] at h ⊢
  unfold join at h
  split at h
  · simp only [String.utf8ByteSize_append, String.toList_append, List.mem_append, not_or] at h
    exact ⟨by omega, h.2.1⟩
  · simp only [String.utf8ByteSize_append, String.toList_append, List.mem_append, not_or] at h
    exact ⟨by omega, h.2.1.1⟩

/-- If the temporary file is written, the folder is there, and nothing else is changed. -/
theorem leads_of_write (hname : isNamespace s.namespaceName = true)
    (h : s.directory.write s.temporaryFile text = .ok d) :
    ∃ stem, (partsOf s.folder).foldlM s.directory.enter [] = .ok stem ∧ isPath s.folder = true ∧
      s.directory.AgreeOff (· = pathOf (s.temporaryPlace stem)) d := by
  obtain ⟨stem, title, hnames, hpath, -, hfree, rfl⟩ := write_ok h
  have hleads := hnames.leads
  have hlast := hnames.last
  rw [partsOf_temporaryFile hname, List.dropLast_concat] at hleads
  rw [partsOf_temporaryFile hname, List.getLast?_concat] at hlast
  obtain rfl := Option.some.inj hlast
  exact ⟨stem, hleads, isPath_of_join hpath, agreeOff_insert text rfl hfree⟩

/-- The path of the blob file stays off the temporary file. -/
theorem staysOff_temporaryPlace (hname : isNamespace s.namespaceName = true)
    (h : (partsOf s.folder).foldlM s.directory.enter [] = .ok stem) :
    s.directory.StaysOff (· = pathOf (s.temporaryPlace stem)) s.file stem where
  leads := by
    rw [partsOf_file hname, List.dropLast_concat]
    exact h
  apart title hlast := by
    rw [partsOf_file hname, List.getLast?_concat] at hlast
    obtain rfl := Option.some.inj hlast
    exact (s.temporaryPlace_apart stem).symm

/-- An opening of a folder that is there loads the file. -/
theorem openIn_of_leads (hname : isNamespace name = true) (hpath : isPath folder = true)
    (h : (partsOf folder).foldlM d.enter [] = .ok stem) :
    (openIn d folder name).1.map FileBlobs.blobs = load d folder name := by
  unfold openIn
  rw [hname, makePath_of_leads hpath h]
  simp only [Bool.not_true, Bool.false_eq_true, if_false]
  cases load d folder name <;> rfl

/-! ### What has been saved -/

/-- What has been saved of one blob file is still there in another one: the file itself, and what an
opening brings back. -/
structure Persists (s next : FileBlobs) : Prop where
  folder : next.folder = s.folder
  namespaceName : next.namespaceName = s.namespaceName
  file : next.directory.find? s.file = s.directory.find? s.file
  reopen : next.reopen.map FileBlobs.blobs = s.reopen.map FileBlobs.blobs

namespace Persists

/-- What has been saved is there as long as the directory stays as it is. -/
theorem of_blobs (s : FileBlobs) (blobs : BlobMap) (dirty : Bool) :
    s.Persists { s with blobs, dirty } :=
  ⟨rfl, rfl, rfl, rfl⟩

theorem refl (s : FileBlobs) : s.Persists s := of_blobs s s.blobs s.dirty

theorem file_eq (h : s.Persists next) : next.file = s.file := by
  rw [FileBlobs.file, FileBlobs.file, h.folder, h.namespaceName]

theorem trans (h : s.Persists next) (h' : next.Persists last) : s.Persists last := by
  have hlast := h'.file
  rw [h.file_eq] at hlast
  exact ⟨h'.folder.trans h.folder, h'.namespaceName.trans h.namespaceName, hlast.trans h.file,
    h'.reopen.trans h.reopen⟩

/-- A deletion leaves the directory as it is. -/
theorem remove (key : String) (s : FileBlobs) : s.Persists (BlobStore.remove key s).2 := by
  rw [remove_snd]
  split
  · exact of_blobs _ _ _
  · exact refl s

end Persists

/-- In a directory the blob file holds the whole text of some blobs, and an opening brings back
these. -/
structure Complete (s : FileBlobs) (d : Directory) (blobs : BlobMap) : Prop where
  file : d.find? s.file = .ok (some (.file (some (encode blobs))))
  opens : (openIn d s.folder s.namespaceName).1.map FileBlobs.blobs = .ok blobs

/-- Where a blob file persists, it is complete under the same path. -/
theorem Persists.complete (h : s.Persists next) (hlater : next.Complete d blobs) :
    s.Complete d blobs where
  file := by
    rw [← h.file_eq]
    exact hlater.file
  opens := by
    rw [← h.folder, ← h.namespaceName]
    exact hlater.opens

/-- What has been saved is there whatever the temporary file holds. -/
theorem Drafted.persists (hname : isNamespace s.namespaceName = true) (h : s.Drafted d) :
    s.Persists { s with directory := d } := by
  rcases h with rfl | ⟨text, hwrite⟩
  · exact .refl s
  · obtain ⟨stem, hleads, hpath, hagree⟩ := leads_of_write hname hwrite
    have hfile := (staysOff_temporaryPlace hname hleads).find? hagree
    refine ⟨rfl, rfl, hfile, ?_⟩
    have hload : load d s.folder s.namespaceName = load s.directory s.folder s.namespaceName := by
      have hpath : join s.folder (fileName s.namespaceName) = s.file := rfl
      rw [load, load, hpath, hfile]
    show (openIn d s.folder s.namespaceName).1.map FileBlobs.blobs =
      (openIn s.directory s.folder s.namespaceName).1.map FileBlobs.blobs
    rw [openIn_of_leads hname hpath hleads,
      openIn_of_leads hname hpath (foldlM_enter_of_keeps hagree.keeps hleads), hload]

/-- After a save that succeeds the blob file is complete. -/
theorem complete_of_save (hname : isNamespace s.namespaceName = true)
    (h : s.save = (.ok (), next)) :
    next = { s with directory := next.directory, dirty := false } ∧
      s.Complete next.directory s.blobs := by
  obtain ⟨stem, hplaces⟩ := exists_places_of_save hname h
  rw [hplaces.save] at h
  cases h
  have hleads := hplaces.file.leads
  rw [partsOf_file hname, List.dropLast_concat] at hleads
  refine ⟨rfl, hplaces.find?_file, ?_⟩
  rw [openIn_of_leads hname (isPath_of_join hplaces.file_path)
    (foldlM_enter_of_keeps hplaces.keeps_saved hleads)]
  exact hplaces.load

/-- Whatever is seen of a save, an opening finds the blobs that were saved before or those that are
being saved. -/
theorem views_complete (hname : isNamespace s.namespaceName = true) (h : d ∈ s.views host) :
    s.Persists { s with directory := d } ∨ s.Complete d s.blobs := by
  rcases mem_views h with hdrafted | hsave
  · exact Or.inl (hdrafted.persists hname)
  · exact Or.inr (complete_of_save hname hsave).2

end FileBlobs

namespace Hosted

open FileBlobs Gateway

variable {t next : Hosted} {call : BlobCall} {calls : List BlobCall}

/-- A flush on a host fails and leaves what has been saved, with its changes still to be saved; or
there are none; or it is a save that succeeds. -/
theorem flush_cases (hname : isNamespace t.store.namespaceName = true) :
    (∃ e, (BlobStore.flush t).1 = .failed e ∧ t.store.Persists (BlobStore.flush t).2.store ∧
        (BlobStore.flush t).2.store.dirty = true) ∨
      (BlobStore.flush t = (.done (), t) ∧ t.store.dirty = false) ∨
      ((BlobStore.flush t).1 = .done () ∧
        t.store.save = (.ok (), (BlobStore.flush t).2.store)) := by
  simp only [BlobStore.flush]
  by_cases hdirty : t.store.dirty = true
  · rw [if_pos hdirty]
    rcases t.store.saveOn_cases (t.hosts.headD .steady) with
      ⟨e, d, hsave, hdrafted⟩ | ⟨hsave, hdone⟩
    · rw [hsave]
      exact Or.inl ⟨e, rfl, hdrafted.persists hname, hdirty⟩
    · rw [hsave]
      cases hanswer : t.store.save with
      | mk answer saved =>
        rw [hanswer] at hdone
        cases hdone
        exact Or.inr (Or.inr ⟨rfl, rfl⟩)
  · rw [if_neg hdirty]
    exact Or.inr (Or.inl ⟨rfl, by simpa using hdirty⟩)

/-- A flush that is not done fails. It leaves what has been saved, and its changes are still to be
saved. -/
theorem persists_flush (hname : isNamespace t.store.namespaceName = true)
    (h : (BlobStore.flush t).1 ≠ .done ()) :
    t.store.Persists (BlobStore.flush t).2.store ∧ (BlobStore.flush t).2.store.dirty = true := by
  rcases flush_cases hname with ⟨e, -, hpersists, hdirty⟩ | ⟨hdone, -⟩ | ⟨hdone, -⟩
  · exact ⟨hpersists, hdirty⟩
  · exact absurd (congrArg Prod.fst hdone) h
  · exact absurd hdone h

/-- A flush that is done has saved the changes, if there were any. -/
theorem complete_flush (hname : isNamespace t.store.namespaceName = true)
    (h : BlobStore.flush t = (.done (), next)) (hdirty : t.store.dirty = true) :
    t.store.Complete next.store.directory t.store.blobs ∧ next.store.blobs = t.store.blobs ∧
      next.store.dirty = false := by
  have hcases := flush_cases hname
  rw [h] at hcases
  rcases hcases with ⟨e, hfailed, -⟩ | ⟨-, hclean⟩ | ⟨-, hsave⟩
  · cases hfailed
  · rw [hdirty] at hclean
    cases hclean
  · obtain ⟨hnext, hcomplete⟩ := complete_of_save hname hsave
    refine ⟨hcomplete, ?_⟩
    rw [hnext]
    exact ⟨rfl, rfl⟩

/-! ### Calls without a flush that is done -/

/-- No flush in a list of calls is done. -/
def Unsaved (t : Hosted) : List BlobCall → Prop
  | [] => True
  | call :: rest =>
    (call = .flush → (BlobStore.flush t).1 ≠ .done ()) ∧ Unsaved (BlobStore.perform t call).2 rest

instance decidableUnsaved : (t : Hosted) → (calls : List BlobCall) → Decidable (t.Unsaved calls)
  | _, [] => inferInstanceAs (Decidable True)
  | t, call :: rest =>
    have := decidableUnsaved (BlobStore.perform t call).2 rest
    inferInstanceAs (Decidable
      ((call = .flush → (BlobStore.flush t).1 ≠ .done ()) ∧
        Unsaved (BlobStore.perform t call).2 rest))

/-- A call that is no flush, or a flush that fails, leaves what has been saved. If there are no
changes to be saved after it, it has made none, and there were none before. -/
theorem persists_perform (hname : isNamespace t.store.namespaceName = true)
    (h : call = .flush → (BlobStore.flush t).1 ≠ .done ()) :
    t.store.Persists (BlobStore.perform t call).2.store ∧
      ((BlobStore.perform t call).2.store.dirty = false →
        t.store.dirty = false ∧ (BlobStore.perform t call).2.store.blobs = t.store.blobs) := by
  cases call with
  | getAll => exact ⟨.refl _, fun hclean => ⟨hclean, rfl⟩⟩
  | get key => exact ⟨.refl _, fun hclean => ⟨hclean, rfl⟩⟩
  | put key blob => exact ⟨.of_blobs _ _ _, fun hclean => by cases hclean⟩
  | remove key =>
    refine ⟨.remove key t.store, ?_⟩
    show (BlobStore.remove key t.store).2.dirty = false →
      t.store.dirty = false ∧ (BlobStore.remove key t.store).2.blobs = t.store.blobs
    rw [remove_snd]
    split
    · exact fun hclean => by cases hclean
    · exact fun hclean => ⟨hclean, rfl⟩
  | flush =>
    obtain ⟨hpersists, hdirty⟩ := persists_flush hname (h rfl)
    refine ⟨hpersists, fun hclean => ?_⟩
    have hboth : true = false := hdirty.symm.trans hclean
    cases hboth

/-- As long as no flush is done, what has been saved before is there. If there are no changes to be
saved in the end, none was made. -/
theorem persists_after (hname : isNamespace t.store.namespaceName = true)
    (h : t.Unsaved calls) :
    t.store.Persists (BlobStore.after t calls).store ∧
      ((BlobStore.after t calls).store.dirty = false →
        t.store.dirty = false ∧ (BlobStore.after t calls).store.blobs = t.store.blobs) := by
  induction calls generalizing t with
  | nil => exact ⟨.refl _, fun hclean => ⟨hclean, rfl⟩⟩
  | cons call rest ih =>
    obtain ⟨hfirst, hrest⟩ := h
    obtain ⟨hone, hchanged⟩ := persists_perform hname hfirst
    have hnext : isNamespace (BlobStore.perform t call).2.store.namespaceName = true := by
      rw [hone.namespaceName]
      exact hname
    obtain ⟨hall, hlater⟩ := ih hnext hrest
    refine ⟨hone.trans hall, fun hclean => ?_⟩
    obtain ⟨hcleanOne, hsame⟩ := hlater hclean
    obtain ⟨hbefore, hsameOne⟩ := hchanged hcleanOne
    exact ⟨hbefore, hsame.trans hsameOne⟩

/-- A call changes the blobs like a call on a blob store in memory, whether it fails or not. -/
theorem blobs_perform (t : Hosted) (call : BlobCall) :
    (BlobStore.perform t call).2.store.blobs =
      (BlobStore.perform (MemoryBlobs.mk t.store.blobs) call).2.blobs := by
  cases call with
  | getAll => rfl
  | get key => rfl
  | put key blob => rfl
  | remove key => exact blobs_remove key t.store
  | flush => exact LawfulBlobs.contents_flush t

/-- Calls change the blobs like those on a blob store in memory, whichever of them fail. -/
theorem blobs_after (t : Hosted) (calls : List BlobCall) :
    (BlobStore.after t calls).store.blobs =
      (BlobStore.after (MemoryBlobs.mk t.store.blobs) calls).blobs := by
  induction calls generalizing t with
  | nil => rfl
  | cons call rest ih =>
    have hone := blobs_perform t call
    have hrest := ih (BlobStore.perform t call).2
    rw [hone] at hrest
    exact hrest

/-! ### Commits that fail -/

/-- All calls but a flush leave what has been saved. -/
theorem kept_persists (s : FileBlobs) : BlobStore.Kept fun t : Hosted => s.Persists t.store where
  getAll _ h := h
  put _ _ _ h := h.trans (.of_blobs _ _ _)
  remove key t h := h.trans (.remove key t.store)

/-- A flush that ends a commit in failure leaves what has been saved. -/
theorem persists_flushed {x : Outcome CommitReport × Hosted}
    (hname : isNamespace x.2.store.namespaceName = true) (h : (flushed x).1.isDone = false) :
    x.2.store.Persists (flushed x).2.store := by
  obtain ⟨outcome, left⟩ := x
  cases outcome with
  | failed e => exact .refl _
  | abandoned why => exact .refl _
  | done report =>
    have hcases := flush_cases hname
    simp only [flushed] at h ⊢
    cases hflush : BlobStore.flush left with
    | mk answer last =>
      simp only [hflush] at hcases h ⊢
      rcases hcases with ⟨e, rfl, hpersists, -⟩ | ⟨hdone, -⟩ | ⟨rfl, -⟩
      · exact hpersists
      · cases hdone
        cases h
      · cases h

section Commits

variable {entryOrder : Visits Entry} {blobOrder : Visits String} {defaultTtl : Option UInt64}
variable {budget : Nat} {pruning : Bool} {now : Timestamp} {store trimmed : Store}
variable {outcome : Outcome CommitReport} {e : CacheError}

/-- A commit ends in a flush, and before that it only writes and deletes blobs in memory. -/
theorem commit_cases
    (h : commitThrough entryOrder blobOrder defaultTtl budget pruning now store t =
      (outcome, trimmed, next)) :
    (outcome = .abandoned .endless ∧ next = t) ∨
      ∃ before, flushed before = (outcome, next) ∧ t.store.Persists before.2.store ∧
        ∀ e, before.1 ≠ .failed e := by
  rcases commitThrough_cases h with ⟨-, hendless, -, hsame⟩ | ⟨evicted, -, hlast⟩
  · exact Or.inl ⟨hendless, hsame⟩
  · refine Or.inr ⟨_, hlast, kept_unflushed blobOrder (kept_persists t.store) (.refl t.store), ?_⟩
    intro e hfailed
    obtain ⟨s, hlist⟩ := failure_of_unflushed hfailed
    cases hlist

/-- A commit that is not done leaves what has been saved. -/
theorem persists_commit (hname : isNamespace t.store.namespaceName = true)
    (h : commitThrough entryOrder blobOrder defaultTtl budget pruning now store t =
      (outcome, trimmed, next)) (hfail : outcome.isDone = false) :
    t.store.Persists next.store := by
  rcases commit_cases h with ⟨-, rfl⟩ | ⟨before, hlast, hbefore, -⟩
  · exact .refl _
  · rw [← hbefore.namespaceName] at hname
    have hflushed := persists_flushed hname (by rw [hlast]; exact hfail)
    rw [hlast] at hflushed
    exact hbefore.trans hflushed

/-- A commit that fails leaves its changes still to be saved. -/
theorem dirty_commit (hname : isNamespace t.store.namespaceName = true)
    (h : commitThrough entryOrder blobOrder defaultTtl budget pruning now store t =
      (.failed e, trimmed, next)) :
    next.store.dirty = true := by
  rcases commit_cases h with ⟨hendless, -⟩ | ⟨before, hlast, hbefore, hne⟩
  · cases hendless
  · rcases failure_of_flushed (congrArg Prod.fst hlast) with hfailed | hflush
    · exact absurd hfailed (hne e)
    · rw [← hbefore.namespaceName] at hname
      have hdirty := persists_flush hname (by rw [hflush]; exact fun h => by cases h)
      rw [hflush, hlast] at hdirty
      exact hdirty.2

/-- A commit that fails has written and deleted the blobs in memory all the same. -/
theorem find?_blobs_commit
    (h : commitThrough entryOrder blobOrder defaultTtl budget pruning now store t =
      (.failed e, trimmed, next)) (key : String) :
    next.store.blobs.find? key =
      (freshBlob? defaultTtl now (trimmed.find? key)).or
        (if pruning then none else t.store.blobs.find? key) := by
  cases htrim : store.trim budget with
  | none =>
    rw [commitThrough, htrim] at h
    cases h
  | some result =>
    obtain ⟨evicted, left⟩ := result
    have hanswer := commitThrough_answers htrim
      (fun why => by rw [h]; exact fun h => by cases h) key
    have hleft : left = trimmed := by
      rw [commitThrough, htrim] at h
      exact congrArg (·.2.1) h
    rw [h, hleft] at hanswer
    simpa [writtenBlob?, Prunes, LawfulBlobs.fault, LawfulBlobs.contents] using hanswer

end Commits

/-- A flush that fails leaves the blob file and what an opening finds, and its changes stay to be
saved. However many flushes fail, the calls between them are kept, and no step of any flush shows a
blob file that is neither the saved one nor the complete new one. The next flush that is done saves
all changes. So a commit that fails leaves what an opening finds. -/
theorem failed_flush_loses_nothing (t : Hosted) (hname : isNamespace t.store.namespaceName = true) :
    (∀ e next, BlobStore.flush t = (.failed e, next) →
      t.store.Persists next.store ∧ next.store.blobs = t.store.blobs ∧ next.store.dirty = true) ∧
    (∀ calls, t.Unsaved calls →
      t.store.Persists (BlobStore.after t calls).store ∧
      (BlobStore.after t calls).store.blobs =
        (BlobStore.after (MemoryBlobs.mk t.store.blobs) calls).blobs ∧
      ((BlobStore.after t calls).store.dirty = false →
        t.store.dirty = false ∧ (BlobStore.after t calls).store.blobs = t.store.blobs) ∧
      (∀ host d, d ∈ (BlobStore.after t calls).store.views host →
        t.store.Persists { (BlobStore.after t calls).store with directory := d } ∨
          t.store.Complete d (BlobStore.after t calls).store.blobs) ∧
      ∀ last, BlobStore.flush (BlobStore.after t calls) = (.done (), last) →
        (BlobStore.after t calls).store.dirty = true →
        t.store.Complete last.store.directory (BlobStore.after t calls).store.blobs ∧
          last.store.blobs = (BlobStore.after t calls).store.blobs ∧
          last.store.dirty = false) ∧
    ∀ (entryOrder : Visits Entry) (blobOrder : Visits String) (defaultTtl : Option UInt64)
      (budget : Nat) (pruning : Bool) (now : Timestamp) (store trimmed : Store)
      (outcome : Outcome CommitReport) (next : Hosted),
      commitThrough entryOrder blobOrder defaultTtl budget pruning now store t =
        (outcome, trimmed, next) →
      (outcome.isDone = false → t.store.Persists next.store) ∧
      ∀ e, outcome = .failed e →
        next.store.dirty = true ∧ ∀ key, next.store.blobs.find? key =
          (freshBlob? defaultTtl now (trimmed.find? key)).or
            (if pruning then none else t.store.blobs.find? key) := by
  refine ⟨fun e next hflush => ?_, fun calls hunsaved => ?_, ?_⟩
  · have hpersists := persists_flush hname (by rw [hflush]; exact fun h => by cases h)
    have hblobs := LawfulBlobs.contents_flush t
    rw [hflush] at hpersists hblobs
    exact ⟨hpersists.1, hblobs, hpersists.2⟩
  · obtain ⟨hpersists, hclean⟩ := persists_after hname hunsaved
    have hlater : isNamespace (BlobStore.after t calls).store.namespaceName = true := by
      rw [hpersists.namespaceName]
      exact hname
    refine ⟨hpersists, blobs_after t calls, hclean, fun host d hseen => ?_,
      fun last hflush hdirty => ?_⟩
    · exact (views_complete hlater hseen).imp hpersists.trans hpersists.complete
    · obtain ⟨hcomplete, hrest⟩ := complete_flush hlater hflush hdirty
      exact ⟨hpersists.complete hcomplete, hrest⟩
  · intro entryOrder blobOrder defaultTtl budget pruning now store trimmed outcome next hcommit
    refine ⟨persists_commit hname hcommit, ?_⟩
    rintro e rfl
    exact ⟨dirty_commit hname hcommit, find?_blobs_commit hcommit⟩

/-- A blob file on a host that breaks off two saves: one while the temporary file is written, and
one before it is moved. -/
def interrupted : Hosted where
  store := fromSeeded
  hosts := [⟨[some "", some "\x7b\"a"], some (.writing, none)⟩, ⟨[], some (.moving, some "busy")⟩]

/-- Changes whose saves are broken off. -/
def attempts : List BlobCall := [.put "c" "new", .flush, .remove "b", .flush, .put "a" "last"]

/-- The third flush saves the changes before the first one, those between them and the last one. -/
theorem failed_flush_loses_nothing_twice :
    isNamespace interrupted.store.namespaceName = true ∧ interrupted.Unsaved attempts ∧
      BlobStore.answers interrupted attempts =
        [.done .done, .failed (.io none), .done .done, .failed (.io (some "busy")), .done .done] ∧
      interrupted.store.Persists (BlobStore.after interrupted attempts).store ∧
      ∃ last, BlobStore.flush (BlobStore.after interrupted attempts) = (.done (), last) ∧
        interrupted.store.Complete last.store.directory
          (((∅ : BlobMap).insert "c" "new").insert "a" "last") := by
  have hname : isNamespace interrupted.store.namespaceName = true := by decide +kernel
  have hunsaved : interrupted.Unsaved attempts := by decide +kernel
  have hanswers : BlobStore.answers interrupted attempts =
      [.done .done, .failed (.io none), .done .done, .failed (.io (some "busy")), .done .done] := by
    decide +kernel
  have hdirty : (BlobStore.after interrupted attempts).store.dirty = true := by decide +kernel
  have hmemory : (BlobStore.after (MemoryBlobs.mk interrupted.store.blobs) attempts).blobs =
      ((∅ : BlobMap).insert "c" "new").insert "a" "last" := by decide +kernel
  have hdone : (BlobStore.flush (BlobStore.after interrupted attempts)).1 = .done () := by
    decide +kernel
  obtain ⟨-, hcalls, -⟩ := failed_flush_loses_nothing interrupted hname
  obtain ⟨hpersists, hblobs, -, -, hlast⟩ := hcalls attempts hunsaved
  rw [hblobs, hmemory] at hlast
  generalize BlobStore.flush (BlobStore.after interrupted attempts) = result at hdone hlast ⊢
  obtain ⟨answer, last⟩ := result
  obtain rfl : answer = .done () := hdone
  exact ⟨hname, hunsaved, hanswers, hpersists, last, rfl, (hlast last rfl hdirty).1⟩

end Hosted

end DurableCache
