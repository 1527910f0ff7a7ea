import DurableCache.Proofs.Blobs.Namespaces
import DurableCache.Proofs.Gateway.Durable
import DurableCache.Proofs.Gateway.Failures

/-!
# Namespaces whose files have long names

A namespace is opened by the name of its blob file and saved under the longer name of the temporary
file. If that name fits as well, no flush fails, whatever is written and deleted. If only the first
one fits, the namespace opens and no change is ever saved: every flush of a change fails, and with
it every commit that has an entry to write (`flushes_done_iff_short`).
-/

namespace DurableCache.FileBlobs

open Directory Gateway

variable {s next : FileBlobs} {d left : Directory} {folder name : String} {stem : Place}
variable {blobs : BlobMap} {calls : List BlobCall}

/-! ### Names and paths that fit -/

/-- The temporary file of a namespace has a name of its own, which fits: it is that of the namespace
and nine bytes more, of 255 at most. -/
def Short (name : String) : Prop := name ≠ "." ∧ name.utf8ByteSize ≤ 246

instance (name : String) : Decidable (Short name) :=
  inferInstanceAs (Decidable (name ≠ "." ∧ name.utf8ByteSize ≤ 246))

/-- A blob file's name fits if the namespace has at most 250 bytes. -/
theorem isName_fileName_iff :
    isName (fileName name) = true ↔ name.utf8ByteSize ≤ 250 ∧ '\x00' ∉ name.toList := by
  have hextension : '\x00' ∉ ".json".toList := by decide
  have hsize : ".json".utf8ByteSize = 5 := by decide
  simp only [isName, fileName, longestName, Bool.and_eq_true, decide_eq_true_eq,
    Bool.not_eq_true', List.contains_eq_mem, decide_eq_false_iff_not, String.utf8ByteSize_append,
    String.toList_append, List.mem_append, hextension, hsize, or_false]
  apply and_congr_left
  intro _
  omega

/-- A temporary file's name fits if the namespace has at most 246 bytes. -/
theorem isName_temporaryName_iff (hdot : name ≠ ".") :
    isName (temporaryName name) = true ↔ name.utf8ByteSize ≤ 246 ∧ '\x00' ∉ name.toList := by
  have hextension : '\x00' ∉ ".json.tmp".toList := by decide
  have hsize : ".json.tmp".utf8ByteSize = 9 := by decide
  simp only [isName, temporaryName, if_neg hdot, longestName, Bool.and_eq_true,
    decide_eq_true_eq, Bool.not_eq_true', List.contains_eq_mem, decide_eq_false_iff_not,
    String.utf8ByteSize_append, String.toList_append, List.mem_append, hextension, hsize,
    or_false]
  apply and_congr_left
  intro _
  omega

/-- A path has the zero character if one of its parts has it. -/
theorem zero_not_mem_join :
    '\x00' ∉ (join folder name).toList ↔ '\x00' ∉ folder.toList ∧ '\x00' ∉ name.toList := by
  unfold join
  split
  · simp
  · simp

/-- The path of a name does not end in a slash if the name does not. -/
theorem endsInSlash_join {last : Char} (h : name.toList.getLast? = some last)
    (hslash : last ≠ '/') :
    endsInSlash (join folder name) = false := by
  unfold endsInSlash join
  split
  · simp [List.getLast?_append, h, hslash]
  · simp [List.getLast?_append, List.getLast?_cons, h, hslash]

/-! ### What an opening has found -/

/-- A blob file that can be loaded has a name and a path that fit, and is no directory. -/
theorem Seated.of_load (h : s.Seated stem)
    (hload : load s.directory s.folder s.namespaceName = .ok blobs) :
    isPath s.file = true ∧ s.directory.Names (partsOf s.file) stem (fileName s.namespaceName) ∧
      s.directory.nodeAt? (s.filePlace stem) ≠ some .directory := by
  have hfind : ∃ node, s.directory.find? s.file = .ok node ∧ node ≠ some .directory := by
    have hpath : join s.folder (fileName s.namespaceName) = s.file := rfl
    rw [load, hpath] at hload
    cases hnode : s.directory.find? s.file with
    | error why =>
      rw [hnode] at hload
      cases hload
    | ok node =>
      rw [hnode] at hload
      refine ⟨node, rfl, ?_⟩
      rintro rfl
      cases hload
  obtain ⟨node, hfound, hfree⟩ := hfind
  have hpath : isPath s.file = true := by
    by_contra hlong
    rw [Directory.find?, locate, if_neg hlong] at hfound
    cases hfound
  have hleads : (partsOf s.file).dropLast.foldlM s.directory.enter [] = .ok stem := by
    rw [partsOf_file h.named, List.dropLast_concat]
    exact foldlM_enter_of_follow h.leads
  have hlast : (partsOf s.file).getLast? = some (fileName s.namespaceName) := by
    rw [partsOf_file h.named, List.getLast?_concat]
  obtain ⟨hdot, hdots⟩ := fileName_ne_dots s.namespaceName
  have hvalid : isName (fileName s.namespaceName) = true := by
    by_contra hlong
    rw [Bool.not_eq_true] at hlong
    simp only [Directory.find?, locate, hpath, if_true, follow, hlast, hleads, Except.bind, hdot,
      hdots, hlong, if_false, Bool.not_false] at hfound
    cases hfound
  have hnames : s.directory.Names (partsOf s.file) stem (fileName s.namespaceName) :=
    ⟨hleads, hlast, hdot, hdots, hvalid⟩
  refine ⟨hpath, hnames, ?_⟩
  rw [Directory.find?, hnames.locate hpath] at hfound
  cases hfound
  exact hfree

/-- A namespace that has been opened has its places if the temporary file has a name that fits and
no directory is in its place. -/
theorem Seated.places (h : s.Seated stem)
    (hload : load s.directory s.folder s.namespaceName = .ok blobs)
    (hshort : Short s.namespaceName) (hlength : s.temporaryFile.utf8ByteSize ≤ longestPath)
    (hfree : s.directory.find? s.temporaryFile ≠ .ok (some .directory)) : s.Places stem := by
  obtain ⟨hdot, hsize⟩ := hshort
  obtain ⟨hpath, hfile, hfileFree⟩ := h.of_load hload
  have hzero : '\x00' ∉ s.namespaceName.toList := (isName_fileName_iff.mp hfile.valid).2
  have hfolder : '\x00' ∉ s.folder.toList := by
    simp only [isPath, Bool.and_eq_true, Bool.not_eq_true', List.contains_eq_mem,
      decide_eq_false_iff_not] at hpath
    exact (zero_not_mem_join.mp hpath.2).1
  have hvalid : isName (temporaryName s.namespaceName) = true :=
    (isName_temporaryName_iff hdot).mpr ⟨hsize, hzero⟩
  have htemporaryPath : isPath s.temporaryFile = true := by
    have hname : '\x00' ∉ (temporaryName s.namespaceName).toList := by
      simpa [isName] using And.right (by simpa [isName] using hvalid)
    simp only [isPath, Bool.and_eq_true, decide_eq_true_eq, Bool.not_eq_true',
      List.contains_eq_mem, decide_eq_false_iff_not]
    exact ⟨hlength, zero_not_mem_join.mpr ⟨hfolder, hname⟩⟩
  have htemporary :
      s.directory.Names (partsOf s.temporaryFile) stem (temporaryName s.namespaceName) := by
    obtain ⟨hne, hdots⟩ := temporaryName_ne_dots hdot
    refine ⟨?_, ?_, hne, hdots, hvalid⟩
    · rw [partsOf_temporaryFile h.named, List.dropLast_concat]
      exact foldlM_enter_of_follow h.leads
    · rw [partsOf_temporaryFile h.named, List.getLast?_concat]
  have htemporaryFree : s.directory.nodeAt? (s.temporaryPlace stem) ≠ some .directory := by
    intro hdirectory
    rw [Directory.find?, htemporary.locate htemporaryPath] at hfree
    exact hfree (congrArg Except.ok hdirectory)
  have hlast : (temporaryName s.namespaceName).toList.getLast? = some 'p' := by
    simp [temporaryName, hdot]
  have hfileLast : (fileName s.namespaceName).toList.getLast? = some 'n' := by simp [fileName]
  exact ⟨htemporary, hfile, htemporaryFree, hfileFree, htemporaryPath, hpath,
    endsInSlash_join hlast (by decide), endsInSlash_join hfileLast (by decide)⟩

/-! ### Calls on a blob file that has its places -/

/-- A call on a blob file that has its places is done and leaves it its places. -/
theorem Places.perform (h : s.Places stem) (call : BlobCall) :
    (BlobStore.perform s call).1.isDone = true ∧ (BlobStore.perform s call).2.Places stem := by
  cases call with
  | getAll => exact ⟨rfl, h⟩
  | get key => exact ⟨rfl, h⟩
  | put key blob => exact ⟨rfl, h.of_blobs _ _⟩
  | remove key =>
    show ((BlobStore.remove key s).1.map _).isDone = true ∧ (BlobStore.remove key s).2.Places stem
    rw [remove_fst, remove_snd]
    refine ⟨rfl, ?_⟩
    split
    · exact h.of_blobs _ _
    · exact h
  | flush =>
    show ((BlobStore.flush s).1.map _).isDone = true ∧ (BlobStore.flush s).2.Places stem
    rw [flush_fst, flush_snd, h.save]
    split
    · exact ⟨rfl, h.of_save⟩
    · exact ⟨rfl, h⟩

/-- All calls on a blob file that has its places are done, and it has them after these calls. -/
theorem Places.run (h : s.Places stem) (calls : List BlobCall) :
    BlobStore.AllDone s calls ∧ (BlobStore.after s calls).Places stem := by
  induction calls generalizing s with
  | nil => exact ⟨fun outcome hmem => (List.not_mem_nil hmem).elim, h⟩
  | cons call rest ih =>
    obtain ⟨hdone, hnext⟩ := h.perform call
    obtain ⟨hrest, hafter⟩ := ih hnext
    refine ⟨?_, hafter⟩
    intro outcome hmem
    rcases List.mem_cons.mp hmem with rfl | hmem
    · exact hdone
    · exact hrest outcome hmem

/-! ### Saves under a name that does not fit -/

/-- No blob file is saved whose temporary file has no name that fits. -/
theorem save_of_not_short (hname : isNamespace s.namespaceName = true)
    (hlong : ¬ Short s.namespaceName) : s.save = (.error unusable, s) := by
  unfold FileBlobs.save
  split
  · rfl
  · rename_i written hwrite
    exfalso
    obtain ⟨stem, title, hnames, -⟩ := write_ok hwrite
    have hlast := hnames.last
    rw [partsOf_temporaryFile hname, List.getLast?_concat] at hlast
    obtain rfl := Option.some.inj hlast
    apply hlong
    have hdot : s.namespaceName ≠ "." := fun hdot => hnames.ne_dots (if_pos hdot)
    exact ⟨hdot, ((isName_temporaryName_iff hdot).mp hnames.valid).1⟩

/-- A blob file that opens and cannot be saved. -/
structure Unsavable (s : FileBlobs) : Prop where
  named : isNamespace s.namespaceName = true
  long : ¬ Short s.namespaceName

namespace Unsavable

/-- A flush fails if there is something to save, and changes nothing. -/
theorem flush (h : s.Unsavable) :
    BlobStore.flush s = (if s.dirty then .failed unusable else .done (), s) := by
  refine Prod.ext ?_ ?_
  · rw [flush_fst, save_of_not_short h.named h.long]
  · rw [flush_snd, save_of_not_short h.named h.long]
    exact ite_self s

/-- No call but a flush changes the name, and what is to be saved stays to be saved. -/
theorem kept (s : FileBlobs) :
    BlobStore.Kept fun t : FileBlobs => t.Unsavable ∧ (t = s ∨ t.dirty = true) where
  getAll _ h := h
  put _ _ _ h := ⟨⟨h.1.named, h.1.long⟩, Or.inr rfl⟩
  remove key t h := by
    rw [remove_snd]
    split
    · exact ⟨⟨h.1.named, h.1.long⟩, Or.inr rfl⟩
    · exact h

/-- A call that changes nothing and is no write. -/
theorem of_other {call : BlobCall} (hcall : ∀ key blob, call ≠ .put key blob)
    (h : s.dirty = true ∨ ∃ key blob, call = .put key blob) : s.dirty = true := by
  rcases h with hdirty | ⟨key, blob, hput⟩
  · exact hdirty
  · exact absurd hput (hcall key blob)

/-- A call leaves a blob file that cannot be saved, and its changes are still to be saved. -/
theorem perform (h : s.Unsavable) (call : BlobCall) :
    (BlobStore.perform s call).2.Unsavable ∧
      (s.dirty = true ∨ (∃ key blob, call = .put key blob) →
        (BlobStore.perform s call).2.dirty = true) := by
  cases call with
  | getAll => exact ⟨h, of_other (fun _ _ hput => by cases hput)⟩
  | get key => exact ⟨h, of_other (fun _ _ hput => by cases hput)⟩
  | put key blob => exact ⟨⟨h.named, h.long⟩, fun _ => rfl⟩
  | remove key =>
    obtain ⟨hstays, hdirty⟩ := (kept s).remove key s ⟨h, Or.inl rfl⟩
    refine ⟨hstays, ?_⟩
    rintro (hbefore | ⟨key, blob, hput⟩)
    · rcases hdirty with hsame | hdirty
      · show (BlobStore.remove key s).2.dirty = true
        rw [hsame]
        exact hbefore
      · exact hdirty
    · cases hput
  | flush =>
    have hsame : (BlobStore.perform s .flush).2 = s := congrArg Prod.snd h.flush
    rw [hsame]
    exact ⟨h, of_other (fun _ _ hput => by cases hput)⟩

/-- After any calls the blob file cannot be saved, and once a blob has been written there is
something to save. -/
theorem after (h : s.Unsavable) (calls : List BlobCall) :
    (BlobStore.after s calls).Unsavable ∧
      (s.dirty = true ∨ (∃ key blob, .put key blob ∈ calls) →
        (BlobStore.after s calls).dirty = true) := by
  induction calls generalizing s with
  | nil =>
    refine ⟨h, ?_⟩
    rintro (hdirty | ⟨key, blob, hput⟩)
    · exact hdirty
    · exact (List.not_mem_nil hput).elim
  | cons call rest ih =>
    obtain ⟨hnext, hone⟩ := h.perform call
    obtain ⟨hlast, hrest⟩ := ih hnext
    refine ⟨hlast, ?_⟩
    rintro (hdirty | ⟨key, blob, hput⟩)
    · exact hrest (Or.inl (hone (Or.inl hdirty)))
    · rcases List.mem_cons.mp hput with rfl | hput
      · exact hrest (Or.inl (hone (Or.inr ⟨key, blob, rfl⟩)))
      · exact hrest (Or.inr ⟨key, blob, hput⟩)

/-- A write and a flush after it are not both done. -/
theorem not_allDone (h : s.Unsavable) {key blob : String} :
    ¬ BlobStore.AllDone s [.put key blob, .flush] := by
  intro hall
  obtain ⟨hnext, hdirty⟩ := h.perform (.put key blob)
  have hanswer : BlobStore.flush (BlobStore.perform s (.put key blob)).2 =
      (.failed unusable, (BlobStore.perform s (.put key blob)).2) := by
    rw [hnext.flush, if_pos (hdirty (Or.inr ⟨key, blob, rfl⟩))]
  have hflush : (BlobStore.perform (BlobStore.perform s (.put key blob)).2 .flush).1.isDone =
      true := hall _ (List.mem_cons_of_mem _ List.mem_cons_self)
  simp only [BlobStore.perform] at hanswer hflush
  rw [hanswer] at hflush
  cases hflush

end Unsavable

/-! ### Commits -/

section Commits

variable {entryOrder : Visits Entry} {blobOrder : Visits String} {defaultTtl : Option UInt64}
variable {budget : Nat} {pruning : Bool} {now : Timestamp} {store trimmed : Store}
variable {outcome : Outcome CommitReport} {report : CommitReport} {e : CacheError}

/-- A blob file lists its blobs without fail, so nothing before the flush of a commit fails. -/
theorem beforeFlush_ne_failed {evicted : List String} :
    (beforeFlush entryOrder blobOrder defaultTtl pruning now evicted trimmed s).1 ≠ .failed e := by
  intro hfailed
  obtain ⟨t, hlist⟩ := failure_of_unflushed hfailed
  cases hlist

/-- No commit to a blob file that has its places fails. -/
theorem Places.commit_ne_failed (h : s.Places stem) :
    (commitThrough entryOrder blobOrder defaultTtl budget pruning now store s).1 ≠ .failed e := by
  intro hfailed
  cases hcommit : commitThrough entryOrder blobOrder defaultTtl budget pruning now store s with
  | mk outcome rest =>
    obtain ⟨trimmed, next⟩ := rest
    rw [hcommit] at hfailed
    obtain rfl : outcome = .failed e := hfailed
    rcases commitThrough_cases hcommit with ⟨-, hendless, -⟩ | ⟨evicted, -, hlast⟩
    · cases hendless
    · rcases failure_of_flushed (congrArg Prod.fst hlast) with hbefore | hflush
      · exact beforeFlush_ne_failed hbefore
      · have hproven : DurableBlobs.Proven
            (beforeFlush entryOrder blobOrder defaultTtl pruning now evicted trimmed s).2 :=
          kept_beforeFlush entryOrder blobOrder DurableBlobs.kept_proven ⟨stem, h⟩
        have hdone := DurableBlobs.flush_of_proven hproven
        rw [hflush] at hdone
        cases hdone

/-- A commit to a blob file that cannot be saved is done only if there is nothing to save. -/
theorem Unsavable.commit_done (h : s.Unsavable)
    (hcommit : commitThrough entryOrder blobOrder defaultTtl budget pruning now store s =
      (.done report, trimmed, next)) :
    next = s ∧ s.dirty = false ∧
      ∀ key, freshBlob? defaultTtl now (trimmed.find? key) = none := by
  rcases commitThrough_cases hcommit with ⟨-, hendless, -⟩ | ⟨evicted, -, hlast⟩
  · cases hendless
  · cases hbefore : beforeFlush entryOrder blobOrder defaultTtl pruning now evicted trimmed s with
    | mk outcome left =>
      have hsecond : left =
          (beforeFlush entryOrder blobOrder defaultTtl pruning now evicted trimmed s).2 := by
        rw [hbefore]
      obtain ⟨hleft, hchanged⟩ : left.Unsavable ∧ (left = s ∨ left.dirty = true) := by
        rw [hsecond]
        exact kept_beforeFlush entryOrder blobOrder (kept s) ⟨h, Or.inl rfl⟩
      rw [hbefore] at hlast
      cases outcome with
      | failed e => cases hlast
      | abandoned why => cases hlast
      | done counted =>
        have hclean : left.dirty = false := by
          by_contra hdirty
          rw [Bool.not_eq_false] at hdirty
          simp only [flushed, hleft.flush, if_pos hdirty] at hlast
          cases hlast
        have hnext : next = left := by
          simp only [flushed, hleft.flush, hclean, Bool.false_eq_true, if_false] at hlast
          cases hlast
          rfl
        obtain rfl : left = s := by
          rcases hchanged with hsame | hdirty
          · exact hsame
          · rw [hclean] at hdirty
            cases hdirty
        refine ⟨hnext, hclean, ?_⟩
        rcases beforeFlush_pending hbefore with hpending | hnone
        · have hboth : true = false := Eq.trans (Eq.symm hpending) hclean
          cases hboth
        · exact hnone

end Commits

/-- There are namespaces of any length. -/
theorem exists_namespace (count : Nat) (h : 0 < count) :
    ∃ name, isNamespace name = true ∧ name.utf8ByteSize = count ∧ '\x00' ∉ name.toList := by
  refine ⟨String.ofList (List.replicate count 'a'), ?_, ?_, by simp⟩
  · simp [isNamespace, h.ne']
  · clear h
    induction count with
    | zero => rfl
    | succ count ih =>
      have hone : (String.singleton 'a').utf8ByteSize = 1 := by decide
      rw [List.replicate_succ, String.ofList_cons, String.utf8ByteSize_append, ih, hone,
        Nat.add_comm]

/-- In a directory without nodes nothing stands under a name that does not fit. -/
theorem find?_empty_temporaryFile (hname : isNamespace name = true)
    (hlong : isName (temporaryName name) = false) (hdot : name ≠ ".") (node : Node) :
    Directory.empty.find? (temporaryFile ⟨.empty, "", name, ∅, false⟩) ≠ .ok (some node) := by
  intro hfound
  obtain ⟨hne, hdots⟩ := temporaryName_ne_dots hdot
  have hparts := partsOf_temporaryFile (s := ⟨.empty, "", name, ∅, false⟩) hname
  have hempty : partsOf "" = [] := rfl
  have hfollow : Directory.empty.follow [temporaryName name] = .error .unusable := by
    simp [follow, Except.bind, pure, Except.pure, hne, hdots, hlong]
  rw [Directory.find?, locate, hparts, hempty, List.nil_append, hfollow] at hfound
  split at hfound
  · rename_i hlocated
    split at hlocated
    · cases hlocated
    · cases hlocated
  · cases hfound
  · cases hfound

/-- A namespace that opens, in a folder whose paths fit and where no directory has the name of its
temporary file, has at most 250 bytes. Every call on it is done, whatever was called before, if and
only if it has at most 246 bytes and is not the dot. Then no commit to it fails either. Otherwise
nothing is ever saved: from the first write on every flush fails, and a commit is done only if it
finds nothing to write and no change before it. -/
theorem flushes_done_iff_short (hopen : openIn d folder name = (.ok s, left))
    (hlength : s.temporaryFile.utf8ByteSize ≤ longestPath)
    (hfree : name ≠ "." → left.find? s.temporaryFile ≠ .ok (some .directory)) :
    name.utf8ByteSize ≤ 250 ∧
      ((∀ calls, BlobStore.AllDone s calls) ↔ Short name) ∧
      (Short name →
        ∀ calls entryOrder blobOrder defaultTtl budget pruning now store e,
          (commitThrough entryOrder blobOrder defaultTtl budget pruning now store
            (BlobStore.after s calls)).1 ≠ .failed e) ∧
      (¬ Short name → ∀ calls,
        ((∃ key blob, .put key blob ∈ calls) → (BlobStore.after s calls).dirty = true) ∧
        BlobStore.flush (BlobStore.after s calls) =
          (if (BlobStore.after s calls).dirty then .failed unusable else .done (),
            BlobStore.after s calls) ∧
        ∀ entryOrder blobOrder defaultTtl budget pruning now store report trimmed next,
          commitThrough entryOrder blobOrder defaultTtl budget pruning now store
            (BlobStore.after s calls) = (.done report, trimmed, next) →
          next = BlobStore.after s calls ∧ (BlobStore.after s calls).dirty = false ∧
            ∀ key, freshBlob? defaultTtl now (trimmed.find? key) = none) := by
  obtain ⟨rfl, rfl, rfl, stem, hseated⟩ := Seated.of_openIn hopen
  have hload := (holds_of_openIn hopen).loads
  obtain ⟨-, hfile, -⟩ := hseated.of_load hload
  have hplaces : Short s.namespaceName → s.Places stem := fun hshort =>
    hseated.places hload hshort hlength (hfree hshort.1)
  have hlong : ¬ Short s.namespaceName → s.Unsavable := fun hlong => ⟨hseated.named, hlong⟩
  refine ⟨(isName_fileName_iff.mp hfile.valid).1, ⟨?_, ?_⟩, ?_, ?_⟩
  · intro hall
    by_contra hnot
    -- A write and a flush are enough to see it.
    exact (hlong hnot).not_allDone (hall [.put "" "", .flush])
  · intro hshort calls
    exact ((hplaces hshort).run calls).1
  · intro hshort calls entryOrder blobOrder defaultTtl budget pruning now store e
    exact ((hplaces hshort).run calls).2.commit_ne_failed
  · intro hnot calls
    obtain ⟨hafter, hdirty⟩ := (hlong hnot).after calls
    refine ⟨fun hput => hdirty (Or.inr hput), hafter.flush, ?_⟩
    intro entryOrder blobOrder defaultTtl budget pruning now store report trimmed next hcommit
    exact hafter.commit_done hcommit

/-- A namespace whose blob file has a name that fits opens in a directory without nodes. -/
theorem openIn_empty (hname : isNamespace name = true) (hvalid : isName (fileName name) = true) :
    openIn .empty "" name = (.ok ⟨.empty, "", name, ∅, false⟩, .empty) := by
  have hmake : Directory.empty.makePath "" = (.ok (), .empty) := by decide
  have hfile : join "" (fileName name) = fileName name := String.empty_append
  have hpath : isPath (fileName name) = true := by
    unfold isName at hvalid
    unfold isPath
    rw [Bool.and_eq_true, decide_eq_true_eq] at hvalid ⊢
    exact ⟨hvalid.1.trans (by decide), hvalid.2⟩
  have hparts : partsOf (fileName name) = [fileName name] := by
    rw [← hfile]
    exact partsOf_file (s := ⟨.empty, "", name, ∅, false⟩) hname
  obtain ⟨hdot, hdots⟩ := fileName_ne_dots name
  have hnames : Directory.empty.Names (partsOf (fileName name)) [] (fileName name) := by
    rw [hparts]
    exact ⟨rfl, rfl, hdot, hdots, hvalid⟩
  have hload : load .empty "" name = .ok ∅ := by
    rw [load, hfile, Directory.find?, hnames.locate hpath]
    rfl
  simp only [openIn, hname, hmake, hload, Bool.not_true, Bool.false_eq_true, if_false]

/-- A namespace of few letters is saved after any calls. -/
theorem flushes_done_iff_short_cache :
    openIn seeded "data" "cache" = (.ok fromSeeded, seeded) ∧
      fromSeeded.temporaryFile.utf8ByteSize ≤ longestPath ∧
      seeded.find? fromSeeded.temporaryFile ≠ .ok (some .directory) ∧
      ∀ calls, BlobStore.AllDone fromSeeded calls := by
  have hopen : openIn seeded "data" "cache" = (.ok fromSeeded, seeded) := by decide +kernel
  have hlength : fromSeeded.temporaryFile.utf8ByteSize ≤ longestPath := by decide +kernel
  have hfree : seeded.find? fromSeeded.temporaryFile ≠ .ok (some .directory) := by decide +kernel
  obtain ⟨-, hiff, -⟩ := flushes_done_iff_short hopen hlength fun _ => hfree
  exact ⟨hopen, hlength, hfree, hiff.mpr (by decide)⟩

/-- A namespace of 247 bytes opens and is not saved. -/
theorem not_flushes_done :
    ¬ ∀ (d left : Directory) (folder name : String) (s : FileBlobs),
      openIn d folder name = (.ok s, left) → s.temporaryFile.utf8ByteSize ≤ longestPath →
      (∀ node, left.find? s.temporaryFile ≠ .ok (some node)) →
      ∀ calls, BlobStore.AllDone s calls := by
  intro hall
  obtain ⟨name, hname, hsize, hzero⟩ := exists_namespace 247 (by decide)
  have hdot : name ≠ "." := by
    rintro rfl
    cases hsize
  have hvalid : isName (fileName name) = true := isName_fileName_iff.mpr ⟨by omega, hzero⟩
  have hlong : isName (temporaryName name) = false := by
    rw [Bool.eq_false_iff]
    intro hfits
    have hbound := ((isName_temporaryName_iff hdot).mp hfits).1
    omega
  have hunsavable : Unsavable ⟨.empty, "", name, ∅, false⟩ := by
    refine ⟨hname, ?_⟩
    rintro ⟨-, hbound⟩
    have hbound : name.utf8ByteSize ≤ 246 := hbound
    omega
  refine hunsavable.not_allDone (hall .empty .empty "" name _ (openIn_empty hname hvalid) ?_
    (find?_empty_temporaryFile hname hlong hdot) [.put "k" "v", .flush])
  have hpath : join "" (temporaryName name) = temporaryName name := String.empty_append
  rw [temporaryFile, hpath, temporaryName, if_neg hdot, String.utf8ByteSize_append, hsize]
  decide

end DurableCache.FileBlobs
