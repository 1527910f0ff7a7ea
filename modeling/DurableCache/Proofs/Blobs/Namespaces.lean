import DurableCache.Proofs.Blobs.Agreement
import DurableCache.Proofs.Blobs.Refinement

/-!
# The files of a namespace

A blob file and its temporary file stand in one folder, under names that no other namespace has. One
namespace has no temporary file of its own: that of the dot would be the directory above the folder.
Whatever is called on a blob file, only these two files change, and only they are read.
-/

namespace DurableCache.FileBlobs

open Directory

variable {s : FileBlobs} {d e made left : Directory} {folder name other key : String} {stem : Place}
variable {keys : String → Prop}

/-! ### Names and paths -/

/-- A path names a node directly in a folder. -/
def IsChild (folder path : String) : Prop :=
  ∃ name, partsOf path = partsOf folder ++ [name] ∧ name ≠ "." ∧ name ≠ ".."

/-- The name of a blob file is not that of a directory above. -/
theorem fileName_ne_dots (name : String) : fileName name ≠ "." ∧ fileName name ≠ ".." := by
  have hlast : (fileName name).toList.getLast? = some 'n' := by simp [fileName]
  constructor
  · intro heq
    rw [heq] at hlast
    revert hlast
    decide
  · intro heq
    rw [heq] at hlast
    revert hlast
    decide

/-- The name of a temporary file is not that of a directory above, but for one namespace. -/
theorem temporaryName_ne_dots (h : name ≠ ".") :
    temporaryName name ≠ "." ∧ temporaryName name ≠ ".." := by
  have hlast : (temporaryName name).toList.getLast? = some 'p' := by simp [temporaryName, h]
  constructor
  · intro heq
    rw [heq] at hlast
    revert hlast
    decide
  · intro heq
    rw [heq] at hlast
    revert hlast
    decide

/-- Different namespaces have blob files of different names. -/
theorem fileName_inj : fileName name = fileName other ↔ name = other := by
  unfold fileName
  exact String.append_left_inj _

/-- Different namespaces have temporary files of different names. -/
theorem temporaryName_inj : temporaryName name = temporaryName other ↔ name = other := by
  constructor
  · intro heq
    by_cases hname : name = "."
    · by_cases hother : other = "."
      · rw [hname, hother]
      · have hdots : temporaryName name = ".." := if_pos hname
        exact absurd (heq.symm.trans hdots) (temporaryName_ne_dots hother).2
    · by_cases hother : other = "."
      · have hdots : temporaryName other = ".." := if_pos hother
        exact absurd (heq.trans hdots) (temporaryName_ne_dots hname).2
      · rw [temporaryName, if_neg hname, temporaryName, if_neg hother] at heq
        exact (String.append_left_inj _).mp heq
  · rintro rfl
    rfl

/-- Different names in a folder have different paths. -/
theorem join_inj {title heading : String} :
    join folder title = join folder heading ↔ title = heading := by
  unfold join
  split
  · exact String.append_right_inj _
  · exact String.append_right_inj _

/-- The blob file stands directly in its folder. -/
theorem isChild_file (h : isNamespace s.namespaceName = true) : IsChild s.folder s.file :=
  ⟨_, partsOf_file h, fileName_ne_dots _⟩

/-- The temporary file stands directly in its folder, but for one namespace. -/
theorem isChild_temporaryFile_iff (h : isNamespace s.namespaceName = true) :
    IsChild s.folder s.temporaryFile ↔ s.namespaceName ≠ "." := by
  constructor
  · rintro ⟨name, hparts, -, hdots⟩ hdot
    rw [partsOf_temporaryFile h, List.append_cancel_left_eq, List.cons.injEq] at hparts
    have hname : temporaryName s.namespaceName = ".." := if_pos hdot
    exact hdots (hparts.1.symm.trans hname)
  · intro hdot
    exact ⟨_, partsOf_temporaryFile h, temporaryName_ne_dots hdot⟩

/-! ### The places of a namespace -/

/-- The keys of the nodes that a namespace may write in the directory of its folder. -/
def OwnKey (name : String) (stem : Place) (key : String) : Prop :=
  key = pathOf (stem ++ [fileName name]) ∨
    name ≠ "." ∧ key = pathOf (stem ++ [temporaryName name])

/-- No blob file has a key of another namespace. -/
theorem fileName_not_ownKey (hne : name ≠ other) (stem : Place) :
    ¬ OwnKey other stem (pathOf (stem ++ [fileName name])) := by
  rintro (hkey | ⟨-, hkey⟩)
  · exact hne (fileName_inj.mp (pathOf_append_inj hkey))
  · exact temporaryName_ne_fileName _ _ (pathOf_append_inj hkey).symm

/-- No temporary file has a key of another namespace. -/
theorem temporaryName_not_ownKey (hne : name ≠ other) (stem : Place) :
    ¬ OwnKey other stem (pathOf (stem ++ [temporaryName name])) := by
  rintro (hkey | ⟨-, hkey⟩)
  · exact temporaryName_ne_fileName _ _ (pathOf_append_inj hkey)
  · exact hne (temporaryName_inj.mp (pathOf_append_inj hkey))

/-- A blob file in another directory. -/
def within (s : FileBlobs) (d : Directory) : FileBlobs := { s with directory := d }

/-- A blob file whose folder is there, at a known place. -/
structure Seated (s : FileBlobs) (stem : Place) : Prop where
  named : isNamespace s.namespaceName = true
  made : ∀ later, s.directory.Keeps later → later.makePath s.folder = (.ok (), later)
  leads : s.directory.follow (partsOf s.folder) = .ok (stem, some .directory)

namespace Seated

/-- The folder is still there as long as directories are kept. -/
theorem within (h : s.Seated stem) (hkeeps : s.directory.Keeps e) : (s.within e).Seated stem where
  named := h.named
  made later hlater := h.made later (hkeeps.trans hlater)
  leads := follow_directory_of_keeps hkeeps h.leads

/-- The path of the blob file stays off the keys of another namespace. -/
theorem staysOff_file (h : s.Seated stem) (hne : s.namespaceName ≠ other) :
    s.directory.StaysOff (OwnKey other stem) s.file stem where
  leads := by
    rw [partsOf_file h.named, List.dropLast_concat]
    exact foldlM_enter_of_follow h.leads
  apart name hlast := by
    rw [partsOf_file h.named, List.getLast?_concat] at hlast
    obtain rfl := Option.some.inj hlast
    exact fileName_not_ownKey hne stem

/-- The path of the temporary file stays off the keys of another namespace. -/
theorem staysOff_temporaryFile (h : s.Seated stem) (hne : s.namespaceName ≠ other) :
    s.directory.StaysOff (OwnKey other stem) s.temporaryFile stem where
  leads := by
    rw [partsOf_temporaryFile h.named, List.dropLast_concat]
    exact foldlM_enter_of_follow h.leads
  apart name hlast := by
    rw [partsOf_temporaryFile h.named, List.getLast?_concat] at hlast
    obtain rfl := Option.some.inj hlast
    exact temporaryName_not_ownKey hne stem

/-- A path of the namespace that ends in the name of a node ends in a node of its own. -/
theorem ownKey_of_names (h : s.Seated stem) (hkeeps : s.directory.Keeps d) {path title : String}
    {place : Place} (hpath : path = s.file ∨ path = s.temporaryFile)
    (hnames : d.Names (partsOf path) place title) :
    OwnKey s.namespaceName stem (pathOf (place ++ [title])) := by
  have hfolder := foldlM_enter_of_keeps hkeeps (foldlM_enter_of_follow h.leads)
  have hleads := hnames.leads
  have hlast := hnames.last
  rcases hpath with rfl | rfl
  · rw [partsOf_file h.named, List.dropLast_concat, hfolder] at hleads
    rw [partsOf_file h.named, List.getLast?_concat] at hlast
    obtain rfl := Except.ok.inj hleads
    obtain rfl := Option.some.inj hlast
    exact Or.inl rfl
  · rw [partsOf_temporaryFile h.named, List.dropLast_concat, hfolder] at hleads
    rw [partsOf_temporaryFile h.named, List.getLast?_concat] at hlast
    obtain rfl := Except.ok.inj hleads
    obtain rfl := Option.some.inj hlast
    exact Or.inr ⟨fun hdot => hnames.ne_dots (if_pos hdot), rfl⟩

/-- A save changes files of its own namespace alone. -/
theorem agreeOff_save (h : s.Seated stem) :
    s.directory.AgreeOff (OwnKey s.namespaceName stem) s.save.2.directory := by
  unfold FileBlobs.save
  split
  · exact .refl _ _
  · rename_i written hwrite
    obtain ⟨place, title, htemporary, htpath, -, htfree, rfl⟩ := write_ok hwrite
    have hkeeps := keeps_insert htfree (.file (some (encode s.blobs)))
    have hkey := h.ownKey_of_names (keeps_refl _) (Or.inr rfl) htemporary
    have hwritten := agreeOff_insert (some (encode s.blobs)) hkey htfree
    split
    · exact hwritten
    · rename_i saved hrename
      have hsource := (htemporary.of_keeps hkeeps).locate htpath
      rw [nodeAt?, Table.find?_insert_self] at hsource
      obtain ⟨both, hmove, rfl⟩ := rename_ok hsource hrename
      obtain ⟨place', title', hfile, -, -, hffree, rfl⟩ := write_ok hmove
      have htarget := h.ownKey_of_names hkeeps (Or.inl rfl) hfile
      have hboth := agreeOff_insert (some (encode s.blobs)) htarget hffree
      refine (hwritten.trans hboth).trans (agreeOff_erase hkey ?_)
      rw [Table.find?_insert]
      split
      · exact fun h => by cases h
      · rw [Table.find?_insert_self]
        exact fun h => by cases h

/-- The blob file of a folder that was made is seated. -/
theorem of_openIn (h : openIn d folder name = (.ok s, left)) :
    s.directory = left ∧ s.folder = folder ∧ s.namespaceName = name ∧ ∃ stem, s.Seated stem := by
  have hopened := opened_of_openIn h
  unfold openIn at h
  split at h
  · cases h
  · split at h
    · cases h
    · rename_i made hmake
      split at h
      · cases h
      · cases h
        obtain ⟨stem, hleads⟩ := leads_of_makePath hmake
        exact ⟨rfl, rfl, rfl, stem, hopened.named, hopened.made, hleads⟩

end Seated

/-! ### Calls on a blob file -/

/-- A call on an opened blob file, or an opening in its place. -/
inductive FileCall where
  | call (call : BlobCall)
  | reopen
  deriving DecidableEq, Repr

/-- What a call answers, or what an opening has loaded. -/
inductive FileReply where
  | answered (outcome : Outcome BlobReply)
  | reopened (loaded : Except CacheError BlobMap)

/-- Makes a call. If an opening fails the blob file stays as it was, in the directory that the
opening leaves behind. -/
def attempt (s : FileBlobs) : FileCall → FileReply × FileBlobs
  | .call call => (.answered (BlobStore.perform s call).1, (BlobStore.perform s call).2)
  | .reopen =>
    match openIn s.directory s.folder s.namespaceName with
    | (.ok opened, _) => (.reopened (.ok opened.blobs), opened)
    | (.error e, left) => (.reopened (.error e), s.within left)

/-- An opening again loads the file and leaves the directory as it is. -/
theorem Seated.attempt_reopen (h : s.Seated stem) :
    s.attempt .reopen =
      match load s.directory s.folder s.namespaceName with
      | .ok blobs => (.reopened (.ok blobs), { s with blobs, dirty := false })
      | .error e => (.reopened (.error e), s) := by
  have hmake := h.made s.directory (keeps_refl s.directory)
  simp only [FileBlobs.attempt, openIn, h.named, hmake, Bool.not_true, Bool.false_eq_true, if_false]
  cases load s.directory s.folder s.namespaceName with
  | ok blobs => rfl
  | error e => rfl

/-- A call changes the blobs, saves them or leaves all as it is. -/
inductive Effect (s : FileBlobs) : FileBlobs → Prop
  | blobs (blobs : BlobMap) (dirty : Bool) : Effect s { s with blobs, dirty }
  | save : Effect s s.save.2

/-- A save keeps the names. -/
theorem save_names (s : FileBlobs) :
    s.save.2.folder = s.folder ∧ s.save.2.namespaceName = s.namespaceName := by
  unfold save
  split
  · exact ⟨rfl, rfl⟩
  · split <;> exact ⟨rfl, rfl⟩

/-- Every call has one of these effects. -/
theorem Seated.effect_attempt (h : s.Seated stem) (call : FileCall) :
    s.Effect (s.attempt call).2 := by
  cases call with
  | reopen =>
    rw [h.attempt_reopen]
    split
    · exact .blobs _ _
    · exact .blobs _ _
  | call call =>
    cases call with
    | getAll => exact .blobs _ _
    | get key => exact .blobs _ _
    | put key blob => exact .blobs _ _
    | remove key =>
      show s.Effect (BlobStore.remove key s).2
      rw [remove_snd]
      split
      · exact .blobs _ _
      · exact .blobs _ _
    | flush =>
      show s.Effect (BlobStore.flush s).2
      rw [flush_snd]
      split
      · exact .save
      · exact .blobs _ _

/-- A call keeps the names and changes files of the namespace alone. -/
theorem Seated.frame (h : s.Seated stem) (call : FileCall) :
    (s.attempt call).2.folder = s.folder ∧ (s.attempt call).2.namespaceName = s.namespaceName ∧
      s.directory.AgreeOff (OwnKey s.namespaceName stem) (s.attempt call).2.directory := by
  have heffect := h.effect_attempt call
  generalize (s.attempt call).2 = after at heffect
  cases heffect with
  | blobs blobs dirty => exact ⟨rfl, rfl, .refl _ _⟩
  | save => exact ⟨s.save_names.1, s.save_names.2, h.agreeOff_save⟩

/-- After a call the folder is still there. -/
theorem Seated.attempt (h : s.Seated stem) (call : FileCall) : (s.attempt call).2.Seated stem := by
  obtain ⟨hfolder, hname, hagree⟩ := h.frame call
  have hwithin := h.within hagree.keeps
  refine ⟨?_, ?_, ?_⟩
  · rw [hname]
    exact h.named
  · rw [hfolder]
    exact hwithin.made
  · rw [hfolder]
    exact hwithin.leads

/-! ### The same calls in another directory -/

/-- A blob file is there a second time, in a directory that differs in some files. -/
inductive Twins (keys : String → Prop) (s : FileBlobs) : FileBlobs → Prop
  | within {e : Directory} (hagree : s.directory.AgreeOff keys e) : Twins keys s (s.within e)

variable {twin : FileBlobs}

/-- Twins differ in their directories alone, which agree. -/
theorem Twins.same (h : Twins keys s twin) :
    twin = s.within twin.directory ∧ s.directory.AgreeOff keys twin.directory := by
  obtain ⟨hagree⟩ := h
  exact ⟨rfl, hagree⟩

/-- Changing the blobs of both keeps them twins. -/
theorem Twins.of_blobs (hagree : s.directory.AgreeOff keys e) (blobs : BlobMap) (dirty : Bool) :
    Twins keys { s with blobs, dirty } { s.within e with blobs, dirty } :=
  .within (s := { s with blobs, dirty }) hagree

/-- A flush answers whether the file was saved, if there was something to save. -/
theorem flush_fst (s : FileBlobs) :
    (BlobStore.flush s).1 =
      if s.dirty then s.save.1.casesOn Outcome.failed Outcome.done else .done () := by
  simp only [BlobStore.flush]
  split
  · split
    · rename_i hsave
      rw [hsave]
    · rename_i hsave
      rw [hsave]
  · rfl

/-- A save does the same in both directories, if its paths stay off the files that differ. -/
theorem Twins.save (h : Twins keys s twin) (hfile : s.directory.StaysOff keys s.file stem)
    (htemporary : s.directory.StaysOff keys s.temporaryFile stem) :
    twin.save.1 = s.save.1 ∧ Twins keys s.save.2 twin.save.2 := by
  obtain ⟨hagree⟩ := h
  rename_i e
  have hparts : (s.within e).directory = e ∧ (s.within e).blobs = s.blobs ∧
      (s.within e).file = s.file ∧ (s.within e).temporaryFile = s.temporaryFile :=
    ⟨rfl, rfl, rfl, rfl⟩
  unfold FileBlobs.save
  simp only [hparts]
  rcases htemporary.write hagree (some (encode s.blobs)) with
    ⟨why, hfailed, hfailed'⟩ | ⟨written, written', hwritten, hwritten', hagree'⟩
  · simp only [hfailed, hfailed']
    exact ⟨trivial, .within hagree⟩
  · simp only [hwritten, hwritten']
    have hkeeps := keeps_write hwritten
    rcases (htemporary.of_keeps hkeeps).rename (hfile.of_keeps hkeeps) hagree' with
      ⟨why, hfailed, hfailed'⟩ | ⟨saved, saved', hsaved, hsaved', hagree''⟩
    · simp only [hfailed, hfailed']
      exact ⟨trivial, .within (s := s.within written) hagree'⟩
    · simp only [hsaved, hsaved']
      exact ⟨trivial, .within (s := { s.within saved with dirty := false }) hagree''⟩

/-- The same file is loaded in both directories, if its path stays off the files that differ. -/
theorem load_of_agreeOff (hfile : s.directory.StaysOff keys s.file stem)
    (hagree : s.directory.AgreeOff keys e) :
    load e s.folder s.namespaceName = load s.directory s.folder s.namespaceName := by
  have hfind : e.find? (join s.folder (fileName s.namespaceName)) =
      s.directory.find? (join s.folder (fileName s.namespaceName)) := hfile.find? hagree
  unfold load
  rw [hfind]

/-- A call answers the same in both directories and has the same effect. -/
theorem Twins.attempt (h : Twins keys s twin) (hseated : s.Seated stem)
    (hfile : s.directory.StaysOff keys s.file stem)
    (htemporary : s.directory.StaysOff keys s.temporaryFile stem) (call : FileCall) :
    (twin.attempt call).1 = (s.attempt call).1 ∧
      Twins keys (s.attempt call).2 (twin.attempt call).2 := by
  have hsave := h.save hfile htemporary
  obtain ⟨hagree⟩ := h
  rename_i e
  cases call with
  | reopen =>
    have hload := load_of_agreeOff hfile hagree
    rw [hseated.attempt_reopen, (hseated.within hagree.keeps).attempt_reopen]
    simp only [FileBlobs.within] at hload ⊢
    rw [hload]
    cases load s.directory s.folder s.namespaceName with
    | ok blobs => exact ⟨rfl, .of_blobs hagree _ _⟩
    | error e => exact ⟨rfl, .within hagree⟩
  | call call =>
    cases call with
    | getAll => exact ⟨rfl, .within hagree⟩
    | get key => exact ⟨rfl, .within hagree⟩
    | put key blob => exact ⟨rfl, .of_blobs hagree _ _⟩
    | remove key =>
      show FileReply.answered ((BlobStore.remove key (s.within e)).1.map _) =
          .answered ((BlobStore.remove key s).1.map _) ∧
        Twins keys (BlobStore.remove key s).2 (BlobStore.remove key (s.within e)).2
      rw [remove_fst, remove_fst, remove_snd, remove_snd]
      refine ⟨rfl, ?_⟩
      show Twins keys _ (if s.blobs.contains key then _ else _)
      split
      · exact .of_blobs hagree _ _
      · exact .within hagree
    | flush =>
      show FileReply.answered ((BlobStore.flush (s.within e)).1.map _) =
          .answered ((BlobStore.flush s).1.map _) ∧
        Twins keys (BlobStore.flush s).2 (BlobStore.flush (s.within e)).2
      rw [flush_fst, flush_fst, flush_snd, flush_snd, hsave.1]
      refine ⟨rfl, ?_⟩
      show Twins keys _ (if s.dirty then _ else _)
      split
      · exact hsave.2
      · exact .within hagree

end DurableCache.FileBlobs
