import DurableCache.Proofs.Blobs.Directory
import DurableCache.Proofs.Json.RoundTrip

/-!
# Blob files that are saved and loaded again

A blob file that was saved once can be saved again, and what was saved last is what a later
opening loads. The order in which the members of the file stand does not matter (`load_arranged`).
-/

namespace DurableCache.FileBlobs

open Directory

variable {s moved : FileBlobs} {stem : Place}

/-- The place of the temporary file in the directory of the blob file. -/
def temporaryPlace (s : FileBlobs) (stem : Place) : Place := stem ++ [temporaryName s.namespaceName]

/-- The place of the blob file in its directory. -/
def filePlace (s : FileBlobs) (stem : Place) : Place := stem ++ [fileName s.namespaceName]

/-- Where a flush writes: both files have a name of their own in one directory, and neither name
is that of a directory. -/
structure Places (s : FileBlobs) (stem : Place) : Prop where
  temporary : s.directory.Names (partsOf s.temporaryFile) stem (temporaryName s.namespaceName)
  file : s.directory.Names (partsOf s.file) stem (fileName s.namespaceName)
  temporary_free : s.directory.nodeAt? (s.temporaryPlace stem) ≠ some .directory
  file_free : s.directory.nodeAt? (s.filePlace stem) ≠ some .directory
  temporary_path : isPath s.temporaryFile = true
  file_path : isPath s.file = true
  temporary_slash : endsInSlash s.temporaryFile = false
  file_slash : endsInSlash s.file = false

/-- What both files hold. -/
def savedNode (s : FileBlobs) : Node := .file (some (encode s.blobs))

/-- The directory with the temporary file. -/
def temporaryDirectory (s : FileBlobs) (stem : Place) : Directory :=
  ⟨s.directory.nodes.insert (pathOf (s.temporaryPlace stem)) s.savedNode⟩

/-- The directory with both files. -/
def writtenDirectory (s : FileBlobs) (stem : Place) : Directory :=
  ⟨(s.temporaryDirectory stem).nodes.insert (pathOf (s.filePlace stem)) s.savedNode⟩

/-- The directory after a flush. -/
def savedDirectory (s : FileBlobs) (stem : Place) : Directory :=
  ⟨(s.writtenDirectory stem).nodes.erase (pathOf (s.temporaryPlace stem))⟩

/-- No temporary file has the name of a blob file. -/
theorem temporaryName_ne_fileName (name other : String) : temporaryName name ≠ fileName other := by
  intro heq
  have hlast := congrArg (fun s => s.toList.getLast?) heq
  unfold temporaryName fileName at hlast
  split at hlast
  · simp at hlast
  · simp at hlast

/-- The two files of a namespace have different places. -/
theorem temporaryPlace_apart (s : FileBlobs) (stem : Place) :
    pathOf (s.temporaryPlace stem) ≠ pathOf (s.filePlace stem) := by
  intro heq
  exact temporaryName_ne_fileName _ _ (pathOf_append_inj heq)

/-- The temporary file is written beside all directories. -/
theorem Places.keeps_temporary (h : s.Places stem) :
    s.directory.Keeps (s.temporaryDirectory stem) :=
  keeps_insert h.temporary_free _

/-- The blob file has no directory's name while the temporary file is there. -/
theorem Places.file_free_of_temporary (h : s.Places stem) :
    (s.temporaryDirectory stem).nodeAt? (s.filePlace stem) ≠ some .directory := by
  rw [nodeAt?, temporaryDirectory, Table.find?_insert, if_neg (s.temporaryPlace_apart stem).symm]
  exact h.file_free

/-- The blob file is written beside all directories. -/
theorem Places.keeps_written (h : s.Places stem) :
    s.directory.Keeps (s.writtenDirectory stem) :=
  h.keeps_temporary.trans (keeps_insert h.file_free_of_temporary _)

/-- A flush keeps all directories. -/
theorem Places.keeps_saved (h : s.Places stem) :
    s.directory.Keeps (s.savedDirectory stem) := by
  refine h.keeps_written.trans (keeps_erase ?_)
  rw [writtenDirectory, Table.find?_insert, if_neg (s.temporaryPlace_apart stem),
    temporaryDirectory, Table.find?_insert_self]
  exact fun h => by cases h

/-- The temporary file is moved over the blob file. -/
theorem Places.rename (h : s.Places stem) :
    (s.temporaryDirectory stem).rename s.temporaryFile s.file = .ok (s.savedDirectory stem) := by
  have hnode : (s.temporaryDirectory stem).nodeAt? (s.temporaryPlace stem) = some s.savedNode :=
    Table.find?_insert_self _ _ _
  have hsource : (s.temporaryDirectory stem).locate s.temporaryFile =
      .ok (s.temporaryPlace stem, some s.savedNode) := by
    rw [← hnode]
    exact (h.temporary.of_keeps h.keeps_temporary).locate h.temporary_path
  have hmove : (s.temporaryDirectory stem).write s.file (some (encode s.blobs)) =
      .ok (s.writtenDirectory stem) :=
    (h.file.of_keeps h.keeps_temporary).write h.file_path h.file_slash h.file_free_of_temporary _
  rw [Directory.rename, hsource]
  simp only [savedNode, hmove]
  rfl

/-- A flush writes to its places. -/
theorem Places.save (h : s.Places stem) :
    s.save = (.ok (), { s with directory := s.savedDirectory stem, dirty := false }) := by
  have hwrite : s.directory.write s.temporaryFile (some (encode s.blobs)) =
      .ok (s.temporaryDirectory stem) :=
    h.temporary.write h.temporary_path h.temporary_slash h.temporary_free _
  rw [FileBlobs.save, hwrite]
  simp only [h.rename]

/-- After a flush the blob file is there. -/
theorem Places.find?_file (h : s.Places stem) :
    (s.savedDirectory stem).find? s.file = .ok (some s.savedNode) := by
  have hnode : (s.savedDirectory stem).nodeAt? (s.filePlace stem) = some s.savedNode := by
    rw [nodeAt?, savedDirectory, Table.find?_erase, if_neg (s.temporaryPlace_apart stem).symm]
    exact Table.find?_insert_self _ _ _
  have hlocate : (s.savedDirectory stem).locate s.file =
      .ok (s.filePlace stem, some s.savedNode) := by
    rw [← hnode]
    exact (h.file.of_keeps h.keeps_saved).locate h.file_path
  rw [Directory.find?, hlocate]

/-- A blob file is loaded as the blobs that its members are, in whatever order these stand. -/
theorem load_arranged {d : Directory} {folder name : String} {blobs : BlobMap}
    {rows : List (String × String)}
    (hfile : d.find? (join folder (fileName name)) = .ok (some (.file (some (arranged rows)))))
    (hrows : rows.Perm blobs.rows) : load d folder name = .ok blobs := by
  rw [FileBlobs.load, hfile]
  simp only [decode_arranged hrows]
  rfl

/-- What was saved is loaded again. -/
theorem Places.load (h : s.Places stem) :
    load (s.savedDirectory stem) s.folder s.namespaceName = .ok s.blobs :=
  load_arranged h.find?_file (List.Perm.refl s.blobs.rows)

/-- After a flush the places are still there. -/
theorem Places.of_save (h : s.Places stem) :
    Places { s with directory := s.savedDirectory stem, dirty := false } stem where
  temporary := h.temporary.of_keeps h.keeps_saved
  file := h.file.of_keeps h.keeps_saved
  temporary_free := by
    have hnone : (s.savedDirectory stem).nodeAt? (s.temporaryPlace stem) = none :=
      Table.find?_erase_self _ _
    show (s.savedDirectory stem).nodeAt? (s.temporaryPlace stem) ≠ _
    rw [hnone]
    exact fun h => by cases h
  file_free := by
    show (s.savedDirectory stem).nodeAt? (s.filePlace stem) ≠ _
    rw [nodeAt?, savedDirectory, Table.find?_erase, if_neg (s.temporaryPlace_apart stem).symm,
      writtenDirectory, Table.find?_insert_self]
    exact fun h => by cases h
  temporary_path := h.temporary_path
  file_path := h.file_path
  temporary_slash := h.temporary_slash
  file_slash := h.file_slash

/-- The places do not depend on the blobs. -/
theorem Places.of_blobs (h : s.Places stem) (blobs : BlobMap) (dirty : Bool) :
    Places { s with blobs, dirty } stem := { h with }

/-- The name of a namespace's file is not empty and has no slash. -/
theorem slash_not_mem_of_isNamespace {name extension : String} (h : isNamespace name = true)
    (hextension : '/' ∉ extension.toList) : '/' ∉ (name ++ extension).toList := by
  intro hmem
  rw [String.toList_append, List.mem_append] at hmem
  rcases hmem with hmem | hmem
  · simp only [isNamespace, Bool.and_eq_true, Bool.not_eq_true', List.any_eq_false] at h
    have hnot := h.2 '/' hmem
    simp at hnot
  · exact hextension hmem

/-- The parts of the path of the blob file. -/
theorem partsOf_file (h : isNamespace s.namespaceName = true) :
    partsOf s.file = partsOf s.folder ++ [fileName s.namespaceName] := by
  refine partsOf_join s.folder ?_ (slash_not_mem_of_isNamespace h (by decide))
  simp [fileName]

/-- The parts of the path of the temporary file. -/
theorem partsOf_temporaryFile (h : isNamespace s.namespaceName = true) :
    partsOf s.temporaryFile = partsOf s.folder ++ [temporaryName s.namespaceName] := by
  unfold temporaryFile temporaryName
  split
  · exact partsOf_join s.folder (by decide) (by decide)
  · exact partsOf_join s.folder (by simp) (slash_not_mem_of_isNamespace h (by decide))

/-- A flush that succeeds has written to its places. -/
theorem exists_places_of_save (hname : isNamespace s.namespaceName = true)
    (h : s.save = (.ok (), moved)) : ∃ stem, s.Places stem := by
  unfold FileBlobs.save at h
  split at h
  · cases h
  · rename_i written hwrite
    split at h
    · cases h
    · rename_i renamed hrename
      obtain ⟨stem, name, htemporary, htpath, htslash, htfree, rfl⟩ := write_ok hwrite
      have hkeeps := keeps_insert htfree (.file (some (encode s.blobs)))
      have hsource := (htemporary.of_keeps hkeeps).locate htpath
      rw [nodeAt?, Table.find?_insert_self] at hsource
      obtain ⟨both, hmove, -⟩ := rename_ok hsource hrename
      obtain ⟨stem', other, hfile, hfpath, hfslash, hffree, -⟩ := write_ok hmove
      obtain rfl : name = temporaryName s.namespaceName := by
        have hlast := htemporary.last
        rw [partsOf_temporaryFile hname, List.getLast?_concat] at hlast
        exact (Option.some.inj hlast).symm
      obtain rfl : other = fileName s.namespaceName := by
        have hlast := hfile.last
        rw [partsOf_file hname, List.getLast?_concat] at hlast
        exact (Option.some.inj hlast).symm
      -- Both paths lead through the same folder, so both files stand in the same directory.
      have hleads := htemporary.leads
      rw [partsOf_temporaryFile hname, List.dropLast_concat] at hleads
      obtain rfl : stem' = stem := by
        have hsame := hfile.leads
        rw [partsOf_file hname, List.dropLast_concat, foldlM_enter_of_keeps hkeeps hleads] at hsame
        exact (Except.ok.inj hsame).symm
      refine ⟨stem', htemporary, { hfile with leads := ?_ }, htfree, ?_, htpath, hfpath, htslash,
        hfslash⟩
      · rw [partsOf_file hname, List.dropLast_concat]
        exact hleads
      · have happart : pathOf (stem' ++ [fileName s.namespaceName]) ≠
            pathOf (stem' ++ [temporaryName s.namespaceName]) :=
          (s.temporaryPlace_apart stem').symm
        rw [nodeAt?, Table.find?_insert, if_neg happart] at hffree
        exact hffree

end DurableCache.FileBlobs
