import DurableCache.Proofs.Blobs.Refinement

/-!
# Hosts that fail

A save fails if one of its paths leads nowhere. A host may also break it off: while the temporary
file is written, whatever that file holds by then, or before it is moved over the blob file.
`saveOn` follows a save through all directories that are seen meanwhile, and where the host does not
fail it is `save` (`saveOn_steady`).
-/

namespace DurableCache

/-- Where a host breaks a save off. -/
inductive Halt where
  /-- While the temporary file is written. -/
  | writing
  /-- Before the temporary file is moved. -/
  | moving
  deriving DecidableEq, Repr

/-- What a host makes of a save. -/
structure Host where
  /-- What the temporary file holds before it is complete, one content after the other. -/
  drafts : List (Option String)
  /-- Where the save is broken off, if it is, and the reason that the host gives. -/
  halt : Option (Halt × Option String)
  deriving DecidableEq, Repr

/-- A host that does not fail. -/
def Host.steady : Host := ⟨[], none⟩

namespace FileBlobs

variable {s : FileBlobs} {host : Host} {d : Directory}

/-- The directories with the drafts of the temporary file. -/
def drafted (s : FileBlobs) (host : Host) : List Directory :=
  host.drafts.filterMap fun text => (s.directory.write s.temporaryFile text).toOption

/-- What a save on a host answers, and the directories that it leads to, one after the other. -/
def course (s : FileBlobs) (host : Host) : Except CacheError Unit × List Directory :=
  match s.directory.write s.temporaryFile (some (encode s.blobs)) with
  | .error _ => (.error unusable, [])
  | .ok written =>
    match host.halt with
    | some (.writing, reason) => (.error (.io reason), s.drafted host)
    | some (.moving, reason) => (.error (.io reason), s.drafted host ++ [written])
    | none =>
      match written.rename s.temporaryFile s.file with
      | .error _ => (.error unusable, s.drafted host ++ [written])
      | .ok saved => (.ok (), s.drafted host ++ [written, saved])

/-- A save on a host ends in the last of these directories. -/
def saveOn (s : FileBlobs) (host : Host) : Except CacheError Unit × FileBlobs :=
  let (answer, course) := s.course host
  let directory := course.getLast?.getD s.directory
  match answer with
  | .ok () => (.ok (), { s with directory, dirty := false })
  | .error e => (.error e, { s with directory })

/-- All directories that are seen of a save, that before it among them. -/
def views (s : FileBlobs) (host : Host) : List Directory := s.directory :: (s.course host).2

/-- A directory in which the temporary file may have been written, and nothing else. -/
def Drafted (s : FileBlobs) (d : Directory) : Prop :=
  d = s.directory ∨ ∃ text, s.directory.write s.temporaryFile text = .ok d

/-- A save on a host that does not fail is a save, whatever drafts are seen. -/
theorem saveOn_steady (h : host.halt = none) : s.saveOn host = s.save := by
  unfold saveOn course save
  rw [h]
  cases hwrite : s.directory.write s.temporaryFile (some (encode s.blobs)) with
  | error why => rfl
  | ok written =>
    cases hmove : written.rename s.temporaryFile s.file with
    | error why => simp [hmove]
    | ok saved => simp [hmove]

theorem drafted_of_mem (h : d ∈ s.drafted host) : s.Drafted d := by
  obtain ⟨text, -, hwrite⟩ := List.mem_filterMap.mp h
  refine Or.inr ⟨text, ?_⟩
  cases hanswer : s.directory.write s.temporaryFile text with
  | error why =>
    rw [hanswer] at hwrite
    cases hwrite
  | ok later =>
    rw [hanswer] at hwrite
    cases hwrite
    rfl

/-- A save on a host fails, and all that is written on the way is the temporary file; or it
succeeds, and then the last directory is the one that a save leaves. -/
theorem course_cases (s : FileBlobs) (host : Host) :
    (∃ e drafts, s.course host = (.error e, drafts) ∧ ∀ d ∈ drafts, s.Drafted d) ∨
      ∃ drafts saved, s.course host = (.ok (), drafts ++ [saved]) ∧ (∀ d ∈ drafts, s.Drafted d) ∧
        s.save = (.ok (), { s with directory := saved, dirty := false }) := by
  unfold course save
  cases hwrite : s.directory.write s.temporaryFile (some (encode s.blobs)) with
  | error why => exact Or.inl ⟨_, _, rfl, fun d hmem => by cases hmem⟩
  | ok written =>
    have hdrafts : ∀ d ∈ s.drafted host, s.Drafted d := fun d => drafted_of_mem
    have hboth : ∀ d ∈ s.drafted host ++ [written], s.Drafted d :=
      List.forall_mem_append.mpr ⟨hdrafts, List.forall_mem_singleton.mpr (Or.inr ⟨_, hwrite⟩)⟩
    simp only
    split
    · exact Or.inl ⟨_, _, rfl, hdrafts⟩
    · exact Or.inl ⟨_, _, rfl, hboth⟩
    · cases hmove : written.rename s.temporaryFile s.file with
      | error why => exact Or.inl ⟨_, _, rfl, hboth⟩
      | ok saved =>
        exact Or.inr ⟨s.drafted host ++ [written], saved, by simp, hboth, rfl⟩

/-- Every directory that is seen differs in the temporary file at most, or it is the one that the
save leaves. -/
theorem mem_views (h : d ∈ s.views host) :
    s.Drafted d ∨ s.save = (.ok (), { s with directory := d, dirty := false }) := by
  rcases List.mem_cons.mp h with rfl | hmem
  · exact Or.inl (Or.inl rfl)
  · rcases s.course_cases host with
      ⟨e, drafts, hcourse, hdrafts⟩ | ⟨drafts, saved, hcourse, hdrafts, hsave⟩
    · rw [hcourse] at hmem
      exact Or.inl (hdrafts d hmem)
    · rw [hcourse] at hmem
      rcases List.mem_append.mp hmem with hmem | hlast
      · exact Or.inl (hdrafts d hmem)
      · obtain rfl := List.mem_singleton.mp hlast
        exact Or.inr hsave

/-- A save on a host fails and leaves a directory that differs in the temporary file at most, or it
is a save that succeeds. -/
theorem saveOn_cases (s : FileBlobs) (host : Host) :
    (∃ e d, s.saveOn host = (.error e, { s with directory := d }) ∧ s.Drafted d) ∨
      (s.saveOn host = s.save ∧ s.save.1 = .ok ()) := by
  unfold saveOn
  rcases s.course_cases host with
    ⟨e, drafts, hcourse, hdrafts⟩ | ⟨drafts, saved, hcourse, -, hsave⟩
  · refine Or.inl ⟨e, drafts.getLast?.getD s.directory, by rw [hcourse], ?_⟩
    cases hlast : drafts.getLast? with
    | none => exact Or.inl rfl
    | some d => exact hdrafts d (List.mem_of_getLast? hlast)
  · rw [hcourse, hsave]
    exact Or.inr ⟨by simp, rfl⟩

/-- A save on a host keeps the blobs. -/
theorem blobs_saveOn (s : FileBlobs) (host : Host) : (s.saveOn host).2.blobs = s.blobs := by
  rcases s.saveOn_cases host with ⟨e, d, hsave, -⟩ | ⟨hsave, -⟩
  · rw [hsave]
  · rw [hsave, blobs_save]

end FileBlobs

/-- A blob file on a host, with what becomes of its saves, the next one first. When the list is at
its end no save is broken off. -/
structure Hosted where
  store : FileBlobs
  hosts : List Host
  deriving DecidableEq

namespace Hosted

instance : BlobStore Hosted where
  getAll s := (BlobStore.getAll s.store).map id fun store => { s with store }
  get key s := (BlobStore.get key s.store).map id fun store => { s with store }
  put key blob s := (BlobStore.put key blob s.store).map id fun store => { s with store }
  remove key s := (BlobStore.remove key s.store).map id fun store => { s with store }
  flush s :=
    if s.store.dirty then
      match s.store.saveOn (s.hosts.headD .steady) with
      | (.ok (), store) => (.done (), ⟨store, s.hosts.tail⟩)
      | (.error e, store) => (.failed e, ⟨store, s.hosts.tail⟩)
    else (.done (), s)

/-- A flush leaves what the save leaves. -/
theorem store_flush (t : Hosted) : (BlobStore.flush t).2.store =
    if t.store.dirty then (t.store.saveOn (t.hosts.headD .steady)).2 else t.store := by
  simp only [BlobStore.flush]
  split
  · split
    · rename_i hsave
      rw [hsave]
    · rename_i hsave
      rw [hsave]
  · rfl

instance : LawfulBlobs Hosted where
  contents s := s.store.blobs
  fault _ _ := none
  getAll_meets _ := rfl
  contents_getAll _ := rfl
  fault_getAll _ := rfl
  put_meets _ _ _ := rfl
  contents_put _ _ _ := rfl
  fault_put _ _ _ := rfl
  remove_meets key s := FileBlobs.remove_fst key s.store
  contents_remove key s := FileBlobs.blobs_remove key s.store
  fault_remove _ _ := rfl
  contents_flush s := by
    rw [store_flush]
    split
    · exact s.store.blobs_saveOn _
    · rfl
  fault_flush _ := rfl

/-- On a host that does not fail every call is that on the blob file alone. -/
theorem perform_steady (store : FileBlobs) (call : BlobCall) :
    BlobStore.perform (⟨store, []⟩ : Hosted) call =
      (BlobStore.perform store call).map id fun store => ⟨store, []⟩ := by
  cases call with
  | getAll => rfl
  | get key => rfl
  | put key blob => rfl
  | remove key => rfl
  | flush =>
    have hsteady : store.saveOn .steady = store.save := FileBlobs.saveOn_steady rfl
    simp only [BlobStore.perform, BlobStore.flush, List.headD_nil, hsteady]
    split
    · cases hsave : store.save with
      | mk answer next => cases answer <;> rfl
    · rfl

end Hosted

end DurableCache
