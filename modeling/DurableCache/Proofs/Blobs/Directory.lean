import DurableCache.Blobs.Directory
import DurableCache.Table.Lemmas

/-!
# Paths through changing directories

A path that leads somewhere leads to the same place as long as no directory on its way goes.
Writing, moving and making nodes keep all directories, so paths can be followed once and for
all.
-/

namespace DurableCache.Directory

variable {d later last : Directory} {parts : List String} {place stem : Place}
variable {node : Option Node} {path : String}

/-! ### Directories that are kept -/

/-- Every directory is still there later. -/
def Keeps (d later : Directory) : Prop :=
  ∀ key, d.nodes.find? key = some .directory → later.nodes.find? key = some .directory

theorem keeps_refl (d : Directory) : d.Keeps d := fun _ h => h

theorem Keeps.trans (h : d.Keeps later) (h' : later.Keeps last) : d.Keeps last :=
  fun key hkey => h' key (h key hkey)

/-- A node that is no directory may be replaced. -/
theorem keeps_insert {key : String} (hkey : d.nodes.find? key ≠ some .directory) (node : Node) :
    d.Keeps ⟨d.nodes.insert key node⟩ := by
  intro other hother
  have hne : other ≠ key := by
    rintro rfl
    exact hkey hother
  rw [Table.find?_insert, if_neg hne]
  exact hother

/-- A node that is no directory may be deleted. -/
theorem keeps_erase {key : String} (hkey : d.nodes.find? key ≠ some .directory) :
    d.Keeps ⟨d.nodes.erase key⟩ := by
  intro other hother
  have hne : other ≠ key := by
    rintro rfl
    exact hkey hother
  rw [Table.find?_erase, if_neg hne]
  exact hother

/-! ### Following a path again -/

/-- A part that leads on leads on to the same place later. -/
theorem enter_of_keeps (h : d.Keeps later) {part : String}
    (henter : d.enter place part = .ok stem) : later.enter place part = .ok stem := by
  unfold enter at henter ⊢
  split
  · rwa [if_pos ‹_›] at henter
  · rw [if_neg ‹_›] at henter
    split
    · rwa [if_pos ‹_›] at henter
    · rw [if_neg ‹_›] at henter
      split
      · rw [if_pos ‹_›] at henter
        cases henter
      · rw [if_neg ‹_›] at henter
        split at henter
        · rename_i hnode
          have hlater : later.nodeAt? (place ++ [part]) = some .directory := h _ hnode
          rw [hlater]
          exact henter
        · cases henter
        · cases henter

/-- Parts that lead on lead on to the same place later. -/
theorem foldlM_enter_of_keeps (h : d.Keeps later) (hfold : parts.foldlM d.enter place = .ok stem) :
    parts.foldlM later.enter place = .ok stem := by
  induction parts generalizing place with
  | nil => exact hfold
  | cons part parts ih =>
    rw [List.foldlM_cons] at hfold ⊢
    cases henter : d.enter place part with
    | error why =>
      rw [henter] at hfold
      cases hfold
    | ok next =>
      rw [henter] at hfold
      rw [enter_of_keeps h henter]
      exact ih hfold

/-- A path ends in the name of a node, and the parts in front of it lead to a directory. -/
structure Names (d : Directory) (parts : List String) (stem : Place) (name : String) : Prop where
  leads : parts.dropLast.foldlM d.enter [] = .ok stem
  last : parts.getLast? = some name
  ne_dot : name ≠ "."
  ne_dots : name ≠ ".."
  valid : isName name = true

theorem Names.of_keeps {name : String} (h : d.Names parts stem name) (hkeeps : d.Keeps later) :
    later.Names parts stem name :=
  { h with leads := foldlM_enter_of_keeps hkeeps h.leads }

/-- A name leads to what stands under it. -/
theorem Names.follow {name : String} (h : d.Names parts stem name) :
    d.follow parts = .ok (stem ++ [name], d.nodeAt? (stem ++ [name])) := by
  simp only [Directory.follow, h.last, h.leads, h.ne_dot, h.ne_dots, h.valid, Except.bind,
    if_false, Bool.not_true, Bool.false_eq_true]

/-- A path leads to a directory that is known without a look, and leads there later, or it ends
in the name of a node. -/
theorem follow_cases (hfollow : d.follow parts = .ok (place, node)) :
    (node = some .directory ∧
      ∀ later, d.Keeps later → later.follow parts = .ok (place, some .directory)) ∨
    ∃ stem name, d.Names parts stem name ∧ place = stem ++ [name] ∧ node = d.nodeAt? place := by
  unfold Directory.follow at hfollow
  split at hfollow
  · rename_i hlast
    obtain ⟨rfl, rfl⟩ := Prod.mk.inj (Except.ok.inj hfollow)
    refine Or.inl ⟨rfl, fun later _ => ?_⟩
    simp only [Directory.follow, hlast]
  · rename_i name hlast
    cases hfold : parts.dropLast.foldlM d.enter [] with
    | error why =>
      rw [hfold] at hfollow
      cases hfollow
    | ok stem =>
      rw [hfold] at hfollow
      simp only [Except.bind] at hfollow
      split at hfollow
      · rename_i hdot
        obtain ⟨rfl, rfl⟩ := Prod.mk.inj (Except.ok.inj hfollow)
        refine Or.inl ⟨rfl, fun later hkeeps => ?_⟩
        simp only [Directory.follow, hlast, foldlM_enter_of_keeps hkeeps hfold, Except.bind, hdot,
          if_true]
      · split at hfollow
        · rename_i hdot hdots
          obtain ⟨rfl, rfl⟩ := Prod.mk.inj (Except.ok.inj hfollow)
          refine Or.inl ⟨rfl, fun later hkeeps => ?_⟩
          rw [Directory.follow, hlast]
          simp only [foldlM_enter_of_keeps hkeeps hfold, Except.bind, if_neg hdot, if_pos hdots]
        · split at hfollow
          · cases hfollow
          · rename_i hdot hdots hname
            obtain ⟨rfl, rfl⟩ := Prod.mk.inj (Except.ok.inj hfollow)
            exact Or.inr ⟨stem, name, ⟨hfold, hlast, hdot, hdots, by simpa using hname⟩, rfl, rfl⟩

/-- A path that leads to a directory leads there later. -/
theorem follow_directory_of_keeps (h : d.Keeps later)
    (hfollow : d.follow parts = .ok (place, some .directory)) :
    later.follow parts = .ok (place, some .directory) := by
  rcases follow_cases hfollow with ⟨-, hlater⟩ | ⟨stem, name, hnames, rfl, hnode⟩
  · exact hlater later h
  · have hkept : later.nodeAt? (stem ++ [name]) = some .directory := h _ hnode.symm
    rw [(hnames.of_keeps h).follow, hkept]

/-! ### Making directories again -/

/-- Each list of parts leads to a directory. -/
def Made (d : Directory) (lists : List (List String)) : Prop :=
  ∀ parts ∈ lists, ∃ place, d.follow parts = .ok (place, some .directory)

/-- Directories that are made stay. -/
theorem Made.of_keeps {lists : List (List String)} (h : d.Made lists) (hkeeps : d.Keeps later) :
    later.Made lists := by
  intro parts hparts
  obtain ⟨place, hfollow⟩ := h parts hparts
  exact ⟨place, follow_directory_of_keeps hkeeps hfollow⟩

/-- A directory that is made keeps the others and is there. -/
theorem makeOne_ok (h : d.makeOne parts = .ok later) :
    d.Keeps later ∧ ∃ place, later.follow parts = .ok (place, some .directory) := by
  unfold makeOne at h
  split at h
  · cases h
  · rename_i place hfollow
    cases h
    exact ⟨keeps_refl _, place, hfollow⟩
  · cases h
  · rename_i place hfollow
    obtain rfl := Except.ok.inj h
    rcases follow_cases hfollow with ⟨hnode, -⟩ | ⟨stem, name, hnames, rfl, hnode⟩
    · cases hnode
    · have hkeeps : d.Keeps ⟨d.nodes.insert (pathOf (stem ++ [name])) .directory⟩ := by
        refine keeps_insert ?_ _
        have hnone : d.nodes.find? (pathOf (stem ++ [name])) = none := hnode.symm
        rw [hnone]
        exact fun h => by cases h
      have hmade : nodeAt? ⟨d.nodes.insert (pathOf (stem ++ [name])) .directory⟩
          (stem ++ [name]) = some .directory := Table.find?_insert_self _ _ _
      refine ⟨hkeeps, stem ++ [name], ?_⟩
      rw [(hnames.of_keeps hkeeps).follow, hmade]

/-- Directories that are made one after the other keep the others and are there. -/
theorem makeEach_ok {lists : List (List String)} (h : makeEach lists d = (.ok (), later)) :
    d.Keeps later ∧ later.Made lists := by
  induction lists generalizing d with
  | nil =>
    cases h
    exact ⟨keeps_refl _, fun parts hparts => by cases hparts⟩
  | cons parts lists ih =>
    unfold makeEach at h
    cases hone : d.makeOne parts with
    | error why =>
      rw [hone] at h
      cases h
    | ok next =>
      rw [hone] at h
      obtain ⟨hnext, place, hfollow⟩ := makeOne_ok hone
      obtain ⟨hkeeps, hmade⟩ := ih h
      refine ⟨hnext.trans hkeeps, fun other hother => ?_⟩
      rcases List.mem_cons.mp hother with rfl | hother
      · exact ⟨place, follow_directory_of_keeps hkeeps hfollow⟩
      · exact hmade other hother

/-- Directories that are there are not made again. -/
theorem makeEach_of_made {lists : List (List String)} (h : d.Made lists) :
    makeEach lists d = (.ok (), d) := by
  induction lists with
  | nil => rfl
  | cons parts lists ih =>
    obtain ⟨place, hfollow⟩ := h parts List.mem_cons_self
    have hone : d.makeOne parts = .ok d := by rw [makeOne, hfollow]
    rw [makeEach, hone]
    exact ih fun other hother => h other (List.mem_cons_of_mem parts hother)

/-- A path that was made is there in every later directory. -/
theorem makePath_again (h : d.makePath path = (.ok (), later)) (hkeeps : later.Keeps last) :
    last.makePath path = (.ok (), last) := by
  unfold makePath at h ⊢
  split at h
  · rename_i hpath
    rw [if_pos hpath]
    obtain ⟨-, hmade⟩ := makeEach_ok h
    exact makeEach_of_made (hmade.of_keeps hkeeps)
  · cases h

/-! ### Files in a folder -/

/-- The parts of the path of a name in a folder are those of the folder and the name. -/
theorem partsOf_join (folder : String) {name : String} (hne : name ≠ "")
    (hslash : '/' ∉ name.toList) : partsOf (join folder name) = partsOf folder ++ [name] := by
  have hname : partsOf name = [name] := by
    simp [partsOf, List.splitOn_eq_singleton hslash, hne]
  have hparts (front back : List Char) :
      partsOf (String.ofList (front ++ '/' :: back)) =
        partsOf (String.ofList front) ++ partsOf (String.ofList back) := by
    simp only [partsOf, String.toList_ofList, List.splitOn_append_cons_self, List.map_append,
      List.filter_append]
  unfold join
  by_cases hempty : folder = ""
  · have hnothing : partsOf "" = [] := by decide
    rw [hempty, if_pos (by simp), hnothing, String.empty_append, hname, List.nil_append]
  · by_cases hends : endsInSlash folder = true
    · obtain ⟨front, hfront⟩ : ∃ front, folder.toList = front ++ ['/'] := by
        have hlast : folder.toList.getLast? = some '/' := by simpa [endsInSlash] using hends
        exact List.getLast?_eq_some_iff.mp hlast
      have hfolder : folder = String.ofList (front ++ '/' :: []) := by
        rw [← hfront, String.ofList_toList]
      have hjoined : folder ++ name = String.ofList (front ++ '/' :: name.toList) := by
        rw [← String.toList_inj]
        simp [hfront]
      have hnothing : partsOf (String.ofList []) = [] := by simp [partsOf]
      rw [if_pos (by simp [hends]), hjoined, hparts, String.ofList_toList, hname, hfolder, hparts,
        hnothing, List.append_nil]
    · have hjoined : folder ++ "/" ++ name =
          String.ofList (folder.toList ++ '/' :: name.toList) := by
        rw [← String.toList_inj]
        simp
      rw [if_neg (by simp [hempty, hends]), hjoined, hparts, String.ofList_toList,
        String.ofList_toList, hname]

/-- A file that was written: its path ends in the name of a node that was no directory. -/
theorem write_ok {text : Option String} (h : d.write path text = .ok later) :
    ∃ stem name, d.Names (partsOf path) stem name ∧ isPath path = true ∧
      endsInSlash path = false ∧ d.nodeAt? (stem ++ [name]) ≠ some .directory ∧
      later = ⟨d.nodes.insert (pathOf (stem ++ [name])) (.file text)⟩ := by
  unfold write locate at h
  split at h
  · cases h
  · rename_i hslash
    split at h
    · cases h
    · cases h
    · rename_i place node hnode hlocate
      split at hlocate
      · rename_i hpath
        rcases follow_cases hlocate with ⟨hdirectory, -⟩ | ⟨stem, name, hnames, rfl, rfl⟩
        · exact absurd hdirectory hnode
        · exact ⟨stem, name, hnames, hpath, by simpa using hslash, hnode,
            (Except.ok.inj h).symm⟩
      · cases hlocate

/-- A file that is written keeps all directories. -/
theorem keeps_write {text : Option String} (h : d.write path text = .ok later) : d.Keeps later := by
  obtain ⟨place, name, -, -, -, hfree, rfl⟩ := write_ok h
  exact keeps_insert hfree _

/-- A path that ends in a name leads to what stands under it. -/
theorem Names.locate {name : String} (h : d.Names (partsOf path) stem name)
    (hpath : isPath path = true) :
    d.locate path = .ok (stem ++ [name], d.nodeAt? (stem ++ [name])) := by
  rw [Directory.locate, if_pos hpath]
  exact h.follow

/-- A file is written under a name that no directory has. -/
theorem Names.write {name : String} (h : d.Names (partsOf path) stem name)
    (hpath : isPath path = true) (hslash : endsInSlash path = false)
    (hnode : d.nodeAt? (stem ++ [name]) ≠ some .directory) (text : Option String) :
    d.write path text = .ok ⟨d.nodes.insert (pathOf (stem ++ [name])) (.file text)⟩ := by
  unfold Directory.write
  rw [hslash, h.locate hpath]
  simp only [Bool.false_eq_true, if_false]

/-- A file that was moved was written under the other path. -/
theorem rename_ok {source target : String} {text : Option String}
    (hsource : d.locate source = .ok (place, some (.file text)))
    (h : d.rename source target = .ok later) :
    ∃ both, d.write target text = .ok both ∧ later = ⟨both.nodes.erase (pathOf place)⟩ := by
  unfold rename at h
  rw [hsource] at h
  cases hwrite : d.write target text with
  | error why =>
    simp only [hwrite] at h
    cases h
  | ok both =>
    simp only [hwrite] at h
    exact ⟨both, rfl, (Except.ok.inj h).symm⟩

/-- Different names in one directory have different paths. -/
theorem pathOf_append_inj {name other : String}
    (h : pathOf (stem ++ [name]) = pathOf (stem ++ [other])) : name = other := by
  unfold pathOf at h
  by_cases hstem : stem = []
  · subst hstem
    simpa using h
  · rw [String.intercalate_append_of_ne_nil hstem (by simp),
      String.intercalate_append_of_ne_nil hstem (by simp)] at h
    simpa using h

end DurableCache.Directory
