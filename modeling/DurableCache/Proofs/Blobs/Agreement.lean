import DurableCache.Proofs.Blobs.Directory

/-!
# Directories that agree but for some files

Two directories may differ in files, and what is reached by a path that does not end in one of these
files is the same in both. Writing or moving other files keeps the two so.
-/

namespace DurableCache.Directory

variable {d e f later : Directory} {keys others : String → Prop} {path key : String}
variable {place stem : Place} {text : Option String}

/-- Two directories agree on all nodes but those at some keys, where neither has a directory. -/
def AgreeOff (keys : String → Prop) (d e : Directory) : Prop :=
  ∀ key, e.nodes.find? key = d.nodes.find? key ∨
    keys key ∧ d.nodes.find? key ≠ some .directory ∧ e.nodes.find? key ≠ some .directory

namespace AgreeOff

theorem refl (keys : String → Prop) (d : Directory) : d.AgreeOff keys d := fun _ => Or.inl rfl

theorem trans (h : d.AgreeOff keys e) (h' : e.AgreeOff keys f) : d.AgreeOff keys f := by
  intro key
  rcases h key with hsame | ⟨hkey, hd, he⟩
  · rcases h' key with hsame' | ⟨hkey, he, hf⟩
    · exact Or.inl (hsame'.trans hsame)
    · exact Or.inr ⟨hkey, hsame ▸ he, hf⟩
  · rcases h' key with hsame' | ⟨-, -, hf⟩
    · exact Or.inr ⟨hkey, hd, hsame' ▸ he⟩
    · exact Or.inr ⟨hkey, hd, hf⟩

/-- At other keys the nodes are the same. -/
theorem find?_eq (h : d.AgreeOff keys e) (hkey : ¬ keys key) :
    e.nodes.find? key = d.nodes.find? key :=
  (h key).resolve_right fun hdiffers => hkey hdiffers.1

/-- Directories that agree but for files have the same directories. -/
theorem keeps (h : d.AgreeOff keys e) : d.Keeps e := by
  intro key hkey
  rcases h key with hsame | ⟨-, hd, -⟩
  · exact hsame.trans hkey
  · exact absurd hkey hd

/-- The same node may be written into both. -/
theorem insert (h : d.AgreeOff keys e) (key : String) (node : Node) :
    AgreeOff keys ⟨d.nodes.insert key node⟩ ⟨e.nodes.insert key node⟩ := by
  intro other
  simp only [Table.find?_insert]
  split
  · exact Or.inl rfl
  · exact h other

/-- The same node may be deleted in both. -/
theorem erase (h : d.AgreeOff keys e) (key : String) :
    AgreeOff keys ⟨d.nodes.erase key⟩ ⟨e.nodes.erase key⟩ := by
  intro other
  simp only [Table.find?_erase]
  split
  · exact Or.inl rfl
  · exact h other

end AgreeOff

/-- A file that is written in the place of no directory is all that changes. -/
theorem agreeOff_insert (text : Option String) (hkey : keys key)
    (hnode : d.nodes.find? key ≠ some .directory) :
    d.AgreeOff keys ⟨d.nodes.insert key (.file text)⟩ := by
  intro other
  rw [Table.find?_insert]
  split
  · rename_i hother
    subst hother
    exact Or.inr ⟨hkey, hnode, fun h => by cases h⟩
  · exact Or.inl rfl

/-- A file that is deleted is all that changes. -/
theorem agreeOff_erase (hkey : keys key) (hnode : d.nodes.find? key ≠ some .directory) :
    d.AgreeOff keys ⟨d.nodes.erase key⟩ := by
  intro other
  rw [Table.find?_erase]
  split
  · rename_i hother
    subst hother
    exact Or.inr ⟨hkey, hnode, fun h => by cases h⟩
  · exact Or.inl rfl

/-! ### Paths in directories that agree -/

/-- A path stays off some keys if it leads through directories and does not end at such a key. -/
structure StaysOff (d : Directory) (keys : String → Prop) (path : String) (stem : Place) :
    Prop where
  leads : (partsOf path).dropLast.foldlM d.enter [] = .ok stem
  apart : ∀ name, (partsOf path).getLast? = some name → ¬ keys (pathOf (stem ++ [name]))

namespace StaysOff

theorem of_keeps (h : d.StaysOff keys path stem) (hkeeps : d.Keeps later) :
    later.StaysOff keys path stem :=
  { h with leads := foldlM_enter_of_keeps hkeeps h.leads }

/-- A path that stays off the keys leads to the same place and the same node. -/
theorem locate (h : d.StaysOff keys path stem) (hagree : d.AgreeOff keys e) :
    e.locate path = d.locate path := by
  have hleads := foldlM_enter_of_keeps hagree.keeps h.leads
  unfold Directory.locate follow
  split
  · split
    · rfl
    · rename_i last hlast
      have hnode : e.nodeAt? (stem ++ [last]) = d.nodeAt? (stem ++ [last]) :=
        hagree.find?_eq (h.apart last hlast)
      simp only [h.leads, hleads, Except.bind, hnode]
  · rfl

/-- The node at a path that stays off the keys is the same. -/
theorem find? (h : d.StaysOff keys path stem) (hagree : d.AgreeOff keys e) :
    e.find? path = d.find? path := by
  unfold Directory.find?
  rw [h.locate hagree]

/-- A file at a path that stays off the keys is written in both directories or in none. -/
theorem write (h : d.StaysOff keys path stem) (hagree : d.AgreeOff keys e)
    (text : Option String) :
    (∃ why, d.write path text = .error why ∧ e.write path text = .error why) ∨
      ∃ d' e', d.write path text = .ok d' ∧ e.write path text = .ok e' ∧ d'.AgreeOff keys e' := by
  unfold Directory.write
  rw [h.locate hagree]
  split
  · exact Or.inl ⟨_, rfl, rfl⟩
  · split
    · exact Or.inl ⟨_, rfl, rfl⟩
    · exact Or.inl ⟨_, rfl, rfl⟩
    · exact Or.inr ⟨_, _, rfl, rfl, hagree.insert _ _⟩

/-- A file is moved between paths that stay off the keys in both directories or in none. -/
theorem rename {source target : String} {stem' : Place} (h : d.StaysOff keys source stem)
    (h' : d.StaysOff keys target stem') (hagree : d.AgreeOff keys e) :
    (∃ why, d.rename source target = .error why ∧ e.rename source target = .error why) ∨
      ∃ d' e', d.rename source target = .ok d' ∧ e.rename source target = .ok e' ∧
        d'.AgreeOff keys e' := by
  unfold Directory.rename
  rw [h.locate hagree]
  split
  · rename_i place text hlocate
    rcases h'.write hagree text with ⟨why, hd, he⟩ | ⟨d', e', hd, he, hboth⟩
    · rw [hd, he]
      exact Or.inl ⟨why, rfl, rfl⟩
    · rw [hd, he]
      exact Or.inr ⟨_, _, rfl, rfl, hboth.erase _⟩
  · exact Or.inl ⟨_, rfl, rfl⟩
  · exact Or.inl ⟨_, rfl, rfl⟩

end StaysOff

/-! ### Places of a folder -/

/-- A path that leads to a directory leads there part by part. -/
theorem foldlM_enter_of_follow {parts : List String}
    (h : d.follow parts = .ok (place, some .directory)) : parts.foldlM d.enter [] = .ok place := by
  rcases List.eq_nil_or_concat parts with rfl | ⟨front, last, rfl⟩
  · cases h
    rfl
  · rw [List.concat_eq_append] at h ⊢
    unfold follow at h
    rw [List.getLast?_concat, List.dropLast_concat] at h
    rw [List.foldlM_append]
    cases hfront : front.foldlM d.enter [] with
    | error why =>
      rw [hfront] at h
      cases h
    | ok stem =>
      rw [hfront] at h
      simp only [Except.bind] at h
      show (List.foldlM d.enter stem [last]) = _
      rw [List.foldlM_cons]
      unfold enter
      split at h
      · rename_i hdot
        cases h
        rw [if_pos hdot]
        rfl
      · split at h
        · rename_i hdot hdots
          cases h
          rw [if_neg hdot, if_pos hdots]
          rfl
        · split at h
          · cases h
          · rename_i hdot hdots hname
            obtain ⟨rfl, hnode⟩ := Prod.mk.inj (Except.ok.inj h)
            rw [if_neg hdot, if_neg hdots, if_neg hname, hnode]
            rfl

/-- Parts that lead on one after the other lead to a directory. -/
theorem follow_of_foldlM_enter {parts : List String} (h : parts.foldlM d.enter [] = .ok place) :
    d.follow parts = .ok (place, some .directory) := by
  rcases List.eq_nil_or_concat parts with rfl | ⟨front, last, rfl⟩
  · cases h
    rfl
  · rw [List.concat_eq_append] at h ⊢
    rw [List.foldlM_append] at h
    unfold follow
    rw [List.getLast?_concat, List.dropLast_concat]
    cases hfront : front.foldlM d.enter [] with
    | error why =>
      rw [hfront] at h
      cases h
    | ok stem =>
      rw [hfront] at h
      have hlast : List.foldlM d.enter stem [last] = .ok place := h
      simp only [List.foldlM_cons, List.foldlM_nil, bind_pure] at hlast
      simp only [Except.bind]
      unfold enter at hlast
      split at hlast
      · rename_i hdot
        cases hlast
        rw [if_pos hdot]
      · split at hlast
        · rename_i hdot hdots
          cases hlast
          rw [if_neg hdot, if_pos hdots]
        · split at hlast
          · cases hlast
          · rename_i hdot hdots hname
            rw [if_neg hdot, if_neg hdots, if_neg hname]
            split at hlast
            · rename_i hnode
              cases hlast
              rw [hnode]
            · cases hlast
            · cases hlast

/-- The first parts of those that lead on lead on as well. -/
theorem foldlM_enter_of_prefix {parts front : List String} (hfront : front <+: parts)
    (h : parts.foldlM d.enter [] = .ok place) : ∃ stem, front.foldlM d.enter [] = .ok stem := by
  obtain ⟨rest, rfl⟩ := hfront
  rw [List.foldlM_append] at h
  cases hleads : front.foldlM d.enter [] with
  | error why =>
    rw [hleads] at h
    cases h
  | ok stem => exact ⟨stem, rfl⟩

/-- A folder that is there is not made again. -/
theorem makePath_of_leads (hpath : isPath path = true)
    (h : (partsOf path).foldlM d.enter [] = .ok place) : d.makePath path = (.ok (), d) := by
  have hstem : ((partsOf path).reverse.dropWhile (· == ".")).reverse <+: partsOf path := by
    rw [← List.reverse_suffix, List.reverse_reverse]
    exact List.dropWhile_suffix _
  have hmade {front : List String} (hfront : front <+: partsOf path) :
      ∃ stem, d.follow front = .ok (stem, some .directory) := by
    obtain ⟨stem, hleads⟩ := foldlM_enter_of_prefix hfront h
    exact ⟨stem, follow_of_foldlM_enter hleads⟩
  unfold makePath
  rw [if_pos hpath]
  refine makeEach_of_made fun front hmem => ?_
  rcases List.mem_append.mp hmem with hstation | hlast
  · obtain ⟨i, -, rfl⟩ := List.mem_map.mp hstation
    exact hmade ((List.take_prefix _ _).trans ((List.dropLast_prefix _).trans hstem))
  · obtain rfl := List.mem_singleton.mp hlast
    exact hmade (List.prefix_refl _)

/-- A folder that was made leads to a directory. -/
theorem leads_of_makePath (h : d.makePath path = (.ok (), later)) :
    ∃ place, later.follow (partsOf path) = .ok (place, some .directory) := by
  unfold makePath at h
  split at h
  · exact (makeEach_ok h).2 _ (by simp)
  · cases h

end DurableCache.Directory
