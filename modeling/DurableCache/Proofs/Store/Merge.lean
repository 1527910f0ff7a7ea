import DurableCache.Proofs.Store.Sound

/-!
# Merging batches

A batch whose keys differ is merged key by key: an entry of the batch is stored unless its key
holds a strictly newer write, and other keys keep their entries. A merge that succeeds keeps a
store sound, and any merge keeps its sum right.
-/

namespace DurableCache.Store

variable {estimator : Estimator} {s merged : Store}

/-- A key holds a newer write exactly if its entry has the later time. -/
theorem holdsNewer_iff {key : String} {entry : Entry} :
    s.holdsNewer key entry = true ↔
      ∃ held, s.find? key = some held ∧ entry.timestamp < held.timestamp := by
  cases h : s.find? key <;> simp [holdsNewer, h]

/-- A write of an entry that may be too old either finds a newer write or succeeds. -/
theorem insertIfNewer_ok {key : String} {entry : Entry} {size : Nat} {stored : Bool}
    (h : s.insertIfNewer key entry size = (.ok stored, merged)) :
    (s.holdsNewer key entry = true ∧ stored = false ∧ merged = s) ∨
      (s.holdsNewer key entry = false ∧ stored = true ∧
        ∃ previous, s.insert key entry size = (.ok previous, merged)) := by
  unfold insertIfNewer at h
  split at h
  · rename_i hnewer
    cases h
    exact Or.inl ⟨hnewer, rfl, rfl⟩
  · rename_i hnewer
    split at h
    · rename_i previous written hwrite
      cases h
      exact Or.inr ⟨by simpa using hnewer, rfl, previous, hwrite⟩
    · cases h

/-- A write of an entry that may be too old keeps a store sound. -/
theorem Sound.insertIfNewer (h : s.Sound estimator) {key : String} {entry : Entry} {size : Nat}
    {stored : Bool} (hsize : estimator.size? entry = some size)
    (hwrite : s.insertIfNewer key entry size = (.ok stored, merged)) :
    merged.Sound estimator := by
  rcases insertIfNewer_ok hwrite with ⟨-, -, rfl⟩ | ⟨-, -, previous, hinsert⟩
  · exact h
  · exact h.insert hsize hinsert

/-- The entry under a key once a batch is merged. -/
def settled (s : Store) (batch : List (String × Entry)) (key : String) : Option Entry :=
  match Rows.find? key batch with
  | none => s.find? key
  | some entry => if s.holdsNewer key entry then s.find? key else some entry

/-- What a batch settles depends on the entry under the key alone. -/
theorem settled_congr {t : Store} (batch : List (String × Entry)) {key : String}
    (h : t.find? key = s.find? key) : t.settled batch key = s.settled batch key := by
  unfold settled holdsNewer
  rw [h]

/-- The sizes of a batch are those of its first entry and of the rest. -/
theorem sizeAll?_cons {key : String} {entry : Entry} {rest : List (String × Entry)}
    {sized : List Sized} (h : sizeAll? estimator ((key, entry) :: rest) = some sized) :
    ∃ size others, estimator.size? entry = some size ∧ sizeAll? estimator rest = some others ∧
      sized = ⟨key, entry, size⟩ :: others := by
  unfold sizeAll? at h
  split at h
  · rename_i size others hsize hothers
    exact ⟨size, others, hsize, hothers, (Option.some.inj h).symm⟩
  · cases h

/-- Writing the first item of a sized batch leaves the rest of the batch to be written. -/
theorem insertAll_cons {item : Sized} {rest : List Sized} {written stored : Nat}
    (h : s.insertAll written (item :: rest) = (.ok stored, merged)) :
    ∃ one next, s.insertIfNewer item.key item.entry item.size = (.ok one, next) ∧
      next.insertAll (if one then written + 1 else written) rest = (.ok stored, merged) := by
  unfold insertAll at h
  split at h
  · rename_i next hone
    exact ⟨true, next, hone, h⟩
  · rename_i next hone
    exact ⟨false, next, hone, h⟩
  · cases h

/-- A batch that is written keeps a store sound. -/
theorem Sound.insertAll (h : s.Sound estimator) {batch : List (String × Entry)}
    {sized : List Sized} {written stored : Nat} (hsized : sizeAll? estimator batch = some sized)
    (hwrite : s.insertAll written sized = (.ok stored, merged)) : merged.Sound estimator := by
  induction batch generalizing s sized written with
  | nil =>
    cases hsized
    cases hwrite
    exact h
  | cons row rest ih =>
    obtain ⟨size, others, hsize, hothers, rfl⟩ := sizeAll?_cons hsized
    obtain ⟨one, next, hone, hrest⟩ := insertAll_cons hwrite
    exact ih (h.insertIfNewer hsize hone) hothers hrest

section

variable {P : Store → Prop}

/-- What writing keeps a write of an entry that may be too old keeps, abandoned or not. -/
theorem Kept.insertIfNewer (h : Kept estimator P) (key : String) {entry : Entry} {size : Nat}
    (hsize : estimator.size? entry = some size) (hs : P s) :
    P (s.insertIfNewer key entry size).2 := by
  have hwritten := h.insert key hsize hs
  unfold Store.insertIfNewer
  split
  · exact hs
  · cases hinsert : s.insert key entry size with
    | mk answer left =>
      rw [hinsert] at hwritten
      cases answer <;> exact hwritten

/-- So does a sized batch, written to its end or not. -/
theorem Kept.insertAll (h : Kept estimator P) {batch : List (String × Entry)}
    {sized : List Sized} (hsized : sizeAll? estimator batch = some sized) (written : Nat)
    (hs : P s) : P (s.insertAll written sized).2 := by
  induction batch generalizing s sized written with
  | nil =>
    cases hsized
    exact hs
  | cons row rest ih =>
    obtain ⟨size, others, hsize, hothers, rfl⟩ := sizeAll?_cons hsized
    have hfirst := h.insertIfNewer row.1 hsize hs
    unfold Store.insertAll
    split
    · rename_i next hone
      rw [hone] at hfirst
      exact ih hothers (written + 1) hfirst
    · rename_i next hone
      rw [hone] at hfirst
      exact ih hothers written hfirst
    · rename_i why left hone
      rw [hone] at hfirst
      exact hfirst

/-- So does a merge, abandoned or not. -/
theorem Kept.merge (h : Kept estimator P) (batch : List (String × Entry)) (hs : P s) :
    P (s.merge estimator batch).2 := by
  unfold Store.merge
  split
  · exact hs
  · rename_i sized hsized
    exact h.insertAll hsized 0 hs

end

/-- A merge keeps the sum right, abandoned or not. -/
theorem Tallied.merge (h : s.Tallied estimator) (batch : List (String × Entry)) :
    (s.merge estimator batch).2.Tallied estimator :=
  tallied_kept.merge batch h

/-- A write that may be too old settles its own key and no other. -/
theorem find?_insertIfNewer {key : String} {entry : Entry} {size : Nat} {stored : Bool}
    (h : s.insertIfNewer key entry size = (.ok stored, merged)) (other : String) :
    merged.find? other = if other = key ∧ stored = true then some entry else s.find? other := by
  rcases insertIfNewer_ok h with ⟨-, rfl, rfl⟩ | ⟨-, rfl, previous, hinsert⟩
  · simp
  · simp [find?_insert_ok hinsert]

/-- Writing a batch of different keys settles every key and counts the entries written. -/
theorem settled_insertAll {batch : List (String × Entry)} {sized : List Sized}
    {written stored : Nat} (hkeys : (batch.map Prod.fst).Nodup)
    (hsized : sizeAll? estimator batch = some sized)
    (hwrite : s.insertAll written sized = (.ok stored, merged)) :
    (∀ key, merged.find? key = s.settled batch key) ∧
      stored = written + (batch.filter fun row => !s.holdsNewer row.1 row.2).length := by
  induction batch generalizing s sized written with
  | nil =>
    cases hsized
    cases hwrite
    exact ⟨fun key => rfl, rfl⟩
  | cons row rest ih =>
    obtain ⟨key, entry⟩ := row
    obtain ⟨size, others, hsize, hothers, rfl⟩ := sizeAll?_cons hsized
    obtain ⟨one, next, hone, hrest⟩ := insertAll_cons hwrite
    obtain ⟨hnew, hkeys⟩ := List.nodup_cons.mp hkeys
    obtain ⟨hfind, hcount⟩ := ih hkeys hothers hrest
    have hone' : one = !s.holdsNewer key entry := by
      rcases insertIfNewer_ok hone with ⟨hn, ho, -⟩ | ⟨hn, ho, -⟩ <;> simp only at hn <;>
        simp [hn, ho]
    -- The other keys of the batch still hold what they held before the first write.
    have hsame (other : String) (hother : other ≠ key) : next.find? other = s.find? other := by
      simp [find?_insertIfNewer hone, hother]
    refine ⟨fun other => ?_, ?_⟩
    · rw [hfind]
      by_cases hother : other = key
      · subst hother
        have habsent := Rows.find?_eq_none_of_not_mem hnew
        have hfirst := Rows.find?_cons_self other entry rest
        simp only [settled, habsent, hfirst, find?_insertIfNewer hone, true_and, hone']
        cases s.holdsNewer other entry <;> simp
      · have hlater : s.settled ((key, entry) :: rest) other = s.settled rest other := by
          simp only [settled, Rows.find?_cons_of_ne hother]
        rw [hlater, settled_congr rest (hsame other hother)]
    · have hfilter : (rest.filter fun row => !next.holdsNewer row.1 row.2) =
          rest.filter fun row => !s.holdsNewer row.1 row.2 := by
        refine List.filter_congr fun row hrow => ?_
        have hne : row.1 ≠ key := by
          intro he
          exact hnew (List.mem_map.mpr ⟨row, hrow, he⟩)
        simp only [holdsNewer, hsame row.1 hne]
      rw [hcount, hfilter, List.filter_cons, hone']
      cases s.holdsNewer key entry <;> simp
      omega

/-- A merge that succeeds keeps a store sound. -/
theorem Sound.merge (h : s.Sound estimator) {batch : List (String × Entry)} {stored : Nat}
    (hmerge : s.merge estimator batch = (.ok stored, merged)) : merged.Sound estimator := by
  unfold Store.merge at hmerge
  split at hmerge
  · cases hmerge
  · rename_i sized hsized
    exact h.insertAll hsized hmerge

/-- A merge of different keys settles every key and counts the entries written. -/
theorem settled_merge {batch : List (String × Entry)} {stored : Nat}
    (hkeys : (batch.map Prod.fst).Nodup)
    (hmerge : s.merge estimator batch = (.ok stored, merged)) :
    (∀ key, merged.find? key = s.settled batch key) ∧
      stored = (batch.filter fun row => !s.holdsNewer row.1 row.2).length := by
  unfold merge at hmerge
  split at hmerge
  · cases hmerge
  · rename_i sized hsized
    obtain ⟨hfind, hcount⟩ := settled_insertAll hkeys hsized hmerge
    exact ⟨hfind, by rw [hcount, Nat.zero_add]⟩

end DurableCache.Store
