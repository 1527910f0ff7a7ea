import DurableCache.Store.Batch

/-!
# Abandoned writes

A write is abandoned for one reason only: a size does not fit. If it is the size of an entry that
is to be written, nothing has changed yet. If it is the sum, the write stops halfway
(`halfWritten`), and a batch stops at that entry.
-/

namespace DurableCache.Store

variable {estimator : Estimator} {s written : Store} {key : String} {entry : Entry} {why : Abort}

/-- What is left of a write when the sum does not fit: the old entry is gone, and the index holds
the age of the new one, which is not stored. -/
def halfWritten (s : Store) (key : String) (entry : Entry) : Store := (s.erase key).mark key entry

/-- An insertion is abandoned halfway. -/
theorem insert_error {size : Nat} (h : s.insert key entry size = (.error why, written)) :
    why = .sizeOverflow ∧ written = s.halfWritten key entry := by
  simp only [insert] at h
  split at h
  · cases h
  · cases h
    exact ⟨rfl, rfl⟩

/-- A put is abandoned halfway, or at once if its entry has no size. -/
theorem put_error (h : s.put estimator key entry = (.error why, written)) :
    why = .sizeOverflow ∧
      written = if estimator.size? entry = none then s else s.halfWritten key entry := by
  unfold put at h
  split at h
  · rename_i hsize
    cases h
    exact ⟨rfl, (if_pos hsize).symm⟩
  · rename_i size hsize
    obtain ⟨hwhy, hleft⟩ := insert_error h
    exact ⟨hwhy, by simp [hsize, hleft]⟩

/-- An insertion that may be too old is abandoned halfway. -/
theorem insertIfNewer_error {size : Nat}
    (h : s.insertIfNewer key entry size = (.error why, written)) :
    why = .sizeOverflow ∧ written = s.halfWritten key entry := by
  unfold insertIfNewer at h
  split at h
  · cases h
  · split at h
    · cases h
    · rename_i hinsert
      cases h
      exact insert_error hinsert

/-- A put that may be too old is abandoned halfway, or at once if its entry has no size. -/
theorem putIfNewer_error (h : s.putIfNewer estimator key entry = (.error why, written)) :
    why = .sizeOverflow ∧
      written = if estimator.size? entry = none then s else s.halfWritten key entry := by
  unfold putIfNewer at h
  split at h
  · rename_i hsize
    cases h
    exact ⟨rfl, (if_pos hsize).symm⟩
  · rename_i size hsize
    obtain ⟨hwhy, hleft⟩ := insertIfNewer_error h
    exact ⟨hwhy, by simp [hsize, hleft]⟩

/-- A sized batch is abandoned halfway through one of its entries, when those before it have been
written. -/
theorem insertAll_error {sized : List Sized} {count : Nat}
    (h : s.insertAll count sized = (.error why, written)) :
    why = .sizeOverflow ∧ ∃ before item after reached t, sized = before ++ item :: after ∧
      s.insertAll count before = (.ok reached, t) ∧
        written = t.halfWritten item.key item.entry := by
  induction sized generalizing s count with
  | nil => cases h
  | cons first rest ih =>
    unfold insertAll at h
    split at h
    · rename_i next hfirst
      obtain ⟨hwhy, before, item, after, reached, t, rfl, hbefore, hleft⟩ := ih h
      refine ⟨hwhy, first :: before, item, after, reached, t, rfl, ?_, hleft⟩
      simp only [insertAll, hfirst, hbefore]
    · rename_i next hfirst
      obtain ⟨hwhy, before, item, after, reached, t, rfl, hbefore, hleft⟩ := ih h
      refine ⟨hwhy, first :: before, item, after, reached, t, rfl, ?_, hleft⟩
      simp only [insertAll, hfirst, hbefore]
    · rename_i hfirst
      cases h
      obtain ⟨hwhy, hleft⟩ := insertIfNewer_error hfirst
      exact ⟨hwhy, [], first, rest, count, s, rfl, rfl, hleft⟩

/-- A batch is abandoned at once if one of its entries has no size, and otherwise halfway through
an entry. -/
theorem merge_error {batch : List (String × Entry)}
    (h : s.merge estimator batch = (.error why, written)) :
    why = .sizeOverflow ∧
      ((sizeAll? estimator batch = none ∧ written = s) ∨
        ∃ before item after reached t,
          sizeAll? estimator batch = some (before ++ item :: after) ∧
          s.insertAll 0 before = (.ok reached, t) ∧
          written = t.halfWritten item.key item.entry) := by
  unfold merge at h
  split at h
  · rename_i hsized
    cases h
    exact ⟨rfl, Or.inl ⟨hsized, rfl⟩⟩
  · rename_i sized hsized
    obtain ⟨hwhy, before, item, after, reached, t, rfl, hbefore, hleft⟩ := insertAll_error h
    exact ⟨hwhy, Or.inr ⟨before, item, after, reached, t, hsized, hbefore, hleft⟩⟩

end DurableCache.Store
