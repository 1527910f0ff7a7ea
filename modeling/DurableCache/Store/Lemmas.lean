import DurableCache.Store
import DurableCache.Table.Lemmas

/-!
# Lookups of a store

What each operation does to the entry under each key. A store is looked at through `find?`
and `total` alone, so later arguments need not open the operations.
-/

namespace DurableCache.Store

/-- The entries by key are the lookups. -/
@[simp] theorem find?_entries (s : Store) (key : String) :
    s.entries.find? key = s.find? key :=
  Table.find?_mapValues s.slots Slot.entry key

/-- Erasing changes the lookup of its own key only. -/
theorem find?_erase (s : Store) (key other : String) :
    (s.erase key).find? other = if other = key then none else s.find? other := by
  cases h : s.slots.find? key with
  | none =>
      rw [erase_of_find?_eq_none h]
      split
      · rename_i ho
        simp [find?, ho, h]
      · rfl
  | some slot =>
      simp only [find?, erase, h, Table.find?_erase]
      split <;> rfl

@[simp] theorem find?_mark (s : Store) (key other : String) (entry : Entry) :
    (s.mark key entry).find? other = s.find? other := rfl

/-- A write that succeeds changes the lookup of its own key only. -/
theorem find?_insert_ok {s written : Store} {key : String} {entry : Entry} {size : Nat}
    {previous : Option Entry} (h : s.insert key entry size = (.ok previous, written))
    (other : String) :
    written.find? other = if other = key then some entry else s.find? other := by
  simp only [insert] at h
  split at h
  · obtain rfl := (Prod.mk.inj h).2
    have he := find?_erase s key other
    simp only [find?, mark, Table.find?_insert] at he ⊢
    split
    · rfl
    · rename_i ho
      simpa [ho] using he
  · cases (Prod.mk.inj h).1

/-- Only a sum that no longer fits abandons a write. -/
theorem insert_ok_iff {s : Store} {key : String} {entry : Entry} {size : Nat} :
    (∃ previous written, s.insert key entry size = (.ok previous, written)) ↔
      (s.erase key).total + size < wordLimit := by
  unfold insert
  by_cases h : (s.erase key).total + size < wordLimit
  · simp [mark, h]
  · simp [mark, h]

/-- Erasing a list of keys changes the lookups of those keys only. -/
theorem find?_eraseAll (s : Store) (keys : List String) (other : String) :
    (s.eraseAll keys).find? other = if other ∈ keys then none else s.find? other := by
  unfold eraseAll
  induction keys generalizing s with
  | nil => simp
  | cons key rest ih =>
      rw [List.foldl_cons, ih, find?_erase]
      by_cases hr : other ∈ rest
      · simp [hr]
      · simp [hr]

/-- Exactly the entries that satisfy the test are kept. -/
theorem find?_retain (s : Store) (keep : String → Entry → Bool) (key : String) :
    (s.retain keep).2.find? key = (s.find? key).filter (keep key) := by
  have hdoomed : key ∈ (s.entries.filter fun key entry => !keep key entry).keys ↔
      ∃ entry, (s.find? key).filter (fun entry => !keep key entry) = some entry := by
    rw [Table.mem_keys_iff, Table.find?_filter, find?_entries]
  simp only [retain, find?_eraseAll]
  split
  · rename_i h
    obtain ⟨entry, he⟩ := hdoomed.mp h
    obtain ⟨hs, hk⟩ := Option.filter_eq_some_iff.mp he
    rw [hs, Option.filter_some, if_neg (by simpa using hk)]
  · rename_i h
    cases hs : s.find? key with
    | none => rfl
    | some entry =>
        cases hk : keep key entry with
        | true => rw [Option.filter_some, if_pos hk]
        | false => exact absurd (hdoomed.mpr ⟨entry, by simp [hs, hk]⟩) h

end DurableCache.Store
