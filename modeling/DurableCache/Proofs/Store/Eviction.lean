import DurableCache.Proofs.Store.Sound
import DurableCache.Store.Eviction

/-!
# Eviction from sound stores

In a sound store the least age belongs to an entry, so each round of an eviction removes one
entry and the rounds come to an end. A trim erases the keys that it answers, leaves the other
entries as they are, and brings the sum within the budget.
-/

namespace DurableCache.Store

variable {estimator : Estimator} {s : Store}

/-- What an eviction in rounds may do: it takes nothing, because the sum is within the budget or no
age is left, or it takes the key of the least age and goes on. -/
theorem evictRounds_cases {budget rounds : Nat} {evicted : List String} {kept : Store}
    (h : Store.evictRounds budget rounds s = some (evicted, kept)) :
    ((s.total ≤ budget ∨ s.ages.first? = none) ∧ evicted = [] ∧ kept = s) ∨
      ∃ age others left, budget < s.total ∧ s.ages.first? = some (age, ()) ∧ rounds = left + 1 ∧
        Store.evictRounds budget left (s.erase age.key) = some (others, kept) ∧
        evicted = age.key :: others := by
  rw [Store.evictRounds.eq_def] at h
  by_cases hwithin : s.total ≤ budget
  · simp only [hwithin, if_true] at h
    cases h
    exact Or.inl ⟨Or.inl hwithin, rfl, rfl⟩
  · simp only [hwithin, if_false] at h
    cases hfirst : s.ages.first? with
    | none =>
      simp only [hfirst] at h
      cases h
      exact Or.inl ⟨Or.inr rfl, rfl, rfl⟩
    | some row =>
      obtain ⟨age, ⟨⟩⟩ := row
      simp only [hfirst] at h
      cases rounds with
      | zero => cases h
      | succ left =>
        obtain ⟨⟨others, last⟩, hrest, heq⟩ := Option.map_eq_some_iff.mp h
        obtain ⟨rfl, rfl⟩ := Prod.mk.inj heq
        exact Or.inr ⟨age, others, left, by omega, rfl, rfl, hrest, rfl⟩

/-- An eviction in rounds erases the keys that it answers. -/
theorem evictRounds_eq_eraseAll {budget rounds : Nat} {evicted : List String} {kept : Store}
    (h : evictRounds budget rounds s = some (evicted, kept)) : kept = s.eraseAll evicted := by
  induction rounds generalizing s evicted with
  | zero =>
    rcases evictRounds_cases h with ⟨-, rfl, rfl⟩ | ⟨_, _, _, -, -, hnone, -⟩
    · rfl
    · cases hnone
  | succ rounds ih =>
    rcases evictRounds_cases h with ⟨-, rfl, rfl⟩ | ⟨age, others, left, -, -, hleft, hrest, rfl⟩
    · rfl
    · obtain rfl := Nat.succ.inj hleft
      have hkept := ih hrest
      exact hkept

/-- A trim erases the keys that it answers. -/
theorem trim_eq_eraseAll {budget : Nat} {evicted : List String} {kept : Store}
    (h : s.trim budget = some (evicted, kept)) : kept = s.eraseAll evicted := by
  unfold trim at h
  split at h
  · cases h
    rfl
  · exact evictRounds_eq_eraseAll h

/-- A store whose sum is right and not zero has an entry. -/
theorem Tallied.exists_find?_of_total_pos (h : s.Tallied estimator) (hpos : 0 < s.total) :
    ∃ key entry, s.find? key = some entry := by
  rw [h.summed] at hpos
  cases hrows : s.slots.rows with
  | nil => simp [Table.total, Rows.total, hrows] at hpos
  | cons row rest =>
    have hmem : (row.1, row.2) ∈ s.slots.rows := by simp [hrows]
    have hslot := Table.mem_rows_iff.mp hmem
    exact ⟨row.1, row.2.entry, by simp [find?, hslot]⟩

/-- The least age of a sound store is the age of an entry. -/
theorem Sound.find?_of_first? (h : s.Sound estimator) {age : Age}
    (hfirst : s.ages.first? = some (age, ())) :
    ∃ entry, s.find? age.key = some entry ∧ entry.timestamp = age.written := by
  have hmem : (age, ()) ∈ s.ages.rows := List.mem_of_head? hfirst
  have haged := (h.aged age).mp (Table.mem_rows_iff.mp hmem)
  exact Option.map_eq_some_iff.mp haged

/-- A sound store whose sum is not zero has a least age. -/
theorem Sound.exists_first? (h : s.Sound estimator) (hpos : 0 < s.total) :
    ∃ age, s.ages.first? = some (age, ()) := by
  obtain ⟨key, entry, hentry⟩ := h.tallied.exists_find?_of_total_pos hpos
  have haged : s.ages.find? ⟨entry.timestamp, key⟩ = some () :=
    (h.aged ⟨entry.timestamp, key⟩).mpr (by simp [hentry])
  have hmem := Table.mem_rows_iff.mpr haged
  cases hrows : s.ages.rows with
  | nil => simp [hrows] at hmem
  | cons row rest => exact ⟨row.1, by simp [Table.first?, hrows]⟩

/-- An eviction from a sound store ends within as many rounds as there are entries; it erases
the keys that it answers and leaves a sum within the budget. -/
theorem Sound.evictRounds (h : s.Sound estimator) (budget : Nat) {rounds : Nat}
    (hrounds : s.size ≤ rounds) :
    ∃ evicted, Store.evictRounds budget rounds s = some (evicted, s.eraseAll evicted) ∧
      (s.eraseAll evicted).total ≤ budget := by
  -- Each round erases a stored key, so the rounds left never fall below the entries left.
  induction rounds generalizing s with
  | zero =>
    have hempty : s.total ≤ budget := by
      refine Nat.le_of_not_lt fun hover => ?_
      obtain ⟨key, entry, hentry⟩ := h.tallied.exists_find?_of_total_pos (by omega)
      obtain ⟨slot, hslot, -⟩ := Option.map_eq_some_iff.mp hentry
      have := size_erase hslot
      omega
    refine ⟨[], ?_, hempty⟩
    rw [Store.evictRounds.eq_def]
    simp [hempty, Store.eraseAll]
  | succ rounds ih =>
    by_cases hwithin : s.total ≤ budget
    · refine ⟨[], ?_, hwithin⟩
      rw [Store.evictRounds.eq_def]
      simp [hwithin, Store.eraseAll]
    · obtain ⟨age, hfirst⟩ := h.exists_first? (by omega)
      obtain ⟨entry, hentry, -⟩ := h.find?_of_first? hfirst
      obtain ⟨slot, hslot, -⟩ := Option.map_eq_some_iff.mp hentry
      have hsize := size_erase hslot
      obtain ⟨evicted, hrest, htotal⟩ := ih (h.erase age.key) (by omega)
      refine ⟨age.key :: evicted, ?_, htotal⟩
      rw [Store.evictRounds.eq_def]
      simp only [hwithin, if_false, hfirst, hrest, Option.map_some]
      rfl

/-- A trim of a sound store erases the keys that it answers and leaves a sum within the
budget. -/
theorem Sound.trim (h : s.Sound estimator) (budget : Nat) :
    ∃ evicted, s.trim budget = some (evicted, s.eraseAll evicted) ∧
      (s.eraseAll evicted).total ≤ budget := by
  by_cases hwithin : s.total ≤ budget
  · exact ⟨[], trim_of_le hwithin, hwithin⟩
  · obtain ⟨evicted, hevict, htotal⟩ := h.evictRounds budget (Nat.le_refl s.size)
    exact ⟨evicted, by rw [Store.trim, if_neg hwithin, evict, hevict], htotal⟩

end DurableCache.Store
