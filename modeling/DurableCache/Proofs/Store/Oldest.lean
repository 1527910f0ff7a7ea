import DurableCache.Proofs.Store.Eviction

/-!
# Which entries an eviction takes

An eviction goes by age, and among writes of the same time by key. So an entry of a sound store is
evicted exactly if it does not fit into the budget together with the entries whose turn comes after
its own (`Sound.mem_trim_iff`).
-/

namespace DurableCache

namespace Age

/-- An age comes before another one if it is of an earlier time, or of the same time and a lesser
key. -/
theorem compare_eq_lt_iff {a b : Age} :
    compare a b = .lt ↔ a.written < b.written ∨ a.written = b.written ∧ a.key < b.key := by
  obtain ⟨t, k⟩ := a
  obtain ⟨u, l⟩ := b
  show compareLex (compareOn Age.written) (compareOn Age.key) ⟨t, k⟩ ⟨u, l⟩ = .lt ↔ _
  have hkeys : compare k l = .lt ↔ k < l := compareOfLessAndEq_eq_lt
  simp only [compareLex, compareOn, Ordering.then_eq_lt]
  rw [Std.compare_eq_lt, Std.LawfulEqOrd.compare_eq_iff_eq, hkeys]

end Age

namespace Store

variable {estimator : Estimator} {s kept : Store} {budget : Nat} {key : String} {slot : Slot}
variable {evicted : List String}

/-- The age of a slot. -/
def ageOf (key : String) (slot : Slot) : Age := ⟨slot.entry.timestamp, key⟩

/-- The sum of the sizes of the entries whose turn in an eviction comes after an age. -/
def sizeAfter (s : Store) (age : Age) : Nat :=
  (s.slots.filter fun key slot => compare age (ageOf key slot) == .lt).total Slot.size

/-- Every entry of a sound store comes after the least age, or it is the entry of that age. -/
theorem Sound.first_le (h : s.Sound estimator) {age : Age}
    (hfirst : s.ages.first? = some (age, ())) (hslot : s.slots.find? key = some slot) :
    ageOf key slot = age ∨ compare age (ageOf key slot) = .lt := by
  have hfind : s.ages.find? (ageOf key slot) = some () :=
    (h.aged (ageOf key slot)).mpr (by simp [find?, ageOf, hslot])
  have hmem : (ageOf key slot, ()) ∈ s.ages.rows := Table.mem_rows_iff.mpr hfind
  have hascending := s.ages.ascending
  unfold Table.first? at hfirst
  cases hrows : s.ages.rows with
  | nil =>
    rw [hrows] at hfirst
    cases hfirst
  | cons row rest =>
    rw [hrows] at hfirst hmem hascending
    obtain rfl : row = (age, ()) := Option.some.inj hfirst
    rcases List.mem_cons.mp hmem with hsame | hlater
    · exact Or.inl (Prod.mk.inj hsame).1
    · exact Or.inr ((List.pairwise_cons.mp hascending).1 _ hlater)

/-- The entry of the least age and those after it are all entries. -/
theorem Sound.sizeAfter_first (h : s.Sound estimator)
    (hfirst : s.ages.first? = some (ageOf key slot, ())) (hslot : s.slots.find? key = some slot) :
    slot.size + s.sizeAfter (ageOf key slot) = s.total := by
  have hothers : (s.slots.filter fun other held =>
      compare (ageOf key slot) (ageOf other held) == .lt) = s.slots.erase key := by
    refine Table.ext_find? fun other => ?_
    rw [Table.find?_filter, Table.find?_erase]
    by_cases hother : other = key
    · subst hother
      simp [hslot, Option.filter_some]
    · rw [if_neg hother]
      cases hheld : s.slots.find? other with
      | none => rfl
      | some held =>
        rcases h.first_le hfirst hheld with hsame | hlater
        · exact absurd (congrArg Age.key hsame) hother
        · simp [Option.filter_some, hlater]
  have htotal := Table.total_erase Slot.size hslot
  rw [sizeAfter, hothers, h.summed]
  omega

/-- The erasure of an entry that does not come after an age leaves those that do. -/
theorem sizeAfter_erase {age : Age} (hslot : s.slots.find? key = some slot)
    (hbefore : compare age (ageOf key slot) ≠ .lt) :
    (s.erase key).sizeAfter age = s.sizeAfter age := by
  have hothers : ((s.slots.erase key).filter fun other held =>
      compare age (ageOf other held) == .lt) =
        s.slots.filter fun other held => compare age (ageOf other held) == .lt := by
    refine Table.ext_find? fun other => ?_
    rw [Table.find?_filter, Table.find?_filter, Table.find?_erase]
    by_cases hother : other = key
    · subst hother
      simp [hslot, Option.filter_some, hbefore]
    · rw [if_neg hother]
  rw [sizeAfter, slots_erase, hothers, sizeAfter]

/-- An entry and those after it have no greater sum than all entries. -/
theorem Sound.sizeAfter_le (h : s.Sound estimator) (hslot : s.slots.find? key = some slot) :
    slot.size + s.sizeAfter (ageOf key slot) ≤ s.total := by
  have hkept : (s.erase key).sizeAfter (ageOf key slot) = s.sizeAfter (ageOf key slot) :=
    sizeAfter_erase hslot (by simp)
  have hpart : (s.erase key).sizeAfter (ageOf key slot) ≤ (s.erase key).slots.total Slot.size :=
    Table.total_filter_le _ _ _
  have htotal := Table.total_erase Slot.size hslot
  rw [slots_erase] at hpart
  rw [h.summed]
  omega

/-- Every entry fits into the budget together with those after it if all entries do. -/
theorem Sound.fits_of_total_le (h : s.Sound estimator) (hwithin : s.total ≤ budget)
    (key : String) :
    ¬ ∃ slot, s.slots.find? key = some slot ∧
      budget < slot.size + s.sizeAfter (ageOf key slot) := by
  rintro ⟨slot, hslot, hover⟩
  exact absurd (Nat.le_trans (h.sizeAfter_le hslot) hwithin) (Nat.not_le.mpr hover)

/-- An eviction of a sound store ends only when the sum is within the budget. -/
theorem Sound.total_le_of_ends (h : s.Sound estimator)
    (hends : s.total ≤ budget ∨ s.ages.first? = none) : s.total ≤ budget := by
  rcases hends with hwithin | hnone
  · exact hwithin
  · refine Nat.le_of_not_lt fun hover => ?_
    obtain ⟨age, hfirst⟩ := h.exists_first? (Nat.zero_lt_of_lt hover)
    rw [hfirst] at hnone
    cases hnone

/-- An eviction in rounds takes exactly the entries that do not fit into the budget together with
those after them. -/
theorem Sound.mem_evictRounds_iff (h : s.Sound estimator) {rounds : Nat}
    (hevict : Store.evictRounds budget rounds s = some (evicted, kept)) (key : String) :
    key ∈ evicted ↔ ∃ slot, s.slots.find? key = some slot ∧
      budget < slot.size + s.sizeAfter (ageOf key slot) := by
  induction rounds generalizing s evicted with
  | zero =>
    rcases evictRounds_cases hevict with ⟨hends, rfl, rfl⟩ | ⟨_, _, _, -, -, hnone, -⟩
    · have hwithin := h.total_le_of_ends hends
      exact iff_of_false List.not_mem_nil (h.fits_of_total_le hwithin key)
    · cases hnone
  | succ rounds ih =>
    rcases evictRounds_cases hevict with
      ⟨hends, rfl, rfl⟩ | ⟨age, others, left, hover, hfirst, hleft, hrest, rfl⟩
    · have hwithin := h.total_le_of_ends hends
      exact iff_of_false List.not_mem_nil (h.fits_of_total_le hwithin key)
    · obtain ⟨entry, hentry, hwritten⟩ := h.find?_of_first? hfirst
      obtain ⟨oldest, holdest, rfl⟩ := Option.map_eq_some_iff.mp hentry
      obtain rfl := Nat.succ.inj hleft
      have hage : ageOf age.key oldest = age := by rw [ageOf, hwritten]
      by_cases hkey : key = age.key
      · -- The entry of the least age does not fit, as all entries together do not.
        subst hkey
        refine iff_of_true List.mem_cons_self ⟨oldest, holdest, ?_⟩
        rwa [h.sizeAfter_first (by rw [hage, hfirst]) holdest]
      · -- The other entries keep those that come after them.
        rw [List.mem_cons, or_iff_right hkey, ih (h.erase age.key) hrest, slots_erase,
          Table.find?_erase_of_ne _ hkey]
        refine exists_congr fun slot => and_congr_right fun hslot => ?_
        rw [sizeAfter_erase holdest]
        rw [hage]
        rcases h.first_le hfirst hslot with hsame | hlater
        · exact absurd (congrArg Age.key hsame) hkey
        · exact Std.OrientedCmp.not_lt_of_lt hlater

/-- A trim takes exactly the entries that do not fit into the budget together with those after
them. -/
theorem Sound.mem_trim_iff (h : s.Sound estimator)
    (htrim : s.trim budget = some (evicted, kept)) (key : String) :
    key ∈ evicted ↔ ∃ slot, s.slots.find? key = some slot ∧
      budget < slot.size + s.sizeAfter (ageOf key slot) := by
  unfold Store.trim at htrim
  split at htrim
  · rename_i hwithin
    cases htrim
    exact iff_of_false List.not_mem_nil (h.fits_of_total_le hwithin key)
  · exact h.mem_evictRounds_iff htrim key

/-- What holds of all lookups holds of all rows, and the other way round. -/
theorem forall_find?_iff {P : String → Entry → Prop} :
    (∀ key entry, s.find? key = some entry → P key entry) ↔
      ∀ row ∈ s.entries.rows, P row.1 row.2 := by
  simp only [← find?_entries, ← Table.mem_rows_iff, Prod.forall]

/-! ### The entry that was written last -/

variable {written : Store} {entry : Entry} {previous : Option Entry} {size : Nat}

/-- A write that succeeds changes the slot of its own key only. -/
theorem slots_put_ok (hput : s.put estimator key entry = (.ok previous, written))
    (hsize : estimator.size? entry = some size) (other : String) :
    written.slots.find? other =
      if other = key then some ⟨entry, size⟩ else s.slots.find? other := by
  unfold put at hput
  simp only [hsize] at hput
  have hfits := insert_ok_iff.mp ⟨_, _, hput⟩
  simp only [insert, mark, hfits, if_pos, Prod.mk.injEq] at hput
  rw [← hput.2, Table.find?_insert, slots_erase, Table.find?_erase]
  split <;> rfl

/-- A write at a time that is not before that of the replaced entry leaves the entries that come
after it as they were. -/
theorem sizeAfter_put_ok (hput : s.put estimator key entry = (.ok previous, written))
    (hsize : estimator.size? entry = some size)
    (hpast : ∀ held, s.find? key = some held → held.timestamp ≤ entry.timestamp) :
    written.sizeAfter ⟨entry.timestamp, key⟩ = s.sizeAfter ⟨entry.timestamp, key⟩ := by
  have hself (held : Slot) (hle : held.entry.timestamp ≤ entry.timestamp) :
      compare (⟨entry.timestamp, key⟩ : Age) (ageOf key held) ≠ .lt := by
    rw [Ne, Age.compare_eq_lt_iff]
    rintro (hlater | ⟨-, hkey⟩)
    · exact absurd hlater (UInt64.not_lt.mpr hle)
    · exact String.lt_irrefl key hkey
  have hothers : (written.slots.filter fun other held =>
      compare ⟨entry.timestamp, key⟩ (ageOf other held) == .lt) =
        s.slots.filter fun other held =>
          compare ⟨entry.timestamp, key⟩ (ageOf other held) == .lt := by
    refine Table.ext_find? fun other => ?_
    rw [Table.find?_filter, Table.find?_filter, slots_put_ok hput hsize]
    by_cases hother : other = key
    · subst hother
      rw [if_pos rfl, Option.filter_some, if_neg (by simpa using hself _ (UInt64.le_refl _))]
      cases hheld : s.slots.find? other with
      | none => rfl
      | some held =>
        have hle := hpast held.entry (by simp [find?, hheld])
        rw [Option.filter_some, if_neg (by simpa using hself held hle)]
    · rw [if_neg hother]
  rw [sizeAfter, hothers, sizeAfter]

/-- The trim behind a write takes the written entry exactly if it does not fit into the budget
together with the entries after it. -/
theorem Sound.mem_trim_put_iff (h : s.Sound estimator)
    (hput : s.put estimator key entry = (.ok previous, written))
    (hsize : estimator.size? entry = some size)
    (hpast : ∀ held, s.find? key = some held → held.timestamp ≤ entry.timestamp)
    (htrim : written.trim budget = some (evicted, kept)) :
    key ∈ evicted ↔ budget < size + s.sizeAfter ⟨entry.timestamp, key⟩ := by
  have hslot : written.slots.find? key = some ⟨entry, size⟩ := by
    rw [slots_put_ok hput hsize, if_pos rfl]
  rw [(h.put hput).mem_trim_iff htrim, hslot, ← sizeAfter_put_ok hput hsize hpast]
  constructor
  · rintro ⟨_, ⟨⟩, hover⟩
    exact hover
  · intro hover
    exact ⟨_, rfl, hover⟩

/-- No entry comes after an age if there is no later time and no greater key of the same time. -/
theorem sizeAfter_eq_zero {age : Age}
    (hpast : ∀ other held, s.find? other = some held → held.timestamp ≤ age.written)
    (hlast : ∀ other held, s.find? other = some held → held.timestamp = age.written →
      ¬ age.key < other) : s.sizeAfter age = 0 := by
  have hnone : (s.slots.filter fun other held => compare age (ageOf other held) == .lt) = ∅ := by
    refine Table.ext_find? fun other => ?_
    rw [Table.find?_filter, Table.find?_empty]
    cases hheld : s.slots.find? other with
    | none => rfl
    | some held =>
      have hentry : s.find? other = some held.entry := by simp [find?, hheld]
      have hbefore : compare age (ageOf other held) ≠ .lt := by
        rw [Ne, Age.compare_eq_lt_iff]
        rintro (hlater | ⟨hsame, hafter⟩)
        · exact UInt64.not_lt.mpr (hpast other held.entry hentry) hlater
        · exact hlast other held.entry hentry hsame.symm hafter
      rw [Option.filter_some, if_neg (by simpa using hbefore)]
  rw [sizeAfter, hnone, Table.total_empty]

end Store

end DurableCache
