import DurableCache.Proofs.Store.Eviction
import DurableCache.Proofs.Store.Merge

/-!
# How many entries there are

Each operation of a store changes the number of its entries by what it answers: a write adds one
entry or replaces one, a retention and a trim take as many as they report, and a merge adds those
that it stores under keys that held nothing.
-/

namespace DurableCache.Store

variable {estimator : Estimator} {s written merged kept : Store} {key : String} {entry : Entry}

/-- A store contains a key exactly if there is an entry under it. -/
theorem contains_eq_isSome (s : Store) (key : String) : s.contains key = (s.find? key).isSome := by
  rw [find?, Option.isSome_map]
  rfl

/-- Erasing a key takes one entry away if there is one. -/
theorem size_erase_add (s : Store) (key : String) :
    (s.erase key).size + (s.contains key).toNat = s.size := by
  cases hslot : s.slots.find? key with
  | none =>
    have hcontains : s.contains key = false := by simp [contains, Table.contains, hslot]
    rw [erase_of_find?_eq_none hslot, hcontains]
    rfl
  | some slot =>
    have hcontains : s.contains key = true := by simp [contains, Table.contains, hslot]
    rw [hcontains]
    exact size_erase hslot

/-- A write adds one entry, or replaces one if its key holds one. -/
theorem size_insert_ok {size : Nat} {previous : Option Entry}
    (h : s.insert key entry size = (.ok previous, written)) :
    written.size + (s.contains key).toNat = s.size + 1 := by
  have hfits := insert_ok_iff.mp ⟨_, _, h⟩
  simp only [insert, mark, hfits, if_pos, Prod.mk.injEq] at h
  have habsent : (s.erase key).slots.find? key = none := by rw [slots_erase, Table.find?_erase_self]
  have hadded : ((s.erase key).slots.insert key ⟨entry, size⟩).total (fun _ => 1) =
      (s.erase key).slots.total (fun _ => 1) + 1 :=
    Table.total_insert_of_find?_eq_none ⟨entry, size⟩ habsent
  rw [Table.total_one, Table.total_one] at hadded
  have herased := s.size_erase_add key
  rw [← h.2]
  simp only [Store.size] at herased ⊢
  omega

/-- A write of an entry with an estimate counts as a write. -/
theorem size_put_ok {previous : Option Entry}
    (h : s.put estimator key entry = (.ok previous, written)) :
    written.size + (s.contains key).toNat = s.size + 1 := by
  unfold put at h
  split at h
  · cases h
  · exact size_insert_ok h

/-- Erasing different keys that are all held takes as many entries away. -/
theorem size_eraseAll {keys : List String} (hkeys : keys.Nodup)
    (hheld : ∀ key ∈ keys, s.contains key = true) :
    (s.eraseAll keys).size + keys.length = s.size := by
  induction keys generalizing s with
  | nil => rfl
  | cons key rest ih =>
    obtain ⟨hnew, hrest⟩ := List.nodup_cons.mp hkeys
    have hothers : ∀ other ∈ rest, (s.erase key).contains other = true := by
      intro other hother
      have hne : other ≠ key := by
        rintro rfl
        exact hnew hother
      rw [contains_eq_isSome, find?_erase, if_neg hne, ← contains_eq_isSome]
      exact hheld other (List.mem_cons_of_mem key hother)
    have hsize := ih hrest hothers
    have hone := s.size_erase_add key
    rw [hheld key List.mem_cons_self, Bool.toNat_true] at hone
    simp only [eraseAll, List.foldl_cons, List.length_cons] at hsize ⊢
    omega

/-- A retention takes as many entries away as it answers. -/
theorem size_retain (s : Store) (keep : String → Entry → Bool) :
    (s.retain keep).2.size + (s.retain keep).1 = s.size := by
  refine size_eraseAll (Table.keys_nodup _) fun key hkey => ?_
  obtain ⟨entry, hentry⟩ := Table.mem_keys_iff.mp hkey
  rw [Table.find?_filter, find?_entries, Option.filter_eq_some_iff] at hentry
  rw [contains_eq_isSome, hentry.1, Option.isSome_some]

/-- An eviction in rounds takes as many entries away as it answers. -/
theorem Sound.size_evictRounds (h : s.Sound estimator) {budget rounds : Nat}
    {evicted : List String}
    (hevict : Store.evictRounds budget rounds s = some (evicted, kept)) :
    kept.size + evicted.length = s.size := by
  induction rounds generalizing s evicted with
  | zero =>
    rcases evictRounds_cases hevict with ⟨-, rfl, rfl⟩ | ⟨_, _, _, -, -, hnone, -⟩
    · rfl
    · cases hnone
  | succ rounds ih =>
    rcases evictRounds_cases hevict with
      ⟨-, rfl, rfl⟩ | ⟨age, others, left, -, hfirst, hleft, hrest, rfl⟩
    · rfl
    · -- The least age of a sound store belongs to an entry, so the round takes one away.
      obtain ⟨oldest, holdest, -⟩ := h.find?_of_first? hfirst
      obtain ⟨slot, hslot, -⟩ := Option.map_eq_some_iff.mp holdest
      have hone := size_erase hslot
      obtain rfl := Nat.succ.inj hleft
      have hothers := ih (h.erase age.key) hrest
      rw [List.length_cons]
      omega

/-- A trim takes as many entries away as it answers. -/
theorem Sound.size_trim (h : s.Sound estimator) {budget : Nat} {evicted : List String}
    (htrim : s.trim budget = some (evicted, kept)) : kept.size + evicted.length = s.size := by
  unfold Store.trim at htrim
  split at htrim
  · cases htrim
    rfl
  · exact h.size_evictRounds htrim

/-- The number of entries of a batch that replace an entry of the store. -/
def replacedBy (s : Store) (batch : List (String × Entry)) : Nat :=
  (batch.filter fun row => s.contains row.1 && !s.holdsNewer row.1 row.2).length

/-- What a batch replaces depends on the lookups of its keys alone. -/
theorem replacedBy_congr {t : Store} {batch : List (String × Entry)}
    (h : ∀ row ∈ batch, t.find? row.1 = s.find? row.1) :
    t.replacedBy batch = s.replacedBy batch := by
  unfold replacedBy
  congr 1
  refine List.filter_congr fun row hrow => ?_
  simp only [contains_eq_isSome, holdsNewer, h row hrow]

/-- Writing a batch of different keys adds the entries written that replace none. -/
theorem size_insertAll {batch : List (String × Entry)} {sized : List Sized} {count stored : Nat}
    (hkeys : (batch.map Prod.fst).Nodup) (hsized : sizeAll? estimator batch = some sized)
    (hwrite : s.insertAll count sized = (.ok stored, merged)) :
    merged.size + s.replacedBy batch + count = s.size + stored := by
  induction batch generalizing s sized count with
  | nil =>
    cases hsized
    cases hwrite
    rfl
  | cons row rest ih =>
    obtain ⟨key, entry⟩ := row
    obtain ⟨size, others, hsize, hothers, rfl⟩ := sizeAll?_cons hsized
    obtain ⟨one, next, hone, hrest⟩ := insertAll_cons hwrite
    obtain ⟨hnew, hkeys⟩ := List.nodup_cons.mp hkeys
    have hcount := ih hkeys hothers hrest
    -- The other keys of the batch still hold what they held before the first write.
    have hsame : next.replacedBy rest = s.replacedBy rest := by
      refine replacedBy_congr fun other hother => ?_
      have hne : other.1 ≠ key := by
        intro he
        exact hnew (List.mem_map.mpr ⟨other, hother, he⟩)
      rw [find?_insertIfNewer hone, if_neg (by simp [hne])]
    have hcons : s.replacedBy ((key, entry) :: rest) =
        (s.contains key && !s.holdsNewer key entry).toNat + s.replacedBy rest := by
      unfold replacedBy
      rw [List.filter_cons]
      cases s.contains key && !s.holdsNewer key entry
      · simp
      · simp [Nat.add_comm]
    rw [hcons]
    rcases insertIfNewer_ok hone with ⟨hnewer, rfl, rfl⟩ | ⟨hnewer, rfl, previous, hinsert⟩
    · simp only at hnewer
      simp only [hnewer, Bool.not_true, Bool.and_false, Bool.toNat_false]
      simp only [Bool.false_eq_true, if_false] at hcount
      omega
    · simp only at hnewer
      have hadded := size_insert_ok hinsert
      simp only [hnewer, Bool.not_false, Bool.and_true]
      simp only [if_true] at hcount
      simp only at hadded
      omega

/-- A merge of different keys adds the entries stored that replace none. -/
theorem size_merge {batch : List (String × Entry)} {stored : Nat}
    (hkeys : (batch.map Prod.fst).Nodup)
    (hmerge : s.merge estimator batch = (.ok stored, merged)) :
    merged.size + s.replacedBy batch = s.size + stored := by
  unfold merge at hmerge
  split at hmerge
  · cases hmerge
  · rename_i sized hsized
    have hcount := size_insertAll hkeys hsized hmerge
    omega

end DurableCache.Store
