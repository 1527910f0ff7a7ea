import DurableCache.Proofs.Table.Total
import DurableCache.Store.Batch
import DurableCache.Store.Lemmas

/-!
# Sound stores

A store is sound when its three parts agree: the index lists each entry at its age and nothing
else, each size is the estimate of its entry, and the sum adds the sizes up. Every operation
keeps a store sound, as long as no write is abandoned. A write that is abandoned halfway leaves the
index wrong, and the sum right (`Tallied`).
-/

namespace DurableCache.Store

/-- The index, the sizes and the sum of a store are those of its entries. -/
structure Sound (estimator : Estimator) (s : Store) : Prop where
  /-- The index holds an age exactly if it is the age of the entry under its key. -/
  aged : ∀ age, s.ages.find? age = some () ↔
    (s.find? age.key).map Entry.timestamp = some age.written
  /-- The size of a slot is the estimate of its entry. -/
  sized : ∀ key slot, s.slots.find? key = some slot → estimator.size? slot.entry = some slot.size
  /-- The sum is the sum of the sizes. -/
  summed : s.total = s.slots.total Slot.size
  /-- The sum is a word. -/
  bounded : s.total < wordLimit

variable {estimator : Estimator} {s : Store}

/-- The slots after an erasure. -/
theorem slots_erase (s : Store) (key : String) : (s.erase key).slots = s.slots.erase key := by
  cases h : s.slots.find? key with
  | none => rw [erase_of_find?_eq_none h, Table.erase_of_find?_eq_none _ h]
  | some slot => simp [erase, h]

/-- Erasing a stored key leaves one entry less. -/
theorem size_erase {key : String} {slot : Slot} (h : s.slots.find? key = some slot) :
    (s.erase key).size + 1 = s.size := by
  have hone := Table.total_erase (fun _ => 1) h
  rw [Table.total_one, Table.total_one] at hone
  rw [size, slots_erase]
  exact hone

/-- Erasing a key does not raise the sum. -/
theorem total_erase_le (s : Store) (key : String) : (s.erase key).total ≤ s.total := by
  cases hslot : s.slots.find? key with
  | none => exact Nat.le_of_eq (congrArg total (erase_of_find?_eq_none hslot))
  | some slot =>
    simp only [erase, hslot]
    omega

/-! ### What erasing and writing keep -/

/-- A property that the store without entries has, and that erasing and writing keep, be the write
abandoned halfway or not. -/
structure Kept (estimator : Estimator) (P : Store → Prop) : Prop where
  empty : P .empty
  erase {s : Store} (key : String) : P s → P (s.erase key)
  insert {s : Store} (key : String) {entry : Entry} {size : Nat} :
    estimator.size? entry = some size → P s → P (s.insert key entry size).2

/-- Erasing several keys keeps it. -/
theorem Kept.eraseAll {P : Store → Prop} (h : Kept estimator P) (keys : List String) (hs : P s) :
    P (s.eraseAll keys) := by
  unfold Store.eraseAll
  induction keys generalizing s with
  | nil => exact hs
  | cons key rest ih => exact ih (h.erase key hs)

/-- A put keeps it. -/
theorem Kept.put {P : Store → Prop} (h : Kept estimator P) (key : String) (entry : Entry)
    (hs : P s) : P (s.put estimator key entry).2 := by
  unfold Store.put
  cases hsize : estimator.size? entry with
  | none => exact hs
  | some size => exact h.insert key hsize hs

/-! ### Right sums -/

/-- Each size is the estimate of its entry, and the sum adds the sizes up, whatever the index
holds. -/
structure Tallied (estimator : Estimator) (s : Store) : Prop where
  sized : ∀ key slot, s.slots.find? key = some slot → estimator.size? slot.entry = some slot.size
  summed : s.total = s.slots.total Slot.size

/-- The sum of a sound store is right. -/
theorem Sound.tallied (h : s.Sound estimator) : s.Tallied estimator := ⟨h.sized, h.summed⟩

/-- The store without entries has a right sum. -/
theorem tallied_empty : empty.Tallied estimator where
  sized key slot h := by cases h
  summed := rfl

/-- Erasing keeps the sum right. -/
theorem Tallied.erase (h : s.Tallied estimator) (key : String) :
    (s.erase key).Tallied estimator := by
  cases hslot : s.slots.find? key with
  | none => rwa [erase_of_find?_eq_none hslot]
  | some slot =>
    constructor
    · intro other held hheld
      rw [slots_erase, Table.find?_erase] at hheld
      split at hheld
      · cases hheld
      · exact h.sized other held hheld
    · have htotal : (s.erase key).total = s.total - slot.size := by simp [Store.erase, hslot]
      have hsum := Table.total_erase Slot.size hslot
      rw [htotal, slots_erase, h.summed]
      omega

/-- A write keeps the sum right, even if it is abandoned halfway: then the size of the old entry is
gone and none is added. -/
theorem Tallied.insert (h : s.Tallied estimator) (key : String) {entry : Entry} {size : Nat}
    (hsize : estimator.size? entry = some size) :
    (s.insert key entry size).2.Tallied estimator := by
  have hbase := h.erase key
  unfold Store.insert
  by_cases hfits : ((s.erase key).mark key entry).total + size < wordLimit
  · rw [if_pos hfits]
    constructor
    · intro other slot hslot
      have hlook : ((s.erase key).slots.insert key ⟨entry, size⟩).find? other = some slot := hslot
      rw [Table.find?_insert] at hlook
      split at hlook
      · cases hlook
        exact hsize
      · exact hbase.sized other slot hlook
    · have hnone : (s.erase key).slots.find? key = none := by
        rw [slots_erase, Table.find?_erase_self]
      have hadded : ((s.erase key).slots.insert key ⟨entry, size⟩).total Slot.size =
          (s.erase key).slots.total Slot.size + size :=
        Table.total_insert_of_find?_eq_none ⟨entry, size⟩ hnone
      show (s.erase key).total + size = _
      rw [hbase.summed]
      exact hadded.symm
  · rw [if_neg hfits]
    exact ⟨hbase.sized, hbase.summed⟩

/-- A right sum is kept. -/
theorem tallied_kept : Kept estimator (Tallied estimator) where
  empty := tallied_empty
  erase key h := h.erase key
  insert key _ _ hsize h := h.insert key hsize

/-- Erasing several keys keeps the sum right. -/
theorem Tallied.eraseAll (h : s.Tallied estimator) (keys : List String) :
    (s.eraseAll keys).Tallied estimator :=
  tallied_kept.eraseAll keys h

/-- A selection of the entries has a right sum. -/
theorem Tallied.retain (h : s.Tallied estimator) (keep : String → Entry → Bool) :
    (s.retain keep).2.Tallied estimator :=
  h.eraseAll _

/-- A put keeps the sum right. -/
theorem Tallied.put (h : s.Tallied estimator) (key : String) (entry : Entry) :
    (s.put estimator key entry).2.Tallied estimator :=
  tallied_kept.put key entry h

/-- In stores with right sums the same entry has the same slot. -/
theorem Tallied.find?_slots {part : Store} (h : s.Tallied estimator)
    (hpart : part.Tallied estimator)
    (hsub : ∀ key entry, part.find? key = some entry → s.find? key = some entry) {key : String}
    {slot : Slot} (hslot : part.slots.find? key = some slot) : s.slots.find? key = some slot := by
  have hfind : part.find? key = some slot.entry := by simp [find?, hslot]
  obtain ⟨held, hheld, hentry⟩ := Option.map_eq_some_iff.mp (hsub key slot.entry hfind)
  have hsize := h.sized key held hheld
  rw [hentry, hpart.sized key slot hslot] at hsize
  rw [hheld]
  cases held
  cases slot
  cases hentry
  cases hsize
  rfl

/-- A part of a store with a right sum has no greater sum. -/
theorem Tallied.total_le {part : Store} (h : s.Tallied estimator) (hpart : part.Tallied estimator)
    (hsub : ∀ key entry, part.find? key = some entry → s.find? key = some entry) :
    part.total ≤ s.total := by
  rw [hpart.summed, h.summed]
  exact Table.total_le_of_find? fun key slot => h.find?_slots hpart hsub

/-- Stores with right sums and the same entries have the same slots. -/
theorem Tallied.slots_eq {t : Store} (hs : s.Tallied estimator) (ht : t.Tallied estimator)
    (hsame : ∀ key, s.find? key = t.find? key) : s.slots = t.slots := by
  refine Table.ext_find? fun key => Option.ext fun slot => ?_
  constructor
  · intro hslot
    refine ht.find?_slots hs (fun other entry hentry => ?_) hslot
    rw [← hsame, hentry]
  · intro hslot
    refine hs.find?_slots ht (fun other entry hentry => ?_) hslot
    rw [hsame, hentry]

/-! ### Sound stores -/

/-- The store without entries is sound. -/
theorem sound_empty : empty.Sound estimator where
  aged age := by
    have hages : empty.ages.find? age = none := rfl
    simp [hages]
  sized key slot h := by cases h
  summed := rfl
  bounded := by decide

/-- Erasing keeps a store sound. -/
theorem Sound.erase (h : s.Sound estimator) (key : String) : (s.erase key).Sound estimator := by
  have htallied := h.tallied.erase key
  cases hslot : s.slots.find? key with
  | none => rwa [erase_of_find?_eq_none hslot]
  | some slot =>
    have hages : (s.erase key).ages = s.ages.erase ⟨slot.entry.timestamp, key⟩ := by
      simp [Store.erase, hslot]
    have hfind : s.find? key = some slot.entry := by simp [find?, hslot]
    refine ⟨fun age => ?_, htallied.sized, htallied.summed, ?_⟩
    · rw [hages, Table.find?_erase, find?_erase]
      by_cases hage : age = ⟨slot.entry.timestamp, key⟩
      · simp [hage]
      · rw [if_neg hage, h.aged age]
        by_cases hkey : age.key = key
        · have hwritten : slot.entry.timestamp ≠ age.written := by
            intro he
            apply hage
            rw [he, ← hkey]
          simp [hkey, hfind, hwritten]
        · rw [if_neg hkey]
    · exact Nat.lt_of_le_of_lt (s.total_erase_le key) h.bounded

/-- Erasing several keys keeps a store sound. -/
theorem Sound.eraseAll (h : s.Sound estimator) (keys : List String) :
    (s.eraseAll keys).Sound estimator := by
  unfold Store.eraseAll
  induction keys generalizing s with
  | nil => exact h
  | cons key rest ih => exact ih (h.erase key)

/-- A selection of the entries is sound. -/
theorem Sound.retain (h : s.Sound estimator) (keep : String → Entry → Bool) :
    (s.retain keep).2.Sound estimator :=
  h.eraseAll _

/-- A write that succeeds keeps a store sound. -/
theorem Sound.insert (h : s.Sound estimator) {key : String} {entry : Entry} {size : Nat}
    {previous : Option Entry} {written : Store} (hsize : estimator.size? entry = some size)
    (hwrite : s.insert key entry size = (.ok previous, written)) : written.Sound estimator := by
  have htallied := h.tallied.insert key hsize
  rw [hwrite] at htallied
  have hfits := insert_ok_iff.mp ⟨_, _, hwrite⟩
  have hages : written.ages = (s.erase key).ages.insert ⟨entry.timestamp, key⟩ () := by
    simp only [Store.insert, mark, hfits, if_pos, Prod.mk.injEq] at hwrite
    rw [← hwrite.2]
  have htotal : written.total = (s.erase key).total + size := by
    simp only [Store.insert, mark, hfits, if_pos, Prod.mk.injEq] at hwrite
    rw [← hwrite.2]
  have hbase := h.erase key
  have hnone : (s.erase key).slots.find? key = none := by
    rw [slots_erase, Table.find?_erase_self]
  have hgone : (s.erase key).find? key = none := by simp [find?, hnone]
  refine ⟨fun age => ?_, htallied.sized, htallied.summed, ?_⟩
  · have hlook : written.find? age.key =
        if age.key = key then some entry else (s.erase key).find? age.key := by
      rw [find?_insert_ok hwrite, find?_erase]
      split <;> rfl
    rw [hages, Table.find?_insert, hlook]
    by_cases hage : age = ⟨entry.timestamp, key⟩
    · simp [hage]
    · rw [if_neg hage, hbase.aged age]
      by_cases hkey : age.key = key
      · have hwritten : entry.timestamp ≠ age.written := by
          intro he
          apply hage
          rw [he, ← hkey]
        simp [hkey, hgone, hwritten]
      · rw [if_neg hkey]
  · rw [htotal]
    exact hfits

/-- A part of a sound store has the same sizes, and so no greater sum. -/
theorem Sound.total_le {part : Store} (h : s.Sound estimator) (hpart : part.Sound estimator)
    (hsub : ∀ key entry, part.find? key = some entry → s.find? key = some entry) :
    part.total ≤ s.total :=
  h.tallied.total_le hpart.tallied hsub

/-- Sound stores with the same entries are the same store. -/
theorem Sound.ext_find? {t : Store} (hs : s.Sound estimator) (ht : t.Sound estimator)
    (hsame : ∀ key, s.find? key = t.find? key) : s = t := by
  have hslots : s.slots = t.slots := hs.tallied.slots_eq ht.tallied hsame
  have hages : s.ages = t.ages := by
    refine Table.ext_find? fun age => Option.ext fun u => ?_
    rw [hs.aged age, ht.aged age, hsame]
  have htotal : s.total = t.total := by rw [hs.summed, ht.summed, hslots]
  cases s
  cases t
  cases hslots
  cases hages
  cases htotal
  rfl

/-- The sum of the estimates of the entries of a list, if each of them has one. -/
def sumSizes? (estimator : Estimator) : List (String × Entry) → Option Nat
  | [] => some 0
  | (_, entry) :: rest =>
    match estimator.size? entry, sumSizes? estimator rest with
    | some size, some sum => some (size + sum)
    | _, _ => none

/-- The sum of the estimates of all entries of a store. -/
def recount? (estimator : Estimator) (s : Store) : Option Nat :=
  sumSizes? estimator s.entries.rows

/-- A recount of a sound store comes to the sum that it keeps. -/
theorem Sound.recount (h : s.Sound estimator) : s.recount? estimator = some s.total := by
  have hrows (rows : List (String × Slot))
      (hsized : ∀ row ∈ rows, estimator.size? row.2.entry = some row.2.size) :
      sumSizes? estimator (rows.map fun row => (row.1, row.2.entry)) =
        some (Rows.total Slot.size rows) := by
    induction rows with
    | nil => rfl
    | cons row rest ih =>
      obtain ⟨hfirst, hrest⟩ := List.forall_mem_cons.mp hsized
      rw [List.map_cons, sumSizes?, hfirst, ih hrest]
      rfl
  rw [h.summed]
  exact hrows s.slots.rows fun row hrow => h.sized row.1 row.2 (Table.mem_rows_iff.mp hrow)

/-- Erasing several keys does not raise the sum. -/
theorem total_eraseAll_le (s : Store) (keys : List String) : (s.eraseAll keys).total ≤ s.total := by
  unfold eraseAll
  induction keys generalizing s with
  | nil => exact Nat.le_refl _
  | cons key rest ih => exact Nat.le_trans (ih (s.erase key)) (s.total_erase_le key)

/-- A put succeeds exactly if its entry has a size that fits. -/
theorem put_ok_iff {key : String} {entry : Entry} :
    (∃ previous written, s.put estimator key entry = (.ok previous, written)) ↔
      ∃ size, estimator.size? entry = some size ∧ (s.erase key).total + size < wordLimit := by
  unfold put
  cases hsize : estimator.size? entry with
  | none => simp
  | some size => simpa using insert_ok_iff

/-- A put that succeeds keeps a store sound. -/
theorem Sound.put (h : s.Sound estimator) {key : String} {entry : Entry}
    {previous : Option Entry} {written : Store}
    (hput : s.put estimator key entry = (.ok previous, written)) : written.Sound estimator := by
  unfold Store.put at hput
  split at hput
  · cases hput
  · rename_i size hsize
    exact h.insert hsize hput

/-- A put that succeeds changes the lookup of its own key only. -/
theorem find?_put_ok {key : String} {entry : Entry} {previous : Option Entry} {written : Store}
    (hput : s.put estimator key entry = (.ok previous, written)) (other : String) :
    written.find? other = if other = key then some entry else s.find? other := by
  unfold put at hput
  split at hput
  · cases hput
  · exact find?_insert_ok hput other

end DurableCache.Store
