import DurableCache.Table.Lemmas

/-!
# Sums over ordered tables

The total of a table adds up a weight of each value. Insertion and erasure change it by the
weight of the one row that they touch, and fewer rows never have a greater total.
-/

namespace DurableCache

namespace Rows

variable {κ α : Type} [Ord κ]

/-- The sum of the weights of all values. -/
def total (weight : α → Nat) : List (κ × α) → Nat
  | [] => 0
  | row :: rest => weight row.2 + total weight rest

omit [Ord κ] in
@[simp] theorem total_cons (weight : α → Nat) (row : κ × α) (rows : List (κ × α)) :
    total weight (row :: rows) = weight row.2 + total weight rows := rfl

omit [Ord κ] in
/-- A selection of the rows has no greater total. -/
theorem total_filter_le (weight : α → Nat) (keep : κ × α → Bool) (rows : List (κ × α)) :
    total weight (rows.filter keep) ≤ total weight rows := by
  induction rows with
  | nil => simp
  | cons row rest ih =>
    by_cases hkeep : keep row = true
    · rw [List.filter_cons_of_pos hkeep, total_cons, total_cons]
      omega
    · rw [List.filter_cons_of_neg hkeep, total_cons]
      omega

variable [Std.LawfulEqOrd κ]

/-- A row under a new key adds its weight. -/
theorem total_insert_of_find?_eq_none {weight : α → Nat} {key : κ} (value : α)
    {rows : List (κ × α)} (h : find? key rows = none) :
    total weight (insert key value rows) = total weight rows + weight value := by
  induction rows with
  | nil => simp [insert, total]
  | cons head rest ih =>
    obtain ⟨k, v⟩ := head
    have hk : compare k key ≠ .eq := by
      intro he
      simp [find?, he] at h
    have hrest : find? key rest = none := by simpa [find?, hk] using h
    unfold insert
    split
    · simp only [total_cons]
      omega
    · rename_i he
      exact absurd (compare_eq_iff.mpr (compare_eq_iff.mp he).symm) hk
    · simp only [total_cons, ih hrest]
      omega

/-- Rows that do not hold a key keep all rows when it is erased. -/
theorem erase_of_forall_ne {key : κ} {rows : List (κ × α)} (h : ∀ row ∈ rows, row.1 ≠ key) :
    erase key rows = rows := by
  rw [erase, List.filter_eq_self]
  intro row hrow
  have hne : compare row.1 key ≠ .eq := fun he => h row hrow (compare_eq_iff.mp he)
  simpa using hne

/-- Erasing the row of a key takes its weight away. -/
theorem total_erase {weight : α → Nat} {key : κ} {value : α} {rows : List (κ × α)}
    (hasc : Ascending rows) (h : find? key rows = some value) :
    total weight (erase key rows) + weight value = total weight rows := by
  induction rows with
  | nil => simp [find?] at h
  | cons head rest ih =>
    obtain ⟨k, v⟩ := head
    obtain ⟨hhead, hrest⟩ := List.pairwise_cons.mp hasc
    by_cases hk : compare k key = .eq
    · have hv : v = value := by simpa [find?, hk] using h
      have hother : ∀ row ∈ rest, row.1 ≠ key := by
        intro row hrow he
        have hlt := hhead row hrow
        rw [he, compare_eq_iff.mp hk] at hlt
        simp at hlt
      have herase : erase key ((k, v) :: rest) = rest := by
        have hdrop : erase key ((k, v) :: rest) = erase key rest := by simp [erase, hk]
        rw [hdrop, erase_of_forall_ne hother]
      rw [herase, total_cons, hv, Nat.add_comm]
    · have hfind : find? key rest = some value := by simpa [find?, hk] using h
      have herase : erase key ((k, v) :: rest) = (k, v) :: erase key rest := by
        simp [erase, hk]
      rw [herase, total_cons, total_cons, Nat.add_assoc, ih hrest hfind]

end Rows

namespace Table

variable {κ α : Type} [Ord κ] [Std.LawfulEqOrd κ]

/-- The sum of the weights of all values. -/
def total (weight : α → Nat) (t : Table κ α) : Nat := Rows.total weight t.rows

omit [Std.LawfulEqOrd κ] in
@[simp] theorem total_empty (weight : α → Nat) : (∅ : Table κ α).total weight = 0 := rfl

/-- A new key adds the weight of its value. -/
theorem total_insert_of_find?_eq_none [Std.TransOrd κ] {weight : α → Nat} {t : Table κ α} {key : κ}
    (value : α) (h : t.find? key = none) :
    (t.insert key value).total weight = t.total weight + weight value :=
  Rows.total_insert_of_find?_eq_none value h

/-- Erasing a key takes the weight of its value away. -/
theorem total_erase (weight : α → Nat) {t : Table κ α} {key : κ} {value : α}
    (h : t.find? key = some value) :
    (t.erase key).total weight + weight value = t.total weight :=
  Rows.total_erase t.ascending h

omit [Std.LawfulEqOrd κ] in
/-- Counting every value as one counts the keys. -/
theorem total_one (t : Table κ α) : t.total (fun _ => 1) = t.size := by
  unfold total size
  induction t.rows with
  | nil => rfl
  | cons row rest ih =>
    rw [Rows.total_cons, ih, List.length_cons]
    omega

omit [Std.LawfulEqOrd κ] in
/-- A selection of the rows has no greater total. -/
theorem total_filter_le (weight : α → Nat) (t : Table κ α) (keep : κ → α → Bool) :
    (t.filter keep).total weight ≤ t.total weight :=
  Rows.total_filter_le weight _ t.rows

/-- A table whose lookups are among those of another has no greater total. -/
theorem total_le_of_find? [Std.TransOrd κ] {weight : α → Nat} {s t : Table κ α}
    (h : ∀ key value, s.find? key = some value → t.find? key = some value) :
    s.total weight ≤ t.total weight := by
  have hs : s = t.filter fun key _ => s.contains key := by
    refine ext_find? fun key => ?_
    rw [find?_filter]
    cases hkey : s.find? key with
    | none => cases t.find? key <;> simp [contains, hkey, Option.filter_some]
    | some value => simp [h key value hkey, contains, hkey, Option.filter_some]
  rw [hs]
  exact total_filter_le weight t _

end Table

end DurableCache
