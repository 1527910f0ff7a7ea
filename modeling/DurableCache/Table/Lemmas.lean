import DurableCache.Table

/-!
# Laws of ordered tables

Each operation is described by the lookups after it: `find?_insert`, `find?_erase` and
`find?_filter`. A row is in a table exactly when its key looks up its value
(`mem_rows_iff`), and equal lookups make equal tables (`ext_find?`). So the rows of a table make up
the table in whatever order they are inserted (`ofList_perm`).
-/

namespace DurableCache

universe u

namespace Rows

variable {κ : Type} {α : Type u} [Ord κ] [Std.LawfulEqOrd κ]

theorem compare_eq_iff {a b : κ} : compare a b = .eq ↔ a = b :=
  Std.LawfulEqOrd.compare_eq_iff_eq

/-- The first row is found under its key. -/
theorem find?_cons_self (key : κ) (value : α) (rows : List (κ × α)) :
    find? key ((key, value) :: rows) = some value := by
  simp [find?]

/-- Under other keys the further rows are found. -/
theorem find?_cons_of_ne {key other : κ} (h : other ≠ key) (value : α) (rows : List (κ × α)) :
    find? other ((key, value) :: rows) = find? other rows := by
  have hne : compare key other ≠ .eq := fun he => h (compare_eq_iff.mp he).symm
  simp only [find?, hne, if_false]

/-- The new value is found under its key. -/
theorem find?_insert_self (key : κ) (value : α) (rows : List (κ × α)) :
    find? key (insert key value rows) = some value := by
  induction rows with
  | nil => simp [insert, find?]
  | cons head rest ih =>
      obtain ⟨k, v⟩ := head
      unfold insert
      split
      · simp [find?]
      · simp [find?]
      · rename_i hgt
        have hne : compare k key ≠ .eq := by
          intro h
          rw [compare_eq_iff.mp h] at hgt
          simp at hgt
        simp [find?, hne, ih]

/-- Other keys keep their lookup. -/
theorem find?_insert_of_ne {key other : κ} (h : other ≠ key) (value : α)
    (rows : List (κ × α)) : find? other (insert key value rows) = find? other rows := by
  have hne : compare key other ≠ .eq := fun he => h (compare_eq_iff.mp he).symm
  induction rows with
  | nil => simp [insert, find?, hne]
  | cons head rest ih =>
      obtain ⟨k, v⟩ := head
      unfold insert
      split
      · simp [find?, hne]
      · rename_i heq
        have hk : key = k := compare_eq_iff.mp heq
        subst hk
        simp [find?, hne]
      · simp only [find?, ih]

/-- A found value stands in a row. -/
theorem mem_of_find? {rows : List (κ × α)} {key : κ} {value : α}
    (h : find? key rows = some value) : (key, value) ∈ rows := by
  induction rows with
  | nil => simp [find?] at h
  | cons head rest ih =>
      obtain ⟨k, v⟩ := head
      unfold find? at h
      split at h
      · rename_i heq
        cases h
        rw [compare_eq_iff.mp heq]
        exact List.mem_cons_self
      · exact List.mem_cons_of_mem _ (ih h)

/-- Among rows of different keys the value of each row is found under its key. -/
theorem find?_eq_some_iff {rows : List (κ × α)} (hkeys : (rows.map Prod.fst).Nodup) {key : κ}
    {value : α} : find? key rows = some value ↔ (key, value) ∈ rows := by
  refine ⟨mem_of_find?, fun hmem => ?_⟩
  induction rows with
  | nil => cases hmem
  | cons head rest ih =>
      obtain ⟨k, v⟩ := head
      obtain ⟨hhead, hrest⟩ := List.nodup_cons.mp hkeys
      rcases List.mem_cons.mp hmem with heq | hlater
      · cases heq
        exact find?_cons_self key value rest
      · have hne : key ≠ k := by
          rintro rfl
          exact hhead (List.mem_map.mpr ⟨_, hlater, rfl⟩)
        rw [find?_cons_of_ne hne]
        exact ih hrest hlater

omit [Std.LawfulEqOrd κ] in
/-- Ascending rows have different keys. -/
theorem Ascending.keys_nodup [Std.ReflOrd κ] {rows : List (κ × α)} (h : Ascending rows) :
    (rows.map Prod.fst).Nodup := by
  refine List.pairwise_map.mpr (h.imp fun {a b} hlt heq => ?_)
  rw [heq] at hlt
  simp at hlt

/-- A row of ascending rows is found under its key. -/
theorem find?_of_mem {rows : List (κ × α)} (hasc : Ascending rows) {key : κ} {value : α}
    (h : (key, value) ∈ rows) : find? key rows = some value :=
  (find?_eq_some_iff hasc.keys_nodup).mpr h

/-- Nothing is found under a key without a row. -/
theorem find?_eq_none_of_not_mem {rows : List (κ × α)} {key : κ}
    (h : key ∉ rows.map Prod.fst) : find? key rows = none := by
  cases hfind : find? key rows with
  | none => rfl
  | some value => exact absurd (List.mem_map.mpr ⟨_, mem_of_find? hfind, rfl⟩) h

/-- Ascending rows with the same members are the same rows. -/
theorem eq_of_mem_iff [Std.TransOrd κ] {s t : List (κ × α)} (hs : Ascending s)
    (ht : Ascending t)
    (h : ∀ row, row ∈ s ↔ row ∈ t) : s = t := by
  induction s generalizing t with
  | nil =>
      cases t with
      | nil => rfl
      | cons b t => exact absurd ((h b).mpr List.mem_cons_self) (by simp)
  | cons a s ih =>
      cases t with
      | nil => exact absurd ((h a).mp List.mem_cons_self) (by simp)
      | cons b t =>
          obtain ⟨ha, hs'⟩ := List.pairwise_cons.mp hs
          obtain ⟨hb, ht'⟩ := List.pairwise_cons.mp ht
          have hab : a = b := by
            rcases List.mem_cons.mp ((h a).mp List.mem_cons_self) with hab | hat
            · exact hab
            · rcases List.mem_cons.mp ((h b).mpr List.mem_cons_self) with hba | hbs
              · exact hba.symm
              · have h1 := hb a hat
                have h2 := Std.TransCmp.lt_trans h1 (ha b hbs)
                simp at h2
          subst hab
          congr 1
          refine ih hs' ht' fun row => ⟨fun hrow => ?_, fun hrow => ?_⟩
          · rcases List.mem_cons.mp ((h row).mp (List.mem_cons_of_mem _ hrow)) with rfl | h'
            · have := ha _ hrow
              simp at this
            · exact h'
          · rcases List.mem_cons.mp ((h row).mpr (List.mem_cons_of_mem _ hrow)) with rfl | h'
            · have := hb _ hrow
              simp at this
            · exact h'

omit [Std.LawfulEqOrd κ] in
/-- A row of a greater key than all others goes to the end. -/
theorem insert_of_forall_lt [Std.TransOrd κ] {key : κ} {value : α} {rows : List (κ × α)}
    (h : ∀ row ∈ rows, compare row.1 key = .lt) :
    insert key value rows = rows ++ [(key, value)] := by
  induction rows with
  | nil => rfl
  | cons head rest ih =>
      have hhead : compare key head.1 = .gt :=
        Std.OrientedCmp.gt_of_lt (h head List.mem_cons_self)
      have hrest := ih fun row hrow => h row (List.mem_cons_of_mem head hrow)
      simp only [insert, hhead, hrest, List.cons_append]

omit [Std.LawfulEqOrd κ] in
/-- Ascending rows that are written one after the other stand as they were. -/
theorem foldl_insert [Std.TransOrd κ] {written rows : List (κ × α)}
    (h : Ascending (written ++ rows)) :
    rows.foldl (fun rows row => insert row.1 row.2 rows) written = written ++ rows := by
  induction rows generalizing written with
  | nil => rw [List.foldl_nil, List.append_nil]
  | cons head rest ih =>
      have hlt (row : κ × α) (hrow : row ∈ written) : compare row.1 head.1 = .lt :=
        (List.pairwise_append.mp h).2.2 row hrow head List.mem_cons_self
      rw [List.foldl_cons, insert_of_forall_lt hlt]
      rw [List.append_cons written head rest] at h ⊢
      exact ih h

end Rows

namespace Table

variable {κ α : Type} [Ord κ] [Std.LawfulEqOrd κ]

/-- The rows of a table are its lookups. -/
theorem mem_rows_iff {t : Table κ α} {key : κ} {value : α} :
    (key, value) ∈ t.rows ↔ t.find? key = some value :=
  ⟨Rows.find?_of_mem t.ascending, Rows.mem_of_find?⟩

/-- Tables with the same lookups are the same table. -/
theorem ext_find? [Std.TransOrd κ] {s t : Table κ α}
    (h : ∀ key, s.find? key = t.find? key) : s = t := by
  refine ext_rows (Rows.eq_of_mem_iff s.ascending t.ascending fun row => ?_)
  obtain ⟨key, value⟩ := row
  rw [mem_rows_iff, mem_rows_iff, h]

omit [Std.LawfulEqOrd κ] in
@[simp] theorem find?_empty (key : κ) : (∅ : Table κ α).find? key = none := rfl

@[simp] theorem find?_insert_self [Std.TransOrd κ] (t : Table κ α) (key : κ) (value : α) :
    (t.insert key value).find? key = some value :=
  Rows.find?_insert_self _ _ _

theorem find?_insert_of_ne [Std.TransOrd κ] (t : Table κ α) {key other : κ}
    (h : other ≠ key) (value : α) :
    (t.insert key value).find? other = t.find? other :=
  Rows.find?_insert_of_ne h _ _

/-- Insertion changes the lookup of its own key only. -/
theorem find?_insert [Std.TransOrd κ] [DecidableEq κ] (t : Table κ α) (key other : κ)
    (value : α) :
    (t.insert key value).find? other = if other = key then some value else t.find? other := by
  split
  · rename_i h
    rw [h, find?_insert_self]
  · rename_i h
    exact find?_insert_of_ne t h value

/-- A selection keeps exactly the lookups that it approves. -/
theorem find?_filter (t : Table κ α) (keep : κ → α → Bool) (key : κ) :
    (t.filter keep).find? key = (t.find? key).filter (keep key) := by
  apply Option.ext
  intro value
  rw [← mem_rows_iff, Option.filter_eq_some_iff, ← mem_rows_iff]
  simp [filter]

@[simp] theorem find?_erase_self (t : Table κ α) (key : κ) : (t.erase key).find? key = none := by
  rw [Option.eq_none_iff_forall_ne_some]
  intro value h
  have := mem_rows_iff.mpr h
  simp [erase, Rows.erase] at this

theorem find?_erase_of_ne (t : Table κ α) {key other : κ} (h : other ≠ key) :
    (t.erase key).find? other = t.find? other := by
  apply Option.ext
  intro value
  rw [← mem_rows_iff, ← mem_rows_iff]
  have hne : compare other key ≠ .eq := fun he => h (Rows.compare_eq_iff.mp he)
  simp [erase, Rows.erase, hne]

/-- Erasing changes the lookup of its own key only. -/
theorem find?_erase [DecidableEq κ] (t : Table κ α) (key other : κ) :
    (t.erase key).find? other = if other = key then none else t.find? other := by
  split
  · rename_i h
    rw [h, find?_erase_self]
  · rename_i h
    exact find?_erase_of_ne t h

omit [Std.LawfulEqOrd κ] in
/-- Values are mapped where they stand. -/
theorem find?_mapValues {β : Type} (t : Table κ α) (f : α → β) (key : κ) :
    (t.mapValues f).find? key = (t.find? key).map f := by
  simp only [find?, mapValues]
  induction t.rows with
  | nil => rfl
  | cons row rest ih =>
      simp only [List.map_cons, Rows.find?, ih]
      split <;> rfl

/-- A key is listed exactly if it has a value. -/
theorem mem_keys_iff {t : Table κ α} {key : κ} :
    key ∈ t.keys ↔ ∃ value, t.find? key = some value := by
  simp [keys, mem_rows_iff]

/-- No key is listed twice. -/
theorem keys_nodup (t : Table κ α) : t.keys.Nodup := t.ascending.keys_nodup

/-- Erasing takes one key out of the list of keys. -/
theorem keys_erase [DecidableEq κ] (t : Table κ α) (key : κ) :
    (t.erase key).keys = t.keys.filter (· ≠ key) := by
  have hsame (row : κ × α) : (compare row.1 key != .eq) = decide (row.1 ≠ key) := by
    by_cases hkey : row.1 = key
    · simp [hkey]
    · have hne : compare row.1 key ≠ .eq := fun heq => hkey (Rows.compare_eq_iff.mp heq)
      simp [hne, hkey]
  simp only [keys, erase, Rows.erase, hsame, List.filter_map]
  rfl

/-- Erasing the least key leaves the others. -/
theorem keys_erase_first [DecidableEq κ] {t : Table κ α} {key : κ} {rest : List κ}
    (h : t.keys = key :: rest) : (t.erase key).keys = rest := by
  have hnodup := t.keys_nodup
  rw [h] at hnodup
  have hnew : key ∉ rest := (List.nodup_cons.mp hnodup).1
  rw [keys_erase, h, List.filter_cons_of_neg (by simp), List.filter_eq_self]
  intro other hother
  rw [decide_eq_true_eq]
  rintro rfl
  exact hnew hother

/-- Erasing an absent key changes nothing. -/
theorem erase_of_find?_eq_none [Std.TransOrd κ] (t : Table κ α) {key : κ}
    (h : t.find? key = none) :
    t.erase key = t := by
  refine ext_find? fun other => ?_
  by_cases ho : other = key
  · rw [ho, find?_erase_self, h]
  · exact find?_erase_of_ne t ho

/-- Insertions one after the other are insertions into the rows. -/
theorem rows_foldl_insert [Std.TransOrd κ] (t : Table κ α) (rows : List (κ × α)) :
    (rows.foldl (fun t row => t.insert row.1 row.2) t).rows =
      rows.foldl (fun rows row => Rows.insert row.1 row.2 rows) t.rows := by
  induction rows generalizing t with
  | nil => rfl
  | cons row rest ih => exact ih (t.insert row.1 row.2)

/-- After insertions under different keys the lookups are those of the inserted rows. -/
theorem find?_foldl_insert [Std.TransOrd κ] {rows : List (κ × α)}
    (hkeys : (rows.map Prod.fst).Nodup) (t : Table κ α) (key : κ) :
    (rows.foldl (fun t row => t.insert row.1 row.2) t).find? key =
      (Rows.find? key rows).or (t.find? key) := by
  induction rows generalizing t with
  | nil => rfl
  | cons head rest ih =>
      obtain ⟨k, v⟩ := head
      obtain ⟨hhead, hrest⟩ := List.nodup_cons.mp hkeys
      rw [List.foldl_cons, ih hrest]
      by_cases hkey : key = k
      · subst hkey
        rw [Rows.find?_eq_none_of_not_mem hhead, Rows.find?_cons_self, find?_insert_self]
        rfl
      · rw [Rows.find?_cons_of_ne hkey, find?_insert_of_ne t hkey]

/-- The rows of a table make up the table in any order. -/
theorem ofList_perm [Std.TransOrd κ] {t : Table κ α} {rows : List (κ × α)}
    (h : rows.Perm t.rows) : ofList rows = t := by
  have hkeys : (rows.map Prod.fst).Nodup := (h.map Prod.fst).nodup_iff.mpr t.keys_nodup
  refine ext_find? fun key => Option.ext fun value => ?_
  rw [ofList, find?_foldl_insert hkeys, show (empty : Table κ α).find? key = none from rfl,
    Option.or_none, Rows.find?_eq_some_iff hkeys, h.mem_iff, mem_rows_iff]

/-- The rows of a table make up the table. -/
theorem ofList_rows [Std.TransOrd κ] (t : Table κ α) : ofList t.rows = t :=
  ofList_perm (List.Perm.refl t.rows)

omit [Std.LawfulEqOrd κ] in
theorem contains_eq_true_iff {t : Table κ α} {key : κ} :
    t.contains key = true ↔ ∃ value, t.find? key = some value :=
  Option.isSome_iff_exists

/-- Insertion makes its own key present and no other. -/
theorem contains_insert [Std.TransOrd κ] [DecidableEq κ] (t : Table κ α) (key other : κ)
    (value : α) :
    (t.insert key value).contains other = true ↔ other = key ∨ t.contains other = true := by
  simp only [contains, find?_insert]
  by_cases h : other = key <;> simp [h]

end Table

end DurableCache
