/-!
# Ordered tables

A table keeps at most one value for a key, and its rows stand in strictly ascending
key order. `Rows` holds the operations on bare lists of rows, `Table` the lists that
are known to be ascending.
-/

namespace DurableCache

universe u

namespace Rows

variable {κ : Type} {α : Type u} [Ord κ]

/-- Every row stands before the rows of greater keys. -/
def Ascending (rows : List (κ × α)) : Prop :=
  rows.Pairwise fun a b => compare a.1 b.1 = .lt

/-- The value of the first row under `key`. -/
def find? (key : κ) : List (κ × α) → Option α
  | [] => none
  | (k, value) :: rest => if compare k key = .eq then some value else find? key rest

/-- Writes one row, in place of the row of the same key or before the first greater key. -/
def insert (key : κ) (value : α) : List (κ × α) → List (κ × α)
  | [] => [(key, value)]
  | (k, v) :: rest =>
    match compare key k with
    | .lt => (key, value) :: (k, v) :: rest
    | .eq => (key, value) :: rest
    | .gt => (k, v) :: insert key value rest

/-- Drops every row under `key`. -/
def erase (key : κ) (rows : List (κ × α)) : List (κ × α) :=
  rows.filter fun row => compare row.1 key != .eq

/-- An inserted row is the new one or an old one. -/
theorem mem_insert {key : κ} {value : α} {row : κ × α} {rows : List (κ × α)}
    (h : row ∈ insert key value rows) : row = (key, value) ∨ row ∈ rows := by
  induction rows with
  | nil => exact Or.inl (by simpa [insert] using h)
  | cons head rest ih =>
      obtain ⟨k, v⟩ := head
      unfold insert at h
      split at h
      · simpa using h
      · rcases List.mem_cons.mp h with h | h
        · exact Or.inl h
        · exact Or.inr (List.mem_cons_of_mem _ h)
      · rcases List.mem_cons.mp h with h | h
        · exact Or.inr (h ▸ List.mem_cons_self)
        · exact (ih h).imp_right (List.mem_cons_of_mem _)

/-- Insertion keeps the rows ascending. -/
theorem Ascending.insert [Std.TransOrd κ] [Std.LawfulEqOrd κ] {rows : List (κ × α)}
    (h : Ascending rows) (key : κ) (value : α) : Ascending (insert key value rows) := by
  induction rows with
  | nil => simp [Rows.insert, Ascending]
  | cons head rest ih =>
      obtain ⟨k, v⟩ := head
      obtain ⟨hhead, hrest⟩ := List.pairwise_cons.mp h
      unfold Rows.insert
      split
      · rename_i hlt
        refine List.pairwise_cons.mpr ⟨fun row hrow => ?_, h⟩
        rcases List.mem_cons.mp hrow with rfl | hrow
        · exact hlt
        · exact Std.TransCmp.lt_trans hlt (hhead row hrow)
      · rename_i heq
        have hk : key = k := Std.LawfulEqOrd.eq_of_compare heq
        exact List.pairwise_cons.mpr ⟨fun row hrow => hk ▸ hhead row hrow, hrest⟩
      · rename_i hgt
        refine List.pairwise_cons.mpr ⟨fun row hrow => ?_, ih hrest⟩
        rcases mem_insert hrow with rfl | hrow
        · exact Std.OrientedCmp.lt_of_gt hgt
        · exact hhead row hrow

/-- Any selection of ascending rows is ascending. -/
theorem Ascending.filter {rows : List (κ × α)} (h : Ascending rows) (keep : κ × α → Bool) :
    Ascending (rows.filter keep) :=
  List.Pairwise.filter keep h

end Rows

/-- Rows in strictly ascending key order. -/
structure Table (κ : Type) [Ord κ] (α : Type) where
  /-- The rows, least key first. -/
  rows : List (κ × α)
  /-- No key is repeated or out of place. -/
  ascending : Rows.Ascending rows

namespace Table

variable {κ α β : Type} [Ord κ]

/-- Tables with the same rows are the same table. -/
@[ext] theorem ext_rows {s t : Table κ α} (h : s.rows = t.rows) : s = t := by
  cases s; cases t; cases h; rfl

instance [DecidableEq κ] [DecidableEq α] : DecidableEq (Table κ α) := fun s t =>
  decidable_of_iff (s.rows = t.rows) ⟨ext_rows, fun h => h ▸ rfl⟩

/-- The table without rows. -/
def empty : Table κ α := ⟨[], List.Pairwise.nil⟩

instance : EmptyCollection (Table κ α) := ⟨empty⟩
instance : Inhabited (Table κ α) := ⟨empty⟩

/-- The number of keys. -/
def size (t : Table κ α) : Nat := t.rows.length

/-- Whether no key is present. -/
def isEmpty (t : Table κ α) : Bool := t.rows.isEmpty

/-- The value under `key`. -/
def find? (t : Table κ α) (key : κ) : Option α := Rows.find? key t.rows

/-- Whether `key` is present. -/
def contains (t : Table κ α) (key : κ) : Bool := (t.find? key).isSome

/-- The keys, ascending. -/
def keys (t : Table κ α) : List κ := t.rows.map Prod.fst

/-- The row of the least key. -/
def first? (t : Table κ α) : Option (κ × α) := t.rows.head?

/-- Drops the row of `key`, if any. -/
def erase (t : Table κ α) (key : κ) : Table κ α :=
  ⟨Rows.erase key t.rows, t.ascending.filter _⟩

/-- Keeps the rows that satisfy `keep`. -/
def filter (t : Table κ α) (keep : κ → α → Bool) : Table κ α :=
  ⟨t.rows.filter fun row => keep row.1 row.2, t.ascending.filter _⟩

/-- Applies `f` to every value. -/
def mapValues (t : Table κ α) (f : α → β) : Table κ β where
  rows := t.rows.map fun row => (row.1, f row.2)
  ascending := by simpa [Rows.Ascending, List.pairwise_map] using t.ascending

variable [Std.TransOrd κ] [Std.LawfulEqOrd κ]

/-- Writes `value` under `key`, in place of any value there. -/
def insert (t : Table κ α) (key : κ) (value : α) : Table κ α :=
  ⟨Rows.insert key value t.rows, t.ascending.insert key value⟩

/-- Writes the rows one after the other: of two rows with one key the later stays. -/
def ofList (rows : List (κ × α)) : Table κ α :=
  rows.foldl (fun t row => t.insert row.1 row.2) empty

end Table

end DurableCache
