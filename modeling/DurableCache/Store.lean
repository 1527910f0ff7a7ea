import DurableCache.Error
import DurableCache.Estimator
import DurableCache.Table

/-!
# The store

The store keeps an entry with its estimated size under each key, and beside them an index
of the keys by age and the sum of the sizes, so that eviction never looks at values again.

A write that would carry the sum beyond a word is abandoned halfway: the entry that it was
to replace is gone and its own age is indexed, but the entry itself is not stored.
-/

namespace DurableCache

/-- The place of a key in the order of eviction. -/
structure Age where
  /-- The time of writing. -/
  written : Timestamp
  key : String
  deriving DecidableEq, Repr

namespace Age

/-- Older writes come first, and writes of the same time go by their keys. -/
instance : Ord Age := ⟨compareLex (compareOn Age.written) (compareOn Age.key)⟩

instance : Std.TransOrd Age :=
  inferInstanceAs (Std.TransCmp (compareLex (compareOn Age.written) (compareOn Age.key)))

theorem compare_eq_iff {a b : Age} : compare a b = .eq ↔ a = b := by
  obtain ⟨t, k⟩ := a
  obtain ⟨u, l⟩ := b
  show compareLex (compareOn Age.written) (compareOn Age.key) ⟨t, k⟩ ⟨u, l⟩ = .eq ↔ _
  rw [compareLex_eq_eq]
  simp [compareOn]

instance : Std.LawfulEqOrd Age where
  eq_of_compare := compare_eq_iff.mp

end Age

/-- A stored entry with its size as it was estimated in the moment of writing. -/
structure Slot where
  entry : Entry
  size : Nat
  deriving DecidableEq, Repr

/-- Entries by key, keys by age, and the sum of the sizes. -/
structure Store where
  slots : Table String Slot
  ages : Table Age Unit
  total : Nat
  deriving DecidableEq

namespace Store

/-- The store without entries. -/
def empty : Store := ⟨∅, ∅, 0⟩

instance : Inhabited Store := ⟨empty⟩

/-- The entry under `key`, stale or not. -/
def find? (s : Store) (key : String) : Option Entry := (s.slots.find? key).map Slot.entry

/-- Whether there is an entry under `key`. -/
def contains (s : Store) (key : String) : Bool := s.slots.contains key

/-- The number of entries. -/
def size (s : Store) : Nat := s.slots.size

/-- Whether there is no entry. -/
def isEmpty (s : Store) : Bool := s.slots.isEmpty

/-- The entries by key. -/
def entries (s : Store) : Table String Entry := s.slots.mapValues Slot.entry

/-- Takes the entry under `key` out of the entries, the index and the sum. -/
def erase (s : Store) (key : String) : Store :=
  match s.slots.find? key with
  | none => s
  | some slot =>
    { slots := s.slots.erase key
      ages := s.ages.erase ⟨slot.entry.timestamp, key⟩
      total := s.total - slot.size }

/-- Indexes the age of an entry. -/
def mark (s : Store) (key : String) (entry : Entry) : Store :=
  { s with ages := s.ages.insert ⟨entry.timestamp, key⟩ () }

/-- Writes an entry of known size in place of any entry under its key, and answers the
entry that was there. -/
def insert (s : Store) (key : String) (entry : Entry) (size : Nat) :
    Except Abort (Option Entry) × Store :=
  let marked := (s.erase key).mark key entry
  if marked.total + size < wordLimit then
    (.ok (s.find? key),
      { marked with
        slots := marked.slots.insert key ⟨entry, size⟩
        total := marked.total + size })
  else (.error .sizeOverflow, marked)

/-- Writes an entry under a key. -/
def put (estimator : Estimator) (s : Store) (key : String) (entry : Entry) :
    Except Abort (Option Entry) × Store :=
  match estimator.size? entry with
  | none => (.error .sizeOverflow, s)
  | some size => s.insert key entry size

/-- Whether the key holds a strictly newer write than `entry`. -/
def holdsNewer (s : Store) (key : String) (entry : Entry) : Bool :=
  (s.find? key).any fun held => entry.timestamp < held.timestamp

/-- Writes an entry of known size unless its key holds a newer write; answers whether it was
written. -/
def insertIfNewer (s : Store) (key : String) (entry : Entry) (size : Nat) :
    Except Abort Bool × Store :=
  if s.holdsNewer key entry then (.ok false, s)
  else
    match s.insert key entry size with
    | (.ok _, s) => (.ok true, s)
    | (.error why, s) => (.error why, s)

/-- Writes an entry unless its key holds a newer write. -/
def putIfNewer (estimator : Estimator) (s : Store) (key : String) (entry : Entry) :
    Except Abort Bool × Store :=
  match estimator.size? entry with
  | none => (.error .sizeOverflow, s)
  | some size => s.insertIfNewer key entry size

/-- Removes the entry under `key` and answers it. -/
def remove (s : Store) (key : String) : Option Entry × Store := (s.find? key, s.erase key)

/-- Removes all entries and answers their number. -/
def clear (s : Store) : Nat × Store := (s.size, empty)

/-- Removes the entries under the keys of a list, one after the other. -/
def eraseAll (s : Store) (keys : List String) : Store := keys.foldl erase s

/-- Keeps the entries that satisfy `keep` and answers the number of the others. -/
def retain (s : Store) (keep : String → Entry → Bool) : Nat × Store :=
  let doomed := (s.entries.filter fun key entry => !keep key entry).keys
  (doomed.length, s.eraseAll doomed)

/-- Visits the entries that there are at the beginning, in the order of their keys. A visitor
may change the store; what it changes does not change what is visited. -/
def visit (s : Store) (visitor : String → Entry → Store → Store) : Store :=
  s.entries.rows.foldl (fun s row => visitor row.1 row.2 s) s

/-- Visits every entry to remove it, and answers the keys. -/
def drain (s : Store) : List String × Store :=
  (s.entries.keys, s.visit fun key _ s => s.erase key)

@[simp] theorem find?_empty (key : String) : empty.find? key = none := rfl

@[simp] theorem size_empty : empty.size = 0 := rfl

/-- Erasing an absent key changes nothing. -/
theorem erase_of_find?_eq_none {s : Store} {key : String} (h : s.slots.find? key = none) :
    s.erase key = s := by
  simp [erase, h]

end Store

end DurableCache
