import DurableCache.Store

/-!
# Eviction

While the sum of the sizes exceeds the budget, the entry of the least age goes. Each round
removes one entry, so there are no more rounds than entries. An age that an abandoned write
left without an entry stops that progress: once it is the least, the rounds repeat for ever.
-/

namespace DurableCache.Store

/-- Removes the oldest entries until the sum fits into the budget, in at most `rounds`
rounds, and answers their keys, oldest first; nothing if there is no end. -/
def evictRounds (budget : Nat) : (rounds : Nat) → Store → Option (List String × Store)
  | rounds, s =>
    if s.total ≤ budget then some ([], s)
    else
      match s.ages.first? with
      | none => some ([], s)
      | some (age, ()) =>
        match rounds with
        | 0 => none
        | rounds + 1 =>
          (evictRounds budget rounds (s.erase age.key)).map fun (keys, s) => (age.key :: keys, s)

/-- Removes the oldest entries until the sum fits into the budget. -/
def evict (budget : Nat) (s : Store) : Option (List String × Store) :=
  evictRounds budget s.size s

/-- Brings the store within the budget and answers the keys that had to go, oldest first. -/
def trim (budget : Nat) (s : Store) : Option (List String × Store) :=
  if s.total ≤ budget then some ([], s) else evict budget s

/-- A store within the budget stays as it is. -/
theorem trim_of_le {budget : Nat} {s : Store} (h : s.total ≤ budget) :
    s.trim budget = some ([], s) := by
  simp [trim, h]

end DurableCache.Store
