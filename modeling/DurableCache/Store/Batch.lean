import DurableCache.Store

/-!
# Batches

A batch of entries is written in order, each one unless its key holds a newer write. All
sizes are estimated before the first write, so an entry without an estimate keeps the
whole batch out of the store.
-/

namespace DurableCache.Store

/-- An entry of a batch with its key and size. -/
structure Sized where
  key : String
  entry : Entry
  size : Nat
  deriving DecidableEq, Repr

/-- The batch with the size of each entry, if each has one. -/
def sizeAll? (estimator : Estimator) : List (String × Entry) → Option (List Sized)
  | [] => some []
  | (key, entry) :: rest =>
    match estimator.size? entry, sizeAll? estimator rest with
    | some size, some sized => some (⟨key, entry, size⟩ :: sized)
    | _, _ => none

/-- Writes a sized batch and adds the number of entries written to `written`. -/
def insertAll (s : Store) (written : Nat) : List Sized → Except Abort Nat × Store
  | [] => (.ok written, s)
  | item :: rest =>
    match s.insertIfNewer item.key item.entry item.size with
    | (.ok true, s) => insertAll s (written + 1) rest
    | (.ok false, s) => insertAll s written rest
    | (.error why, s) => (.error why, s)

/-- Writes a batch and answers the number of entries written. -/
def merge (estimator : Estimator) (s : Store) (batch : List (String × Entry)) :
    Except Abort Nat × Store :=
  match sizeAll? estimator batch with
  | none => (.error .sizeOverflow, s)
  | some sized => s.insertAll 0 sized

end DurableCache.Store
