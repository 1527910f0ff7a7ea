import DurableCache.Blobs

/-!
# Watched blob stores

A watched blob store counts the calls that are made, and can be told to fail or to break
down on some of them. A call with a fault is counted and changes nothing.
-/

namespace DurableCache

/-- What becomes of a call with a fault. -/
inductive Fault where
  /-- The call answers an error. -/
  | refuse
  /-- The call breaks down. -/
  | breakDown
  deriving DecidableEq, Repr

/-- The calls that have a fault. -/
structure Faults where
  getAll : Option Fault
  flush : Option Fault
  /-- Faults of writes, by key. -/
  put : Table String Fault
  /-- Faults of deletions, by key. -/
  remove : Table String Fault
  deriving DecidableEq

/-- No call has a fault. -/
def Faults.none : Faults := ⟨.none, .none, ∅, ∅⟩

instance : Inhabited Faults := ⟨Faults.none⟩

/-- How often each call was made. -/
structure Calls where
  getAll : Nat
  put : Nat
  remove : Nat
  flush : Nat
  deriving DecidableEq, Repr

/-- No call was made yet. -/
def Calls.zero : Calls := ⟨0, 0, 0, 0⟩

instance : Inhabited Calls := ⟨Calls.zero⟩

/-- A blob store with its faults and calls. -/
structure Watched (σ : Type) where
  inner : σ
  faults : Faults
  calls : Calls

namespace Watched

variable {σ α : Type}

/-- Puts a blob store under watch. -/
def start (inner : σ) (faults : Faults) : Watched σ := ⟨inner, faults, .zero⟩

/-- Makes a call unless it has a fault. -/
def guard (fault : Option Fault) (name : String) (call : σ → Outcome α × σ) (s : Watched σ) :
    Outcome α × Watched σ :=
  match fault with
  | some .refuse => (.failed (.persistence (name ++ " refused")), s)
  | some .breakDown => (.abandoned .hostFault, s)
  | none =>
    let (outcome, inner) := call s.inner
    (outcome, { s with inner })

instance [BlobStore σ] : BlobStore (Watched σ) where
  getAll s :=
    guard s.faults.getAll "get_all" BlobStore.getAll
      { s with calls := { s.calls with getAll := s.calls.getAll + 1 } }
  get key s := guard none "get" (BlobStore.get key) s
  put key blob s :=
    guard (s.faults.put.find? key) "put" (BlobStore.put key blob)
      { s with calls := { s.calls with put := s.calls.put + 1 } }
  remove key s :=
    guard (s.faults.remove.find? key) "remove" (BlobStore.remove key)
      { s with calls := { s.calls with remove := s.calls.remove + 1 } }
  flush s :=
    guard s.faults.flush "flush" BlobStore.flush
      { s with calls := { s.calls with flush := s.calls.flush + 1 } }

end Watched

end DurableCache
