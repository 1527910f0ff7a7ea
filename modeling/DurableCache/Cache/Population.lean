import DurableCache.Cache

/-!
# Population

A job that wants the value of a key looks it up, and fetches and writes it if the lookup
finds nothing fresh. Between lookup and write other calls may run, so the two are steps of
their own; a job that nothing disturbs makes both at once.
-/

namespace DurableCache

/-- What a fetch comes to. -/
inductive Fetched where
  | value (text : String)
  /-- There is no value. -/
  | nothing
  /-- The fetch answers an error. -/
  | failed
  /-- The fetch breaks down. -/
  | broken
  deriving DecidableEq, Repr

/-- A way to get the value of a key from elsewhere. -/
abbrev Fetch := String → Fetched

/-- What a job hands to its caller. -/
structure Delivery (α : Type) where
  /-- Whether the fetch was run. -/
  fetched : Bool
  /-- The value, or nothing, unless the job was abandoned before it could deliver. -/
  result : Except Abort (Option α)

namespace Delivery

variable {α : Type}

/-- What a callback is given: one value or nothing once, and nothing at all if the job was
abandoned. -/
def delivered (d : Delivery α) : List (Option α) :=
  match d.result with
  | .ok value => [value]
  | .error _ => []

/-- What a waiting caller is given: an abandoned job counts as no value. -/
def awaited (d : Delivery α) : Option α :=
  match d.result with
  | .ok value => value
  | .error _ => none

/-- Whether the job ended in a breakdown, its own or that of its callback. -/
def brokeDown (d : Delivery α) (callbackBreaks : Bool) : Bool :=
  match d.result with
  | .ok _ => callbackBreaks
  | .error _ => true

end Delivery

namespace Cache

/-- Looks a key up for a job, and counts the fetch that follows if nothing fresh is found. -/
def beginPopulation (c : Cache) (now : Timestamp) (key : String) :
    Except Abort (Option String) × Cache :=
  match c.lookup now key with
  | (.ok none, c) => (.ok none, { c with counters := c.counters.fetch })
  | found => found

/-- Writes what a fetch came to, at the time at which it came back. -/
def finishPopulation (c : Cache) (returned : Timestamp) (key : String)
    (timeToLive : Option UInt64) (fetched : Fetched) : Except Abort (Option String) × Cache :=
  match fetched with
  | .value text =>
    match c.write returned key text timeToLive with
    | (.ok (), c) => (.ok (some text), c)
    | (.error why, c) => (.error why, c)
  | .nothing | .failed | .broken =>
    (.ok none, { c with counters := c.counters.fetchFailure })

/-- Answers the fresh value of a key, or fetches and writes it. The fetch, if it is run,
comes back at the time `returned`. -/
def populate (c : Cache) (now returned : Timestamp) (key : String)
    (timeToLive : Option UInt64) (fetch : Fetch) : Delivery String × Cache :=
  match c.beginPopulation now key with
  | (.error why, c) => (⟨false, .error why⟩, c)
  | (.ok (some value), c) => (⟨false, .ok (some value)⟩, c)
  | (.ok none, c) =>
    let (result, c) := c.finishPopulation returned key timeToLive (fetch key)
    (⟨true, result⟩, c)

/-- Populates a key and converts its value. -/
def populateAs {α : Type} (c : Cache) (now returned : Timestamp) (converter : Converter α)
    (key : String) (timeToLive : Option UInt64) (fetch : Fetch) : Delivery α × Cache :=
  match c.populate now returned key timeToLive fetch with
  | (⟨fetched, .error why⟩, c) => (⟨fetched, .error why⟩, c)
  | (⟨fetched, .ok none⟩, c) => (⟨fetched, .ok none⟩, c)
  | (⟨fetched, .ok (some text)⟩, c) =>
    let (converted, c) := c.convert converter text
    (⟨fetched, .ok converted⟩, c)

end Cache

end DurableCache
