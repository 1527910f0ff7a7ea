import DurableCache.Json.Decode

/-!
# Requests to write

The body of a request to write a value: a key, the value and a time to live in milliseconds
that may be missing.
-/

namespace DurableCache.Http

/-- A request to write a value under a key. -/
structure SetRequest where
  key : String
  value : String
  timeToLive : Option UInt64
  deriving DecidableEq, Repr

namespace SetRequest

/-- The fields of a request that have been read. -/
structure Draft where
  key : Option String
  value : Option String
  timeToLive : Option (Option UInt64)

/-- How a request is read. -/
def shape : Json.Shape Draft SetRequest where
  name := "SetRequest"
  blank := ⟨none, none, none⟩
  fields :=
    [{ name := "key", optional := false, isSet := fun d => d.key.isSome
       read := fun d s =>
         (Json.readText s).map fun (k, rest) => ({ d with key := some k }, rest) },
     { name := "value", optional := false, isSet := fun d => d.value.isSome
       read := fun d s =>
         (Json.readText s).map fun (v, rest) => ({ d with value := some v }, rest) },
     { name := "ttl_ms", optional := true, isSet := fun d => d.timeToLive.isSome
       read := fun d s =>
         (Json.readOptional Json.readWord s).map fun (t, rest) =>
           ({ d with timeToLive := some t }, rest) }]
  build d := do
    let key ← Json.required "key" d.key
    let value ← Json.required "value" d.value
    return ⟨key, value, d.timeToLive.getD none⟩

/-- The greatest number of characters in a key. -/
def longestKey : Nat := 256

/-- What is wrong with a request, if anything. -/
def complaint? (r : SetRequest) : Option String :=
  if r.key = "" then some "Key cannot be empty"
  else if longestKey < r.key.length then
    some ("Key exceeds maximum length of " ++ toString longestKey ++ " characters")
  else none

/-- A request is in order exactly when its key has between one and 256 characters. -/
theorem complaint?_eq_none_iff {r : SetRequest} :
    r.complaint? = none ↔ r.key ≠ "" ∧ r.key.length ≤ longestKey := by
  unfold complaint?
  by_cases h : r.key = "" <;> simp [h]

end SetRequest

end DurableCache.Http
