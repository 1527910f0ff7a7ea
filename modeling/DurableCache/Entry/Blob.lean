import DurableCache.Entry
import DurableCache.Json.Decode
import DurableCache.Json.Writer

/-!
# Blobs

An entry is persisted as a JSON object of its three fields. Reading takes the fields in any
order, or in an array in the order of writing, and a time to live that is missing is none.
-/

namespace DurableCache.Entry

/-- The persisted form of an entry as a JSON value. -/
def toJson (e : Entry) : Json.Value :=
  .object
    [("serializedValue", .string e.value),
     ("timestamp", .natural e.timestamp.toNat),
     ("timeToLive", .ofOption (fun t => .natural t.toNat) e.timeToLive)]

/-- The persisted form of an entry. -/
def toBlob (e : Entry) : String := e.toJson.render

/-- The fields of an entry that have been read. -/
structure Draft where
  value : Option String
  timestamp : Option Timestamp
  timeToLive : Option (Option UInt64)

/-- How an entry is read. -/
def shape : Json.Shape Draft Entry where
  name := "CacheEntry"
  blank := ⟨none, none, none⟩
  fields :=
    [{ name := "serializedValue", optional := false, isSet := fun d => d.value.isSome
       read := fun d s =>
         (Json.readText s).map fun (v, rest) => ({ d with value := some v }, rest) },
     { name := "timestamp", optional := false, isSet := fun d => d.timestamp.isSome
       read := fun d s =>
         (Json.readWord s).map fun (t, rest) => ({ d with timestamp := some t }, rest) },
     { name := "timeToLive", optional := true, isSet := fun d => d.timeToLive.isSome
       read := fun d s =>
         (Json.readOptional Json.readWord s).map fun (t, rest) =>
           ({ d with timeToLive := some t }, rest) }]
  build d := do
    let value ← Json.required "serializedValue" d.value
    let timestamp ← Json.required "timestamp" d.timestamp
    return ⟨value, timestamp, d.timeToLive.getD none⟩

/-- Reads a persisted entry. -/
def ofBlob? (blob : String) : Except Json.ReadError Entry := Json.decode shape.read blob

end DurableCache.Entry
