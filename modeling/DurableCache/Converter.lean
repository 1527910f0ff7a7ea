import DurableCache.Json.Decode
import DurableCache.Json.Writer
import DurableCache.Text.Integer

/-!
# Converters

A converter turns a cached text into a value of the caller's own type. It may refuse the
text or break down over it; either way the cached entry stays as it is.
-/

namespace DurableCache

/-- Why a converter came to no value. -/
inductive ConversionFault where
  /-- The text is not the wanted JSON. -/
  | unreadable (cause : Json.ReadError)
  /-- The converter refuses the text in words of its own. -/
  | refused (reason : String)
  /-- The converter broke down. -/
  | broken
  deriving DecidableEq, Repr

/-- A way to turn a text into an `α`. -/
abbrev Converter (α : Type) := String → Except ConversionFault α

namespace Converter

/-- Converts JSON text. -/
def json {α : Type} (reader : Json.Reader α) : Converter α := fun text =>
  (Json.decode reader text).mapError .unreadable

/-- Converts JSON text of any shape. -/
def anyJson : Converter Json.Value := json (Json.readValue Json.deepest)

/-- Converts a text to its length in bytes. -/
def byteLength : Converter Nat := fun text => .ok text.utf8ByteSize

/-- Converts the text of an unsigned integer of thirty-two bits. -/
def unsigned : Converter Nat := fun text =>
  (Text.readUnsigned UInt32.size text.toList).mapError fun fault => .refused fault.message

end Converter

/-- A point of the plane with coordinates of thirty-two bits. -/
structure Point where
  x : Int32
  y : Int32
  deriving DecidableEq, Repr

namespace Point

/-- A point as a JSON value. -/
def toJson (p : Point) : Json.Value :=
  .object [("x", .integer p.x.toInt), ("y", .integer p.y.toInt)]

/-- The coordinates that have been read. -/
structure Draft where
  x : Option Int32
  y : Option Int32

/-- Reads a coordinate. -/
def readCoordinate : Json.Reader Int32 := fun s =>
  (Json.readInteger .signed32 s).map fun (n, rest) => (Int32.ofInt n, rest)

/-- How a point is read. -/
def shape : Json.Shape Draft Point where
  name := "Point"
  blank := ⟨none, none⟩
  fields :=
    [{ name := "x", optional := false, isSet := fun d => d.x.isSome
       read := fun d s => (readCoordinate s).map fun (n, rest) => ({ d with x := some n }, rest) },
     { name := "y", optional := false, isSet := fun d => d.y.isSome
       read := fun d s => (readCoordinate s).map fun (n, rest) => ({ d with y := some n }, rest) }]
  build d := do
    let x ← Json.required "x" d.x
    let y ← Json.required "y" d.y
    return ⟨x, y⟩

end Point

end DurableCache
