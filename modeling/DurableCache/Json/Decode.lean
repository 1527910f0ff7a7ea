import DurableCache.Json.Structure
import DurableCache.Json.Value
import DurableCache.Table

/-!
# Decoding by shape

Each reader takes one value of a known shape, white space before it included, and reports
a value of another shape by what it found. `decode` reads a whole text. Arrays and objects
are read as folds, so that a repeated name can be judged where it stands.
-/

namespace DurableCache.Json

/-- The error for a value that stands where `expected` was wanted. A fault inside that
value comes first. -/
def unexpected (expected : String) (s : List Char) : ReadError :=
  let wrong (found : Found) : ReadError := .mismatch none (.wrongType found expected)
  let word (tail rest : List Char) (found : Found) : ReadError :=
    match skipWord tail rest with
    | .error e => e
    | .ok _ => wrong found
  match s with
  | [] => .unfinished .value
  | 'n' :: rest => word nullTail rest .null
  | 't' :: rest => word trueTail rest (.boolean true)
  | 'f' :: rest => word falseTail rest (.boolean false)
  | '"' :: rest =>
    match readString rest with
    | .error e => e
    | .ok (text, _) => wrong (.string text)
  | '[' :: _ => wrong .sequence
  | '{' :: _ => wrong .map
  | c :: rest =>
    if c = '-' || c.isDigit then
      match readNumber (c :: rest) with
      | .error e => e
      | .ok (.integer n, _) => wrong (.integer n)
      | .ok (.float _, _) => wrong .float
    else .malformed .expectedValue

/-- A range of integers and its name in an error. -/
structure IntegerRange where
  name : String
  least : Int
  greatest : Int

/-- Unsigned bytes. -/
def IntegerRange.byte : IntegerRange := ⟨"u8", 0, UInt8.size - 1⟩

/-- Unsigned integers of thirty-two bits. -/
def IntegerRange.unsigned32 : IntegerRange := ⟨"u32", 0, UInt32.size - 1⟩

/-- Unsigned integers of sixty-four bits. -/
def IntegerRange.unsigned64 : IntegerRange := ⟨"u64", 0, UInt64.size - 1⟩

/-- Signed integers of thirty-two bits. -/
def IntegerRange.signed32 : IntegerRange := ⟨"i32", Int32.minValue.toInt, Int32.maxValue.toInt⟩

/-- Reads an integer of a range. -/
def readInteger (range : IntegerRange) : Reader Int := fun s =>
  match skipSpace s with
  | [] => .error (.unfinished .value)
  | c :: rest =>
    if c = '-' || c.isDigit then
      match readNumber (c :: rest) with
      | .error e => .error e
      | .ok (.integer n, rest) =>
        if range.least ≤ n ∧ n ≤ range.greatest then .ok (n, rest)
        else .error (.mismatch none (.outOfRange n range.name))
      | .ok (.float _, _) => .error (.mismatch none (.wrongType .float range.name))
    else .error (unexpected range.name (c :: rest))

/-- Reads an unsigned integer of sixty-four bits. -/
def readWord : Reader UInt64 := fun s =>
  (readInteger .unsigned64 s).map fun (n, rest) => (UInt64.ofNat n.toNat, rest)

/-- Reads a truth value. -/
def readBool : Reader Bool := fun s =>
  match skipSpace s with
  | 't' :: rest => (skipWord trueTail rest).map fun rest => (true, rest)
  | 'f' :: rest => (skipWord falseTail rest).map fun rest => (false, rest)
  | s => .error (unexpected "a boolean" s)

/-- Reads a string that is wanted under a name. -/
def readTextAs (expected : String) : Reader String := fun s =>
  match skipSpace s with
  | '"' :: rest => readString rest
  | s => .error (unexpected expected s)

/-- Reads a string. -/
def readText : Reader String := readTextAs "a string"

/-- Reads a value or null. -/
def readOptional {α : Type} (reader : Reader α) : Reader (Option α) := fun s =>
  match skipSpace s with
  | 'n' :: rest => (skipWord nullTail rest).map fun rest => (none, rest)
  | s => (reader s).map fun (a, rest) => (some a, rest)

/-- Folds `item` over the rest of an array, up to its closing bracket; `steps` bounds the
number of items. -/
def foldItems {σ : Type} (item : σ → Reader σ) (steps : Nat) (first : Bool) (state : σ) :
    Reader σ := fun s =>
  match steps with
  | 0 => .error (.unfinished .list)
  | steps + 1 =>
    match nextItem? first s with
    | .error e => .error e
    | .ok none => (closeArray s).map fun rest => (state, rest)
    | .ok (some text) =>
      match item state text with
      | .error e => .error e
      | .ok (state, rest) => foldItems item steps false state rest

/-- Folds `member` over the rest of an object, up to its closing brace. Each member begins
behind its name. -/
def foldMembers {σ : Type} (member : σ → String → Reader σ) (steps : Nat) (first : Bool)
    (state : σ) : Reader σ := fun s =>
  match steps with
  | 0 => .error (.unfinished .object)
  | steps + 1 =>
    match nextName? first s with
    | .error e => .error e
    | .ok (.inr rest) => .ok (state, rest)
    | .ok (.inl text) =>
      match readString text with
      | .error e => .error e
      | .ok (name, rest) =>
        match member state name rest with
        | .error e => .error e
        | .ok (state, rest) => foldMembers member steps false state rest

/-- Reads the items of an array. -/
def readItems {α : Type} (item : Reader α) : Reader (List α) := fun s =>
  let step (items : List α) : Reader (List α) := fun s =>
    (item s).map fun (a, rest) => (a :: items, rest)
  (foldItems step (s.length + 1) true [] s).map fun (items, rest) => (items.reverse, rest)

/-- Reads an array. -/
def readList {α : Type} (item : Reader α) : Reader (List α) := fun s =>
  match skipSpace s with
  | '[' :: rest => readItems item rest
  | s => .error (unexpected "a sequence" s)

/-- Reads the value of a member, colon included, and writes it under its name. -/
def readMember {α : Type} (value : Reader α) (members : List (String × α)) (name : String) :
    Reader (List (String × α)) := fun s =>
  match readColon s with
  | .error e => .error e
  | .ok rest => (value rest).map fun (a, rest) => (Rows.insert name a members, rest)

/-- Reads the members of an object in the order of their names; of two values with one name
the later stays. -/
def readMembers {α : Type} (value : Reader α) : Reader (List (String × α)) := fun s =>
  foldMembers (readMember value) (s.length + 1) true [] s

/-- Reads an object whose values have one shape. -/
def readMap {α : Type} (value : Reader α) : Reader (List (String × α)) := fun s =>
  match skipSpace s with
  | '{' :: rest => readMembers value rest
  | s => .error (unexpected "a map" s)

/-- Reads one value at the beginning of a text and leaves the rest of the text alone. -/
def decodePart {α : Type} (reader : Reader α) (text : String) : Except ReadError α :=
  (reader text.toList).map Prod.fst

/-- Reads a text that holds one value and nothing else. -/
def decode {α : Type} (reader : Reader α) (text : String) : Except ReadError α :=
  match reader text.toList with
  | .error e => .error e
  | .ok (a, rest) =>
    if (skipSpace rest).isEmpty then .ok a else .error (.malformed .trailingCharacters)

/-- The name of the one member of a holder. A holder is an object that stands for the value
whose text it holds. -/
def holderName : String := "$serde_json::private::RawValue"

/-- What follows the first name of an object if that is the name of a holder's member, by the
text behind the opening brace. -/
def afterHolderName? (s : List Char) : Option (List Char) :=
  match nextName? true s with
  | .ok (.inl text) =>
    match readString text with
    | .ok (name, rest) => if name = holderName then some rest else none
    | .error _ => none
  | _ => none

/-- Reads the text of a holder and what `held` makes of it, behind the name and up to the
closing brace. A fault of the text counts as a wrong shape of the holder. -/
def readHeld (held : String → Except ReadError Value) : Reader Value := fun s =>
  match readColon s >>= readTextAs "raw value" with
  | .error e => .error e
  | .ok (text, rest) =>
    match held text with
    | .error e => .error (.mismatch none (.other e.message))
    | .ok value => (closeObject rest).map fun rest => (value, rest)

/-- Reads any value in which no more than `room` arrays and objects are nested, with `held`
for the texts of holders. -/
def readValueWith (held : String → Except ReadError Value) (room : Nat) : Reader Value := fun s =>
  match skipSpace s with
  | [] => .error (.unfinished .value)
  | 'n' :: rest => (skipWord nullTail rest).map fun rest => (.null, rest)
  | 't' :: rest => (skipWord trueTail rest).map fun rest => (.bool true, rest)
  | 'f' :: rest => (skipWord falseTail rest).map fun rest => (.bool false, rest)
  | '"' :: rest => (readString rest).map fun (text, rest) => (.string text, rest)
  | '[' :: rest =>
    match room with
    | 0 => .error (.malformed .nestedTooDeeply)
    | room + 1 =>
      (readItems (readValueWith held room) rest).map fun (items, rest) => (.array items, rest)
  | '{' :: rest =>
    match room with
    | 0 => .error (.malformed .nestedTooDeeply)
    | room + 1 =>
      match afterHolderName? rest with
      | some rest => readHeld held rest
      | none =>
        (readMembers (readValueWith held room) rest).map fun (members, rest) =>
          (.object members, rest)
  | c :: rest =>
    if c = '-' || c.isDigit then
      (readNumber (c :: rest)).map fun
        | (.integer n, rest) => (.integer n, rest)
        | (.float x, rest) => (.float x, rest)
    else .error (.malformed .expectedValue)

/-- The deepest nesting of arrays and objects that is read. -/
def deepest : Nat := 127

/-- The value of a text in which no more than `layers` holders are inside one another. Nesting
is counted anew in every text. -/
def heldValue : (layers : Nat) → String → Except ReadError Value
  | 0, _ => .error (.malformed .nestedTooDeeply)
  | layers + 1, text => decode (readValueWith (heldValue layers) deepest) text

/-- Reads any value in which no more than `room` arrays and objects are nested. A text is
shorter than its holder, so the length of the whole bounds the layers of holders. -/
def readValue (room : Nat) : Reader Value := fun s => readValueWith (heldValue s.length) room s

/-- A field of a record: how it is told apart, read, and known to have been read. -/
structure Field (δ : Type) where
  name : String
  /-- Whether an array may end before this field. -/
  optional : Bool
  isSet : δ → Bool
  read : δ → Reader δ

/-- A record of fields, given by name in an object or in order in an array. The draft `δ`
holds the fields read so far. -/
structure Shape (δ α : Type) where
  name : String
  fields : List (Field δ)
  blank : δ
  /-- The record of a draft, unless a field is missing. -/
  build : δ → Except Mismatch α

namespace Shape

variable {δ α : Type}

/-- Reads the member of that name: a field that is not yet set, or something passed over. -/
def readMember (shape : Shape δ α) (steps : Nat) (draft : δ) (name : String) : Reader δ :=
  fun s =>
    match shape.fields.find? fun f => f.name == name with
    | none => (readColon s >>= skipValue steps).map fun rest => (draft, rest)
    | some field =>
      if field.isSet draft then .error (.mismatch none (.duplicateField name))
      else
        match readColon s with
        | .error e => .error e
        | .ok rest => (field.read draft rest).mapError (.within (.field name))

/-- Reads the fields in order from an array, of which `index` have been read. -/
def readInOrder (shape : Shape δ α) (index : Nat) (draft : δ) : List (Field δ) → Reader δ
  | [], s => (closeArray s).map fun rest => (draft, rest)
  | field :: fields, s =>
    match nextItem? (index == 0) s with
    | .error e => .error e
    | .ok none =>
      if field.optional then readInOrder shape (index + 1) draft fields s
      else
        .error (.mismatch none (.wrongLength index shape.name shape.fields.length))
    | .ok (some text) =>
      match (field.read draft text).mapError (.within (.element index)) with
      | .error e => .error e
      | .ok (draft, rest) => readInOrder shape (index + 1) draft fields rest

/-- Reads a record. -/
def read (shape : Shape δ α) : Reader α := fun s =>
  let finish : δ × List Char → Except ReadError (α × List Char) := fun (draft, rest) =>
    match shape.build draft with
    | .error cause => .error (.mismatch none cause)
    | .ok record => .ok (record, rest)
  match skipSpace s with
  | '[' :: rest => readInOrder shape 0 shape.blank shape.fields rest >>= finish
  | '{' :: rest =>
    foldMembers (shape.readMember (enoughSteps s)) (s.length + 1) true shape.blank rest >>= finish
  | s => .error (unexpected ("struct " ++ shape.name) s)

end Shape

/-- The value of a field that has to be there. -/
def required {α : Type} (name : String) : Option α → Except Mismatch α
  | some a => .ok a
  | none => .error (.missingField name)

end DurableCache.Json
