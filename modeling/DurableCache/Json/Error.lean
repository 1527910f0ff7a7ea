import DurableCache.Text.Quoted

/-!
# Faults of a JSON text

A text can end too early, break the grammar, or hold a value of the wrong shape. The
first fault from the left is the one that is reported.
-/

namespace DurableCache.Json

/-- What was being read when the text ended. -/
inductive Unfinished where
  | value
  | string
  | list
  | object
  deriving DecidableEq, Repr

/-- How a text breaks the grammar. -/
inductive Malformed where
  | expectedValue
  | expectedWord
  | expectedColon
  | expectedListEnd
  | expectedObjectEnd
  | trailingComma
  | trailingCharacters
  | keyNotString
  | invalidNumber
  | numberOutOfRange
  | invalidEscape
  | loneSurrogate
  | brokenSurrogatePair
  | controlCharacter
  | nestedTooDeeply
  deriving DecidableEq, Repr

/-- The value that stood in the place of another. -/
inductive Found where
  | null
  | boolean (b : Bool)
  | integer (n : Int)
  | float
  | string (s : String)
  | sequence
  | map
  deriving DecidableEq, Repr

/-- How a value of the grammar fails to have the wanted shape. -/
inductive Mismatch where
  | wrongType (found : Found) (expected : String)
  | outOfRange (n : Int) (expected : String)
  | wrongLength (length : Nat) (shape : String) (expected : Nat)
  | missingField (name : String)
  | duplicateField (name : String)
  /-- A fault that a type reports in words of its own. -/
  | other (reason : String)
  deriving DecidableEq, Repr

/-- The part of a record in which a fault lies. -/
inductive Place where
  | field (name : String)
  | element (index : Nat)
  deriving DecidableEq, Repr

/-- Why a text could not be read. -/
inductive ReadError where
  | unfinished (what : Unfinished)
  | malformed (how : Malformed)
  | mismatch (place : Option Place) (cause : Mismatch)
  deriving DecidableEq, Repr

/-- The kind of value that was being read. -/
def Unfinished.message : Unfinished → String
  | .value => "EOF while parsing a value"
  | .string => "EOF while parsing a string"
  | .list => "EOF while parsing a list"
  | .object => "EOF while parsing an object"

/-- What is said about a broken rule of the grammar. -/
def Malformed.message : Malformed → String
  | .expectedValue => "expected value"
  | .expectedWord => "expected ident"
  | .expectedColon => "expected `:`"
  | .expectedListEnd => "expected `,` or `]`"
  | .expectedObjectEnd => "expected `,` or `\x7d`"
  | .trailingComma => "trailing comma"
  | .trailingCharacters => "trailing characters"
  | .keyNotString => "key must be a string"
  | .invalidNumber => "invalid number"
  | .numberOutOfRange => "number out of range"
  | .invalidEscape => "invalid escape"
  | .loneSurrogate => "lone leading surrogate in hex escape"
  | .brokenSurrogatePair => "unexpected end of hex escape"
  | .controlCharacter => "control character (\\u0000-\\u001F) found while parsing a string"
  | .nestedTooDeeply => "recursion limit exceeded"

/-- A found value by its kind, with its text where that is short. -/
def Found.describe : Found → String
  | .null => "null"
  | .boolean true => "boolean `true`"
  | .boolean false => "boolean `false`"
  | .integer n => "integer `" ++ toString n ++ "`"
  | .float => "floating point"
  | .string s => "string " ++ Text.quoted s
  | .sequence => "sequence"
  | .map => "map"

/-- What is said about a wrong shape. -/
def Mismatch.message : Mismatch → String
  | .wrongType found expected => "invalid type: " ++ found.describe ++ ", expected " ++ expected
  | .outOfRange n expected =>
    "invalid value: " ++ (Found.integer n).describe ++ ", expected " ++ expected
  | .wrongLength length shape expected =>
    "invalid length " ++ toString length ++ ", expected struct " ++ shape ++ " with " ++
      toString expected ++ " elements"
  | .missingField name => "missing field `" ++ name ++ "`"
  | .duplicateField name => "duplicate field `" ++ name ++ "`"
  | .other reason => reason

/-- What is said about an unreadable text, without the place of the fault. -/
def ReadError.message : ReadError → String
  | .unfinished what => what.message
  | .malformed how => how.message
  | .mismatch _ cause => cause.message

/-- The name of a place. -/
def Place.describe : Place → String
  | .field name => name
  | .element index => "[" ++ toString index ++ "]"

/-- Notes the part of a record in which a wrong shape was found. -/
def ReadError.within (place : Place) : ReadError → ReadError
  | .mismatch none cause => .mismatch (some place) cause
  | e => e

end DurableCache.Json
