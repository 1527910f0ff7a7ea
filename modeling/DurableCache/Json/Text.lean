import DurableCache.Json.Error

/-!
# Strings of a JSON text

A string runs up to its closing quote. Where its content is used, escapes become
characters and a surrogate must be the first of a pair or is refused; where it is only
passed over, escapes need no more than their form.
-/

namespace DurableCache.Json

/-- A reader takes a value from the beginning of a text and hands back the rest. -/
abbrev Reader (α : Type) := List Char → Except ReadError (α × List Char)

/-- The value of a hexadecimal digit. -/
def hexDigit? (c : Char) : Option Nat :=
  if c.isDigit then some (c.toNat - '0'.toNat)
  else if 'a' ≤ c ∧ c ≤ 'f' then some (c.toNat - 'a'.toNat + 10)
  else if 'A' ≤ c ∧ c ≤ 'F' then some (c.toNat - 'A'.toNat + 10)
  else none

/-- The number that the next four characters stand for. A text with less than four bytes
left has ended; other characters than digits are refused. -/
def fourHex : List Char → Except ReadError Nat
  | a :: b :: c :: d :: _ =>
    match hexDigit? a, hexDigit? b, hexDigit? c, hexDigit? d with
    | some a, some b, some c, some d => .ok (((a * 16 + b) * 16 + c) * 16 + d)
    | _, _, _, _ => .error (.malformed .invalidEscape)
  | short =>
    if (String.ofList short).utf8ByteSize < 4 then .error (.unfinished .string)
    else .error (.malformed .invalidEscape)

/-- Whether a unit is the first of a surrogate pair. -/
def isLeading (unit : Nat) : Bool := 0xd800 ≤ unit && unit ≤ 0xdbff

/-- Whether a unit is the second of a surrogate pair. -/
def isTrailing (unit : Nat) : Bool := 0xdc00 ≤ unit && unit ≤ 0xdfff

/-- The character of a surrogate pair. -/
def pairChar (leading trailing : Nat) : Char :=
  Char.ofNat (0x10000 + (leading - 0xd800) * 0x400 + (trailing - 0xdc00))

/-- The character of a numeric escape, by the text behind its letter, and how many
characters of that text belong to it. -/
def readUnicode (s : List Char) : Except ReadError (Char × Nat) :=
  match fourHex s with
  | .error e => .error e
  | .ok unit =>
    if isTrailing unit then .error (.malformed .loneSurrogate)
    else if isLeading unit then
      match s.drop 4 with
      | [] => .error (.unfinished .string)
      | '\\' :: [] => .error (.unfinished .string)
      | '\\' :: 'u' :: rest =>
        match fourHex rest with
        | .error e => .error e
        | .ok second =>
          if isTrailing second then .ok (pairChar unit second, 10)
          else .error (.malformed .loneSurrogate)
      | _ => .error (.malformed .brokenSurrogatePair)
    else .ok (Char.ofNat unit, 4)

/-- The character that a letter stands for behind a backslash. -/
def shortEscape? : Char → Option Char
  | '"' => some '"'
  | '\\' => some '\\'
  | '/' => some '/'
  | 'b' => some '\x08'
  | 'f' => some '\x0c'
  | 'n' => some '\n'
  | 'r' => some '\r'
  | 't' => some '\t'
  | _ => none

/-- The character of an escape, by the text behind the backslash, and how many characters
of that text belong to it. -/
def readEscape : List Char → Except ReadError (Char × Nat)
  | [] => .error (.unfinished .string)
  | 'u' :: rest => (readUnicode rest).map fun (c, width) => (c, width + 1)
  | letter :: _ =>
    match shortEscape? letter with
    | some c => .ok (c, 1)
    | none => .error (.malformed .invalidEscape)

/-- Reads the content of a string behind its opening quote, passing over the next `skip`
characters, which belong to an escape already read; `content` is reversed. -/
def readContent (skip : Nat) (content : List Char) :
    List Char → Except ReadError (String × List Char)
  | [] => .error (.unfinished .string)
  | c :: rest =>
    match skip with
    | skip + 1 => readContent skip content rest
    | 0 =>
      if c = '"' then .ok (String.ofList content.reverse, rest)
      else if c = '\\' then
        match readEscape rest with
        | .error e => .error e
        | .ok (escaped, width) => readContent width (escaped :: content) rest
      else if c.toNat < 0x20 then .error (.malformed .controlCharacter)
      else readContent 0 (c :: content) rest

/-- Reads the content of a string behind its opening quote. -/
def readString : Reader String := readContent 0 []

/-- How many characters behind a backslash belong to an escape that is not used. -/
def escapeWidth : List Char → Except ReadError Nat
  | [] => .error (.unfinished .string)
  | 'u' :: rest => (fourHex rest).map fun _ => 5
  | letter :: _ =>
    if (shortEscape? letter).isSome then .ok 1 else .error (.malformed .invalidEscape)

/-- Passes over a string behind its opening quote, of which the next `skip` characters
belong to an escape already seen. -/
def skipContent (skip : Nat) : List Char → Except ReadError (List Char)
  | [] => .error (.unfinished .string)
  | c :: rest =>
    match skip with
    | skip + 1 => skipContent skip rest
    | 0 =>
      if c = '"' then .ok rest
      else if c = '\\' then
        match escapeWidth rest with
        | .error e => .error e
        | .ok width => skipContent width rest
      else if c.toNat < 0x20 then .error (.malformed .controlCharacter)
      else skipContent 0 rest

end DurableCache.Json
