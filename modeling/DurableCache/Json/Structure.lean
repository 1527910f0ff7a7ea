import DurableCache.Json.Number

/-!
# Structure of a JSON text

What stands between the values of an array or an object, and values that are passed over.
A value that is passed over must keep to the grammar, but may be nested to any depth and
hold numbers of any size.
-/

namespace DurableCache.Json

/-- The white space between tokens. -/
def isSpace (c : Char) : Bool := c == ' ' || c == '\n' || c == '\t' || c == '\r'

/-- Passes over white space. -/
def skipSpace (s : List Char) : List Char := s.dropWhile isSpace

/-- Passes over the remaining letters of a word. -/
def skipWord : List Char → List Char → Except ReadError (List Char)
  | [], s => .ok s
  | _ :: _, [] => .error (.unfinished .value)
  | letter :: letters, c :: rest =>
    if c = letter then skipWord letters rest else .error (.malformed .expectedWord)

/-- The letters of `null` behind the first. -/
def nullTail : List Char := ['u', 'l', 'l']

/-- The letters of `true` behind the first. -/
def trueTail : List Char := ['r', 'u', 'e']

/-- The letters of `false` behind the first. -/
def falseTail : List Char := ['a', 'l', 's', 'e']

/-- Finds the next item of an array: its text, or nothing in front of the closing bracket.
Every item but the first stands behind a comma. -/
def nextItem? (first : Bool) (s : List Char) : Except ReadError (Option (List Char)) :=
  match skipSpace s with
  | [] => .error (.unfinished .list)
  | ']' :: _ => .ok none
  | c :: rest =>
    if first then .ok (some (c :: rest))
    else if c = ',' then
      match skipSpace rest with
      | [] => .error (.unfinished .value)
      | ']' :: _ => .error (.malformed .trailingComma)
      | item => .ok (some item)
    else .error (.malformed .expectedListEnd)

/-- Reads the closing bracket of an array that is complete. -/
def closeArray (s : List Char) : Except ReadError (List Char) :=
  match skipSpace s with
  | [] => .error (.unfinished .list)
  | ']' :: rest => .ok rest
  | ',' :: rest =>
    match skipSpace rest with
    | ']' :: _ => .error (.malformed .trailingComma)
    | _ => .error (.malformed .trailingCharacters)
  | _ => .error (.malformed .trailingCharacters)

/-- Finds the next name of an object: the text behind its quote, or the text behind the
closing brace. Every member but the first stands behind a comma. -/
def nextName? (first : Bool) (s : List Char) :
    Except ReadError (List Char ⊕ List Char) :=
  match skipSpace s with
  | [] => .error (.unfinished .object)
  | '}' :: rest => .ok (.inr rest)
  | c :: rest =>
    if first then
      if c = '"' then .ok (.inl rest) else .error (.malformed .keyNotString)
    else if c = ',' then
      match skipSpace rest with
      | [] => .error (.unfinished .value)
      | '"' :: name => .ok (.inl name)
      | '}' :: _ => .error (.malformed .trailingComma)
      | _ => .error (.malformed .keyNotString)
    else .error (.malformed .expectedObjectEnd)

/-- Reads the closing brace of an object that is complete. -/
def closeObject (s : List Char) : Except ReadError (List Char) :=
  match skipSpace s with
  | [] => .error (.unfinished .object)
  | '}' :: rest => .ok rest
  | ',' :: _ => .error (.malformed .trailingComma)
  | _ => .error (.malformed .trailingCharacters)

/-- Reads the colon between a name and its value. -/
def readColon (s : List Char) : Except ReadError (List Char) :=
  match skipSpace s with
  | [] => .error (.unfinished .object)
  | ':' :: rest => .ok rest
  | _ => .error (.malformed .expectedColon)

/-- Passes over a name and its colon, in front of a value that is passed over as well. -/
def skipName (s : List Char) : Except ReadError (List Char) :=
  match skipSpace s with
  | [] => .error (.unfinished .object)
  | '"' :: rest => skipContent 0 rest >>= readColon
  | _ => .error (.malformed .keyNotString)

mutual

/-- Passes over a value. Each step down or to the side takes one of `steps`. -/
def skipValue (steps : Nat) (s : List Char) : Except ReadError (List Char) :=
  match steps with
  | 0 => .error (.unfinished .value)
  | steps + 1 =>
    match skipSpace s with
    | [] => .error (.unfinished .value)
    | 'n' :: rest => skipWord nullTail rest
    | 't' :: rest => skipWord trueTail rest
    | 'f' :: rest => skipWord falseTail rest
    | '"' :: rest => skipContent 0 rest
    | '[' :: rest => skipItems steps true rest
    | '{' :: rest => skipMembers steps true rest
    | c :: rest =>
      if c = '-' || c.isDigit then skipNumber (c :: rest)
      else .error (.malformed .expectedValue)

/-- Passes over the rest of an array. -/
def skipItems (steps : Nat) (first : Bool) (s : List Char) : Except ReadError (List Char) :=
  match steps with
  | 0 => .error (.unfinished .list)
  | steps + 1 =>
    match skipSpace s with
    | [] => .error (.unfinished .list)
    | ']' :: rest => .ok rest
    | c :: rest =>
      if first then
        match skipValue steps (c :: rest) with
        | .error e => .error e
        | .ok rest => skipItems steps false rest
      else if c = ',' then
        match skipValue steps rest with
        | .error e => .error e
        | .ok rest => skipItems steps false rest
      else .error (.malformed .expectedListEnd)

/-- Passes over the rest of an object. -/
def skipMembers (steps : Nat) (first : Bool) (s : List Char) : Except ReadError (List Char) :=
  match steps with
  | 0 => .error (.unfinished .object)
  | steps + 1 =>
    match skipSpace s with
    | [] => .error (.unfinished .object)
    | '}' :: rest => .ok rest
    | c :: rest =>
      if first then skipMember steps (c :: rest)
      else if c = ',' then skipMember steps rest
      else .error (.malformed .expectedObjectEnd)

/-- Passes over a member and the rest of its object. -/
def skipMember (steps : Nat) (s : List Char) : Except ReadError (List Char) :=
  match steps with
  | 0 => .error (.unfinished .object)
  | steps + 1 =>
    match skipName s with
    | .error e => .error e
    | .ok rest =>
      match skipValue steps rest with
      | .error e => .error e
      | .ok rest => skipMembers steps false rest

end

/-- More steps than any value at the beginning of the text can take. -/
def enoughSteps (s : List Char) : Nat := 3 * s.length + 3

end DurableCache.Json
