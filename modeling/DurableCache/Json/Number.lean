import DurableCache.Json.Text
import DurableCache.Word

/-!
# Numbers of a JSON text

An integer that fits into sixty-four bits, signed or unsigned, is exact. Every other
number is a double: the digits that fit into an unsigned word make up its significand,
and the significand is multiplied or divided by a power of ten.
-/

namespace DurableCache.Json

/-- The value of a number. -/
inductive Number where
  | integer (n : Int)
  | float (x : Float)
  deriving Repr

/-- Appends leading digits of the text to `value` as long as it stays below the word
limit, and hands back how many there were and the rest. -/
def takeDigits (value : Nat) (count : Nat) : List Char → Nat × Nat × List Char
  | [] => (value, count, [])
  | c :: rest =>
    if c.isDigit then
      let next := 10 * value + (c.toNat - '0'.toNat)
      if next < wordLimit then takeDigits next (count + 1) rest else (value, count, c :: rest)
    else (value, count, c :: rest)

/-- A power of ten as a double. -/
def powerOfTen (n : Nat) : Float := Float.ofScientific 1 false n

/-- Divides by ten to the `n`. Two divisions by the greatest power bring any significand
down to zero, so `rounds` need not be more than four. -/
def divideByPower : (rounds : Nat) → Float → Nat → Float
  | 0, x, _ => x
  | rounds + 1, x, n =>
    if n ≤ 308 then x / powerOfTen n
    else if x == 0 then x
    else divideByPower rounds (x / powerOfTen 308) (n - 308)

/-- The double `± significand · 10 ^ exponent`, unless it is too large. -/
def scaled (negative : Bool) (significand : Nat) (exponent : Int) : Except ReadError Float :=
  let magnitude := (UInt64.ofNat significand).toFloat
  let sign (x : Float) : Float := if negative then -x else x
  if exponent < 0 then .ok (sign (divideByPower 4 magnitude exponent.natAbs))
  else if 308 < exponent then
    if significand = 0 then .ok (sign magnitude) else .error (.malformed .numberOutOfRange)
  else
    let x := magnitude * powerOfTen exponent.toNat
    if x.isInf then .error (.malformed .numberOutOfRange) else .ok (sign x)

/-- The greatest exponent that is read digit by digit. -/
def exponentLimit : Nat := UInt32.size / 2

/-- Reads an exponent behind its letter. Beyond the limit the number is zero or out of range. -/
def readExponent (negative : Bool) (significand : Nat) (exponent : Int) (s : List Char) :
    Except ReadError (Float × List Char) :=
  let (down, digits) := match s with
    | '+' :: rest => (false, rest)
    | '-' :: rest => (true, rest)
    | rest => (false, rest)
  match digits with
  | [] => .error (.unfinished .value)
  | c :: _ =>
    if c.isDigit then
      let shift := Nat.ofDigitChars 10 (digits.takeWhile Char.isDigit) 0
      let rest := digits.dropWhile Char.isDigit
      if shift < exponentLimit then
        let total := if down then exponent - shift else exponent + shift
        (scaled negative significand total).map fun x => (x, rest)
      else if significand ≠ 0 ∧ ¬ down then .error (.malformed .numberOutOfRange)
      else .ok (if negative then -0.0 else 0.0, rest)
    else .error (.malformed .invalidNumber)

/-- Reads what may follow the digits of a double: an exponent or nothing. -/
def readScale (negative : Bool) (significand : Nat) (exponent : Int) (s : List Char) :
    Except ReadError (Float × List Char) :=
  match s with
  | 'e' :: rest => readExponent negative significand exponent rest
  | 'E' :: rest => readExponent negative significand exponent rest
  | rest => (scaled negative significand exponent).map fun x => (x, rest)

/-- Reads the digits behind a decimal point; those that no longer fit are passed over. -/
def readFraction (negative : Bool) (significand : Nat) (exponent : Int) (s : List Char) :
    Except ReadError (Float × List Char) :=
  match s with
  | [] => .error (.unfinished .value)
  | c :: _ =>
    if c.isDigit then
      let (digits, count, rest) := takeDigits significand 0 s
      readScale negative digits (exponent - count) (rest.dropWhile Char.isDigit)
    else .error (.malformed .invalidNumber)

/-- The number of an integer text: exact if it fits, and a double otherwise. Zero has no
negative integer. -/
def ofInteger (negative : Bool) (n : Nat) : Number :=
  if negative then
    if 0 < n ∧ n ≤ wordLimit / 2 then .integer (-n) else .float (-(UInt64.ofNat n).toFloat)
  else .integer n

/-- Reads what may follow the digits of the integer part. -/
def readTail (negative : Bool) (n : Nat) (s : List Char) :
    Except ReadError (Number × List Char) :=
  match s with
  | '.' :: rest => (readFraction negative n 0 rest).map fun (x, rest) => (.float x, rest)
  | 'e' :: _ => (readScale negative n 0 s).map fun (x, rest) => (.float x, rest)
  | 'E' :: _ => (readScale negative n 0 s).map fun (x, rest) => (.float x, rest)
  | rest => .ok (ofInteger negative n, rest)

/-- Reads a double whose integer part has more digits than fit into a word. -/
def readLong (negative : Bool) (n : Nat) (s : List Char) :
    Except ReadError (Number × List Char) :=
  let dropped := (s.takeWhile Char.isDigit).length
  let result := match s.dropWhile Char.isDigit with
    | '.' :: rest => readFraction negative n dropped rest
    | rest => readScale negative n dropped rest
  result.map fun (x, rest) => (.float x, rest)

/-- Reads a number behind its sign. -/
def readMagnitude (negative : Bool) : Reader Number
  | [] => .error (.unfinished .value)
  | '0' :: rest =>
    match rest with
    | [] => readTail negative 0 rest
    | c :: _ =>
      if c.isDigit then .error (.malformed .invalidNumber) else readTail negative 0 rest
  | c :: rest =>
    if c.isDigit then
      let (n, _, rest) := takeDigits 0 0 (c :: rest)
      match rest with
      | [] => readTail negative n rest
      | c :: _ => if c.isDigit then readLong negative n rest else readTail negative n rest
    else .error (.malformed .invalidNumber)

/-- Reads a number, which begins with a digit or a minus sign. -/
def readNumber : Reader Number
  | '-' :: rest => readMagnitude true rest
  | s => readMagnitude false s

/-- Passes over an exponent behind its letter. -/
def skipExponent (s : List Char) : Except ReadError (List Char) :=
  let digits := match s with
    | '+' :: rest => rest
    | '-' :: rest => rest
    | rest => rest
  match digits with
  | [] => .error (.malformed .invalidNumber)
  | c :: rest =>
    if c.isDigit then .ok (rest.dropWhile Char.isDigit) else .error (.malformed .invalidNumber)

/-- Passes over what may follow the digits of a number. -/
def skipScale : List Char → Except ReadError (List Char)
  | 'e' :: rest => skipExponent rest
  | 'E' :: rest => skipExponent rest
  | rest => .ok rest

/-- Passes over what may follow the integer part of a number. -/
def skipTail : List Char → Except ReadError (List Char)
  | '.' :: [] => .error (.malformed .invalidNumber)
  | '.' :: c :: rest =>
    if c.isDigit then skipScale (rest.dropWhile Char.isDigit)
    else .error (.malformed .invalidNumber)
  | s => skipScale s

/-- Passes over a number behind its sign, whatever its size. -/
def skipMagnitude : List Char → Except ReadError (List Char)
  | [] => .error (.malformed .invalidNumber)
  | '0' :: rest =>
    match rest with
    | [] => skipTail rest
    | c :: _ => if c.isDigit then .error (.malformed .invalidNumber) else skipTail rest
  | c :: rest =>
    if c.isDigit then skipTail (rest.dropWhile Char.isDigit)
    else .error (.malformed .invalidNumber)

/-- Passes over a number. -/
def skipNumber : List Char → Except ReadError (List Char)
  | '-' :: rest => skipMagnitude rest
  | s => skipMagnitude s

end DurableCache.Json
