/-!
# Percent escapes

A percent sign and two hexadecimal digits stand for one byte. A percent sign without two
digits stands for itself, and so does every other byte.
-/

namespace DurableCache.Http.Percent

/-- The value of a hexadecimal digit. -/
def digit? (b : UInt8) : Option UInt8 :=
  if 0x30 ≤ b ∧ b ≤ 0x39 then some (b - 0x30)
  else if 0x61 ≤ b ∧ b ≤ 0x66 then some (b - 0x61 + 10)
  else if 0x41 ≤ b ∧ b ≤ 0x46 then some (b - 0x41 + 10)
  else none

/-- The byte that three bytes stand for, if they are an escape. -/
def escaped? (sign high low : UInt8) : Option UInt8 :=
  if sign = 0x25 then
    match digit? high, digit? low with
    | some high, some low => some (high * 16 + low)
    | _, _ => none
  else none

/-- The bytes that a list of bytes stands for. -/
def decodeBytes : List UInt8 → List UInt8
  | [] => []
  | [b] => [b]
  | [b, c] => [b, c]
  | b :: high :: low :: rest =>
    match escaped? b high low with
    | some byte => byte :: decodeBytes rest
    | none => b :: decodeBytes (high :: low :: rest)

/-- The text that a text stands for, if its bytes are the encoding of one. -/
def decode? (s : String) : Option String :=
  String.fromUTF8? (decodeBytes s.toUTF8.toList).toByteArray

end DurableCache.Http.Percent
