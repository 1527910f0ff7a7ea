import DurableCache.Text.Printable

/-!
# Quoted texts

A quoted text shows a string on one line of visible characters. Quotes, backslashes and
the common controls take a backslash and a letter; every other character without a
visible form is written by its code point in braces.
-/

namespace DurableCache.Text

/-- How one character stands between quotes. -/
def quotedChar (c : Char) : List Char :=
  if c = '\x00' then ['\\', '0']
  else if c = '\t' then ['\\', 't']
  else if c = '\r' then ['\\', 'r']
  else if c = '\n' then ['\\', 'n']
  else if c = '"' then ['\\', '"']
  else if c = '\\' then ['\\', '\\']
  else if isPrintable c then [c]
  else '\\' :: 'u' :: '{' :: (Nat.toDigits 16 c.toNat ++ ['}'])

/-- A text between quotes. -/
def quoted (s : String) : String :=
  String.ofList ('"' :: (s.toList.flatMap quotedChar ++ ['"']))

end DurableCache.Text
