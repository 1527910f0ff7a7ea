/-!
# Lengths of texts

A text is measured in characters (`String.length`), in bytes (`String.utf8ByteSize`) or in
sixteen-bit units. Characters outside the basic plane take two units.
-/

namespace DurableCache.Text

/-- The sixteen-bit units that one character takes. -/
def unitWidth (c : Char) : Nat := if c.toNat < 0x10000 then 1 else 2

/-- The length of a text in sixteen-bit units. -/
def unitLength (s : String) : Nat := s.toList.foldr (fun c units => unitWidth c + units) 0

end DurableCache.Text
