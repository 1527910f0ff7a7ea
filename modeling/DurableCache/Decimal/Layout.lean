import DurableCache.Decimal.Shortest

/-!
# Layout of decimals

A double is written with its shortest digits. Magnitudes from `10 ^ -5` up to, but not
including, `10 ^ 16` are positional and always show a digit on both sides of the point;
the others show one digit before the point and a signed exponent.
-/

namespace DurableCache.Decimal

/-- The text of `digits · 10 ^ exponent`. -/
def Scientific.layout (x : Scientific) : List Char :=
  let digits := Nat.toDigits 10 x.digits
  let point := (digits.length : Int) + x.exponent
  if 0 ≤ x.exponent ∧ point ≤ 16 then
    digits ++ List.replicate x.exponent.toNat '0' ++ ['.', '0']
  else if 0 < point ∧ point ≤ 16 then
    digits.take point.toNat ++ '.' :: digits.drop point.toNat
  else if -5 < point ∧ point ≤ 0 then
    '0' :: '.' :: (List.replicate (-point).toNat '0' ++ digits)
  else
    let tail := match digits with
      | first :: second :: rest => first :: '.' :: second :: rest
      | short => short
    let place := point - 1
    tail ++ 'e' :: (if place < 0 then '-' else '+') :: Nat.toDigits 10 place.natAbs

/-- The text of a finite double; zero keeps its sign. -/
def write (x : Float) : List Char :=
  let bits := x.toBits
  let sign := if bits >>> 63 = 1 then ['-'] else []
  let magnitude := Binary.ofBits bits
  sign ++ if magnitude.mantissa = 0 then ['0', '.', '0'] else magnitude.shortest.layout

end DurableCache.Decimal
