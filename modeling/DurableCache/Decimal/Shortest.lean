/-!
# Shortest decimals

A finite binary number stands for every real that rounds to it. Its shortest decimal is
the one with the fewest digits among those reals, and of several such decimals the
nearest one. All comparisons are made between natural numbers.
-/

namespace DurableCache.Decimal

/-- The number `mantissa · 2 ^ exponent`. -/
structure Binary where
  mantissa : Nat
  exponent : Int
  deriving DecidableEq, Repr

/-- The number `digits · 10 ^ exponent`. -/
structure Scientific where
  digits : Nat
  exponent : Int
  deriving DecidableEq, Repr

/-- The mantissa of a power of two, the least one with all its places. -/
def fullMantissa : Nat := Nat.pow 2 52

/-- The magnitude that the bits of a finite double encode. -/
def Binary.ofBits (bits : UInt64) : Binary :=
  let fraction := bits.toNat % fullMantissa
  let biased := bits.toNat / fullMantissa % 2048
  if biased = 0 then ⟨fraction, -1074⟩ else ⟨fraction + fullMantissa, (biased : Int) - 1075⟩

namespace Binary

/-- Numerator and denominator of a quarter of the last place. -/
def quarter (x : Binary) : Nat × Nat :=
  let e := x.exponent - 2
  (Nat.pow 2 e.toNat, Nat.pow 2 (-e).toNat)

/-- The lower end of the rounding interval, in quarters of the last place. Below a power of
two the neighbours stand twice as close. -/
def low (x : Binary) : Nat :=
  4 * x.mantissa - (if x.mantissa = fullMantissa ∧ x.exponent ≠ -1074 then 1 else 2)

/-- The upper end of the rounding interval, in quarters of the last place. -/
def high (x : Binary) : Nat := 4 * x.mantissa + 2

/-- The decimal on the grid of multiples of `10 ^ e` that rounds to `x`, if there is one;
of two the nearer, and the even one if both are equally near. -/
def onGrid? (x : Binary) (e : Int) : Option Scientific :=
  let (num, den) := x.quarter
  let unit := den * Nat.pow 10 e.toNat
  let scale := num * Nat.pow 10 (-e).toNat
  let middle := 4 * x.mantissa * scale
  let inside (d : Nat) : Bool :=
    if x.mantissa % 2 = 0 then x.low * scale ≤ d * unit && d * unit ≤ x.high * scale
    else x.low * scale < d * unit && d * unit < x.high * scale
  let below := middle / unit
  let above := below + 1
  match inside below, inside above with
  | true, true =>
    let down := middle - below * unit
    let up := above * unit - middle
    if down < up || (down == up && below % 2 == 0) then some ⟨below, e⟩ else some ⟨above, e⟩
  | true, false => some ⟨below, e⟩
  | false, true => some ⟨above, e⟩
  | false, false => none

/-- The exponent of the leading decimal digit of a positive number above `10 ^ -400`. -/
def leadingPlace (x : Binary) : Int :=
  let (num, den) := x.quarter
  ((Nat.toDigits 10 (4 * x.mantissa * num * Nat.pow 10 400 / den)).length : Int) - 401

end Binary

/-- Moves trailing zeros of the digits into the exponent, `fuel` of them at most. -/
def Scientific.stripZeros : Nat → Scientific → Scientific
  | 0, x => x
  | fuel + 1, x =>
    if x.digits ≠ 0 ∧ x.digits % 10 = 0 then stripZeros fuel ⟨x.digits / 10, x.exponent + 1⟩
    else x

/-- The shortest decimal of a positive number. Seventeen digits always suffice. -/
def Binary.shortest (x : Binary) : Scientific :=
  let place := x.leadingPlace
  let found := (List.range 17).findSome? fun (i : Nat) => x.onGrid? (place - i)
  (found.getD ⟨x.mantissa, x.exponent⟩).stripZeros 20

end DurableCache.Decimal
