import DurableCache.Staleness

/-!
# Calendar

A time is written as a date and a time of day without an offset. The calendar repeats after
four hundred years of 146097 days; counting years from the first of March puts the leap day
at the end of a year.
-/

namespace DurableCache.Calendar

/-- A day of the calendar. -/
structure Date where
  year : Nat
  month : Nat
  day : Nat
  deriving DecidableEq, Repr

/-- The date of a day counted from the beginning of 1970. -/
def dateOf (daysSinceEpoch : Nat) : Date :=
  let days := daysSinceEpoch + 719468
  let cycle := days / 146097
  let dayOfCycle := days % 146097
  let yearOfCycle :=
    (dayOfCycle - dayOfCycle / 1460 + dayOfCycle / 36524 - dayOfCycle / 146096) / 365
  let dayOfYear := dayOfCycle - (365 * yearOfCycle + yearOfCycle / 4 - yearOfCycle / 100)
  let shifted := (5 * dayOfYear + 2) / 153
  let day := dayOfYear - (153 * shifted + 2) / 5 + 1
  let month := if shifted < 10 then shifted + 3 else shifted - 9
  ⟨400 * cycle + yearOfCycle + (if month ≤ 2 then 1 else 0), month, day⟩

/-- A number in at least `width` digits. -/
def padded (width n : Nat) : List Char :=
  let digits := Nat.toDigits 10 n
  List.replicate (width - digits.length) '0' ++ digits

/-- A year of at least four digits; one that has more begins with a plus sign. -/
def yearText (year : Nat) : List Char :=
  if year < 10000 then padded 4 year else '+' :: Nat.toDigits 10 year

/-- A time as text. Milliseconds have three digits and are left out when they are zero. -/
def timeText (now : Timestamp) : String :=
  let ms := now.toNat
  let date := dateOf (ms / 86400000)
  let seconds := ms / 1000 % 86400
  let fraction := ms % 1000
  String.ofList <|
    yearText date.year ++ '-' :: padded 2 date.month ++ '-' :: padded 2 date.day ++
      'T' :: padded 2 (seconds / 3600) ++ ':' :: padded 2 (seconds / 60 % 60) ++
      ':' :: padded 2 (seconds % 60) ++
      (if fraction = 0 then [] else '.' :: padded 3 fraction) ++
      ['+', '0', '0', ':', '0', '0']

/-- The leap day of a year that is divisible by four hundred. -/
example : dateOf 11016 = ⟨2000, 2, 29⟩ := by decide

/-- The day after the end of February in a century year without a leap day. -/
example : dateOf 47541 = ⟨2100, 3, 1⟩ := by decide

end DurableCache.Calendar
