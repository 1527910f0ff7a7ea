/-!
# Words

Sizes, counts and times are unsigned words of sixty-four bits. A computation that leaves
their range is not wrapped around.
-/

namespace DurableCache

/-- One more than the greatest unsigned word. -/
def wordLimit : Nat := UInt64.size

/-- A number that fits into an unsigned word. -/
def fits? (n : Nat) : Option Nat := if n < wordLimit then some n else none

end DurableCache
