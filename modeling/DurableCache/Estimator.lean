import DurableCache.Entry
import DurableCache.Text.Units
import DurableCache.Word

/-!
# Size estimates

The memory that an entry takes is estimated, not measured. An estimate that does not fit
into a word does not exist.
-/

namespace DurableCache

/-- A way to estimate the bytes that an entry takes in memory. -/
structure Estimator where
  /-- The estimate, if it fits into a word. -/
  size? : Entry → Option Nat

namespace Estimator

/-- A fixed overhead and a charge for each sixteen-bit unit of the value. -/
def perUnit (overhead charge : Nat) : Estimator where
  size? e := fits? (overhead + charge * Text.unitLength e.value)

/-- The same size for every entry. -/
def flat (size : Nat) : Estimator where
  size? _ := fits? size

/-- Thirty-six bytes for an entry and two for each unit. -/
def standard : Estimator := perUnit 36 2

end Estimator

end DurableCache
