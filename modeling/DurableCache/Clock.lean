import DurableCache.Error
import DurableCache.Staleness

/-!
# The clock

A call reads the clock when it needs the time and only then. The clock shows the years up to
262142; a call that reads it later is abandoned.
-/

namespace DurableCache

/-- The last time that the clock can show. -/
def latestTime : Timestamp := 8210266876799999

/-- What a call reads from the clock at the time `now`. -/
def readClock (now : Timestamp) : Except Abort Timestamp :=
  if now ≤ latestTime then .ok now else .error .clockOverrun

theorem readClock_eq_ok_iff {now read : Timestamp} :
    readClock now = .ok read ↔ now ≤ latestTime ∧ now = read := by
  by_cases h : now ≤ latestTime <;> simp [readClock, h]

end DurableCache
