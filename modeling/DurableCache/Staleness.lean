/-!
# Staleness

A value grows stale when its age exceeds its time to live. The value's own time to live
comes first, then the default; without either it stays fresh for ever.
-/

namespace DurableCache

/-- Milliseconds since the beginning of 1970. -/
abbrev Timestamp := UInt64

/-- The milliseconds from `written` to `now`; none if it was written later. -/
def ageAt (written now : Timestamp) : Nat := now.toNat - written.toNat

/-- Whether a value written then is stale now. An age that equals the time to live is fresh. -/
def isStale (timeToLive default : Option UInt64) (written now : Timestamp) : Bool :=
  match timeToLive.or default with
  | none => false
  | some limit => limit.toNat < ageAt written now

/-- A value is fresh in the moment in which it is written. -/
theorem isStale_self (timeToLive default : Option UInt64) (now : Timestamp) :
    isStale timeToLive default now now = false := by
  unfold isStale ageAt
  split <;> simp

/-- What is stale stays stale. -/
theorem isStale_mono {timeToLive default : Option UInt64} {written now later : Timestamp}
    (hle : now ≤ later) (h : isStale timeToLive default written now = true) :
    isStale timeToLive default written later = true := by
  unfold isStale ageAt at *
  have := UInt64.le_iff_toNat_le.mp hle
  split at h
  · cases h
  · simp only [decide_eq_true_eq] at h ⊢
    omega

end DurableCache
