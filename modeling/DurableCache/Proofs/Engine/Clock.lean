import DurableCache.Proofs.Engine.Calls

/-!
# Calls under a clock

A clock that never goes backwards shows the times of a run in ascending order. Each call reads it
between a time that it has reached before and one that it has reached afterwards.
-/

namespace DurableCache.Call

/-- The times at which a call would read the clock, in order. -/
def times : Call → List Timestamp
  | .get now _ | .getAs now _ _ | .put now _ _ _ | .putJson now _ _ _ | .purge now
  | .beginJob now _ | .commit now => [now]
  | .finishJob returned _ _ _ => [returned]
  | .invalidate _ | .clear => []
  | .populate now returned _ _ _ | .populateAs now returned _ _ _ _
  | .memoize now returned _ _ _ _ => [now, returned]

/-- The clock does not go backwards in a list of calls. -/
def InOrder (calls : List Call) : Prop := (calls.flatMap times).Pairwise (· ≤ ·)

instance (calls : List Call) : Decidable (InOrder calls) :=
  inferInstanceAs (Decidable (List.Pairwise _ _))

/-- The clock goes from one time to another during a call, and not backwards. -/
def Takes (call : Call) (before after : Timestamp) : Prop :=
  (before :: (call.times ++ [after])).Pairwise (· ≤ ·)

instance (call : Call) (before after : Timestamp) : Decidable (call.Takes before after) :=
  inferInstanceAs (Decidable (List.Pairwise _ _))

variable {call : Call} {before after time : Timestamp}

/-- The clock does not go backwards during a call. -/
theorem Takes.le (h : call.Takes before after) : before ≤ after :=
  (List.pairwise_cons.mp h).1 after (by simp)

/-- A call reads the clock no earlier than it begins and no later than it ends. -/
theorem Takes.between (h : call.Takes before after) (htime : time ∈ call.times) :
    before ≤ time ∧ time ≤ after := by
  obtain ⟨hbefore, hrest⟩ := List.pairwise_cons.mp h
  refine ⟨hbefore time (by simp [htime]), ?_⟩
  exact (List.pairwise_append.mp hrest).2.2 time htime after (by simp)

end DurableCache.Call
