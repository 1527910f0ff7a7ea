import DurableCache.Proofs.Load.Fence

/-!
# Live writes under a load

A key that is written while a load runs holds its last write from then on, or nothing. The end
of the load keeps that write or puts a strictly newer entry over it, with two exceptions: the
write has gone from memory without a removal, or the loaded entry has the same time.
-/

namespace DurableCache

namespace Change

/-- What a change writes last is what it writes, if it is the last one to write at all. -/
theorem lastWritten?_cons {key : String} {change : Change} {rest : List Change} {w : Entry} :
    lastWritten? key (change :: rest) = some w ↔
      lastWritten? key rest = some w ∨
        lastWritten? key rest = none ∧ change.written? key = some w := by
  have hor : lastWritten? key (change :: rest) =
      (lastWritten? key rest).or (change.written? key) := rfl
  rw [hor]
  cases lastWritten? key rest <;> simp

end Change

namespace Cache

variable {c next : Cache} {change : Change} {key : String} {w : Entry}

/-- A key holds its last write or nothing. -/
def HoldsAtMost (c : Cache) (key : String) (w : Entry) : Prop :=
  c.store.find? key = none ∨ c.store.find? key = some w

/-- The write of an entry leaves it under its key, or nothing. -/
theorem Turns.holdsAtMost_written (h : c.Turns change next) (hw : change.written? key = some w) :
    next.HoldsAtMost key w := by
  have hfind := h.store.find? key
  rw [hw] at hfind
  exact hfind

/-- A change that does not write a key leaves its entry in place, or nothing. -/
theorem Turns.holdsAtMost (h : c.Turns change next) (hw : change.written? key = none)
    (hc : c.HoldsAtMost key w) : next.HoldsAtMost key w := by
  rcases h.store.find? key with hnone | hsame
  · exact Or.inl hnone
  · rw [hw, Option.none_or] at hsame
    unfold HoldsAtMost
    rw [hsame]
    exact hc

/-- A key holds an entry that differs from its last write and is not strictly newer. -/
def RollsBack (c : Cache) (key : String) (w : Entry) : Prop :=
  ∃ entry, c.store.find? key = some entry ∧ entry ≠ w ∧ entry.timestamp ≤ w.timestamp

/-- A key that holds at most its last write is not rolled back. -/
theorem HoldsAtMost.not_rollsBack (h : c.HoldsAtMost key w) : ¬ c.RollsBack key w := by
  rintro ⟨entry, hentry, hne, -⟩
  rcases h with hnone | hlast
  · rw [hnone] at hentry
    cases hentry
  · rw [hlast] at hentry
    exact hne (Option.some.inj hentry).symm

end Cache

namespace Engine

variable {σ : Type} [BlobStore σ] {e e₀ : Engine σ} {calls : List Call} {key : String}
variable {w : Entry}

/-- A run that does not write a key keeps it at its last write at most. -/
theorem holdsAtMost_run (hs : e.Sound) (hfits : e.Fits calls)
    (hw : Change.lastWritten? key (e.changes calls) = none)
    (hc : e.cache.HoldsAtMost key w) : (e.run calls).cache.HoldsAtMost key w := by
  induction calls generalizing e with
  | nil => exact hc
  | cons call rest ih =>
    obtain ⟨hcall, hrest⟩ := hfits
    obtain ⟨hlater, hfirst⟩ := Option.or_eq_none_iff.mp hw
    have hturns := turns_perform hs call hcall
    exact ih (hs.perform call hcall) hrest hlater (hturns.holdsAtMost hfirst hc)

/-- After a run a key holds at most what the run has written last under it. -/
theorem holdsAtMost_lastWritten (hs : e.Sound) (hfits : e.Fits calls)
    (hw : Change.lastWritten? key (e.changes calls) = some w) :
    (e.run calls).cache.HoldsAtMost key w := by
  induction calls generalizing e with
  | nil => cases hw
  | cons call rest ih =>
    obtain ⟨hcall, hrest⟩ := hfits
    have hnext := hs.perform call hcall
    rcases Change.lastWritten?_cons.mp hw with hlater | ⟨hlater, hfirst⟩
    · exact ih hnext hrest hlater
    · have hturns := turns_perform hs call hcall
      have hwritten := hturns.holdsAtMost_written hfirst
      exact holdsAtMost_run (e := (e.perform call).2) hnext hrest hlater hwritten

variable {config : Config} {estimator : Estimator} {blobs : σ}

/-- The end of a load rolls a write of its window back exactly if no removal has followed the
begin of the load, and the load has read another entry for the key that is not newer, and the
write has gone from memory or is of the same time as that entry. -/
theorem finishLoad_rollsBack_iff (hstart : start config estimator blobs = .ok e₀)
    (hreach : e₀.Reaches e) (hfits : e.beginLoad.Fits calls)
    (hw : Change.lastWritten? key (e.beginLoad.changes calls) = some w) (loaded : Store)
    (hanswer : abort? ((e.beginLoad.run calls).cache.finishLoad (some loaded)).1 ≠
      some .sizeOverflow) :
    ((e.beginLoad.run calls).cache.finishLoad (some loaded)).2.RollsBack key w ↔
      Call.clear ∉ calls ∧ Call.invalidate key ∉ calls ∧
        ∃ entry, loaded.find? key = some entry ∧ entry ≠ w ∧ entry.timestamp ≤ w.timestamp ∧
          ((e.beginLoad.run calls).cache.store.find? key = none ∨
            entry.timestamp = w.timestamp) := by
  have hsound : e.beginLoad.Sound := hreach.sound (sound_start hstart)
  have hc := holdsAtMost_lastWritten hsound hfits hw
  obtain ⟨keys, next, hnext, -, hkeys, hfind, -⟩ := exists_delivered hsound hfits rfl hanswer
  rw [hnext]
  constructor
  · rintro ⟨entry, hentry, hne, hle⟩
    by_cases hmem : key ∈ keys
    · obtain ⟨hclear, hinvalidate, read, hread, hheld⟩ := (hkeys key).mp hmem
      rw [hfind, if_pos hmem, hread] at hentry
      cases hentry
      refine ⟨hclear, hinvalidate, _, hread, hne, hle, ?_⟩
      rcases hc with hnone | hlast
      · exact Or.inl hnone
      · exact Or.inr (UInt64.le_antisymm hle (UInt64.not_lt.mp (hheld w hlast)))
    · rw [hfind, if_neg hmem] at hentry
      exact absurd ⟨entry, hentry, hne, hle⟩ hc.not_rollsBack
  · rintro ⟨hclear, hinvalidate, entry, hread, hne, hle, hgone⟩
    have hmem : key ∈ keys := by
      refine (hkeys key).mpr ⟨hclear, hinvalidate, entry, hread, fun held hheld => ?_⟩
      rcases hc with hnone | hlast
      · rw [hnone] at hheld
        cases hheld
      · rw [hlast] at hheld
        cases hheld
        rcases hgone with hnone | htime
        · rw [hnone] at hlast
          cases hlast
        · rw [htime]
          exact UInt64.lt_irrefl _
    exact ⟨entry, by rw [hfind, if_pos hmem, hread], hne, hle⟩

/-- A write that was committed and replaced within one millisecond comes back. -/
theorem finishLoad_rollsBack_replaced :
    ((standard.beginLoad.run [.put 5 "a" "first" none, .commit 5, .put 5 "a" "second" none]
      ).cache.finishLoad (some (Store.empty.insert "a" ⟨"first", 5, none⟩ 1).2)).2.RollsBack "a"
        ⟨"second", 5, none⟩ := by
  have hfits : standard.beginLoad.Fits
      [.put 5 "a" "first" none, .commit 5, .put 5 "a" "second" none] :=
    ⟨by decide, by decide, by decide, trivial⟩
  refine (finishLoad_rollsBack_iff start_standard .start hfits (by decide) _ (by decide)).mpr
    ⟨by simp, by simp, ⟨"first", 5, none⟩, by decide, by decide, by decide, Or.inr rfl⟩

/-- An entry from the blobs comes back over a later write that was purged as stale. -/
theorem finishLoad_rollsBack_purged :
    ¬ ∀ (calls : List Call) (key : String) (w : Entry) (loaded : Store),
      standard.beginLoad.Fits calls →
      Change.lastWritten? key (standard.beginLoad.changes calls) = some w →
      abort? ((standard.beginLoad.run calls).cache.finishLoad (some loaded)).1 ≠
        some .sizeOverflow →
      ¬ ((standard.beginLoad.run calls).cache.finishLoad (some loaded)).2.RollsBack key w := by
  intro hnever
  refine hnever [.put 5 "a" "live" (some 1), .purge 7] "a" ⟨"live", 5, some 1⟩
    (Store.empty.insert "a" ⟨"disk", 4, none⟩ 1).2 ⟨by decide, by decide, trivial⟩ (by decide)
    (by decide) ⟨⟨"disk", 4, none⟩, by decide, by decide, by decide⟩

end Engine

end DurableCache
