import DurableCache.Proofs.Engine.Changes
import DurableCache.Proofs.Store.Merge

/-!
# Reachable engines

The end of a load merges what was loaded and keeps the memory sound, as long as all sizes fit.
So every engine that calls and the load make of a started one is sound.
-/

namespace DurableCache

namespace Cache

variable {c : Cache} {loaded : Store}

/-- What the end of a load merges: the loaded entries less those whose keys were removed. -/
def delivery (f : Fence) (loaded : Store) : List (String × Entry) :=
  (loaded.entries.filter fun key _ => !f.removed.contains key).rows

/-- The end of a load merges the delivery of its fence, unless everything was removed. -/
theorem finishLoad_some {f : Fence} (hf : c.fence = some f) :
    c.finishLoad (some loaded) =
      if f.cleared then (.ok 0, { c with fence := none })
      else
        ((c.store.merge c.rules.estimator (delivery f loaded)).1,
          { c with
            fence := none
            store := (c.store.merge c.rules.estimator (delivery f loaded)).2 }) := by
  unfold finishLoad
  rw [hf]
  rfl

/-- The end of a load is abandoned for one reason only. -/
theorem finishLoad_error {loaded : Option Store} {why : Abort} {next : Cache}
    (h : c.finishLoad loaded = (.error why, next)) : why = .sizeOverflow := by
  unfold finishLoad at h
  split at h
  · cases h
  · simp only at h
    split at h
    · cases h
    · exact (Store.merge_error (Prod.ext (Prod.mk.inj h).1 rfl)).1

/-- The end of a load keeps the rules. -/
theorem rules_finishLoad (c : Cache) (loaded : Option Store) :
    (c.finishLoad loaded).2.rules = c.rules := by
  unfold finishLoad
  split
  · rfl
  · simp only
    split <;> rfl

/-- A trim keeps the rules. -/
theorem rules_trim (c : Cache) : c.trim.2.rules = c.rules := by
  unfold trim
  split <;> rfl

/-- The end of a load keeps the store sound. -/
theorem sound_finishLoad (hs : c.store.Sound c.rules.estimator) {loaded : Option Store}
    {stored : Nat} {next : Cache} (h : c.finishLoad loaded = (.ok stored, next)) :
    next.store.Sound c.rules.estimator := by
  unfold finishLoad at h
  split at h
  · cases h
    exact hs
  · simp only at h
    split at h
    · cases h
      exact hs
    · obtain ⟨hanswer, rfl⟩ := Prod.mk.inj h
      exact hs.merge (Prod.ext hanswer rfl)

/-- In a sound cache the end of a load whose sizes fit answers, with entries or without, and so does
the trim behind it. -/
theorem trim_finishLoad_of_sound (hs : c.store.Sound c.rules.estimator) {loaded : Option Store}
    (hfits : abort? (c.finishLoad loaded).1 ≠ some .sizeOverflow) :
    ∃ stored next evicted, c.finishLoad loaded = (.ok stored, next) ∧ next.rules = c.rules ∧
      next.store.Sound c.rules.estimator ∧
      (next.store.eraseAll evicted).total ≤ c.rules.budget ∧
      next.trim = (.ok evicted.length,
        { next with
          store := next.store.eraseAll evicted
          counters := next.counters.evicted evicted.length }) := by
  have hrules := c.rules_finishLoad loaded
  cases hfinish : c.finishLoad loaded with
  | mk answer next =>
    rw [hfinish] at hfits hrules
    cases answer with
    | error why => exact absurd (congrArg some (finishLoad_error hfinish)) hfits
    | ok stored =>
      have hsound := sound_finishLoad hs hfinish
      have htrimmed : next.store.Sound next.rules.estimator := by rwa [hrules]
      obtain ⟨evicted, -, htotal, htrim⟩ := trim_of_sound htrimmed
      rw [hrules] at htotal
      exact ⟨stored, next, evicted, rfl, hrules, hsound, htotal, htrim⟩

end Cache

namespace Engine

variable {σ : Type} [BlobStore σ] {e₀ e : Engine σ}

omit [BlobStore σ] in
/-- The rules of a load do not depend on the workers. -/
@[simp] theorem loadRules_workers (e : Engine σ) (workers : Workers) :
    loadRules { e with workers } = e.loadRules := rfl

/-- If the sizes fit in a load, they fit while the blobs are read and when they are merged. -/
theorem load_fits_of_runLoad {now : Timestamp}
    (hfits : abort? (e.runLoad now).1 ≠ some .sizeOverflow) :
    (Gateway.load e.loadRules now .empty e.blobs).1 ≠ .abandoned .sizeOverflow ∧
      ∀ answer staged rest,
        Gateway.load e.loadRules now .empty e.blobs = (.done answer, staged, rest) →
        abort? (e.cache.finishLoad (some staged)).1 ≠ some .sizeOverflow := by
  unfold runLoad at hfits
  simp only [loadRules_workers] at hfits
  refine ⟨fun habandoned => ?_, fun answer staged rest hload habandoned => ?_⟩
  · simp only [habandoned] at hfits
    exact hfits rfl
  · simp only [hload] at hfits
    cases hfinish : e.cache.finishLoad (some staged) with
    | mk stored next =>
      rw [hfinish] at habandoned
      cases stored with
      | error why =>
        simp only [hfinish] at hfits
        exact hfits habandoned
      | ok stored => cases habandoned

/-- The memory after a load whose sizes fit. Either the load breaks down while it reads the blobs,
and nothing changes. Or it ends: the fence is taken down, what was loaded is merged if the load is
done, and the store is trimmed. -/
theorem cache_runLoad (hs : e.Sound) {now : Timestamp}
    (hfits : abort? (e.runLoad now).1 ≠ some .sizeOverflow) :
    (e.runLoad now).2.cache = e.cache ∨
      ∃ loaded stored next evicted, e.cache.finishLoad loaded = (.ok stored, next) ∧
        (∀ staged, loaded = some staged → ∃ answer blobs,
          Gateway.load e.loadRules now .empty e.blobs = (.done answer, staged, blobs)) ∧
        next.rules = e.cache.rules ∧ next.store.Sound e.cache.rules.estimator ∧
        (next.store.eraseAll evicted).total ≤ e.cache.rules.budget ∧
        (e.runLoad now).2.cache =
          { next with
            store := next.store.eraseAll evicted
            counters := next.counters.evicted evicted.length } := by
  obtain ⟨-, hfinishFits⟩ := load_fits_of_runLoad hfits
  unfold runLoad
  simp only [loadRules_workers]
  cases hload : Gateway.load e.loadRules now .empty e.blobs with
  | mk outcome rest =>
    obtain ⟨staged, blobs⟩ := rest
    cases outcome with
    | abandoned why => exact Or.inl rfl
    | failed err =>
      have hnone : abort? (e.cache.finishLoad none).1 ≠ some .sizeOverflow := fun h => by cases h
      obtain ⟨stored, next, evicted, hfinish, hrules, hsound, htotal, htrim⟩ :=
        Cache.trim_finishLoad_of_sound hs hnone
      refine Or.inr ⟨none, stored, next, evicted, hfinish, (fun _ h => by cases h), hrules, hsound,
        htotal, ?_⟩
      simp only [hfinish, htrim]
    | done answer =>
      obtain ⟨stored, next, evicted, hfinish, hrules, hsound, htotal, htrim⟩ :=
        Cache.trim_finishLoad_of_sound hs (hfinishFits answer staged blobs hload)
      refine Or.inr ⟨some staged, stored, next, evicted, hfinish, ?_, hrules, hsound, htotal, ?_⟩
      · rintro _ ⟨⟩
        exact ⟨answer, blobs, rfl⟩
      · simp only [hfinish, htrim]

/-- A load whose sizes fit keeps an engine sound. -/
theorem Sound.runLoad (hs : e.Sound) {now : Timestamp}
    (hfits : abort? (e.runLoad now).1 ≠ some .sizeOverflow) : (e.runLoad now).2.Sound := by
  unfold Sound
  rcases cache_runLoad hs hfits with
    hsame | ⟨_, _, next, evicted, -, -, hrules, hsound, -, hnext⟩
  · rw [hsame]
    exact hs
  · rw [hnext]
    show (next.store.eraseAll evicted).Sound next.rules.estimator
    rw [hrules]
    exact hsound.eraseAll evicted

/-- A run whose sizes fit goes on from an engine that is reached. -/
theorem Reaches.run (h : e₀.Reaches e) {calls : List Call} (hfits : e.Fits calls) :
    e₀.Reaches (e.run calls) := by
  induction calls generalizing e with
  | nil => exact h
  | cons call rest ih => exact ih (.call call h hfits.1) hfits.2

/-- Every engine that calls and the load make of a sound one is sound. -/
theorem Reaches.sound (h : e₀.Reaches e) (hs : e₀.Sound) : e.Sound := by
  induction h with
  | start => exact hs
  | call call _ hfits ih => exact ih.perform call hfits
  | load now _ _ hfits ih => exact ih.runLoad hfits

end Engine

end DurableCache
