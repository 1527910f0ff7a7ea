import DurableCache.Proofs.Engine.Blobs

/-!
# The budget of the memory

Every call that writes is followed by a trim, and so is the end of a load. So in every engine that
is reached the sum that the store keeps is within the budget, and it is the sum that a recount
comes to (`stats_of_reaches`). The trim of a commit then has nothing left to evict.
-/

namespace DurableCache

/-- A change keeps a store within the budget. -/
theorem Change.Turns.total_le {rules : CacheRules} {change : Change} {s next : Store}
    (h : change.Turns rules s next) (hs : s.total ≤ rules.budget) : next.total ≤ rules.budget := by
  cases h with
  | keep => exact hs
  | write _ _ htotal => exact htotal
  | remove => exact Nat.le_trans (s.total_erase_le _) hs
  | clear => exact Nat.zero_le _
  | purge => exact Nat.le_trans (s.total_eraseAll_le _) hs
  | trim _ htotal => exact htotal

namespace Engine

variable {σ : Type} [BlobStore σ] {e e₀ : Engine σ}

/-- A load whose sizes fit keeps a sound engine within the budget. -/
theorem total_runLoad (hs : e.Sound) {now : Timestamp}
    (hfits : abort? (e.runLoad now).1 ≠ some .sizeOverflow)
    (hwithin : e.cache.store.total ≤ e.cache.rules.budget) :
    (e.runLoad now).2.cache.store.total ≤ (e.runLoad now).2.cache.rules.budget := by
  rcases cache_runLoad hs hfits with
    hsame | ⟨_, _, next, evicted, -, -, hrules, -, htotal, hnext⟩
  · rw [hsame]
    exact hwithin
  · rw [hnext]
    show (next.store.eraseAll evicted).total ≤ next.rules.budget
    rw [hrules]
    exact htotal

/-- Every engine that calls and the load make of a sound one within the budget is within it. -/
theorem Reaches.total_le (h : e₀.Reaches e) (hs : e₀.Sound)
    (hwithin : e₀.cache.store.total ≤ e₀.cache.rules.budget) :
    e.cache.store.total ≤ e.cache.rules.budget := by
  induction h with
  | start => exact hwithin
  | call call hreach hfits ih =>
    have hturns := turns_perform (hreach.sound hs) call hfits
    rw [hturns.rules]
    exact hturns.store.total_le ih
  | load now hreach _ hfits ih => exact total_runLoad (hreach.sound hs) hfits ih

/-- A commit of an engine within the budget leaves the memory and its counters as they are, and
reports no evicted entry. -/
theorem commit_of_total_le (hwithin : e.cache.store.total ≤ e.cache.rules.budget)
    (now : Timestamp) : (e.commit now).2.cache = e.cache ∧
      ∀ report, (e.commit now).1 = .done report → report.evicted = 0 := by
  simp only [commit, Gateway.commit, Store.trim_of_le hwithin, List.length_nil]
  cases hsave : Gateway.save e.cache.rules.defaultTtl now (!e.cache.isLoading)
    e.cache.store.entries.rows ⟨0, 0, 0, 0, 0⟩ e.blobs with
  | mk outcome blobs =>
    cases outcome with
    | done answer =>
      have hnone : answer.evicted = 0 := Gateway.evicted_save hsave
      constructor
      · simp only [hnone, Counters.evicted_zero]
      · rintro report ⟨⟩
        exact hnone
    | failed err => exact ⟨rfl, fun report h => by cases h⟩
    | abandoned why => exact ⟨rfl, fun report h => by cases h⟩

/-- In a sound engine within its budget the bytes that the statistics show are the sum of the
estimates of the entries in memory, and the entries that they show are those in memory. So the trim
of a commit changes nothing. -/
theorem Sound.stats {rules : CacheRules} (hs : e.Sound) (hrules : e.cache.rules = rules)
    (hwithin : e.cache.store.total ≤ rules.budget) :
    e.cache.store.recount? rules.estimator = some e.cache.stats.estimatedBytes ∧
      e.cache.stats.estimatedBytes ≤ rules.budget ∧
      e.cache.stats.totalEntries = e.cache.store.entries.keys.length ∧
      ∀ now, (e.commit now).2.cache = e.cache ∧
        ∀ report, (e.commit now).1 = .done report → report.evicted = 0 := by
  subst hrules
  have hsound : e.cache.store.Sound e.cache.rules.estimator := hs
  refine ⟨hsound.recount, hwithin, ?_, commit_of_total_le hwithin⟩
  simp [Cache.stats, Store.size, Table.size, Table.keys, Store.entries, Table.mapValues]

/-- In every engine that calls and the load make of a started one, as long as all sizes fit, the
bytes that the statistics show are the sum of the estimates of the entries in memory and within the
budget, and the entries that they show are those in memory. So the trim of a commit changes
nothing. -/
theorem stats_of_reaches {config : Config} {estimator : Estimator} {blobs : σ}
    (hstart : start config estimator blobs = .ok e₀) (hreach : e₀.Reaches e) :
    e.cache.store.recount? estimator = some e.cache.stats.estimatedBytes ∧
      e.cache.stats.estimatedBytes ≤ config.maxMemoryBytes ∧
      e.cache.stats.totalEntries = e.cache.store.entries.keys.length ∧
      ∀ now, (e.commit now).2.cache = e.cache ∧
        ∀ report, (e.commit now).1 = .done report → report.evicted = 0 := by
  have hcache := (start_ok hstart).1
  have hs := sound_start hstart
  have hrules : e.cache.rules = ⟨estimator, config.defaultTtl, config.maxMemoryBytes⟩ := by
    rw [hreach.rules hs, hcache]
    rfl
  have htotal := hreach.total_le hs (by rw [hcache]; exact Nat.zero_le _)
  rw [hrules] at htotal
  exact (hreach.sound hs).stats hrules htotal

/-- An engine with room for two entries, over blobs that hold one entry and cannot be flushed. -/
def cramped : Engine (Watched MemoryBlobs) where
  cache := (Cache.empty ⟨.flat 1, none, 2⟩).beginLoad
  blobs :=
    .start ⟨Table.insert ∅ "c" (Entry.mk "disk" 4 none).toBlob⟩
      { Faults.none with flush := some .refuse }
  retentionDays := Config.standard.retentionDays
  ready := false
  workers := ⟨10, true, [], []⟩

/-- The engine after two writes and a commit that fails. -/
def committed : Engine (Watched MemoryBlobs) :=
  cramped.run [.put 1 "a" "x" none, .put 2 "b" "y" none, .commit 3]

/-- The engine after the load and a third write. -/
def squeezed : Engine (Watched MemoryBlobs) :=
  (committed.runLoad 5).2.run [.put 6 "d" "z" none]

/-- The load and the third write have each evicted the oldest entry, and a commit evicts none. -/
theorem stats_of_reaches_squeezed :
    cramped.Reaches squeezed ∧ squeezed.cache.store.entries.keys = ["c", "d"] ∧
      squeezed.cache.store.recount? (.flat 1) = some squeezed.cache.stats.estimatedBytes ∧
      squeezed.cache.stats.estimatedBytes ≤ 2 ∧ squeezed.cache.stats.counters.evictions = 2 ∧
      (squeezed.commit 7).2.cache = squeezed.cache := by
  have hstart : start { Config.standard with maxMemoryBytes := 2 } (.flat 1) cramped.blobs =
      .ok cramped := rfl
  have hcommitted : cramped.Reaches committed :=
    .call (.commit 3) (.call (.put 2 "b" "y" none)
      (.call (.put 1 "a" "x" none) .start (by decide)) (by decide)) (by decide +kernel)
  have hsqueezed : abort? (committed.runLoad 5).1 ≠ some .sizeOverflow ∧
      ((committed.runLoad 5).2.perform (.put 6 "d" "z" none)).1 ≠ some .sizeOverflow ∧
      squeezed.cache.store.entries.keys = ["c", "d"] ∧
      squeezed.cache.stats.counters.evictions = 2 := by decide +kernel
  obtain ⟨hload, hput, hkeys, hevictions⟩ := hsqueezed
  have hreach : cramped.Reaches squeezed :=
    .call (.put 6 "d" "z" none) (.load 5 hcommitted rfl hload) hput
  obtain ⟨hrecount, hwithin, -, hcommit⟩ := stats_of_reaches hstart hreach
  exact ⟨hreach, hkeys, hrecount, hwithin, hevictions, (hcommit 7).1⟩

end Engine

end DurableCache
