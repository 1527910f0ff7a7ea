import DurableCache.Proofs.Engine.Absence
import DurableCache.Proofs.Json.RoundTrip

/-!
# Runs after a load that fails

A load that fails leaves the blobs that it has not brought in, and yet the load counts as ended.
So the next commit prunes them: such a blob outlasts a run exactly if each of its commits meets a
fault that keeps the blob from being listed or deleted.
-/

namespace DurableCache.Engine

open LawfulBlobs

variable {σ : Type} [BlobStore σ] [LawfulBlobs σ]
variable {e e₀ : Engine (Watched σ)} {key : String} {call : Call}
variable {before after events : List (Faults × Call)}

/-! ### Runs with faults -/

/-- The engine when other calls on its blobs have faults. -/
def under (e : Engine (Watched σ)) (faults : Faults) : Engine (Watched σ) :=
  { e with blobs := { e.blobs with faults } }

/-- The engine after a list of calls, each made under its own faults. -/
def runUnder (e : Engine (Watched σ)) : List (Faults × Call) → Engine (Watched σ)
  | [] => e
  | (faults, call) :: rest => ((e.under faults).perform call).2.runUnder rest

/-- Every call of a run meets a condition when it is made. -/
def Along (P : Engine (Watched σ) → Call → Prop) (e : Engine (Watched σ)) :
    List (Faults × Call) → Prop
  | [] => True
  | (faults, call) :: rest =>
    P (e.under faults) call ∧ ((e.under faults).perform call).2.Along P rest

/-- A call that does not write a key: its sizes fit, and it answers if it is a commit. -/
structure Quiet (key : String) (e : Engine (Watched σ)) (call : Call) : Prop where
  fits : (e.perform call).1 ≠ some .sizeOverflow
  answers : ∀ now, call = .commit now → (e.perform call).1 = none
  unwritten : (e.cache.change call).written? key = none

/-- A call spares the blob of a key that is not in memory unless it is a commit that prunes it. -/
def Spares (key : String) (e : Engine (Watched σ)) : Call → Prop
  | .commit _ => ¬ Gateway.Prunes e.blobs key
  | _ => True

omit [LawfulBlobs σ] in
/-- A call that does not write a key leaves the memory without it. -/
theorem Quiet.lacks (hquiet : Quiet key e call) (h : e.Lacks key) : (e.perform call).2.Lacks key :=
  h.perform hquiet.fits hquiet.unwritten

omit [LawfulBlobs σ] in
/-- A commit that does not write a key is not abandoned. -/
theorem Quiet.answered {now : Timestamp} (hquiet : Quiet key e (.commit now)) (why : Abort) :
    (e.commit now).1 ≠ .abandoned why := by
  intro habandoned
  have hsome : (e.perform (.commit now)).1 = some why := by
    show (e.commit now).1.abort? = some why
    rw [habandoned]
    rfl
  rw [hquiet.answers now rfl] at hsome
  cases hsome

/-- While the load runs, no call deletes the blob of a key that is not in memory. Afterwards a call
that spares it does not. -/
theorem find?_blobs_perform (h : e.Lacks key) (hquiet : Quiet key e call)
    (hspares : e.cache.isLoading = true ∨ Spares key e call) :
    (contents (e.perform call).2.blobs).find? key = (contents e.blobs).find? key := by
  by_cases hcommit : ∃ now, call = .commit now
  · obtain ⟨now, rfl⟩ := hcommit
    refine (find?_blobs_commit h hquiet.answered).trans (if_neg ?_)
    rintro ⟨hloaded, hprunes⟩
    rcases hspares with hloading | hspares
    · rw [hloading] at hloaded
      cases hloaded
    · exact hspares hprunes
  · rw [blobs_perform e fun now hcall => hcommit ⟨now, hcall⟩]

/-- After the load a call that does not spare a blob deletes it. -/
theorem find?_blobs_perform_of_not_spares (h : e.Lacks key) (hquiet : Quiet key e call)
    (hloaded : e.cache.isLoading = false) (hspares : ¬ Spares key e call) :
    (contents (e.perform call).2.blobs).find? key = none := by
  cases call with
  | commit now =>
    have hprunes : Gateway.Prunes e.blobs key := by simpa [Spares] using hspares
    exact (find?_blobs_commit h hquiet.answered).trans (if_pos ⟨hloaded, hprunes⟩)
  | _ => exact absurd trivial hspares

/-- While the load runs, a run that does not write a key leaves its blob, and the memory without
it. -/
theorem runUnder_of_loading (h : e.Lacks key) (hloading : e.cache.isLoading = true)
    (hquiet : e.Along (Quiet key) events) :
    (e.runUnder events).Lacks key ∧ (e.runUnder events).retentionDays = e.retentionDays ∧
      (contents (e.runUnder events).blobs).find? key = (contents e.blobs).find? key := by
  induction events generalizing e with
  | nil => exact ⟨h, rfl, rfl⟩
  | cons event rest ih =>
    obtain ⟨faults, call⟩ := event
    obtain ⟨hcall, hrest⟩ := hquiet
    have hunder : (e.under faults).Lacks key := ⟨h.sound, h.absent⟩
    have hstill := isLoading_perform hunder.sound hcall.fits
    obtain ⟨hlacks, hretention, hblob⟩ := ih (hcall.lacks hunder) (hstill.trans hloading) hrest
    refine ⟨hlacks, hretention.trans (retentionDays_perform _ call), hblob.trans ?_⟩
    exact find?_blobs_perform hunder hcall (Or.inl hloading)

/-- After the load the blob of a key that is not in memory outlasts a run that does not write the
key exactly if every call of the run spares it. -/
theorem runUnder_of_loaded (h : e.Lacks key) (hloaded : e.cache.isLoading = false)
    (hquiet : e.Along (Quiet key) events) :
    (e.Along (Spares key) events →
      (contents (e.runUnder events).blobs).find? key = (contents e.blobs).find? key) ∧
    (¬ e.Along (Spares key) events ∨ (contents e.blobs).find? key = none →
      (contents (e.runUnder events).blobs).find? key = none) := by
  induction events generalizing e with
  | nil =>
    refine ⟨fun _ => rfl, ?_⟩
    rintro (hnot | hnone)
    · exact absurd trivial hnot
    · exact hnone
  | cons event rest ih =>
    obtain ⟨faults, call⟩ := event
    obtain ⟨hcall, hrest⟩ := hquiet
    have hunder : (e.under faults).Lacks key := ⟨h.sound, h.absent⟩
    have hstill := isLoading_perform hunder.sound hcall.fits
    obtain ⟨hspared, hlost⟩ := ih (hcall.lacks hunder) (hstill.trans hloaded) hrest
    constructor
    · rintro ⟨hfirst, hlater⟩
      exact (hspared hlater).trans (find?_blobs_perform hunder hcall (Or.inr hfirst))
    · intro hcase
      apply hlost
      by_cases hfirst : Spares key (e.under faults) call
      · rcases hcase with hnot | hnone
        · exact Or.inl fun hlater => hnot ⟨hfirst, hlater⟩
        · exact Or.inr ((find?_blobs_perform hunder hcall (Or.inr hfirst)).trans hnone)
      · exact Or.inr (find?_blobs_perform_of_not_spares hunder hcall hloaded hfirst)

/-! ### Loads that fail -/

variable {config : Config} {estimator : Estimator} {blobs : Watched σ} {blob : String}
variable {entry : Entry} {err : CacheError} {now : Timestamp}

/-- A load that fails has ended all the same. It brings in nothing and keeps the blobs that are
within the retention. -/
theorem runLoad_failed (h : e.Lacks key)
    (hfailed : (Gateway.load e.loadRules now .empty e.blobs).1 = .failed err)
    (hblob : (contents e.blobs).find? key = some blob)
    (hwithin : Gateway.expires e.loadRules now blob = false) :
    (e.runLoad now).1 = .ok () ∧ (e.runLoad now).2.cache.isLoading = false ∧
      (e.runLoad now).2.Lacks key ∧
      (contents (e.runLoad now).2.blobs).find? key = some blob := by
  have hempty (key : String) : Store.empty.find? key = none := rfl
  have hkept := Gateway.load_failed (Prod.ext hfailed rfl) hempty hblob hwithin
  rw [← blobs_runLoad] at hkept
  obtain ⟨evicted, -, -, htrim⟩ :=
    Cache.trim_of_sound (c := { e.cache with fence := none }) h.sound
  have hload : (e.runLoad now).1 = .ok () ∧
      (e.runLoad now).2.cache.fence = none ∧
      (e.runLoad now).2.cache.store = e.cache.store.eraseAll evicted := by
    unfold runLoad
    simp only [loadRules_workers, hfailed, Cache.finishLoad, htrim, and_self]
  obtain ⟨hanswer, hfence, hstore⟩ := hload
  refine ⟨hanswer, ?_, ⟨?_, ?_⟩, hkept⟩
  · rw [Cache.isLoading, hfence]
    rfl
  · apply h.sound.runLoad
    rw [hanswer]
    exact fun hsome => by cases hsome
  · rw [hstore, Store.find?_eraseAll, h.absent, ite_self]

/-- A load fails, for whatever reason, and the blob of a key that no call writes holds an entry
within the retention: the load counts as ended, and after any later calls the entry is still in the
blobs exactly if each commit among them met a fault that kept it there. -/
theorem runLoad_failed_keeps_iff (hstart : start config estimator blobs = .ok e₀)
    (hblob : (contents blobs).find? key = some blob) (hentry : Entry.ofBlob? blob = .ok entry)
    (hbefore : e₀.Along (Quiet key) before) (he : e₀.runUnder before = e)
    (hfailed : (Gateway.load e.loadRules now .empty e.blobs).1 = .failed err)
    (hwithin : entry.age now ≤ config.retentionDays * Gateway.dayLength)
    (hafter : (e.runLoad now).2.Along (Quiet key) after) :
    (e.runLoad now).1 = .ok () ∧ (e.runLoad now).2.cache.isLoading = false ∧
      ((∃ text, (contents ((e.runLoad now).2.runUnder after).blobs).find? key = some text ∧
          Entry.ofBlob? text = .ok entry) ↔
        (e.runLoad now).2.Along (Spares key) after) := by
  obtain ⟨hcache, hblobs, hretention, -⟩ := start_ok hstart
  have hlacks₀ : e₀.Lacks key := ⟨sound_start hstart, by rw [hcache]; rfl⟩
  have hloading : e₀.cache.isLoading = true := by rw [hcache]; rfl
  obtain ⟨hlacks, hdays, hkept⟩ := runUnder_of_loading hlacks₀ hloading hbefore
  rw [he] at hlacks hdays hkept
  rw [hblobs, hblob] at hkept
  have hexpires : Gateway.expires e.loadRules now blob = false := by
    rw [Gateway.expires, hentry]
    apply Gateway.outlived_eq_false_iff.mpr
    rw [loadRules, hdays, hretention]
    exact hwithin
  obtain ⟨hanswer, hloaded, hlacks₁, hkept₁⟩ := runLoad_failed hlacks hfailed hkept hexpires
  obtain ⟨hspared, hlost⟩ := runUnder_of_loaded hlacks₁ hloaded hafter
  refine ⟨hanswer, hloaded, ?_, ?_⟩
  · rintro ⟨text, htext, -⟩
    by_cases hspares : (e.runLoad now).2.Along (Spares key) after
    · exact hspares
    · rw [hlost (Or.inl hspares)] at htext
      cases htext
  · intro hspares
    exact ⟨blob, (hspared hspares).trans hkept₁, hentry⟩

/-- The standard engine over blobs. -/
def watching (blobs : Watched MemoryBlobs) : Engine (Watched MemoryBlobs) :=
  { standard with blobs }

/-- An entry that was persisted before. -/
def persisted : Entry := ⟨"disk", 4, none⟩

/-- Blobs that cannot be listed, one of which holds that entry. -/
def unlisted : Watched MemoryBlobs :=
  .start ⟨Table.insert ∅ "a" persisted.toBlob⟩ { Faults.none with getAll := some .refuse }

/-- The entry is kept in a commit that cannot list the blobs either. -/
theorem runLoad_failed_keeps_unlisted :
    ((watching unlisted).runLoad 5).2.cache.isLoading = false ∧
      ∃ text, (contents (((watching unlisted).runLoad 5).2.runUnder
        [(unlisted.faults, .commit 6)]).blobs).find? "a" = some text ∧
          Entry.ofBlob? text = .ok persisted := by
  have hstart : start .standard .standard unlisted = .ok (watching unlisted) := rfl
  have hquiet : ((watching unlisted).runLoad 5).2.Along (Quiet "a")
      [(unlisted.faults, .commit 6)] := ⟨⟨by decide, fun _ _ => by decide, by decide⟩, trivial⟩
  have hnothing : (watching unlisted).Along (Quiet "a") [] := trivial
  obtain ⟨-, hloaded, hiff⟩ := runLoad_failed_keeps_iff hstart rfl
    (Entry.ofBlob?_toBlob persisted) hnothing rfl rfl (by decide) hquiet
  refine ⟨hloaded, hiff.mpr ⟨?_, trivial⟩⟩
  rintro ⟨hlist, -⟩
  cases hlist

/-- The entry is lost in a commit after the fault. -/
theorem runLoad_failed_loses_unlisted :
    ¬ ∀ (blobs : Watched MemoryBlobs) (key blob : String) (entry : Entry) (err : CacheError)
      (now later : Timestamp) (events : List (Faults × Call)) (faults : Faults),
      (contents blobs).find? key = some blob → Entry.ofBlob? blob = .ok entry →
      (Gateway.load (watching blobs).loadRules now .empty blobs).1 = .failed err →
      entry.age now ≤ Config.standard.retentionDays * Gateway.dayLength →
      ((watching blobs).runLoad now).2.Along (Quiet key) (events ++ [(faults, .commit later)]) →
      (∀ event ∈ events, event.2 ≠ .clear ∧ event.2 ≠ .invalidate key) →
      entry.isStale none later = false →
      ∃ text, (contents (((watching blobs).runLoad now).2.runUnder
        (events ++ [(faults, .commit later)])).blobs).find? key = some text ∧
          Entry.ofBlob? text = .ok entry := by
  intro hkept
  have hquiet : ((watching unlisted).runLoad 5).2.Along (Quiet "a") [(.none, .commit 6)] :=
    ⟨⟨by decide, fun _ _ => by decide, by decide⟩, trivial⟩
  obtain ⟨text, htext, -⟩ := hkept unlisted "a" persisted.toBlob persisted _ 5 6 [] .none rfl
    (Entry.ofBlob?_toBlob persisted) rfl (by decide) hquiet (by simp) (by decide)
  have hlost : (contents (((watching unlisted).runLoad 5).2.runUnder
      [(.none, .commit 6)]).blobs).find? "a" = none := by decide
  have hnever := hlost.symm.trans htext
  cases hnever

end DurableCache.Engine
