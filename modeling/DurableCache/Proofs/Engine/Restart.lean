import DurableCache.Proofs.Engine.Blobs
import DurableCache.Proofs.Gateway.Durable
import DurableCache.Proofs.Load.Fence

/-!
# Restarts

A commit that is done after the load leaves the blob store with the blobs of exactly the fresh
entries, and durable. So an engine that is started over the reopened blob store loads exactly
those of them that are still fresh and within the retention.
-/

namespace DurableCache

open LawfulBlobs DurableBlobs

variable {σ : Type} [BlobStore σ] [LawfulBlobs σ] [DurableBlobs σ]

namespace Cache

/-- The end of a load into an empty memory stores everything that was loaded. -/
theorem finishLoad_empty {rules : CacheRules} {loaded : Store} {stored : Nat} {next : Cache}
    (h : (empty rules).beginLoad.finishLoad (some loaded) = (.ok stored, next)) :
    next.fence = none ∧ next.counters = .zero ∧
      ∀ key, next.store.find? key = loaded.find? key := by
  obtain ⟨hfence, -, hfind⟩ := finishLoad_deliveredKeys rfl h
  have hcounters : next.counters = .zero := by
    rw [finishLoad_some (f := Fence.fresh) rfl] at h
    obtain ⟨-, rfl⟩ := Prod.mk.inj h
    rfl
  refine ⟨hfence, hcounters, fun key => ?_⟩
  rw [hfind]
  by_cases hmem : key ∈ (empty rules).beginLoad.deliveredKeys Fence.fresh loaded
  · rw [if_pos hmem]
  · rw [if_neg hmem]
    cases hloaded : loaded.find? key with
    | none => rfl
    | some entry => exact absurd (mem_deliveredKeys.mpr ⟨rfl, rfl, entry, hloaded, rfl⟩) hmem

end Cache

namespace Engine

variable {e e₀ e₁ : Engine σ} {config : Config} {estimator : Estimator} {opened blobs : σ}
variable {saved loaded : Timestamp} {report : CommitReport}

omit [LawfulBlobs σ] [DurableBlobs σ] in
/-- A load that is done and whose entries fit is merged and trimmed. -/
theorem runLoad_done {now : Timestamp} {answer : LoadReport} {staged : Store} {rest : σ}
    {stored : Nat} {next : Cache}
    (hload : Gateway.load e.loadRules now .empty e.blobs = (.done answer, staged, rest))
    (hfinish : e.cache.finishLoad (some staged) = (.ok stored, next))
    (htrim : next.store.total ≤ next.rules.budget) :
    e.runLoad now = (.ok (),
      { e with
        workers := { e.workers with loading := false }
        blobs := rest
        cache := next
        ready := true }) := by
  have hnothing : next.trim = (.ok 0, next) := by
    rw [Cache.trim, Store.trim_of_le htrim]
    simp
  unfold runLoad
  simp only [loadRules_workers, hload, hfinish, hnothing]

/-- A commit that is done leaves the memory within the budget and durable the blobs of its fresh
entries. -/
theorem commit_done (hs : e.Sound) (hopened : Opened e.blobs) (hloaded : e.cache.isLoading = false)
    (h : e.commit saved = (.done report, e₁)) :
    e₁.Sound ∧ e₁.cache.rules = e.cache.rules ∧
      e₁.cache.store.total ≤ e.cache.rules.budget ∧ Opened e₁.blobs ∧ Saved e₁.blobs ∧
      (∀ key, (contents e₁.blobs).find? key =
        Gateway.freshBlob? e.cache.rules.defaultTtl saved (e₁.cache.store.find? key)) ∧
      (Proven e₁.blobs ∨ ∀ key, (contents e₁.blobs).find? key = none) := by
  obtain ⟨evicted, htrim, htotal⟩ := Store.Sound.trim hs e.cache.rules.budget
  unfold commit at h
  rw [hloaded] at h
  obtain ⟨hanswer, rfl⟩ := Prod.mk.inj h
  obtain ⟨hstore, hopen, hsaved, hlookup, hproven⟩ :=
    Gateway.commit_done htrim hopened (Prod.ext hanswer rfl)
  have hsound : (e.cache.store.eraseAll evicted).Sound e.cache.rules.estimator :=
    Store.Sound.eraseAll hs evicted
  rw [← hstore] at hsound htotal hlookup
  exact ⟨hsound, rfl, htotal, hopen, hsaved, hlookup, hproven⟩

/-- An entry whose blob a commit has written and a load keeps: it was held and fresh at the commit,
and at the load its age is within the retention. -/
structure Persists (defaultTtl : Option UInt64) (retentionDays : Nat) (held : Store)
    (saved loaded : Timestamp) (key : String) (entry : Entry) : Prop where
  held : held.find? key = some entry
  fresh : entry.isStale defaultTtl saved = false
  within : entry.age loaded ≤ retentionDays * Gateway.dayLength

/-- A load over the blobs of a commit that was done brings the entries back that persist and are
still fresh, evicts nothing, and keeps the blobs of the entries that persist. -/
theorem runLoad_restores {rules : CacheRules} {held : Store}
    (hcache : e.cache = (Cache.empty rules).beginLoad) (hheld : held.Sound rules.estimator)
    (htotal : held.total ≤ rules.budget)
    (hblobs : ∀ key, (contents e.blobs).find? key =
      Gateway.freshBlob? rules.defaultTtl saved (held.find? key))
    (hproven : Proven e.blobs ∨ ∀ key, (contents e.blobs).find? key = none)
    (hclock : loaded ≤ latestTime)
    (hfits : abort? (e.runLoad loaded).1 ≠ some .sizeOverflow) :
    ∃ e₂, e.runLoad loaded = (.ok (), e₂) ∧ e₂.ready = true ∧ e₂.cache.isLoading = false ∧
      e₂.cache.counters.evictions = 0 ∧
      (∀ key entry, e₂.cache.store.find? key = some entry ↔
        Persists rules.defaultTtl e.retentionDays held saved loaded key entry ∧
          entry.isStale rules.defaultTtl loaded = false) ∧
      ∀ key blob, (contents e₂.blobs).find? key = some blob ↔
        ∃ entry, Persists rules.defaultTtl e.retentionDays held saved loaded key entry ∧
          entry.toBlob = blob := by
  obtain ⟨hloadFits, hfinishFits⟩ := load_fits_of_runLoad hfits
  obtain ⟨answer, staged, rest, hload, hstaged, hrest⟩ :=
    Gateway.load_proven hclock hproven hloadFits
  have hfinish := hfinishFits answer staged rest hload
  rw [hcache] at hfinish
  cases hnext : (Cache.empty rules).beginLoad.finishLoad (some staged) with
  | mk outcome next =>
    cases outcome with
    | error why =>
      rw [hnext] at hfinish
      exact absurd (congrArg some (Cache.finishLoad_error hnext)) hfinish
    | ok stored =>
      obtain ⟨hfence, hcounters, hmerged⟩ := Cache.finishLoad_empty hnext
      have hrules : next.rules = rules := by
        have hkept := Cache.rules_finishLoad (Cache.empty rules).beginLoad (some staged)
        rwa [hnext] at hkept
      have hloadRules : e.loadRules = ⟨.standard, rules.defaultTtl, e.retentionDays⟩ := by
        rw [loadRules, hcache]
        rfl
      have hrestored (key : String) (entry : Entry) :
          next.store.find? key = some entry ↔
            Persists rules.defaultTtl e.retentionDays held saved loaded key entry ∧
              entry.isStale rules.defaultTtl loaded = false := by
        rw [hmerged, hstaged, hblobs, hloadRules, Gateway.loadedFrom?_freshBlob?,
          Gateway.outlived_eq_false_iff]
        constructor
        · rintro ⟨hfind, hfresh, hwithin, hstill⟩
          exact ⟨⟨hfind, hfresh, hwithin⟩, hstill⟩
        · rintro ⟨⟨hfind, hfresh, hwithin⟩, hstill⟩
          exact ⟨hfind, hfresh, hwithin, hstill⟩
      have hsound : next.store.Sound rules.estimator :=
        Cache.sound_finishLoad Store.sound_empty hnext
      -- What is restored is a part of what fitted into the memory before.
      have hwithin : next.store.total ≤ next.rules.budget := by
        rw [hrules]
        refine Nat.le_trans (hheld.total_le hsound fun key entry hfind => ?_) htotal
        exact ((hrestored key entry).mp hfind).1.held
      rw [← hcache] at hnext
      refine ⟨_, runLoad_done hload hnext hwithin, rfl, ?_, ?_, hrestored, fun key blob => ?_⟩
      · rw [Cache.isLoading, hfence]
        rfl
      · rw [hcounters]
        rfl
      · rw [hrest, hblobs, Option.filter_eq_some_iff, Gateway.freshBlob?_eq_some_iff, hloadRules,
          Bool.not_eq_true']
        constructor
        · rintro ⟨⟨entry, hfind, hfresh, rfl⟩, hkept⟩
          rw [Gateway.expires_toBlob, Gateway.outlived_eq_false_iff] at hkept
          exact ⟨entry, ⟨hfind, hfresh, hkept⟩, rfl⟩
        · rintro ⟨entry, hpersists, rfl⟩
          rw [Gateway.expires_toBlob, Gateway.outlived_eq_false_iff]
          exact ⟨⟨entry, hpersists.held, hpersists.fresh, rfl⟩, hpersists.within⟩

/-- A commit that is done after the load, and a start over the reopened blobs with the same
settings: the new load ends, it restores exactly the entries that were held after the commit, were
fresh then, are fresh now and are within the retention, it evicts nothing, and no blobs are left
but those that the commit has written and the retention allows. -/
theorem restart_restores (hopen : reopen opened = .ok blobs)
    (hstart : start config estimator blobs = .ok e₀) (hreach : e₀.Reaches e)
    (hloaded : e.cache.isLoading = false) (hcommit : e.commit saved = (.done report, e₁))
    (hclock : loaded ≤ latestTime) :
    ∃ restarted, reopen e₁.blobs = .ok e₁.blobs ∧
      start config estimator e₁.blobs = .ok restarted ∧
      (abort? (restarted.runLoad loaded).1 ≠ some .sizeOverflow →
        ∃ e₂, restarted.runLoad loaded = (.ok (), e₂) ∧ e₂.ready = true ∧
          e₂.cache.isLoading = false ∧ e₂.cache.counters.evictions = 0 ∧
          (∀ key entry, e₂.cache.store.find? key = some entry ↔
            Persists config.defaultTtl config.retentionDays e₁.cache.store saved loaded key entry ∧
              entry.isStale config.defaultTtl loaded = false) ∧
          ∀ key blob, (contents e₂.blobs).find? key = some blob ↔
            ∃ entry, Persists config.defaultTtl config.retentionDays e₁.cache.store saved loaded
              key entry ∧ entry.toBlob = blob) := by
  obtain ⟨hcache, hblobs, hretention, hagain⟩ := start_ok hstart
  have hopened : Opened e.blobs := by
    refine hreach.kept kept_opened (fun _ => opened_flush) ?_
    rw [hblobs]
    exact opened_of_reopen hopen
  have hsound : e.Sound := hreach.sound (sound_start hstart)
  obtain ⟨hsound₁, hrules₁, htotal, hopened₁, hsaved₁, hlookup, hproven⟩ :=
    commit_done hsound hopened hloaded hcommit
  have hrules : e.cache.rules = ⟨estimator, config.defaultTtl, config.maxMemoryBytes⟩ := by
    rw [hreach.rules (sound_start hstart), hcache]
    rfl
  rw [Sound, hrules₁, hrules] at hsound₁
  rw [hrules] at htotal hlookup
  refine ⟨{ e₀ with blobs := e₁.blobs }, reopen_of_saved hopened₁ hsaved₁, hagain e₁.blobs,
    fun hfits => ?_⟩
  rw [← hretention]
  exact runLoad_restores (e := { e₀ with blobs := e₁.blobs }) hcache hsound₁ htotal hlookup hproven
    hclock hfits

/-- A folder that has been made, and no blob file in it. -/
def noFile : FileBlobs where
  directory := (Directory.empty.makePath "data").2
  folder := "data"
  namespaceName := "cache"
  blobs := ∅
  dirty := false

/-- An engine over it. -/
def overFile : Engine FileBlobs := { standard with blobs := noFile }

/-- The engine when it has ended its load and written two entries. -/
def filled : Engine FileBlobs :=
  (overFile.runLoad 0).2.run [.put 1 "a" "kept" none, .put 1 "b" "short" (some 9)]

/-- An engine over a blob file that restores one of two entries, as the other has grown stale. -/
theorem restart_restores_file :
    ∃ (report : CommitReport) (e₁ restarted e₂ : Engine FileBlobs), overFile.Reaches filled ∧
      filled.commit 9 = (.done report, e₁) ∧ reopen e₁.blobs = .ok e₁.blobs ∧
      start .standard .standard e₁.blobs = .ok restarted ∧ restarted.runLoad 12 = (.ok (), e₂) ∧
      e₂.cache.store.find? "a" = some ⟨"kept", 1, none⟩ ∧ e₂.cache.store.find? "b" = none := by
  have hopen : reopen noFile = .ok noFile := rfl
  have hstart (blobs : FileBlobs) :
      start .standard .standard blobs = .ok { standard with blobs := blobs } := rfl
  have hreach : overFile.Reaches filled :=
    .call (.put 1 "b" "short" (some 9))
      (.call (.put 1 "a" "kept" none) (.load 0 .start rfl (by decide)) (by decide)) (by decide)
  have hcommit : filled.commit 9 = (.done ⟨2, 0, 0, 0, 0⟩, (filled.commit 9).2) :=
    Prod.ext (by decide) rfl
  obtain ⟨restarted, hreopen, hrestart, hload⟩ :=
    restart_restores hopen (hstart noFile) hreach (by decide) hcommit
      (by decide : (12 : Timestamp) ≤ latestTime)
  obtain rfl := Except.ok.inj ((hstart _).symm.trans hrestart)
  obtain ⟨e₂, hload, -, -, -, hrestored, -⟩ := hload (by decide)
  refine ⟨_, _, _, e₂, hreach, hcommit, hreopen, hrestart, hload, ?_, ?_⟩
  · exact (hrestored "a" _).mpr ⟨⟨by decide, by decide, by decide⟩, by decide⟩
  · have hheld : (filled.commit 9).2.cache.store.find? "b" = some ⟨"short", 1, some 9⟩ := by
      decide
    refine Option.eq_none_iff_forall_ne_some.mpr fun entry hentry => ?_
    obtain ⟨hpersists, hfresh⟩ := (hrestored "b" entry).mp hentry
    have hentry := hpersists.held
    rw [hheld] at hentry
    cases hentry
    revert hfresh
    decide

end Engine

end DurableCache
