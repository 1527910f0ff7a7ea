import DurableCache.Proofs.Engine.Reach
import DurableCache.Proofs.Gateway.Commit
import DurableCache.Proofs.Gateway.Load

/-!
# What calls do to the blobs

Only a commit and the load touch the blobs of an engine. So what every call on a blob store
keeps holds in every engine that is reached from a started one.
-/

namespace DurableCache.Engine

variable {σ : Type} [BlobStore σ] {P : σ → Prop} {e e₀ : Engine σ}

/-- A call changes nothing but the memory and, if it is a commit, the blobs. -/
theorem perform_snd (e : Engine σ) (call : Call) :
    ∃ cache blobs, (e.perform call).2 = { e with cache, blobs } ∧
      ((∀ now, call ≠ .commit now) → blobs = e.blobs) := by
  cases call with
  | commit now => exact ⟨_, _, rfl, fun h => absurd rfl (h now)⟩
  | putJson now key value timeToLive =>
    cases value with
    | error reason => exact ⟨_, _, rfl, fun _ => rfl⟩
    | ok value =>
      simp only [perform, putJson, put, onCache]
      cases e.cache.write now key value.render timeToLive with
      | mk answer written => cases answer <;> exact ⟨_, _, rfl, fun _ => rfl⟩
  | _ => exact ⟨_, _, rfl, fun _ => rfl⟩

/-- A call that is no commit leaves the blobs alone. -/
theorem blobs_perform (e : Engine σ) {call : Call} (h : ∀ now, call ≠ .commit now) :
    (e.perform call).2.blobs = e.blobs := by
  obtain ⟨_, blobs, hnext, hblobs⟩ := e.perform_snd call
  rw [hnext]
  exact hblobs h

/-- The retention is the same after every call. -/
theorem retentionDays_perform (e : Engine σ) (call : Call) :
    (e.perform call).2.retentionDays = e.retentionDays := by
  obtain ⟨_, _, hnext, -⟩ := e.perform_snd call
  rw [hnext]

/-- The workers are the same after every call. -/
theorem workers_perform (e : Engine σ) (call : Call) :
    (e.perform call).2.workers = e.workers := by
  obtain ⟨_, _, hnext, -⟩ := e.perform_snd call
  rw [hnext]

/-- The blobs of a commit are those of the gateway. -/
theorem blobs_commit (e : Engine σ) (now : Timestamp) :
    (e.commit now).2.blobs = (Gateway.commit e.cache.rules.defaultTtl e.cache.rules.budget
      (!e.cache.isLoading) now e.cache.store e.blobs).2.2 := rfl

/-- A call keeps what each call on the blobs keeps. -/
theorem kept_perform (h : BlobStore.Kept P) (hflush : ∀ s, P s → P (BlobStore.flush s).2)
    (hP : P e.blobs) (call : Call) : P (e.perform call).2.blobs := by
  cases call with
  | commit now => exact Gateway.kept_commit h hflush hP
  | _ =>
    rw [blobs_perform e (fun _ h => by cases h)]
    exact hP

/-- A load gives its worker back, leaves the blobs to the gateway and changes the memory without
its rules. -/
theorem runLoad_snd (e : Engine σ) (now : Timestamp) :
    ∃ cache ready, (e.runLoad now).2 =
        { e with
          cache, ready
          workers := { e.workers with loading := false }
          blobs := (Gateway.load e.loadRules now .empty e.blobs).2.2 } ∧
      cache.rules = e.cache.rules := by
  unfold runLoad
  simp only [loadRules_workers]
  split
  · exact ⟨_, _, rfl, rfl⟩
  · rename_i loaded _
    have hfinish := Cache.rules_finishLoad e.cache loaded
    split
    · rename_i heq
      rw [heq] at hfinish
      exact ⟨_, _, rfl, hfinish⟩
    · rename_i finished heq
      rw [heq] at hfinish
      have htrim := Cache.rules_trim finished
      split
      · rename_i hanswer
        rw [hanswer] at htrim
        exact ⟨_, _, rfl, htrim.trans hfinish⟩
      · rename_i hanswer
        rw [hanswer] at htrim
        exact ⟨_, _, rfl, htrim.trans hfinish⟩

/-- The blobs of a load are those of the gateway. -/
theorem blobs_runLoad (e : Engine σ) (now : Timestamp) :
    (e.runLoad now).2.blobs = (Gateway.load e.loadRules now .empty e.blobs).2.2 := by
  obtain ⟨_, _, hnext, -⟩ := e.runLoad_snd now
  rw [hnext]

/-- A load that has run holds no worker. -/
theorem loading_runLoad (e : Engine σ) (now : Timestamp) :
    (e.runLoad now).2.workers.loading = false := by
  obtain ⟨_, _, hnext, -⟩ := e.runLoad_snd now
  rw [hnext]

/-- The rules are the same after a load. -/
theorem rules_runLoad (e : Engine σ) (now : Timestamp) :
    (e.runLoad now).2.cache.rules = e.cache.rules := by
  obtain ⟨_, _, hnext, hrules⟩ := e.runLoad_snd now
  rw [hnext]
  exact hrules

/-- What each call on the blobs keeps holds in every engine that is reached. -/
theorem Reaches.kept (hreach : e₀.Reaches e) (h : BlobStore.Kept P)
    (hflush : ∀ s, P s → P (BlobStore.flush s).2) (hP : P e₀.blobs) : P e.blobs := by
  induction hreach with
  | start => exact hP
  | call call _ _ ih => exact kept_perform h hflush ih call
  | load now _ _ _ ih =>
    rw [blobs_runLoad]
    exact Gateway.kept_load h.byDeletion hflush ih

/-- The rules are the same in every engine that is reached. -/
theorem Reaches.rules (hreach : e₀.Reaches e) (hs : e₀.Sound) :
    e.cache.rules = e₀.cache.rules := by
  induction hreach with
  | start => rfl
  | call call hreach hfits ih =>
    exact (turns_perform (hreach.sound hs) call hfits).rules.trans ih
  | load now _ _ _ ih => exact (rules_runLoad _ now).trans ih

/-- The rules of an engine that is reached are those with which it was started. -/
theorem Reaches.rules_of_start {config : Config} {estimator : Estimator} {blobs : σ}
    (hreach : e₀.Reaches e) (hstart : Engine.start config estimator blobs = .ok e₀) :
    e.cache.rules = ⟨estimator, config.defaultTtl, config.maxMemoryBytes⟩ := by
  rw [hreach.rules (sound_start hstart), (start_ok hstart).1]
  rfl

end DurableCache.Engine
