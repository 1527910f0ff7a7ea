import DurableCache.Engine
import DurableCache.Proofs.Engine.Reach
import Mathlib.Logic.Relation

/-!
# The load step by step

The load lists the blobs, judges them one by one, flushes if it has deleted any, merges what it has
staged and trims. Calls may be made between any two of these steps, and the clock may go on. Without
calls in between the steps make up the load (`Loading.steps_runLoad`).
-/

namespace DurableCache

namespace Gateway

variable {σ : Type} [BlobStore σ]

/-- Loads one blob. Its age was read off the clock when the blobs were listed; whether it is stale
depends on the time at which it is judged. -/
def loadRow (rules : LoadRules) (listed now : Timestamp) (key blob : String) (report : LoadReport)
    (store : Store) (blobs : σ) : Outcome LoadReport × Store × σ :=
  match Entry.ofBlob? blob with
  | .error _ => (.done { report with corrupt := report.corrupt + 1 }, store, blobs)
  | .ok entry =>
    if outlived rules.retentionDays listed entry then
      match BlobStore.remove key blobs with
      | (.abandoned why, blobs) => (.abandoned why, store, blobs)
      | (_, blobs) => (.done { report with expired := report.expired + 1 }, store, blobs)
    else
      match readClock now with
      | .error why => (.abandoned why, store, blobs)
      | .ok now =>
        if entry.isStale rules.defaultTtl now then
          (.done { report with stale := report.stale + 1 }, store, blobs)
        else
          match store.putIfNewer rules.estimator key entry with
          | (.error why, store) => (.abandoned why, store, blobs)
          | (.ok true, store) => (.done { report with loaded := report.loaded + 1 }, store, blobs)
          | (.ok false, store) => (.done report, store, blobs)

/-- What loading a blob does: it passes the blob over, which is corrupt or stale, it deletes the
blob, which has outlived the retention, or it stages the entry. -/
theorem loadRow_cases {rules : LoadRules} {listed now : Timestamp} {key blob : String}
    {report answer : LoadReport} {store staged : Store} {blobs next : σ}
    (h : loadRow rules listed now key blob report store blobs = (.done answer, staged, next)) :
    (staged = store ∧ next = blobs ∧ ∀ entry, Entry.ofBlob? blob = .ok entry →
      entry.isStale rules.defaultTtl now = true) ∨
    (staged = store ∧ next = (BlobStore.remove key blobs).2 ∧ ∃ entry,
      Entry.ofBlob? blob = .ok entry ∧ outlived rules.retentionDays listed entry = true) ∨
    (next = blobs ∧ ∃ entry stored, Entry.ofBlob? blob = .ok entry ∧
      store.putIfNewer rules.estimator key entry = (.ok stored, staged)) := by
  unfold loadRow at h
  cases hentry : Entry.ofBlob? blob with
  | error why =>
    rw [hentry] at h
    cases h
    exact Or.inl ⟨rfl, rfl, fun entry hread => by cases hread⟩
  | ok entry =>
    simp only [hentry] at h
    cases houtlived : outlived rules.retentionDays listed entry with
    | true =>
      simp only [houtlived, if_true] at h
      cases hremove : BlobStore.remove key blobs with
      | mk outcome removed =>
        simp only [hremove] at h
        cases outcome with
        | abandoned why => cases h
        | done _ =>
          cases h
          exact Or.inr (Or.inl ⟨rfl, rfl, entry, rfl, houtlived⟩)
        | failed err =>
          cases h
          exact Or.inr (Or.inl ⟨rfl, rfl, entry, rfl, houtlived⟩)
    | false =>
      simp only [houtlived, Bool.false_eq_true, if_false] at h
      cases hread : readClock now with
      | error why =>
        rw [hread] at h
        cases h
      | ok shown =>
        obtain ⟨-, rfl⟩ := readClock_eq_ok_iff.mp hread
        simp only [hread] at h
        cases hstale : entry.isStale rules.defaultTtl now with
        | true =>
          simp only [hstale, if_true] at h
          cases h
          refine Or.inl ⟨rfl, rfl, fun other hother => ?_⟩
          cases hother
          exact hstale
        | false =>
          simp only [hstale, Bool.false_eq_true, if_false] at h
          cases hput : store.putIfNewer rules.estimator key entry with
          | mk stored written =>
            simp only [hput] at h
            cases stored with
            | error why => cases h
            | ok newer =>
              cases newer with
              | true =>
                cases h
                exact Or.inr (Or.inr ⟨rfl, entry, true, rfl, hput⟩)
              | false =>
                cases h
                exact Or.inr (Or.inr ⟨rfl, entry, false, rfl, hput⟩)

/-- Loading blobs at one time is loading the first one and then the others. -/
theorem loadRows_eq_loadRow {rules : LoadRules} {now : Timestamp} (hclock : now ≤ latestTime)
    (key blob : String) (rest : List (String × String)) (report : LoadReport) (store : Store)
    (blobs : σ) :
    loadRows rules now ((key, blob) :: rest) report store blobs =
      match loadRow rules now now key blob report store blobs with
      | (.done report, store, blobs) => loadRows rules now rest report store blobs
      | unfinished => unfinished := by
  have hread : readClock now = .ok now := readClock_eq_ok_iff.mpr ⟨hclock, rfl⟩
  generalize hrow : loadRow rules now now key blob report store blobs = row
  rw [loadRows]
  unfold loadRow at hrow
  cases hentry : Entry.ofBlob? blob with
  | error why =>
    rw [hentry] at hrow
    exact hrow ▸ rfl
  | ok entry =>
    simp only [hentry, hread] at hrow ⊢
    cases houtlived : outlived rules.retentionDays now entry with
    | true =>
      simp only [houtlived, if_true] at hrow ⊢
      cases hremove : BlobStore.remove key blobs with
      | mk outcome removed =>
        rw [hremove] at hrow
        cases outcome <;> exact hrow ▸ rfl
    | false =>
      simp only [houtlived, Bool.false_eq_true, if_false] at hrow ⊢
      cases hstale : entry.isStale rules.defaultTtl now with
      | true =>
        simp only [hstale, if_true] at hrow ⊢
        exact hrow ▸ rfl
      | false =>
        simp only [hstale, Bool.false_eq_true, if_false] at hrow ⊢
        cases hput : store.putIfNewer rules.estimator key entry with
        | mk stored staged =>
          rw [hput] at hrow
          cases stored with
          | error why => exact hrow ▸ rfl
          | ok newer => cases newer <;> exact hrow ▸ rfl

/-- If all blobs are loaded, the first one is and then the others are. -/
theorem loadRow_of_loadRows {rules : LoadRules} {now : Timestamp} (hclock : now ≤ latestTime)
    {key blob : String} {rest : List (String × String)} {report answer : LoadReport}
    {store staged : Store} {blobs next : σ}
    (h : loadRows rules now ((key, blob) :: rest) report store blobs =
      (.done answer, staged, next)) :
    ∃ report' store' blobs',
      loadRow rules now now key blob report store blobs = (.done report', store', blobs') ∧
        loadRows rules now rest report' store' blobs' = (.done answer, staged, next) := by
  rw [loadRows_eq_loadRow hclock] at h
  cases hrow : loadRow rules now now key blob report store blobs with
  | mk outcome left =>
    rw [hrow] at h
    cases outcome with
    | done counted => exact ⟨counted, left.1, left.2, rfl, h⟩
    | failed err => cases h
    | abandoned why => cases h

end Gateway

/-- How far a load has come. -/
inductive Stage where
  /-- The blobs are not listed yet. -/
  | waiting
  /-- The blobs were listed at that time; some are still to be judged. -/
  | reading (listed : Timestamp) (rows : List (String × String)) (report : LoadReport)
      (staged : Store)
  /-- Everything that is to be loaded is staged. -/
  | staged (staged : Store)
  /-- What was staged is merged, and the fence is down. -/
  | merged
  | ended
  deriving DecidableEq

/-- An engine and how far its load has come. -/
structure Loading (σ : Type) where
  engine : Engine σ
  stage : Stage

namespace Loading

variable {σ : Type} [BlobStore σ]

/-- Makes the next step of the load; nothing if the load fails at it, breaks down or is over. -/
def advance? (now : Timestamp) (l : Loading σ) : Option (Loading σ) :=
  match l.stage with
  | .waiting =>
    match BlobStore.getAll l.engine.blobs, readClock now with
    | (.done persisted, blobs), .ok listed =>
      some ⟨{ l.engine with blobs }, .reading listed persisted.rows ⟨0, 0, 0, 0⟩ .empty⟩
    | _, _ => none
  | .reading listed ((key, blob) :: rest) report staged =>
    match Gateway.loadRow l.engine.loadRules listed now key blob report staged l.engine.blobs with
    | (.done report, staged, blobs) =>
      some ⟨{ l.engine with blobs }, .reading listed rest report staged⟩
    | _ => none
  | .reading _ [] report staged =>
    if report.expired = 0 then some ⟨l.engine, .staged staged⟩
    else
      match BlobStore.flush l.engine.blobs with
      | (.done (), blobs) => some ⟨{ l.engine with blobs }, .staged staged⟩
      | _ => none
  | .staged staged =>
    match l.engine.cache.finishLoad (some staged) with
    | (.ok _, cache) => some ⟨{ l.engine with cache }, .merged⟩
    | (.error _, _) => none
  | .merged =>
    match l.engine.cache.trim with
    | (.ok _, cache) =>
      some
        ⟨{ l.engine with
            cache
            ready := true
            workers := { l.engine.workers with loading := false } }, .ended⟩
    | (.error _, _) => none
  | .ended => none

/-- What a step of the load does. -/
inductive Advances (now : Timestamp) : Loading σ → Loading σ → Prop
  | list {e : Engine σ} {persisted : BlobMap} {blobs : σ} :
      BlobStore.getAll e.blobs = (.done persisted, blobs) → now ≤ latestTime →
      Advances now ⟨e, .waiting⟩
        ⟨{ e with blobs }, .reading now persisted.rows ⟨0, 0, 0, 0⟩ .empty⟩
  | judge {e : Engine σ} {listed : Timestamp} {key blob : String} {rest : List (String × String)}
      {report counted : LoadReport} {store staged : Store} {blobs : σ} :
      Gateway.loadRow e.loadRules listed now key blob report store e.blobs =
        (.done counted, staged, blobs) →
      Advances now ⟨e, .reading listed ((key, blob) :: rest) report store⟩
        ⟨{ e with blobs }, .reading listed rest counted staged⟩
  | skipFlush {e : Engine σ} {listed : Timestamp} {report : LoadReport} {staged : Store} :
      Advances now ⟨e, .reading listed [] report staged⟩ ⟨e, .staged staged⟩
  | flush {e : Engine σ} {listed : Timestamp} {report : LoadReport} {staged : Store} {blobs : σ} :
      BlobStore.flush e.blobs = (.done (), blobs) →
      Advances now ⟨e, .reading listed [] report staged⟩ ⟨{ e with blobs }, .staged staged⟩
  | merge {e : Engine σ} {staged : Store} {stored : Nat} {cache : Cache} :
      e.cache.finishLoad (some staged) = (.ok stored, cache) →
      Advances now ⟨e, .staged staged⟩ ⟨{ e with cache }, .merged⟩
  | trim {e : Engine σ} {evicted : Nat} {cache : Cache} {workers : Workers} :
      e.cache.trim = (.ok evicted, cache) →
      Advances now ⟨e, .merged⟩ ⟨{ e with cache, ready := true, workers }, .ended⟩

/-- Every step of the load is one of these. -/
theorem advances_of_advance? {now : Timestamp} {l next : Loading σ}
    (h : l.advance? now = some next) : Advances now l next := by
  obtain ⟨e, stage⟩ := l
  cases stage with
  | waiting =>
    simp only [advance?] at h
    split at h
    · rename_i persisted blobs listed hlist hread
      obtain ⟨hclock, rfl⟩ := readClock_eq_ok_iff.mp hread
      cases h
      exact .list hlist hclock
    · cases h
  | reading listed rows report staged =>
    cases rows with
    | nil =>
      simp only [advance?] at h
      split at h
      · cases h
        exact .skipFlush
      · split at h
        · rename_i hflush
          cases h
          exact .flush hflush
        · cases h
    | cons row rest =>
      obtain ⟨key, blob⟩ := row
      simp only [advance?] at h
      split at h
      · rename_i hrow
        cases h
        exact .judge hrow
      · cases h
  | staged staged =>
    simp only [advance?] at h
    split at h
    · rename_i hfinish
      cases h
      exact .merge hfinish
    · cases h
  | merged =>
    simp only [advance?] at h
    split at h
    · rename_i htrim
      cases h
      exact .trim htrim
    · cases h
  | ended => cases h

/-- Steps of the load at one time, with no calls in between. -/
abbrev Steps (now : Timestamp) : Loading σ → Loading σ → Prop :=
  Relation.ReflTransGen fun l next => l.advance? now = some next

variable {e next : Engine σ} {now : Timestamp} {rows : List (String × String)}
variable {report answer : LoadReport} {store staged : Store} {blobs : σ}

/-- The blobs that are listed are judged one after the other. -/
theorem steps_of_loadRows (hclock : now ≤ latestTime)
    (h : Gateway.loadRows e.loadRules now rows report store e.blobs =
      (.done answer, staged, blobs)) :
    Steps now ⟨e, .reading now rows report store⟩
      ⟨{ e with blobs }, .reading now [] answer staged⟩ := by
  induction rows generalizing e report store with
  | nil =>
    cases h
    exact .refl
  | cons row rest ih =>
    obtain ⟨key, blob⟩ := row
    obtain ⟨report', store', blobs', hrow, hrest⟩ := Gateway.loadRow_of_loadRows hclock h
    have hfirst : (⟨e, .reading now ((key, blob) :: rest) report store⟩ : Loading σ).advance? now =
        some ⟨{ e with blobs := blobs' }, .reading now rest report' store'⟩ := by
      simp only [advance?, hrow]
    exact .head hfirst (ih (e := { e with blobs := blobs' }) hrest)

/-- A load that is done stages its entries step by step. -/
theorem steps_of_load (h : Gateway.load e.loadRules now .empty e.blobs =
    (.done answer, staged, blobs)) :
    Steps now ⟨e, .waiting⟩ ⟨{ e with blobs }, .staged staged⟩ := by
  unfold Gateway.load at h
  split at h
  · cases h
  · cases h
  · rename_i persisted listed hlist
    split at h
    · cases h
    · rename_i read hread
      obtain ⟨hclock, rfl⟩ := readClock_eq_ok_iff.mp hread
      have hfirst : (⟨e, .waiting⟩ : Loading σ).advance? now =
          some ⟨{ e with blobs := listed }, .reading now persisted.rows ⟨0, 0, 0, 0⟩ .empty⟩ := by
        simp only [advance?, hlist, hread]
      split at h
      · rename_i counted store loaded hrows
        have hjudged := steps_of_loadRows (e := { e with blobs := listed }) hclock hrows
        refine .trans (.head hfirst hjudged) (.single ?_)
        split at h
        · rename_i hnone
          cases h
          simp only [advance?, hnone, if_true]
        · rename_i hsome
          split at h
          · rename_i hflush
            cases h
            simp only [advance?, hsome, if_false, hflush]
          · cases h
          · cases h
      · rename_i hunfinished
        exact absurd h (hunfinished answer staged blobs)

/-- Without calls in between, the steps of a load that is done make up the load. -/
theorem steps_runLoad (hdone : (Gateway.load e.loadRules now .empty e.blobs).1 = .done answer)
    (h : e.runLoad now = (.ok (), next)) : Steps now ⟨e, .waiting⟩ ⟨next, .ended⟩ := by
  cases hload : Gateway.load e.loadRules now .empty e.blobs with
  | mk outcome rest =>
    obtain ⟨staged, blobs⟩ := rest
    rw [hload] at hdone
    cases hdone
    have hstaged := steps_of_load hload
    unfold Engine.runLoad at h
    simp only [Engine.loadRules_workers, hload] at h
    split at h
    · cases h
    · rename_i stored merged hfinish
      split at h
      · cases h
      · rename_i evicted trimmed htrim
        cases h
        have hmerges : (⟨{ e with blobs }, .staged staged⟩ : Loading σ).advance? now =
            some ⟨{ e with blobs, cache := merged }, .merged⟩ := by
          simp only [advance?, hfinish]
        have hends : (⟨{ e with blobs, cache := merged }, .merged⟩ : Loading σ).advance? now =
            some ⟨{ e with
              blobs
              cache := trimmed
              ready := true
              workers := { e.workers with loading := false } }, .ended⟩ := by
          simp only [advance?, htrim]
        exact (hstaged.tail hmerges).tail hends

end Loading

end DurableCache
