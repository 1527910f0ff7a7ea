import DurableCache.Proofs.Engine.Alike
import DurableCache.Proofs.Load.Ending
import DurableCache.Proofs.Load.Stepwise

/-!
# Loads that go on whatever happens

A step of the load may fail or break down. A load that fails ends without entries, and one that
breaks down goes no further. With these ends every load is a sequence of steps
(`Loading.proceeds_runLoad`), and loads of engines that are alike take the same steps.
-/

namespace DurableCache

/-- Passes keys over in the merge of what is staged. -/
def Stage.passing (keys : List String) : Stage → Stage
  | .staged store => .staged (store.eraseAll keys)
  | stage => stage

/-- Whether nothing more is to be merged. -/
def Stage.isOver : Stage → Bool
  | .merged | .ended => true
  | .waiting | .reading _ _ _ _ | .staged _ => false

namespace Loading

variable {σ α : Type} [BlobStore σ]

/-- The end of a load, which gives its worker back. -/
def leave (e : Engine σ) : Loading σ :=
  ⟨{ e with workers := { e.workers with loading := false } }, .ended⟩

/-- What becomes of a load with a call on the blob store that is not done. An error ends the load
without entries. -/
def afterCall (e : Engine σ) : Outcome α → σ → Loading σ
  | .failed _, blobs => ⟨{ e with blobs, cache := (e.cache.finishLoad none).2 }, .merged⟩
  | .done _, blobs | .abandoned _, blobs => leave { e with blobs }

/-- What becomes of a load that cannot make its next step. -/
def stop (now : Timestamp) (l : Loading σ) : Loading σ :=
  match l.stage with
  | .waiting =>
    let (outcome, blobs) := BlobStore.getAll l.engine.blobs
    afterCall l.engine outcome blobs
  | .reading listed ((key, blob) :: _) report staged =>
    let (outcome, _, blobs) :=
      Gateway.loadRow l.engine.loadRules listed now key blob report staged l.engine.blobs
    afterCall l.engine outcome blobs
  | .reading _ [] _ _ =>
    let (outcome, blobs) := BlobStore.flush l.engine.blobs
    afterCall l.engine outcome blobs
  | .staged staged => leave { l.engine with cache := (l.engine.cache.finishLoad (some staged)).2 }
  | .merged => leave { l.engine with cache := l.engine.cache.trim.2 }
  | .ended => l

/-- Makes the next step of a load, or brings it to its end. -/
def proceed (now : Timestamp) (l : Loading σ) : Loading σ := (l.advance? now).getD (l.stop now)

/-- Makes the next step of a load that passes keys over. -/
def proceedPast (keys : List String) (now : Timestamp) (l : Loading σ) : Loading σ :=
  proceed now ⟨l.engine, l.stage.passing keys⟩

theorem proceedPast_nil (now : Timestamp) (l : Loading σ) :
    l.proceedPast [] now = l.proceed now := by
  obtain ⟨e, stage⟩ := l
  cases stage <;> rfl

end Loading

namespace Loading

variable {σ α : Type} [BlobStore σ] {e : Engine σ} {now : Timestamp} {l : Loading σ}

/-- Steps of the load at one time until it goes no further, with no calls in between. -/
abbrev Proceeds (now : Timestamp) : Loading σ → Loading σ → Prop :=
  Relation.ReflTransGen fun l next => l.proceed now = next

/-- A load that has failed goes on without entries. -/
theorem proceeds_of_merged (e : Engine σ) :
    Proceeds now ⟨{ e with cache := (e.cache.finishLoad none).2 }, .merged⟩
      (leave (e.endLoad none).2) := by
  refine .single ?_
  unfold proceed advance? stop Engine.endLoad Cache.takeIn Cache.finishLoad
  simp only [Prod.map]
  cases Cache.trim _ with
  | mk answer trimmed => cases answer <;> rfl

/-- What is staged is merged, and then the store is trimmed. -/
theorem proceeds_of_staged (e : Engine σ) (staged : Store) :
    Proceeds now ⟨e, .staged staged⟩ (leave (e.endLoad (some staged)).2) := by
  unfold Engine.endLoad Cache.takeIn
  cases hfinish : e.cache.finishLoad (some staged) with
  | mk answer merged =>
    cases answer with
    | error why =>
      refine .single ?_
      simp only [proceed, advance?, stop, hfinish, Option.getD_none]
    | ok stored =>
      refine .head (b := ⟨{ e with cache := merged }, .merged⟩) ?_ (.single ?_)
      · simp only [proceed, advance?, hfinish, Option.getD_some]
      · simp only [proceed, advance?, stop, Prod.map]
        cases merged.trim with
        | mk answer trimmed => cases answer <;> rfl

/-- The blobs that are listed are judged one after the other, as long as the host bears it. -/
theorem proceeds_of_reading (hclock : now ≤ latestTime) (e : Engine σ) (blobs : σ)
    (rows : List (String × String)) (report : LoadReport) (store : Store) :
    Proceeds now ⟨{ e with blobs }, .reading now rows report store⟩
      (match Gateway.loadRows e.loadRules now rows report store blobs with
      | (.done report, staged, blobs) => ⟨{ e with blobs }, .reading now [] report staged⟩
      | (unfinished, _, blobs) => afterCall e unfinished blobs) := by
  induction rows generalizing blobs report store with
  | nil => exact .refl
  | cons row rest ih =>
    obtain ⟨key, blob⟩ := row
    have hrules : Engine.loadRules { e with blobs } = e.loadRules := rfl
    rw [Gateway.loadRows_eq_loadRow hclock]
    cases hrow : Gateway.loadRow e.loadRules now now key blob report store blobs with
    | mk outcome left =>
      cases outcome with
      | done counted =>
        refine .head ?_ (ih left.2 counted left.1)
        simp only [proceed, advance?, hrules, hrow, Option.getD_some]
      | failed err =>
        refine .single ?_
        simp only [proceed, advance?, stop, hrules, hrow, Option.getD_none, afterCall]
      | abandoned why =>
        refine .single ?_
        simp only [proceed, advance?, stop, hrules, hrow, Option.getD_none, afterCall]

/-- What a load comes to, by what its reading has come to. -/
def afterReading (e : Engine σ) : Outcome LoadReport × Store × σ → Loading σ
  | (.done _, staged, blobs) => leave (Engine.endLoad { e with blobs } (some staged)).2
  | (.failed _, _, blobs) => leave (Engine.endLoad { e with blobs } none).2
  | (.abandoned _, _, blobs) => leave { e with blobs }

/-- When all blobs are judged, deletions are flushed and the load goes on from there. -/
theorem proceeds_of_judged (e : Engine σ) (listed : Timestamp) (report : LoadReport)
    (staged : Store) :
    Proceeds now ⟨e, .reading listed [] report staged⟩
      (afterReading e
        (if report.expired = 0 then (.done report, staged, e.blobs)
        else
          match BlobStore.flush e.blobs with
          | (.done (), blobs) => (.done report, staged, blobs)
          | (.failed err, blobs) => (.failed err, staged, blobs)
          | (.abandoned why, blobs) => (.abandoned why, staged, blobs))) := by
  by_cases hnone : report.expired = 0
  · rw [if_pos hnone]
    refine .head ?_ (proceeds_of_staged e staged)
    simp only [proceed, advance?, hnone, if_true, Option.getD_some]
  · rw [if_neg hnone]
    cases hflush : BlobStore.flush e.blobs with
    | mk outcome blobs =>
      cases outcome with
      | done _ =>
        refine .head ?_ (proceeds_of_staged { e with blobs } staged)
        simp only [proceed, advance?, hnone, if_false, hflush, Option.getD_some]
      | failed err =>
        refine .head ?_ (proceeds_of_merged { e with blobs })
        simp only [proceed, advance?, stop, hnone, if_false, hflush, Option.getD_none, afterCall]
      | abandoned why =>
        refine .single ?_
        simp only [proceed, advance?, stop, hnone, if_false, hflush, Option.getD_none, afterCall,
          afterReading]

/-- What a load comes to is what its reading makes of it. -/
theorem afterReading_load (e : Engine σ) (now : Timestamp) :
    afterReading e (Gateway.load e.loadRules now .empty e.blobs) =
      ⟨(e.runLoad now).2, .ended⟩ := by
  have hend (e : Engine σ) (loaded : Option Store) : leave (e.endLoad loaded).2 =
      ⟨(Engine.endLoad { e with workers := { e.workers with loading := false } } loaded).2,
        .ended⟩ := by
    unfold Engine.endLoad
    simp only
    cases e.cache.takeIn loaded with
    | mk answer taken => cases answer <;> rfl
  rw [← Engine.runLoadAmid_nil]
  unfold Engine.runLoadAmid Engine.readBlobs
  cases Gateway.load e.loadRules now .empty e.blobs with
  | mk outcome rest =>
    cases outcome with
    | done report => exact hend { e with blobs := rest.2 } (some rest.1)
    | failed err => exact hend { e with blobs := rest.2 } none
    | abandoned why => rfl

/-- Without calls in between, the steps of a load make up the load, however it ends. -/
theorem proceeds_runLoad (e : Engine σ) (now : Timestamp) :
    Proceeds now ⟨e, .waiting⟩ ⟨(e.runLoad now).2, .ended⟩ := by
  rw [← afterReading_load]
  unfold Gateway.load
  cases hlist : BlobStore.getAll e.blobs with
  | mk outcome listed =>
    cases outcome with
    | failed err =>
      refine .head ?_ (proceeds_of_merged { e with blobs := listed })
      simp only [proceed, advance?, stop, hlist, Option.getD_none, afterCall]
    | abandoned why =>
      refine .single ?_
      simp only [proceed, advance?, stop, hlist, Option.getD_none, afterCall, afterReading]
    | done persisted =>
      cases hread : readClock now with
      | error why =>
        refine .single ?_
        simp only [proceed, advance?, stop, hlist, hread, Option.getD_none, afterCall, afterReading]
      | ok shown =>
        obtain ⟨hclock, rfl⟩ := readClock_eq_ok_iff.mp hread
        have hlisted : Proceeds now ⟨e, .waiting⟩
            ⟨{ e with blobs := listed }, .reading now persisted.rows ⟨0, 0, 0, 0⟩ .empty⟩ := by
          refine .single ?_
          simp only [proceed, advance?, hlist, hread, Option.getD_some]
        have hjudged := proceeds_of_reading hclock e listed persisted.rows ⟨0, 0, 0, 0⟩ .empty
        refine hlisted.trans ?_
        simp only
        generalize Gateway.loadRows e.loadRules now persisted.rows ⟨0, 0, 0, 0⟩ .empty listed =
          judged at hjudged ⊢
        obtain ⟨outcome, staged, blobs⟩ := judged
        cases outcome with
        | failed err => exact hjudged.trans (proceeds_of_merged { e with blobs })
        | abandoned why => exact hjudged
        | done report => exact hjudged.trans (proceeds_of_judged { e with blobs } now report staged)

/-! ### Loads of engines that are alike -/

/-- The engines are alike and their loads have come equally far. If the one remembers the removal of
keys that the other one has not seen, what is staged is still to be merged behind a fence. -/
structure Alike (keys : List String) (l m : Loading σ) : Prop where
  engine : l.engine.Alike keys m.engine
  stage : l.stage = m.stage
  fenced : l.engine.cache.isLoading = true ∨ keys = [] ∨ l.stage.isOver = true

namespace Alike

variable {keys : List String} {m : Loading σ} {f : Engine σ}

omit [BlobStore σ] in
/-- Two loads that have come to their ends. -/
theorem leave (h : e.Alike keys f) : Alike keys (Loading.leave e) (Loading.leave f) := by
  refine ⟨⟨h.cache, h.blobs, h.retentionDays, h.ready, ?_⟩, rfl, .inr (.inr rfl)⟩
  simp only [Loading.leave, h.workers]

omit [BlobStore σ] in
/-- Two loads that a call on the blob store has brought to their ends. -/
theorem afterCall (h : e.Alike keys f) (hfenced : e.cache.isLoading = true ∨ keys = [])
    (outcome : Outcome α) (blobs : σ) :
    Alike keys (Loading.afterCall e outcome blobs) (Loading.afterCall f outcome blobs) := by
  have hblobs : Engine.Alike keys { e with blobs } { f with blobs } := h.onBlobs blobs
  cases outcome with
  | done answer => exact .leave hblobs
  | abandoned why => exact .leave hblobs
  | failed err => exact ⟨hblobs.onCache (h.cache.finishLoad hfenced none).snd, rfl, .inr (.inr rfl)⟩

/-- Two loads make the same step if the other one passes over the keys whose removal it has not
seen. -/
theorem proceed (h : l.Alike keys m) (now : Timestamp) :
    (l.proceed now).Alike keys (m.proceedPast keys now) := by
  obtain ⟨e, stage⟩ := l
  obtain ⟨f, stage'⟩ := m
  obtain rfl : stage = stage' := h.stage
  have hengine : e.Alike keys f := h.engine
  have hfenced (hover : stage.isOver = false) : e.cache.isLoading = true ∨ keys = [] := by
    have := h.fenced
    simp_all
  cases stage with
  | waiting =>
    simp only [proceedPast, Stage.passing, Loading.proceed, advance?, stop, hengine.blobs]
    cases BlobStore.getAll f.blobs with
    | mk outcome blobs =>
      have hend := afterCall hengine (hfenced rfl) outcome blobs
      cases readClock now with
      | error why => cases outcome <;> exact hend
      | ok listed =>
        cases outcome with
        | failed err => exact hend
        | abandoned why => exact hend
        | done persisted => exact ⟨hengine.onBlobs blobs, rfl, (hfenced rfl).imp_right .inl⟩
  | reading listed rows report staged =>
    cases rows with
    | nil =>
      simp only [proceedPast, Stage.passing, Loading.proceed, advance?, stop, hengine.blobs]
      split
      · exact ⟨hengine, rfl, (hfenced rfl).imp_right .inl⟩
      · cases BlobStore.flush f.blobs with
        | mk outcome blobs =>
          have hend := afterCall hengine (hfenced rfl) outcome blobs
          cases outcome with
          | failed err => exact hend
          | abandoned why => exact hend
          | done _ => exact ⟨hengine.onBlobs blobs, rfl, (hfenced rfl).imp_right .inl⟩
    | cons row rest =>
      obtain ⟨key, blob⟩ := row
      simp only [proceedPast, Stage.passing, Loading.proceed, advance?, stop, hengine.blobs,
        hengine.loadRules_eq]
      cases Gateway.loadRow f.loadRules listed now key blob report staged f.blobs with
      | mk outcome left =>
        have hend := afterCall hengine (hfenced rfl) outcome left.2
        cases outcome with
        | failed err => exact hend
        | abandoned why => exact hend
        | done counted => exact ⟨hengine.onBlobs left.2, rfl, (hfenced rfl).imp_right .inl⟩
  | staged staged =>
    have hfinish := hengine.cache.finishLoad (hfenced rfl) (some staged)
    rw [Option.map_some] at hfinish
    simp only [proceedPast, Stage.passing, Loading.proceed, advance?, stop]
    generalize e.cache.finishLoad (some staged) = x at hfinish ⊢
    generalize f.cache.finishLoad (some (staged.eraseAll keys)) = y at hfinish ⊢
    obtain @⟨answer, _, _, hmerged⟩ := hfinish
    cases answer with
    | error why => exact .leave (hengine.onCache hmerged)
    | ok stored => exact ⟨hengine.onCache hmerged, rfl, .inr (.inr rfl)⟩
  | merged =>
    have htrim := hengine.cache.trim
    simp only [proceedPast, Stage.passing, Loading.proceed, advance?, stop]
    generalize e.cache.trim = x at htrim ⊢
    generalize f.cache.trim = y at htrim ⊢
    obtain @⟨answer, _, _, htrimmed⟩ := htrim
    cases answer with
    | error why => exact .leave (hengine.onCache htrimmed)
    | ok evicted =>
      have hready : Engine.Alike keys { e with ready := true } { f with ready := true } :=
        ⟨hengine.cache, hengine.blobs, hengine.retentionDays, rfl, hengine.workers⟩
      exact .leave (hready.onCache htrimmed)
  | ended => exact h

end Alike

end Loading

end DurableCache
