import DurableCache.Proofs.Engine.Absence
import DurableCache.Proofs.Gateway.Durable
import DurableCache.Proofs.Load.Fence

/-!
# Removals and the next commit

The fence keeps a load from bringing a removed key back into memory, but nothing remembers the
removal for the blobs: a commit deletes the blob of the key exactly if the load has ended. Once the
blob is deleted, no engine that is started over the blobs serves the key again.
-/

namespace DurableCache

open LawfulBlobs DurableBlobs

/-- A fence keeps a key from being loaded. -/
def Fence.Bars (f : Fence) (key : String) : Prop :=
  f.cleared = true ∨ f.removed.contains key = true

/-- A fresh fence bars no key. -/
theorem Fence.not_bars_fresh (key : String) : ¬ Fence.fresh.Bars key := by
  rintro (hcleared | hremoved)
  · cases hcleared
  · simp [fresh, Table.contains] at hremoved

/-- The end of a load leaves a key out of memory that is barred or was not loaded. -/
theorem Cache.absent_finishLoad {c next : Cache} {loaded : Option Store} {stored : Nat}
    {key : String} (habsent : c.store.find? key = none)
    (hout : ∀ staged, loaded = some staged →
      staged.find? key = none ∨ (c.fence.getD .fresh).Bars key)
    (h : c.finishLoad loaded = (.ok stored, next)) : next.store.find? key = none := by
  cases loaded with
  | none =>
    cases h
    exact habsent
  | some staged =>
    -- Without a fence the end of the load takes a fresh one.
    have hfence : { c with fence := some (c.fence.getD .fresh) }.finishLoad (some staged) =
        (.ok stored, next) := h
    obtain ⟨-, -, hfind⟩ := finishLoad_deliveredKeys rfl hfence
    rw [hfind]
    split
    · rename_i hmem
      obtain ⟨hcleared, hremoved, -⟩ := mem_deliveredKeys.mp hmem
      rcases hout staged rfl with hnone | hbarred | hbarred
      · exact hnone
      · rw [hcleared] at hbarred
        cases hbarred
      · rw [hremoved] at hbarred
        cases hbarred
    · exact habsent

namespace Engine

variable {σ : Type} [BlobStore σ] {e e₀ e' e₁ : Engine σ} {key : String} {call : Call}
variable {now : Timestamp} {allows permits : Engine σ → Call → Prop}

/-! ### Runs of allowed calls -/

/-- The engines that calls that are allowed and the load make of an engine, as long as all sizes
fit. -/
inductive ReachesBy (allows : Engine σ → Call → Prop) (e₀ : Engine σ) : Engine σ → Prop
  | start : ReachesBy allows e₀ e₀
  | call {e : Engine σ} (call : Call) : ReachesBy allows e₀ e → allows e call →
      (e.perform call).1 ≠ some .sizeOverflow → ReachesBy allows e₀ (e.perform call).2
  | load {e : Engine σ} (now : Timestamp) : ReachesBy allows e₀ e → e.workers.loading = true →
      abort? (e.runLoad now).1 ≠ some .sizeOverflow → ReachesBy allows e₀ (e.runLoad now).2

/-- What is reached by allowed calls is reached. -/
theorem ReachesBy.reaches (h : e.ReachesBy allows e') (hreach : e₀.Reaches e) :
    e₀.Reaches e' := by
  induction h with
  | start => exact hreach
  | call call _ _ hfits ih => exact .call call ih hfits
  | load now _ hloading hfits ih => exact .load now ih hloading hfits

/-- Fewer calls may be allowed. -/
theorem ReachesBy.mono (h : e.ReachesBy allows e')
    (hle : ∀ e call, allows e call → permits e call) : e.ReachesBy permits e' := by
  induction h with
  | start => exact .start
  | call call _ hallowed hfits ih => exact .call call ih (hle _ call hallowed) hfits
  | load now _ hloading hfits ih => exact .load now ih hloading hfits

/-- A call that does not write a key. -/
def Unwritten (key : String) (e : Engine σ) (call : Call) : Prop :=
  (e.cache.change call).written? key = none

/-- A call that writes nothing. -/
def Unwriting (e : Engine σ) (call : Call) : Prop := ∀ key, Unwritten key e call

/-- The fence stands until the worker of the load is given back. -/
theorem Reaches.isLoading (h : e₀.Reaches e) (hs : e₀.Sound)
    (hstart : e₀.cache.isLoading = true) (hworker : e.workers.loading = true) :
    e.cache.isLoading = true := by
  induction h with
  | start => exact hstart
  | call call hreach hfits ih =>
    rw [isLoading_perform (hreach.sound hs) hfits]
    rw [workers_perform] at hworker
    exact ih hworker
  | load now _ _ _ _ =>
    rw [loading_runLoad] at hworker
    cases hworker

/-! ### Removed keys -/

/-- A key that is not in memory and that a load does not bring back. -/
structure Barred (e : Engine σ) (key : String) : Prop where
  lacks : e.Lacks key
  fenced : e.workers.loading = true → (e.cache.fence.getD .fresh).Bars key

/-- A call that does not write a barred key leaves it barred. -/
theorem Barred.perform (h : e.Barred key) (hfits : (e.perform call).1 ≠ some .sizeOverflow)
    (hunwritten : Unwritten key e call) : (e.perform call).2.Barred key where
  lacks := h.lacks.perform hfits hunwritten
  fenced hworker := by
    rw [workers_perform] at hworker
    have hfenced := h.fenced hworker
    rw [(turns_perform h.lacks.sound call hfits).fence]
    cases hfence : e.cache.fence with
    | none =>
      rw [hfence] at hfenced
      exact absurd hfenced (Fence.not_bars_fresh key)
    | some f =>
      rw [hfence] at hfenced
      rcases hfenced with hcleared | hremoved
      · exact Or.inl ((Change.cleared_mark_change f e.cache call).mpr (Or.inl hcleared))
      · exact Or.inr ((Change.removed_mark_change f e.cache call key).mpr (Or.inl hremoved))

/-- A load leaves a key out of memory that is not in memory if it is barred or was not loaded. -/
theorem Lacks.runLoad (h : e.Lacks key) (hfits : abort? (e.runLoad now).1 ≠ some .sizeOverflow)
    (hout : ∀ answer staged blobs,
      Gateway.load e.loadRules now .empty e.blobs = (.done answer, staged, blobs) →
      staged.find? key = none ∨ (e.cache.fence.getD .fresh).Bars key) :
    (e.runLoad now).2.Lacks key := by
  refine ⟨h.sound.runLoad hfits, ?_⟩
  rcases cache_runLoad h.sound hfits with
    hsame | ⟨loaded, _, next, evicted, hfinish, hloaded, -, -, -, hnext⟩
  · rw [hsame]
    exact h.absent
  · have hgone : next.store.find? key = none := by
      refine Cache.absent_finishLoad h.absent ?_ hfinish
      intro staged hstaged
      obtain ⟨answer, blobs, hload⟩ := hloaded staged hstaged
      exact hout answer staged blobs hload
    rw [hnext]
    show (next.store.eraseAll evicted).find? key = none
    rw [Store.find?_eraseAll, hgone, ite_self]

/-- A barred key stays barred as long as no call writes it, whether the load ends or not. -/
theorem Barred.of_reachesBy (h : e.Barred key) (hreach : e.ReachesBy (Unwritten key) e') :
    e'.Barred key := by
  induction hreach with
  | start => exact h
  | call call _ hunwritten hfits ih => exact ih.perform hfits hunwritten
  | load now _ hworker hfits ih =>
    -- The fence comes down, but the load holds no worker any more and runs only once.
    refine ⟨ih.lacks.runLoad hfits fun _ _ _ _ => Or.inr (ih.fenced hworker), ?_⟩
    intro hstill
    rw [loading_runLoad] at hstill
    cases hstill

omit [BlobStore σ] in
/-- A removed key is barred. -/
theorem barred_invalidate (hs : e.Sound) (key : String)
    (hloading : e.workers.loading = true → e.cache.isLoading = true) :
    (e.invalidate key).2.Barred key where
  lacks :=
    { sound := Store.Sound.erase hs key
      absent := (Store.find?_erase e.cache.store key key).trans (if_pos rfl) }
  fenced hworker := by
    obtain ⟨f, hf⟩ := Option.isSome_iff_exists.mp (hloading hworker)
    refine Or.inr ?_
    have hfence : (e.invalidate key).2.cache.fence =
        some { f with removed := f.removed.insert key () } := by
      show e.cache.fence.map _ = _
      rw [hf]
      rfl
    rw [hfence, Option.getD_some, Table.contains_insert]
    exact Or.inl rfl

omit [BlobStore σ] in
/-- After the removal of all entries every key is barred. -/
theorem barred_clear (key : String)
    (hloading : e.workers.loading = true → e.cache.isLoading = true) :
    e.clear.2.Barred key where
  lacks := { sound := Store.sound_empty, absent := rfl }
  fenced hworker := by
    obtain ⟨f, hf⟩ := Option.isSome_iff_exists.mp (hloading hworker)
    refine Or.inl ?_
    have hfence : e.clear.2.cache.fence = some { f with cleared := true } := by
      show e.cache.fence.map _ = _
      rw [hf]
      rfl
    rw [hfence]
    rfl

variable [LawfulBlobs σ]

/-! ### Forgotten keys -/

/-- A key that has neither an entry in memory nor a blob. -/
structure Gone (e : Engine σ) (key : String) : Prop where
  lacks : e.Lacks key
  erased : (contents e.blobs).find? key = none

/-- A key that is gone stays gone as long as no call writes it. -/
theorem Gone.of_reachesBy (h : e.Gone key) (hreach : e.ReachesBy (Unwritten key) e') :
    e'.Gone key := by
  induction hreach with
  | start => exact h
  | call call _ hunwritten hfits ih =>
    exact ⟨ih.lacks.perform hfits hunwritten,
      find?_blobs_perform_eq_none ih.lacks ih.erased call⟩
  | @load r now _ _ hfits ih =>
    constructor
    · refine ih.lacks.runLoad hfits fun answer staged blobs hload => Or.inl ?_
      rw [Gateway.find?_load_done hload (fun _ => rfl), ih.erased]
      rfl
    · rw [blobs_runLoad]
      refine Gateway.kept_load (kept_absent key) ?_ ih.erased
      intro s hs
      rw [contents_flush, hs]

/-- No engine that is started over the blobs serves a key before it is written again. -/
def Forgotten (blobs : σ) (key : String) : Prop :=
  ∀ config estimator (restarted r : Engine σ), start config estimator blobs = .ok restarted →
    restarted.ReachesBy (Unwritten key) r → ∀ now, (r.get now key).1 = .ok none

/-- A key without a blob is forgotten. -/
theorem forgotten_of_erased {blobs : σ} (h : (contents blobs).find? key = none) :
    Forgotten blobs key := by
  intro config estimator restarted r hstart hreach now
  obtain ⟨hcache, hblobs, -, -⟩ := start_ok hstart
  have hgone : restarted.Gone key := by
    refine ⟨⟨sound_start hstart, ?_⟩, ?_⟩
    · rw [hcache]
      rfl
    · rw [hblobs, h]
  have habsent := (hgone.of_reachesBy hreach).lacks.absent
  simp only [get, onCache, Cache.lookup, habsent]

/-! ### Commits -/

variable [DurableBlobs σ] {config : Config} {estimator : Estimator} {opened blobs : σ}

/-- A commit that is done deletes the blob of a key that is not in memory exactly if the load has
ended. -/
theorem find?_blobs_commit_done {report : CommitReport} (h : e.Lacks key)
    (hcommit : e.commit now = (.done report, e₁)) :
    (contents e₁.blobs).find? key =
      if e.cache.isLoading = false then none else (contents e.blobs).find? key := by
  have hanswered : ∀ why, (e.commit now).1 ≠ .abandoned why := by
    intro why
    rw [hcommit]
    exact fun h => by cases h
  have hblob := find?_blobs_commit h hanswered
  rw [hcommit] at hblob
  rw [hblob]
  simp only [Gateway.Prunes, faultless, and_self, and_true]

/-- A commit that is done leaves blobs that can be opened again as they are. -/
theorem reopen_commit_done {report : CommitReport} (hopened : Opened e.blobs)
    (hcommit : e.commit now = (.done report, e₁)) : reopen e₁.blobs = .ok e₁.blobs := by
  unfold commit at hcommit
  obtain ⟨hanswer, rfl⟩ := Prod.mk.inj hcommit
  obtain ⟨hopen, hsaved⟩ := Gateway.commit_durable hopened (Prod.ext hanswer rfl)
  exact reopen_of_saved hopen hsaved

/-- A removed key that no call writes is out of memory in every engine that is reached, whether the
load ends meanwhile or not. A commit that is done then leaves it without a blob exactly if the load
had ended, or if there was no blob before; and once it is without a blob, the blobs are durable and
no engine that is started over them serves the key. The same holds of all keys at once after the
removal of all entries. -/
theorem removed_at_next_commit (hopen : reopen opened = .ok blobs)
    (hstart : start config estimator blobs = .ok e₀) (hreach : e₀.Reaches e) :
    (∀ key e' e₁ now report, (e.invalidate key).2.ReachesBy (Unwritten key) e' →
      e'.commit now = (.done report, e₁) →
      ((contents e₁.blobs).find? key = none ↔
        e'.cache.isLoading = false ∨ (contents e'.blobs).find? key = none) ∧
      ((contents e₁.blobs).find? key = none →
        reopen e₁.blobs = .ok e₁.blobs ∧ Forgotten e₁.blobs key)) ∧
    ∀ e' e₁ now report, e.clear.2.ReachesBy Unwriting e' →
      e'.commit now = (.done report, e₁) →
      (contents e₁.blobs = ∅ ↔ e'.cache.isLoading = false ∨ contents e'.blobs = ∅) ∧
      (contents e₁.blobs = ∅ →
        reopen e₁.blobs = .ok e₁.blobs ∧ ∀ key, Forgotten e₁.blobs key) := by
  obtain ⟨hcache, hblobs, -, -⟩ := start_ok hstart
  have hs := sound_start hstart
  have hsound := hreach.sound hs
  have hloading : e.workers.loading = true → e.cache.isLoading = true :=
    hreach.isLoading hs (by rw [hcache]; rfl)
  have hopened (r : Engine σ) (hr : e₀.Reaches r) : Opened r.blobs := by
    refine hr.kept kept_opened (fun _ => opened_flush) ?_
    rw [hblobs]
    exact opened_of_reopen hopen
  constructor
  · intro key e' e₁ now report hrun hcommit
    have hbarred := (barred_invalidate hsound key hloading).of_reachesBy hrun
    have hblob := find?_blobs_commit_done hbarred.lacks hcommit
    have hreached := hrun.reaches (.call (.invalidate key) hreach (fun h => by cases h))
    refine ⟨?_, fun herased => ?_⟩
    · rw [hblob]
      cases e'.cache.isLoading <;> simp
    · exact ⟨reopen_commit_done (hopened e' hreached) hcommit, forgotten_of_erased herased⟩
  · intro e' e₁ now report hrun hcommit
    have hblob (key : String) : (contents e₁.blobs).find? key =
        if e'.cache.isLoading = false then none else (contents e'.blobs).find? key := by
      have hkey := hrun.mono fun r call hnone => hnone key
      exact find?_blobs_commit_done ((barred_clear key hloading).of_reachesBy hkey).lacks hcommit
    have hreached := hrun.reaches (.call .clear hreach (fun h => by cases h))
    refine ⟨?_, fun hempty => ?_⟩
    · cases hloaded : e'.cache.isLoading with
      | false =>
        simp only [hloaded, if_true] at hblob
        simp only [true_or, iff_true]
        exact Table.ext_find? hblob
      | true =>
        simp only [hloaded, Bool.true_eq_false, if_false] at hblob
        simp only [Bool.true_eq_false, false_or]
        rw [Table.ext_find? hblob]
    · refine ⟨reopen_commit_done (hopened e' hreached) hcommit, fun key => ?_⟩
      apply forgotten_of_erased
      rw [hempty]
      rfl

/-- An engine over a blob store in memory that holds one entry. -/
def holding : Engine MemoryBlobs :=
  { standard with blobs := ⟨Table.insert ∅ "a" (Entry.mk "disk" 4 none).toBlob⟩ }

/-- After the load an entry that was loaded is removed, and the next commit deletes its blob. -/
theorem removed_at_next_commit_loaded :
    (holding.runLoad 5).2.cache.store.find? "a" = some ⟨"disk", 4, none⟩ ∧
      ∃ report e₁, ((holding.runLoad 5).2.invalidate "a").2.commit 6 = (.done report, e₁) ∧
        (contents e₁.blobs).find? "a" = none ∧ Forgotten e₁.blobs "a" := by
  have hopen : reopen holding.blobs = .ok holding.blobs := rfl
  have hstart : start .standard .standard holding.blobs = .ok holding := rfl
  have hreach : holding.Reaches (holding.runLoad 5).2 :=
    .load 5 .start rfl (by decide +kernel)
  obtain ⟨hinvalidate, -⟩ := removed_at_next_commit hopen hstart hreach
  have hcommit : ((holding.runLoad 5).2.invalidate "a").2.commit 6 =
      (.done ⟨0, 0, 0, 1, 0⟩, (((holding.runLoad 5).2.invalidate "a").2.commit 6).2) :=
    Prod.ext (by decide +kernel) rfl
  obtain ⟨hiff, hforgotten⟩ := hinvalidate "a" _ _ 6 _ .start hcommit
  have herased := hiff.mpr (Or.inl (by decide +kernel))
  exact ⟨by decide +kernel, _, _, hcommit, herased, (hforgotten herased).2⟩

/-- While the load runs, a commit keeps the blobs of removed keys, and an engine that is started
over them serves them again. -/
theorem not_removed_at_next_commit :
    (¬ ∀ e key now report e₁, holding.Reaches e →
      (e.invalidate key).2.commit now = (.done report, e₁) →
      (contents e₁.blobs).find? key = none) ∧
    (¬ ∀ e now report e₁, holding.Reaches e → e.clear.2.commit now = (.done report, e₁) →
      contents e₁.blobs = ∅) ∧
    ¬ ∀ e key now report e₁, holding.Reaches e →
      (e.invalidate key).2.commit now = (.done report, e₁) → Forgotten e₁.blobs key := by
  have hinvalidate : (holding.invalidate "a").2.commit 5 =
      (.done ⟨0, 0, 0, 0, 0⟩, ((holding.invalidate "a").2.commit 5).2) := rfl
  refine ⟨fun hnone => ?_, fun hempty => ?_, fun hforgotten => ?_⟩
  · have herased := hnone _ "a" _ _ _ .start hinvalidate
    cases herased
  · have herased := hempty _ 5 ⟨0, 0, 0, 0, 0⟩ (holding.clear.2.commit 5).2 .start rfl
    cases herased
  · have hserved : ((holding.runLoad 6).2.get 7 "a").1.toOption = some (some "disk") := by
      decide +kernel
    have hnever := hforgotten _ "a" _ _ _ .start hinvalidate .standard .standard holding _ rfl
      (.load 6 .start rfl (by decide +kernel)) 7
    rw [hnever] at hserved
    cases hserved

end Engine

end DurableCache
