import DurableCache.Proofs.Engine.Blobs
import DurableCache.Proofs.Engine.Effects
import DurableCache.Proofs.Gateway.Breakdown
import DurableCache.Proofs.Load.Fence
import DurableCache.Proofs.Store.Intact

/-!
# How the load comes to its end

The load reads the blobs, merges what it has staged, trims, and is ready. An error of the blob store
is not the end of it, but a breakdown is: then the fence stands for ever, the engine is never ready,
and no commit prunes. `load_over_iff` says exactly when the load comes to its end, what holds from
then on, and which entries that were written meanwhile are still in memory.
-/

namespace DurableCache

/-! ### Entries that stay in memory -/

namespace Change

/-- What takes a key out of memory: a removal, a clear, a purge that finds the entry stale, a trim,
or a write that is abandoned halfway. -/
inductive Takes (rules : CacheRules) (s : Store) (key : String) : Change → Prop
  | removed : Takes rules s key (.remove key)
  | cleared : Takes rules s key .clear
  | purged {now : Timestamp} {entry : Entry} : s.find? key = some entry →
      entry.isStale rules.defaultTtl now = true → Takes rules s key (.purge now)
  | evicted {change : Change} : key ∈ change.evicted rules s → Takes rules s key change
  | halfWritten {entry : Entry} {why : Abort} {left : Store} :
      s.put rules.estimator key entry = (.error why, left) → Takes rules s key (.write key entry)

/-- The store after a list of changes. -/
def afterAll (rules : CacheRules) (s : Store) (changes : List Change) : Store :=
  changes.foldl (after rules) s

/-- No change of a list takes a key out of memory. -/
def Keeps (rules : CacheRules) (key : String) (s : Store) : List Change → Prop
  | [] => True
  | change :: rest => ¬ change.Takes rules s key ∧ Keeps rules key (change.after rules s) rest

variable {rules : CacheRules} {s : Store} {key : String} {change : Change} {changes : List Change}

/-- An entry that is written or held is in memory after a change that does not take its key. -/
theorem held_after (hheld : s.find? key ≠ none ∨ change.written? key ≠ none)
    (hkeeps : ¬ change.Takes rules s key) : (change.after rules s).find? key ≠ none := by
  have hevicted : key ∉ change.evicted rules s := fun h => hkeeps (.evicted h)
  by_cases hwritten : change.written? key = none
  · have hbefore : s.find? key ≠ none := hheld.resolve_right fun h => h hwritten
    have hremove : change ≠ .remove key := by
      rintro rfl
      exact hkeeps .removed
    have hclear : change ≠ .clear := by
      rintro rfl
      exact hkeeps .cleared
    rcases find?_after hwritten hremove hclear hevicted with
      hsame | ⟨now, entry, rfl, hfind, hstale⟩
    · rw [hsame]
      exact hbefore
    · exact absurd (.purged hfind hstale) hkeeps
  · cases change with
    | write k entry =>
      have hkey : k = key := by
        by_contra hne
        exact hwritten (by simp [written?, hne])
      subst hkey
      rw [after, Store.find?_eraseAll, if_neg hevicted, applied]
      cases hput : s.put rules.estimator k entry with
      | mk answer left =>
        cases answer with
        | error why => exact absurd (.halfWritten hput) hkeeps
        | ok previous =>
          rw [Store.find?_put_ok hput, if_pos rfl]
          exact Option.some_ne_none entry
    | _ => exact absurd rfl hwritten

/-- A write takes its own key only if it is abandoned or the trim behind it takes the key. -/
theorem not_takes_write {entry : Entry} (hput : abort? (s.put rules.estimator key entry).1 = none)
    (hevicted : key ∉ (Change.write key entry).evicted rules s) :
    ¬ (Change.write key entry).Takes rules s key := by
  intro htakes
  cases htakes with
  | evicted hkey => exact hevicted hkey
  | halfWritten habandoned =>
    rw [habandoned] at hput
    cases hput

/-- An entry that is held stays in memory during changes that do not take its key. -/
theorem held_afterAll (hheld : s.find? key ≠ none) (hkeeps : Keeps rules key s changes) :
    (afterAll rules s changes).find? key ≠ none := by
  induction changes generalizing s with
  | nil => exact hheld
  | cons change rest ih =>
    obtain ⟨hfirst, hrest⟩ := hkeeps
    exact ih (held_after (Or.inl hheld) hfirst) hrest

/-- Changes may be made in two goes. -/
theorem afterAll_append (rules : CacheRules) (s : Store) (before after : List Change) :
    afterAll rules s (before ++ after) = afterAll rules (afterAll rules s before) after := by
  unfold afterAll
  rw [List.foldl_append]

/-- An entry that is written stays in memory until a change takes its key. -/
theorem held_of_written {before after : List Change} {entry : Entry}
    (hkeeps : Keeps rules key (afterAll rules s before) (.write key entry :: after)) :
    (afterAll rules s (before ++ .write key entry :: after)).find? key ≠ none := by
  obtain ⟨hfirst, hrest⟩ := hkeeps
  have hwritten : (Change.write key entry).written? key ≠ none := by simp [written?]
  rw [afterAll_append]
  exact held_afterAll (s := Change.after rules _ (.write key entry))
    (held_after (Or.inr hwritten) hfirst) hrest

end Change

namespace Cache

variable {c : Cache} {loaded : Option Store} {key : String}

/-- Merges what was loaded and trims. -/
def takeIn (c : Cache) (loaded : Option Store) : Except Abort Unit × Cache :=
  match c.finishLoad loaded with
  | (.error why, c) => (.error why, c)
  | (.ok _, c) => c.trim.map (Except.map fun _ => ()) id

/-- The end of a load loses a key: its trim evicts the entry, or the merge is abandoned halfway
through an entry that was loaded for the key. -/
inductive Loses (c : Cache) (loaded : Option Store) (key : String) : Prop
  | evicted {stored : Nat} {merged : Cache} : c.finishLoad loaded = (.ok stored, merged) →
      key ∈ merged.store.trimmedKeys merged.rules.budget → Loses c loaded key
  | halfMerged {staged t : Store} {entry : Entry} {left : Cache} : loaded = some staged →
      staged.find? key = some entry → c.finishLoad loaded = (.error .sizeOverflow, left) →
      left.store = t.halfWritten key entry → Loses c loaded key

end Cache

namespace Store

variable {estimator : Estimator} {s merged : Store} {key : String}

/-- Writing a batch drops no key. -/
theorem held_insertAll {sized : List Sized} {count stored : Nat}
    (h : s.insertAll count sized = (.ok stored, merged)) (hheld : s.find? key ≠ none) :
    merged.find? key ≠ none := by
  induction sized generalizing s count with
  | nil =>
    cases h
    exact hheld
  | cons item rest ih =>
    obtain ⟨one, next, hone, hrest⟩ := insertAll_cons h
    apply ih hrest
    rw [find?_insertIfNewer hone]
    split
    · exact Option.some_ne_none _
    · exact hheld

end Store

namespace Cache

variable {c merged left : Cache} {f : Fence} {loaded : Option Store} {stored : Nat} {why : Abort}
variable {key : String}

/-- The end of a load takes the fence down, even if it is abandoned. -/
theorem fence_finishLoad (c : Cache) (loaded : Option Store) :
    (c.finishLoad loaded).2.fence = none := by
  unfold finishLoad
  split
  · rfl
  · simp only
    split <;> rfl

/-- A merge that is not abandoned drops no key. -/
theorem held_finishLoad (hf : c.fence = some f) (h : c.finishLoad loaded = (.ok stored, merged))
    (hheld : c.store.find? key ≠ none) : merged.store.find? key ≠ none := by
  cases loaded with
  | none =>
    cases h
    exact hheld
  | some staged =>
    rw [finishLoad_some hf] at h
    split at h
    · cases h
      exact hheld
    · obtain ⟨hmerge, rfl⟩ := Prod.mk.inj h
      unfold Store.merge at hmerge ⊢
      split at hmerge
      · cases hmerge
      · rename_i sized hsized
        exact Store.held_insertAll (Prod.ext hmerge rfl) hheld

/-- A key that the end of a load loses halfway through the merge is no longer in memory. -/
theorem find?_of_halfMerged (h : c.finishLoad loaded = (.error why, left))
    (hloses : c.Loses loaded key) : left.store.find? key = none := by
  cases hloses with
  | evicted hok _ =>
    rw [h] at hok
    cases hok
  | halfMerged _ _ herror hleft =>
    rw [h] at herror
    cases herror
    rw [hleft, Store.halfWritten, Store.find?_mark, Store.find?_erase, if_pos rfl]

/-- A merge that is abandoned drops a key only if it is abandoned halfway through an entry for
it. -/
theorem loses_of_finishLoad_error (hf : c.fence = some f)
    (h : c.finishLoad loaded = (.error why, left)) (hheld : c.store.find? key ≠ none)
    (hnone : left.store.find? key = none) : c.Loses loaded key := by
  have hwhy := finishLoad_error h
  subst hwhy
  cases loaded with
  | none => cases h
  | some staged =>
    have hmerge := h
    rw [finishLoad_some hf] at hmerge
    split at hmerge
    · cases hmerge
    · obtain ⟨hanswer, hleft⟩ := Prod.mk.inj hmerge
      have hstore : (c.store.merge c.rules.estimator (delivery f staged)).2 = left.store :=
        congrArg Cache.store hleft
      have hwhole : c.store.merge c.rules.estimator (delivery f staged) =
          (.error .sizeOverflow, left.store) := Prod.ext hanswer hstore
      rcases (Store.merge_error hwhole).2 with
        ⟨-, hsame⟩ | ⟨before, item, after, reached, t, hsized, hbefore, hhalf⟩
      · rw [hsame] at hnone
        exact absurd hnone hheld
      · have hkey : key = item.key := by
          by_contra hne
          rw [hhalf, Store.halfWritten, Store.find?_mark, Store.find?_erase, if_neg hne] at hnone
          exact Store.held_insertAll hbefore hheld hnone
        subst hkey
        have hitem := Store.mem_of_sizeAll? hsized (List.mem_append_right before List.mem_cons_self)
        have hrow := (List.mem_filter.mp hitem).1
        have hfind : staged.find? item.key = some item.entry := by
          rw [← Store.find?_entries]
          exact Table.mem_rows_iff.mp hrow
        exact .halfMerged rfl hfind h hhalf

/-- The fence is down when a load has ended, whether all was taken in or not. -/
theorem fence_takeIn (c : Cache) (loaded : Option Store) : (c.takeIn loaded).2.fence = none := by
  have hfence := c.fence_finishLoad loaded
  unfold takeIn
  cases hfinish : c.finishLoad loaded with
  | mk answer merged =>
    rw [hfinish] at hfence
    cases answer with
    | error why => exact hfence
    | ok stored => exact (merged.store_trim).2.trans hfence

/-- The end of a load keeps the rules and leaves a right sum. -/
theorem tallied_takeIn (h : c.store.Tallied c.rules.estimator) (loaded : Option Store) :
    (c.takeIn loaded).2.rules = c.rules ∧
      (c.takeIn loaded).2.store.Tallied c.rules.estimator := by
  have hrules := c.rules_finishLoad loaded
  have hmerged : (c.finishLoad loaded).2.store.Tallied c.rules.estimator := by
    unfold finishLoad
    split
    · exact h
    · simp only
      split
      · exact h
      · exact h.merge _
  unfold takeIn
  cases hfinish : c.finishLoad loaded with
  | mk answer merged =>
    rw [hfinish] at hrules hmerged
    cases answer with
    | error why => exact ⟨hrules, hmerged⟩
    | ok stored =>
      refine ⟨merged.rules_trim.trans hrules, ?_⟩
      show merged.trim.2.store.Tallied c.rules.estimator
      rw [(merged.store_trim).1]
      exact hmerged.eraseAll _

/-- The end of a load keeps the keys that it does not lose. -/
theorem find?_takeIn_eq_none_iff (hf : c.fence = some f) (hheld : c.store.find? key ≠ none) :
    (c.takeIn loaded).2.store.find? key = none ↔ c.Loses loaded key := by
  unfold takeIn
  cases hfinish : c.finishLoad loaded with
  | mk answer merged =>
    cases answer with
    | error why =>
      constructor
      · intro hnone
        exact loses_of_finishLoad_error hf hfinish hheld hnone
      · intro hloses
        exact find?_of_halfMerged hfinish hloses
    | ok stored =>
      have hmerged := held_finishLoad hf hfinish hheld
      have htrimmed : merged.trim.2.store.find? key = none ↔
          key ∈ merged.store.trimmedKeys merged.rules.budget := by
        rw [(merged.store_trim).1, Store.find?_eraseAll]
        simp [hmerged]
      refine htrimmed.trans ⟨fun hkey => .evicted hfinish hkey, fun hloses => ?_⟩
      cases hloses with
      | evicted hok hkey =>
        rw [hfinish] at hok
        cases hok
        exact hkey
      | halfMerged _ _ herror _ =>
        rw [hfinish] at herror
        cases herror

end Cache

/-! ### The end of a load -/

namespace Engine

variable {σ : Type} [BlobStore σ]

/-- Reads the blobs, with the entries that are staged as the result, if the reading does not fail.
No call looks at the worker, so it is given back here. -/
def readBlobs (e : Engine σ) (now : Timestamp) : Except Abort (Option Store) × Engine σ :=
  let (outcome, staged, blobs) := Gateway.load e.loadRules now .empty e.blobs
  let read := match outcome with
    | .done _ => Except.ok (some staged)
    | .failed _ => Except.ok none
    | .abandoned why => Except.error why
  (read, { e with blobs, workers := { e.workers with loading := false } })

/-- Takes in what was read. The engine is ready if that is not abandoned. -/
def endLoad (e : Engine σ) (loaded : Option Store) : Except Abort Unit × Engine σ :=
  match e.cache.takeIn loaded with
  | (.error why, cache) => (.error why, { e with cache })
  | (.ok (), cache) => (.ok (), { e with cache, ready := true })

/-- Runs the load with calls between the reading of the blobs and the merge. -/
def runLoadAmid (e : Engine σ) (now : Timestamp) (calls : List Call) :
    Except Abort Unit × Engine σ :=
  match e.readBlobs now with
  | (.error why, e) => (.error why, e.run calls)
  | (.ok loaded, e) => (e.run calls).endLoad loaded

/-- The load is what it is without calls in between. -/
theorem runLoadAmid_nil (e : Engine σ) (now : Timestamp) :
    e.runLoadAmid now [] = e.runLoad now := by
  have hend (e : Engine σ) (loaded : Option Store) : e.endLoad loaded =
      match e.cache.finishLoad loaded with
      | (.error why, cache) => (.error why, { e with cache })
      | (.ok _, cache) =>
        match cache.trim with
        | (.error why, cache) => (.error why, { e with cache })
        | (.ok _, cache) => (.ok (), { e with cache, ready := true }) := by
    unfold endLoad Cache.takeIn
    cases e.cache.finishLoad loaded with
    | mk answer merged =>
      cases answer with
      | error why => rfl
      | ok stored =>
        simp only [Prod.map]
        cases merged.trim with
        | mk answer trimmed => cases answer <;> rfl
  unfold runLoadAmid readBlobs runLoad
  simp only [loadRules_workers]
  cases Gateway.load e.loadRules now .empty e.blobs with
  | mk outcome rest =>
    cases outcome with
    | abandoned why => rfl
    | done answer => exact hend _ _
    | failed err => exact hend _ _

variable {e e₀ : Engine σ} {calls : List Call} {now : Timestamp} {loaded : Option Store}
variable {key : String} {f : Fence}

/-- What a run does to the memory is what its changes do. -/
theorem store_run (e : Engine σ) (calls : List Call) :
    (e.run calls).cache.store = Change.afterAll e.cache.rules e.cache.store (e.changes calls) ∧
      (e.run calls).cache.rules = e.cache.rules := by
  induction calls generalizing e with
  | nil => exact ⟨rfl, rfl⟩
  | cons call rest ih =>
    have hmade := e.made_perform call
    obtain ⟨hstore, hrules⟩ := ih (e.perform call).2
    rw [hmade.rules, hmade.store] at hstore
    exact ⟨hstore, hrules.trans hmade.rules⟩

/-- A fence that stands before a run stands behind it, and no other one does. The engine gets ready
in no run of calls. -/
theorem standing_run (e : Engine σ) (calls : List Call) :
    (e.run calls).cache.isLoading = e.cache.isLoading ∧ (e.run calls).ready = e.ready := by
  induction calls generalizing e with
  | nil => exact ⟨rfl, rfl⟩
  | cons call rest ih =>
    obtain ⟨hloading, hready⟩ := ih (e.perform call).2
    obtain ⟨_, _, hnext, -⟩ := e.perform_snd call
    constructor
    · rw [run, hloading, Cache.isLoading, Cache.isLoading, (e.made_perform call).fence,
        Option.isSome_map]
    · rw [run, hready, hnext]

/-- The reading of the blobs ends as the gateway does. -/
theorem readBlobs_ends_iff (e : Engine σ) (now : Timestamp) :
    (∃ loaded, (e.readBlobs now).1 = .ok loaded) ↔ Gateway.Ends e.loadRules now e.blobs := by
  rw [← Gateway.load_ends_iff]
  unfold readBlobs
  cases Gateway.load e.loadRules now .empty e.blobs with
  | mk outcome rest => cases outcome <;> simp [Outcome.abort?]

/-- Entries are read by a load that is done. -/
theorem load_of_readBlobs {staged : Store} (h : (e.readBlobs now).1 = .ok (some staged)) :
    ∃ answer blobs,
      Gateway.load e.loadRules now .empty e.blobs = (.done answer, staged, blobs) := by
  unfold readBlobs at h
  cases hload : Gateway.load e.loadRules now .empty e.blobs with
  | mk outcome rest =>
    rw [hload] at h
    cases outcome with
    | done answer =>
      cases h
      exact ⟨answer, rest.2, rfl⟩
    | failed err => cases h
    | abandoned why => cases h

omit [BlobStore σ] in
/-- At the end of a load the engine is ready if what was read is taken in, and otherwise it is what
it was. -/
theorem endLoad_snd (e : Engine σ) (loaded : Option Store) :
    (e.endLoad loaded).2.cache = (e.cache.takeIn loaded).2 ∧
      ((e.endLoad loaded).2.ready = true ↔
        (e.cache.takeIn loaded).1 = .ok () ∨ e.ready = true) := by
  unfold endLoad
  cases htake : e.cache.takeIn loaded with
  | mk answer cache => cases answer <;> simp

omit [BlobStore σ] in
/-- The end of a load leaves the blobs alone. -/
theorem blobs_endLoad (e : Engine σ) (loaded : Option Store) :
    (e.endLoad loaded).2.blobs = e.blobs := by
  unfold endLoad
  split <;> rfl

variable {config : Config} {estimator : Estimator} {blobs : σ}

omit [BlobStore σ] in
/-- An engine is not ready when it is started. -/
theorem ready_start (h : start config estimator blobs = .ok e₀) : e₀.ready = false := by
  unfold start at h
  cases hworkers : Workers.ofSize config.workers with
  | error why =>
    rw [hworkers] at h
    cases h
  | ok workers =>
    rw [hworkers] at h
    cases h
    rfl

/-- Until the load ends the fence stands and the engine is not ready, and the memory is what the
calls have made of it before the reading and behind it. -/
theorem before_endLoad (hstart : start config estimator blobs = .ok e₀)
    (before during : List Call) (now : Timestamp) :
    let read := ((e₀.run before).readBlobs now).2
    (∃ f, (read.run during).cache.fence = some f) ∧ (read.run during).ready = false ∧
      (read.run during).cache.store = Change.afterAll e₀.cache.rules e₀.cache.store
        (e₀.changes before ++ read.changes during) := by
  intro read
  obtain ⟨hstore, hrules⟩ := e₀.store_run before
  obtain ⟨hloading, hready⟩ := e₀.standing_run before
  obtain ⟨hstoreAfter, -⟩ := read.store_run during
  obtain ⟨hloadingAfter, hreadyAfter⟩ := read.standing_run during
  have hcache : read.cache = (e₀.run before).cache := rfl
  have hflag : read.ready = (e₀.run before).ready := rfl
  refine ⟨?_, ?_, ?_⟩
  · apply Option.isSome_iff_exists.mp
    show (read.run during).cache.isLoading = true
    rw [hloadingAfter, hcache, hloading, (start_ok hstart).1]
    rfl
  · rw [hreadyAfter, hflag, hready, ready_start hstart]
  · rw [hstoreAfter, hcache, hrules, hstore, Change.afterAll_append]

/-- A load that runs with calls before it and between its reading and its merge. No error of the
blob store is in its way. The fence is down afterwards exactly if the reading has come to an end,
and the engine is ready exactly if what was read has been taken in as well. Both stay as they are,
and a commit prunes accordingly. A key that was written meanwhile and not taken away is in memory
unless the end of the load has lost it. -/
theorem load_over_iff (hstart : start config estimator blobs = .ok e₀)
    (before during : List Call) (now : Timestamp) :
    let e₁ := e₀.run before
    let e₂ := (e₁.readBlobs now).2
    let e₃ := e₂.run during
    let ended := (e₁.runLoadAmid now during).2
    (ended.cache.isLoading = false ↔ Gateway.Ends e₁.loadRules now e₁.blobs) ∧
    (ended.ready = true ↔ Gateway.Ends e₁.loadRules now e₁.blobs ∧
      ∀ loaded, (e₁.readBlobs now).1 = .ok loaded → (e₃.cache.takeIn loaded).1 = .ok ()) ∧
    (∀ later, let l := ended.run later
      l.cache.isLoading = ended.cache.isLoading ∧ l.ready = ended.ready ∧
      ∀ t, (l.commit t).2.blobs = (Gateway.commit l.cache.rules.defaultTtl l.cache.rules.budget
        (!ended.cache.isLoading) t l.cache.store l.blobs).2.2) ∧
    ∀ key entry first rest,
      e₀.changes before ++ e₂.changes during = first ++ .write key entry :: rest →
      Change.Keeps e₀.cache.rules key (Change.afterAll e₀.cache.rules e₀.cache.store first)
        (.write key entry :: rest) →
      (ended.cache.store.find? key = none ↔
        ∃ loaded, (e₁.readBlobs now).1 = .ok loaded ∧ e₃.cache.Loses loaded key) := by
  intro e₁ e₂ e₃ ended
  obtain ⟨⟨f, hf⟩, hunready, hstore⟩ : (∃ f, e₃.cache.fence = some f) ∧ e₃.ready = false ∧
      e₃.cache.store = Change.afterAll e₀.cache.rules e₀.cache.store
        (e₀.changes before ++ e₂.changes during) := before_endLoad hstart before during now
  have hends := e₁.readBlobs_ends_iff now
  have hheld (key : String) (entry : Entry) (first rest : List Change)
      (hsplit : e₀.changes before ++ e₂.changes during = first ++ .write key entry :: rest)
      (hkeeps : Change.Keeps e₀.cache.rules key
        (Change.afterAll e₀.cache.rules e₀.cache.store first) (.write key entry :: rest)) :
      e₃.cache.store.find? key ≠ none := by
    rw [hstore, hsplit]
    exact Change.held_of_written hkeeps
  have hlater (later : List Call) : (ended.run later).cache.isLoading = ended.cache.isLoading ∧
      (ended.run later).ready = ended.ready ∧
      ∀ t, ((ended.run later).commit t).2.blobs =
        (Gateway.commit (ended.run later).cache.rules.defaultTtl
          (ended.run later).cache.rules.budget (!ended.cache.isLoading) t
          (ended.run later).cache.store (ended.run later).blobs).2.2 := by
    obtain ⟨hloading, hready⟩ := ended.standing_run later
    refine ⟨hloading, hready, fun t => ?_⟩
    rw [← hloading]
    exact (ended.run later).blobs_commit t
  cases hread : (e₁.readBlobs now).1 with
  | error why =>
    have hstate : ended = e₃ := by
      show (e₁.runLoadAmid now during).2 = _
      unfold runLoadAmid
      rw [(Prod.ext hread rfl : e₁.readBlobs now = (.error why, e₂))]
    have hbroken : ¬ Gateway.Ends e₁.loadRules now e₁.blobs := by
      rw [← hends, hread]
      simp
    refine ⟨?_, ?_, hlater, ?_⟩
    · simp [hstate, hbroken, Cache.isLoading, hf]
    · simp [hstate, hbroken, hunready]
    · intro key entry first rest hsplit hkeeps
      simp [hstate, hheld key entry first rest hsplit hkeeps]
  | ok loaded =>
    have hstate : ended = (e₃.endLoad loaded).2 := by
      show (e₁.runLoadAmid now during).2 = _
      unfold runLoadAmid
      rw [(Prod.ext hread rfl : e₁.readBlobs now = (.ok loaded, e₂))]
    have hended : Gateway.Ends e₁.loadRules now e₁.blobs := hends.mp ⟨loaded, hread⟩
    obtain ⟨hcache, hready⟩ := e₃.endLoad_snd loaded
    refine ⟨?_, ?_, hlater, ?_⟩
    · rw [hstate, hcache, Cache.isLoading, Cache.fence_takeIn]
      simp [hended]
    · rw [hstate, hready]
      simp [hended, hunready]
    · intro key entry first rest hsplit hkeeps
      rw [hstate, hcache,
        Cache.find?_takeIn_eq_none_iff hf (hheld key entry first rest hsplit hkeeps)]
      simp

/-- The blobs of a namespace with one blob that is far beyond the retention. -/
def outlivedBlobs (faults : Faults) : Watched MemoryBlobs :=
  .start ⟨(∅ : BlobMap).insert "old"
    "\x7b\"serializedValue\":\"x\",\"timestamp\":5,\"timeToLive\":null\x7d"⟩ faults

/-- An engine over them. -/
def overOutlived (faults : Faults) : Engine (Watched MemoryBlobs) :=
  { standard with blobs := outlivedBlobs faults }

/-- The deletion of the blob and the flush are refused. -/
def refusals : Faults :=
  { Faults.none with
    flush := some .refuse
    remove := (∅ : Table String Fault).insert "old" .refuse }

/-- The load ends nevertheless, and loses no key that was written meanwhile. -/
theorem load_over_iff_refused :
    ∃ e read ended : Engine (Watched MemoryBlobs),
      e = (overOutlived refusals).run [.put 1700000000000 "a" "live" none] ∧
      e.readBlobs 1700000000001 = (.ok none, read) ∧
      (e.runLoadAmid 1700000000001 [.put 1700000000002 "b" "live" none]).2 = ended ∧
      ended.cache.isLoading = false ∧ ended.ready = true ∧
      ended.cache.store.find? "b" = some ⟨"live", 1700000000002, none⟩ ∧
      Gateway.Ends e.loadRules 1700000000001 e.blobs ∧
      ¬ (read.run [.put 1700000000002 "b" "live" none]).cache.Loses none "b" := by
  have hstart : start .standard .standard (outlivedBlobs refusals) = .ok (overOutlived refusals) :=
    rfl
  obtain ⟨hloading, -, -, hkeys⟩ := load_over_iff hstart
    [.put 1700000000000 "a" "live" none] [.put 1700000000002 "b" "live" none] 1700000000001
  have hread : (((overOutlived refusals).run [.put 1700000000000 "a" "live" none]).readBlobs
      1700000000001).1 = .ok none := by decide +kernel
  refine ⟨_, _, _, rfl, Prod.ext hread rfl, rfl, by decide +kernel, by decide +kernel,
    by decide +kernel, hloading.mp (by decide +kernel), fun hloses => ?_⟩
  have hlost := (hkeys "b" ⟨"live", 1700000000002, none⟩
    [.write "a" ⟨"live", 1700000000000, none⟩] [] (by decide +kernel)
    ⟨Change.not_takes_write (by decide +kernel) (by decide +kernel), trivial⟩).mpr
      ⟨none, hread, hloses⟩
  revert hlost
  decide +kernel

/-- A blob store that breaks down when it is listed leaves the fence standing, and the engine is
never ready. -/
theorem not_load_over :
    ¬ ∀ (blobs : Watched MemoryBlobs) (e₀ : Engine (Watched MemoryBlobs)),
      start .standard .standard blobs = .ok e₀ →
      ∀ (before during : List Call) (now : Timestamp),
        ((e₀.run before).runLoadAmid now during).2.cache.isLoading = false ∧
          ((e₀.run before).runLoadAmid now during).2.ready = true := by
  intro hall
  have hstart : start .standard .standard
      (outlivedBlobs { Faults.none with getAll := some .breakDown }) =
        .ok (overOutlived { Faults.none with getAll := some .breakDown }) := rfl
  obtain ⟨-, hready⟩ := hall _ _ hstart [] [] 1700000000000
  revert hready
  decide

end Engine

end DurableCache
