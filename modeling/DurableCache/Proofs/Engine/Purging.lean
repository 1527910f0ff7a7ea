import DurableCache.Proofs.Engine.Clock
import DurableCache.Proofs.Engine.FreshWrites
import DurableCache.Proofs.Engine.Histories
import DurableCache.Proofs.Gateway.StaleEntries
import DurableCache.Proofs.Store.Shedding

/-!
# Purges cannot be observed

A purge takes away what no call would serve again. So a run with purges delivers what the run
without them delivers, runs the same fetches, leaves the same blobs and holds the same fresh entries
(`seen_unpurged`). The two runs move in step: what the one has in memory is what the other has, but
for entries that have grown stale.

A lookup of a stale entry reads the clock, and without the entry it does not. So the two runs part
where the clock has passed the last time that it can show.

The end of a load is none of the calls of these runs. What the load brings must be no older than the
entry of its key, so behind a purge it may put an entry in place that an entry which has grown stale
would have kept out, and the two runs may part there.
-/

namespace DurableCache

/-- A result that is turned into another one is abandoned for the same reason. -/
theorem abort?_map {α β : Type} (result : Except Abort α) (f : α → β) :
    abort? (result.map f) = abort? result := by
  cases result <;> rfl

namespace Delivery

/-- A delivery whose value is converted. -/
def converted {α : Type} (d : Delivery String) (converter : Converter α) : Delivery α :=
  ⟨d.fetched, d.result.map fun value => value.bind fun text => (converter text).toOption⟩

end Delivery

namespace Cache

variable {c p begun left : Cache} {time now returned : Timestamp} {key value : String}
variable {timeToLive : Option UInt64} {entry : Entry} {fetched : Fetched} {fetch : Fetch}

/-! ### Answers of a cache -/

/-- What a conversion comes to does not depend on the cache. -/
theorem convert_fst {α : Type} (c : Cache) (converter : Converter α) (text : String) :
    (c.convert converter text).1 = (converter text).toOption := by
  unfold convert
  cases converter text <;> rfl

/-- A lookup with a conversion converts what the lookup finds. -/
theorem lookupAs_fst {α : Type} (c : Cache) (now : Timestamp) (converter : Converter α)
    (key : String) : (c.lookupAs now converter key).1 =
      (c.lookup now key).1.map fun value => value.bind fun text => (converter text).toOption := by
  unfold lookupAs
  cases c.lookup now key with
  | mk answer found =>
    match answer with
    | .error why => rfl
    | .ok none => rfl
    | .ok (some text) => exact congrArg Except.ok (found.convert_fst converter text)

/-- A population with a conversion converts what the population delivers. -/
theorem populateAs_fst {α : Type} (c : Cache) (now returned : Timestamp) (converter : Converter α)
    (key : String) (timeToLive : Option UInt64) (fetch : Fetch) :
    (c.populateAs now returned converter key timeToLive fetch).1 =
      (c.populate now returned key timeToLive fetch).1.converted converter := by
  unfold populateAs
  cases c.populate now returned key timeToLive fetch with
  | mk delivery filled =>
    match delivery with
    | ⟨_, .error why⟩ => rfl
    | ⟨_, .ok none⟩ => rfl
    | ⟨started, .ok (some text)⟩ =>
      exact congrArg (fun value => Delivery.mk started (.ok value))
        (filled.convert_fst converter text)

/-- A write for which there is room succeeds. -/
theorem insert_of_easy (h : (Change.write key entry).Easy c.rules c.store) :
    (c.insert key entry).1 = .ok () := by
  obtain ⟨previous, written, hput, hwithin⟩ := Change.easy_write_iff.mp h
  unfold insert
  simp only [hput, trim, Store.trim_of_le hwithin]

/-! ### Caches that have shed stale entries -/

/-- A cache has shed entries of another one that are stale at a time. Their counters may differ. -/
structure Sheds (time : Timestamp) (c p : Cache) : Prop where
  rules : p.rules = c.rules
  fence : p.fence = c.fence
  store : c.store.Sheds c.rules time p.store

namespace Sheds

/-- Calls that keep the memory of both keep it so. -/
theorem keep (h : c.Sheds time p) (hc : c.Turns .keep begun) (hp : p.Turns .keep left) :
    begun.Sheds time left := by
  obtain ⟨hrules, hfence, hstore⟩ := hc.parts
  obtain ⟨hrules', hfence', hstore'⟩ := hp.parts
  refine ⟨?_, ?_, ?_⟩
  · rw [hrules', hrules, h.rules]
  · rw [hfence', hfence, h.fence]
  · rw [hstore, hstore', hrules]
    exact h.store

/-- A lookup finds the same, unless the clock has run past its last time. -/
theorem lookup (h : c.Sheds time p) (hle : time ≤ now)
    (hshown : (c.lookup now key).1 ≠ .error .clockOverrun) :
    (p.lookup now key).1 = (c.lookup now key).1 := by
  unfold Cache.lookup at hshown ⊢
  rcases h.store.held key with hsame | ⟨hnone, entry, hheld, hstale⟩
  · rw [hsame, h.rules]
    cases c.store.find? key with
    | none => rfl
    | some entry =>
      cases readClock now with
      | error why => rfl
      | ok shown =>
        simp only
        split <;> rfl
  · rw [hheld] at hshown
    rw [hnone, hheld]
    by_cases hclock : now ≤ latestTime
    · have hlater : entry.isStale c.rules.defaultTtl now = true := isStale_mono hle hstale
      simp [readClock, hclock, hlater]
    · simp [readClock, hclock] at hshown

/-- A population changes the same. -/
theorem populationChange (h : c.Sheds time p) (hle : time ≤ now)
    (hshown : (c.lookup now key).1 ≠ .error .clockOverrun) :
    p.populationChange now returned key timeToLive fetched =
      c.populationChange now returned key timeToLive fetched := by
  unfold Cache.populationChange
  rw [h.lookup hle hshown]

/-- A write answers the same if the whole has room for it. -/
theorem insert (h : c.Sheds time p) (heasy : (Change.write key entry).Easy c.rules c.store) :
    (p.insert key entry).1 = (c.insert key entry).1 := by
  have hleft : (Change.write key entry).Easy p.rules p.store := by
    rw [h.rules]
    exact (heasy.sheds h.store).1
  rw [insert_of_easy heasy, insert_of_easy hleft]

/-- A write of a value answers the same. -/
theorem write (h : c.Sheds time p)
    (heasy : (Change.writeAt now key value timeToLive).Easy c.rules c.store) :
    (p.write now key value timeToLive).1 = (c.write now key value timeToLive).1 := by
  unfold Change.writeAt at heasy
  unfold Cache.write readClock
  by_cases hclock : now ≤ latestTime
  · rw [if_pos hclock] at heasy
    simp only [if_pos hclock]
    exact h.insert heasy
  · simp only [if_neg hclock]

/-- The write of a job answers the same. -/
theorem finishPopulation (h : c.Sheds time p)
    (heasy : (Change.ofFetched returned key timeToLive fetched).Easy c.rules c.store) :
    (p.finishPopulation returned key timeToLive fetched).1 =
      (c.finishPopulation returned key timeToLive fetched).1 := by
  cases fetched with
  | nothing => rfl
  | failed => rfl
  | broken => rfl
  | value text =>
    have hwrite := h.write heasy
    unfold Cache.finishPopulation
    cases hc : c.write returned key text timeToLive with
    | mk answer written =>
      cases hp : p.write returned key text timeToLive with
      | mk answer' written' =>
        rw [hc, hp] at hwrite
        simp only at hwrite
        subst hwrite
        simp only [hc, hp]
        cases answer' <;> rfl

/-- A population delivers the same, and runs its fetch in the same cases. -/
theorem populate (h : c.Sheds time p) (hle : time ≤ now)
    (heasy : (c.populationChange now returned key timeToLive (fetch key)).Easy c.rules c.store)
    (hshown : (c.lookup now key).1 ≠ .error .clockOverrun) :
    (p.populate now returned key timeToLive fetch).1 =
      (c.populate now returned key timeToLive fetch).1 := by
  have hlookup := h.lookup hle hshown
  have hkeep := c.turns_beginPopulation now key
  have hbegun := h.keep hkeep (p.turns_beginPopulation now key)
  rw [← beginPopulation_fst, ← beginPopulation_fst] at hlookup
  unfold Cache.populationChange at heasy
  rw [← beginPopulation_fst] at heasy
  unfold Cache.populate
  cases hc : c.beginPopulation now key with
  | mk answer begun =>
    cases hp : p.beginPopulation now key with
    | mk answer' left =>
      rw [hc, hp] at hlookup hbegun
      rw [hc] at heasy hkeep
      simp only at hlookup
      subst hlookup
      match answer' with
      | .error why => rfl
      | .ok (some value) => rfl
      | .ok none =>
        obtain ⟨hrules, -, hstore⟩ := hkeep.parts
        simp only at heasy
        rw [← hrules, ← hstore] at heasy
        exact congrArg (Delivery.mk true) (hbegun.finishPopulation heasy)

end Sheds

end Cache

/-! ### What callers see -/

/-- Whether a call is a purge. -/
def Call.isPurge : Call → Bool
  | .purge _ => true
  | .get _ _ | .getAs _ _ _ | .put _ _ _ _ | .putJson _ _ _ _ | .invalidate _ | .clear
  | .populate _ _ _ _ _ | .populateAs _ _ _ _ _ _ | .memoize _ _ _ _ _ _ | .beginJob _ _
  | .finishJob _ _ _ _ | .commit _ => false

/-- A list of calls without the purges. -/
def unpurged (calls : List Call) : List Call := calls.filter fun call => !call.isPurge

namespace Engine

/-- What a call shows to the outside: a lookup what it finds, a population what it delivers and
whether it runs its fetch, and a commit what it answers and the blobs that it leaves. The number of
stale entries that a commit has passed over is left out. -/
inductive Seen (σ : Type) : Type 1 where
  | found {α : Type} (answer : Except Abort (Option α))
  | delivered {α : Type} (delivery : Delivery α)
  | committed (outcome : Outcome CommitReport) (blobs : σ)

variable {σ : Type} [BlobStore σ]

/-- What is seen of a call. -/
def observe (e : Engine σ) : Call → Option (Seen σ)
  | .get now key => some (.found (e.get now key).1)
  | .getAs now converter key => some (.found (e.getAs now converter key).1)
  | .populate now returned key timeToLive fetch =>
    some (.delivered (e.populate now returned key timeToLive fetch).1)
  | .populateAs now returned converter key timeToLive fetch =>
    some (.delivered (e.populateAs now returned converter key timeToLive fetch).1)
  | .memoize now returned operation parts timeToLive produced =>
    some (.delivered (e.memoize now returned operation parts timeToLive produced).1)
  | .beginJob now key => some (.found (e.cache.beginPopulation now key).1)
  | .finishJob returned key timeToLive fetched =>
    some (.found (e.cache.finishPopulation returned key timeToLive fetched).1)
  | .commit now =>
    some (.committed ((e.commit now).1.map CommitReport.uncounted) (e.commit now).2.blobs)
  | .put _ _ _ _ | .putJson _ _ _ _ | .invalidate _ | .clear | .purge _ => none

/-- What is seen of a list of calls. -/
def seen (e : Engine σ) : List Call → List (Seen σ)
  | [] => []
  | call :: rest => (e.observe call).toList ++ (e.perform call).2.seen rest

/-- Whether the fetch of a population was run. -/
def Seen.ranFetch : Seen σ → Bool
  | .delivered delivery => delivery.fetched
  | .found _ | .committed _ _ => false

/-- There is room for a call: the sizes of what it writes fit, and nothing needs to be evicted. -/
def Roomy (e : Engine σ) (call : Call) : Prop :=
  (e.cache.change call).Easy e.cache.rules e.cache.store

omit [BlobStore σ] in
instance (e : Engine σ) (call : Call) : Decidable (e.Roomy call) :=
  inferInstanceAs (Decidable (Change.Easy _ _ _))

/-- There is room for a call, and it is not abandoned because the clock has run past its last
time. -/
structure Undisturbed (e : Engine σ) (call : Call) : Prop where
  roomy : e.Roomy call
  shown : (e.perform call).1 ≠ some .clockOverrun

instance (e : Engine σ) (call : Call) : Decidable (e.Undisturbed call) :=
  decidable_of_iff (e.Roomy call ∧ (e.perform call).1 ≠ some .clockOverrun)
    ⟨fun h => ⟨h.1, h.2⟩, fun h => ⟨h.roomy, h.shown⟩⟩

/-- An engine has shed entries of another one that are stale at a time. The blobs are the same. -/
structure Sheds (time : Timestamp) (e f : Engine σ) : Prop where
  cache : e.cache.Sheds time f.cache
  blobs : f.blobs = e.blobs

variable {e f : Engine σ} {call : Call} {time now returned : Timestamp} {key : String}
variable {timeToLive : Option UInt64} {fetch : Fetch}

omit [BlobStore σ] in
/-- A population that is not abandoned by the clock has not been abandoned by it in its lookup. -/
theorem lookup_of_populate {c : Cache}
    (h : abort? (c.populate now returned key timeToLive fetch).1.result ≠ some .clockOverrun) :
    (c.lookup now key).1 ≠ .error .clockOverrun := by
  intro hoverrun
  rw [← Cache.beginPopulation_fst] at hoverrun
  unfold Cache.populate at h
  cases hbegin : c.beginPopulation now key with
  | mk answer begun =>
    rw [hbegin] at hoverrun h
    simp only at hoverrun
    subst hoverrun
    exact h rfl

/-- A commit of a store within the budget saves its entries. -/
theorem commit_eq_save (hwithin : e.cache.store.total ≤ e.cache.rules.budget) (now : Timestamp) :
    ((e.commit now).1, (e.commit now).2.blobs) =
      Gateway.save e.cache.rules.defaultTtl now (!e.cache.isLoading) e.cache.store.entries.rows
        ⟨0, 0, 0, 0, 0⟩ e.blobs := by
  simp only [commit, Gateway.commit, Store.trim_of_le hwithin, List.length_nil]

namespace Sheds

/-- The changes that calls make are the same. -/
theorem change (h : e.Sheds time f) (htimes : ∀ t ∈ call.times, time ≤ t)
    (hshown : (e.perform call).1 ≠ some .clockOverrun) :
    f.cache.change call = e.cache.change call := by
  have hpopulation {now returned : Timestamp} {key : String} {timeToLive : Option UInt64}
      {fetched : Fetched} (fetch : Fetch) (hle : time ≤ now)
      (hresult : abort? (e.cache.populate now returned key timeToLive fetch).1.result ≠
        some .clockOverrun) :
      f.cache.populationChange now returned key timeToLive fetched =
        e.cache.populationChange now returned key timeToLive fetched :=
    h.cache.populationChange hle (lookup_of_populate hresult)
  cases call with
  | populate now returned key timeToLive fetch =>
    exact hpopulation fetch (htimes now List.mem_cons_self) hshown
  | populateAs now returned converter key timeToLive fetch =>
    refine hpopulation fetch (htimes now List.mem_cons_self) ?_
    have habort : (e.perform (.populateAs now returned converter key timeToLive fetch)).1 =
        abort? (e.cache.populate now returned key timeToLive fetch).1.result := by
      show abort? (e.cache.populateAs now returned converter key timeToLive fetch).1.result = _
      rw [Cache.populateAs_fst, Delivery.converted, abort?_map]
    rw [← habort]
    exact hshown
  | memoize now returned operation parts timeToLive produced =>
    exact hpopulation (fun _ => produced.fetched) (htimes now List.mem_cons_self) hshown
  | putJson now key value timeToLive => cases value <;> rfl
  | _ => rfl

/-- A commit makes the same calls on the blob store, and its report differs in the number of stale
entries alone. -/
theorem commit (h : e.Sheds time f) (hle : time ≤ now)
    (hundisturbed : e.Undisturbed (.commit now)) :
    Gateway.forgetting ((f.commit now).1, (f.commit now).2.blobs) =
      Gateway.forgetting ((e.commit now).1, (e.commit now).2.blobs) := by
  have hstore := h.cache.store
  have hwithin : e.cache.store.total ≤ e.cache.rules.budget := hundisturbed.roomy
  have hwithinPart : f.cache.store.total ≤ f.cache.rules.budget := by
    rw [h.cache.rules]
    exact Nat.le_trans hstore.total_le hwithin
  have hshown : (e.commit now).1.abort? ≠ some .clockOverrun := hundisturbed.shown
  rw [congrArg Prod.fst (commit_eq_save hwithin now)] at hshown
  rw [commit_eq_save hwithinPart, commit_eq_save hwithin, h.cache.rules, h.blobs, Cache.isLoading,
    h.cache.fence, ← Cache.isLoading, hstore.rows_part]
  by_cases hclock : now ≤ latestTime
  · refine Gateway.save_of_stale hclock fun row hrow hshed => ?_
    exact isStale_mono hle (hstore.stale_of_shed hrow hshed)
  · have hempty : e.cache.store.entries.rows = [] := by
      by_contra hrows
      rw [Gateway.save_of_clockOverrun hclock hrows] at hshown
      exact hshown rfl
    rw [hempty]
    rfl

/-- The engines stay in step, and the same is seen of a call. -/
theorem perform (h : e.Sheds time f) (htimes : ∀ t ∈ call.times, time ≤ t)
    (hundisturbed : e.Undisturbed call) :
    (e.perform call).2.Sheds time (f.perform call).2 := by
  have hmade := e.made_perform call
  have hmade' := f.made_perform call
  rw [h.change htimes hundisturbed.shown] at hmade'
  refine ⟨⟨?_, ?_, ?_⟩, ?_⟩
  · rw [hmade'.rules, hmade.rules, h.cache.rules]
  · rw [hmade'.fence, hmade.fence, h.cache.fence]
  · rw [hmade'.store, hmade.store, hmade.rules, h.cache.rules]
    exact (hundisturbed.roomy.sheds h.cache.store).2
  · by_cases hcommit : ∃ now, call = .commit now
    · obtain ⟨now, rfl⟩ := hcommit
      have hcommit := h.commit (htimes now (List.mem_singleton_self now)) hundisturbed
      exact (Prod.mk.inj hcommit).2
    · have hother : ∀ now, call ≠ .commit now := fun now heq => hcommit ⟨now, heq⟩
      rw [blobs_perform f hother, blobs_perform e hother, h.blobs]

/-- The same is seen of a call. -/
theorem observe (h : e.Sheds time f) (htimes : ∀ t ∈ call.times, time ≤ t)
    (hundisturbed : e.Undisturbed call) : f.observe call = e.observe call := by
  have hroomy := hundisturbed.roomy
  have hshown := hundisturbed.shown
  have hlookup {now : Timestamp} {key : String} (hle : time ≤ now)
      (hread : abort? (e.cache.lookup now key).1 ≠ some .clockOverrun) :
      (f.cache.lookup now key).1 = (e.cache.lookup now key).1 :=
    h.cache.lookup hle fun hoverrun => hread (by rw [hoverrun]; rfl)
  have hpopulate {now returned : Timestamp} {key : String} {timeToLive : Option UInt64}
      (fetch : Fetch) (hle : time ≤ now)
      (heasy : (e.cache.populationChange now returned key timeToLive (fetch key)).Easy
        e.cache.rules e.cache.store)
      (hshown : abort? (e.cache.populate now returned key timeToLive fetch).1.result ≠
        some .clockOverrun) :
      (f.cache.populate now returned key timeToLive fetch).1 =
        (e.cache.populate now returned key timeToLive fetch).1 :=
    h.cache.populate hle heasy (lookup_of_populate hshown)
  cases call with
  | get now key =>
    exact congrArg (fun answer => some (Seen.found answer))
      (hlookup (htimes now List.mem_cons_self) hshown)
  | getAs now converter key =>
    have hread : abort? (e.cache.lookupAs now converter key).1 ≠ some .clockOverrun := hshown
    rw [Cache.lookupAs_fst, abort?_map] at hread
    show some (Seen.found (f.cache.lookupAs now converter key).1) =
      some (Seen.found (e.cache.lookupAs now converter key).1)
    rw [Cache.lookupAs_fst, Cache.lookupAs_fst, hlookup (htimes now List.mem_cons_self) hread]
  | populate now returned key timeToLive fetch =>
    exact congrArg (fun delivery => some (Seen.delivered delivery))
      (hpopulate fetch (htimes now List.mem_cons_self) hroomy hshown)
  | populateAs now returned converter key timeToLive fetch =>
    have hread : abort? (e.cache.populateAs now returned converter key timeToLive fetch).1.result ≠
        some .clockOverrun := hshown
    rw [Cache.populateAs_fst, Delivery.converted, abort?_map] at hread
    show some (Seen.delivered
        (f.cache.populateAs now returned converter key timeToLive fetch).1) =
      some (Seen.delivered (e.cache.populateAs now returned converter key timeToLive fetch).1)
    rw [Cache.populateAs_fst, Cache.populateAs_fst,
      hpopulate fetch (htimes now List.mem_cons_self) hroomy hread]
  | memoize now returned operation parts timeToLive produced =>
    exact congrArg (fun delivery => some (Seen.delivered delivery))
      (hpopulate (fun _ => produced.fetched) (htimes now List.mem_cons_self) hroomy hshown)
  | beginJob now key =>
    have hread : abort? (e.cache.beginPopulation now key).1 ≠ some .clockOverrun := hshown
    rw [Cache.beginPopulation_fst] at hread
    show some (Seen.found (f.cache.beginPopulation now key).1) =
      some (Seen.found (e.cache.beginPopulation now key).1)
    rw [Cache.beginPopulation_fst, Cache.beginPopulation_fst,
      hlookup (htimes now List.mem_cons_self) hread]
  | finishJob returned key timeToLive fetched =>
    exact congrArg (fun answer => some (Seen.found answer)) (h.cache.finishPopulation hroomy)
  | commit now =>
    obtain ⟨houtcome, hblobs⟩ := Prod.mk.inj (h.commit (htimes now List.mem_cons_self) hundisturbed)
    show some (Seen.committed ((f.commit now).1.map CommitReport.uncounted)
        (f.commit now).2.blobs) =
      some (Seen.committed ((e.commit now).1.map CommitReport.uncounted) (e.commit now).2.blobs)
    exact congrArg some (congrArg₂ Seen.committed houtcome hblobs)
  | _ => rfl

/-- A purge sheds what has grown stale since, unless the clock prevents it. -/
theorem purge (h : e.Sheds time f) (hle : time ≤ now) :
    e.Sheds now (f.perform (.purge now)).2 := by
  have hmade := f.made_perform (.purge now)
  have hsheds := h.cache.store
  refine ⟨⟨hmade.rules.trans h.cache.rules, ?_, ?_⟩, ?_⟩
  · rw [hmade.fence, h.cache.fence, Cache.change]
    by_cases hclock : now ≤ latestTime
    · rw [if_pos hclock]
      cases e.cache.fence <;> rfl
    · rw [if_neg hclock]
      cases e.cache.fence <;> rfl
  · rw [hmade.store, Cache.change, h.cache.rules]
    by_cases hclock : now ≤ latestTime
    · rw [if_pos hclock]
      exact hsheds.retain_part hle
    · rw [if_neg hclock]
      exact hsheds.mono hle
  · rw [blobs_perform f (fun _ heq => by cases heq), h.blobs]

end Sheds

/-! ### Runs with and without purges -/

variable {calls before : List Call} {config : Config} {estimator : Estimator} {blobs : σ}
variable {e₀ : Engine σ}

omit [BlobStore σ] in
/-- The clock does not go backwards in a beginning of a run either. -/
theorem inOrder_earlier (h : Call.InOrder calls) (hpart : before <+: calls) :
    Call.InOrder before := by
  obtain ⟨later, rfl⟩ := hpart
  unfold Call.InOrder at h ⊢
  rw [List.flatMap_append] at h
  exact (List.pairwise_append.mp h).1

/-- A run with purges and the same run without them stay in step. -/
theorem Sheds.run (h : e.Sheds time f) (hbefore : ∀ t ∈ calls.flatMap Call.times, time ≤ t)
    (horder : Call.InOrder calls) (hsmooth : e.Throughout Undisturbed (unpurged calls)) :
    f.seen calls = e.seen (unpurged calls) ∧
      ∀ later, time ≤ later → (∀ t ∈ calls.flatMap Call.times, t ≤ later) →
        (e.run (unpurged calls)).Sheds later (f.run calls) := by
  induction calls generalizing e f time with
  | nil =>
    refine ⟨rfl, fun later hle _ => ?_⟩
    obtain ⟨⟨hrules, hfence, hstore⟩, hblobs⟩ := h
    exact ⟨⟨hrules, hfence, hstore.mono hle⟩, hblobs⟩
  | cons call rest ih =>
    unfold Call.InOrder at horder
    rw [List.flatMap_cons] at horder hbefore
    obtain ⟨-, horderRest, hacross⟩ := List.pairwise_append.mp horder
    have hrest (t : Timestamp) (ht : t ∈ rest.flatMap Call.times) : time ≤ t :=
      hbefore t (List.mem_append_right _ ht)
    by_cases hpurge : ∃ now, call = .purge now
    · -- The run without purges stands still.
      obtain ⟨now, rfl⟩ := hpurge
      have hnow : now ∈ (Call.purge now).times := List.mem_singleton_self now
      have hstep := h.purge (hbefore now (List.mem_append_left _ hnow))
      obtain ⟨hseen, hrun⟩ := ih hstep (hacross now hnow) horderRest hsmooth
      refine ⟨hseen, fun later _ hlast => ?_⟩
      rw [List.flatMap_cons] at hlast
      apply hrun later (hlast now (List.mem_append_left _ hnow))
      exact fun t ht => hlast t (List.mem_append_right _ ht)
    · have hkept : unpurged (call :: rest) = call :: unpurged rest := by
        unfold unpurged
        rw [List.filter_cons, if_pos]
        cases call with
        | purge now => exact absurd ⟨now, rfl⟩ hpurge
        | _ => rfl
      rw [hkept] at hsmooth ⊢
      obtain ⟨hundisturbed, hsmoothRest⟩ := hsmooth
      have htimes (t : Timestamp) (ht : t ∈ call.times) : time ≤ t :=
        hbefore t (List.mem_append_left _ ht)
      have hstep := h.perform htimes hundisturbed
      obtain ⟨hseen, hrun⟩ := ih hstep hrest horderRest hsmoothRest
      refine ⟨?_, fun later hle hlast => ?_⟩
      · rw [seen, seen, h.observe htimes hundisturbed, hseen]
      · rw [List.flatMap_cons] at hlast
        exact hrun later hle fun t ht => hlast t (List.mem_append_right _ ht)

omit [BlobStore σ] in
/-- A purge answers the number of the stale entries, and takes these away and no others. -/
theorem purgeStale_answers (e : Engine σ) (hclock : now ≤ latestTime) :
    ∃ keys : List String, keys.Nodup ∧ (e.purgeStale now).1 = .ok keys.length ∧
      (∀ key, key ∈ keys ↔ ∃ entry, e.cache.store.find? key = some entry ∧
        entry.isStale e.cache.rules.defaultTtl now = true) ∧
      ∀ key, (e.purgeStale now).2.cache.store.find? key =
        if key ∈ keys then none else e.cache.store.find? key := by
  let stale : String → Entry → Bool := fun _ entry => entry.isStale e.cache.rules.defaultTtl now
  let keys := (e.cache.store.entries.filter fun key entry => !!stale key entry).keys
  have hread : readClock now = .ok now := readClock_eq_ok_iff.mpr ⟨hclock, rfl⟩
  refine ⟨keys, Table.keys_nodup _, ?_, fun key => ?_, fun key => ?_⟩
  · simp only [purgeStale, onCache, Cache.purge, hread]
    rfl
  · rw [Table.mem_keys_iff]
    simp only [Table.find?_filter, Store.find?_entries, Option.filter_eq_some_iff, Bool.not_not]
    rfl
  · simp only [purgeStale, onCache, Cache.purge, hread]
    exact Store.find?_eraseAll e.cache.store keys key

/-- Purges anywhere in a run that has room, evicts nothing and in which no call is abandoned because
the clock has run past its last time, change nothing that is seen of the other calls, no blobs and
no fresh entry; what is missing has grown stale. Whenever the clock can show the time, a purge takes
exactly the stale entries away and answers their number. Whatever has happened to the engine before
does not matter, and a load may be running, but its end is no call of the run. -/
theorem seen_unpurged (hstart : start config estimator blobs = .ok e₀)
    (hbecomes : e₀.Becomes (fun _ _ => True) e) (horder : Call.InOrder calls)
    (hsmooth : e.Throughout Undisturbed (unpurged calls)) :
    ∀ before, before <+: calls →
      e.seen before = e.seen (unpurged before) ∧
      (e.run before).blobs = (e.run (unpurged before)).blobs ∧
      (∀ time, (∀ t ∈ before.flatMap Call.times, t ≤ time) → ∀ key,
        ((e.run before).cache.store.find? key).filter
            (fun entry => !entry.isStale e.cache.rules.defaultTtl time) =
          ((e.run (unpurged before)).cache.store.find? key).filter
            (fun entry => !entry.isStale e.cache.rules.defaultTtl time) ∧
        ((e.run before).cache.store.find? key = (e.run (unpurged before)).cache.store.find? key ∨
          ((e.run before).cache.store.find? key = none ∧
            ∃ entry, (e.run (unpurged before)).cache.store.find? key = some entry ∧
              entry.isStale e.cache.rules.defaultTtl time = true))) ∧
      ∀ now ≤ latestTime, ∃ keys : List String, keys.Nodup ∧
        ((e.run before).purgeStale now).1 = .ok keys.length ∧
        (∀ key, key ∈ keys ↔ ∃ entry, (e.run before).cache.store.find? key = some entry ∧
          entry.isStale e.cache.rules.defaultTtl now = true) ∧
        ∀ key, ((e.run before).purgeStale now).2.cache.store.find? key =
          if key ∈ keys then none else (e.run before).cache.store.find? key := by
  intro before hpart
  have htallied : e.Tallied := hbecomes.tallied (tallied_start hstart)
  have hrules (run : List Call) :
      (e.run run).cache.rules.defaultTtl = e.cache.rules.defaultTtl := by
    rw [(e.store_run run).2]
  have hself : e.Sheds 0 e := ⟨⟨rfl, rfl, .refl htallied 0⟩, rfl⟩
  have hzero (t : Timestamp) : 0 ≤ t := UInt64.le_iff_toNat_le.mpr (Nat.zero_le _)
  have hgreatest (t : Timestamp) : t ≤ UInt64.ofNat (2 ^ 64 - 1) :=
    UInt64.le_iff_toNat_le.mpr (Nat.le_pred_of_lt t.toNat_lt)
  obtain ⟨hseen, hsheds⟩ := hself.run (fun t _ => hzero t) (inOrder_earlier horder hpart)
    (hsmooth.earlier (hpart.filter _))
  refine ⟨hseen, ?_, fun time hlast key => ?_, fun now hclock => ?_⟩
  · exact (hsheds (UInt64.ofNat (2 ^ 64 - 1)) (hzero _) fun t _ => hgreatest t).blobs
  · have hheld := (hsheds time (hzero time) hlast).cache.store.held key
    rw [hrules] at hheld
    refine ⟨?_, hheld⟩
    rcases hheld with hsame | ⟨hnone, entry, hwhole, hstale⟩
    · rw [hsame]
    · rw [hnone, hwhole]
      simp [Option.filter_some, hstale]
  · rw [← hrules before]
    exact (e.run before).purgeStale_answers hclock

/-- An engine whose load has ended. -/
def loadedEngine : Engine MemoryBlobs := (standard.runLoad 5).2

/-- It comes of a started one, and no load is running. -/
theorem becomes_loadedEngine :
    standard.Becomes (fun _ _ => True) loadedEngine ∧ loadedEngine.cache.isLoading = false := by
  constructor
  · have hload : loadedEngine = (standard.runLoadAmid 5 []).2 := by
      rw [loadedEngine, runLoadAmid_nil]
    rw [hload]
    exact .load 5 [] .refl trivial
  · decide

/-- Calls with a purge of one of two entries in between. -/
def purgedCalls : List Call :=
  [.put 5 "a" "x" (some 1), .put 5 "b" "y" none, .purge 7, .get 8 "a",
    .populate 8 9 "a" none (fun _ => .value "z"), .commit 10]

/-- The purge takes the entry away, and the population runs its fetch with and without it. -/
theorem seen_unpurged_population :
    loadedEngine.seen purgedCalls = loadedEngine.seen (unpurged purgedCalls) ∧
      (loadedEngine.seen purgedCalls).map Seen.ranFetch = [false, true, false] ∧
      (loadedEngine.run (purgedCalls.take 3)).cache.store.find? "a" = none ∧
      (loadedEngine.run (unpurged (purgedCalls.take 3))).cache.store.find? "a" ≠ none := by
  have horder : Call.InOrder purgedCalls := by decide
  have hall := seen_unpurged start_standard becomes_loadedEngine.1 horder (by decide)
  obtain ⟨hseen, -⟩ := hall purgedCalls (List.prefix_refl _)
  exact ⟨hseen, by decide, by decide, by decide⟩

/-- Calls of which the last one comes when the clock has run past its last time. -/
def overrunCalls : List Call :=
  [.put 5 "a" "x" (some 1), .purge 7,
    .populate (latestTime + 1) (latestTime + 1) "a" none fun _ => .nothing]

/-- Then the lookup of the stale entry is abandoned, and without the entry the fetch runs. -/
theorem not_seen_unpurged :
    ¬ ∀ (e : Engine MemoryBlobs) (calls : List Call), standard.Becomes (fun _ _ => True) e →
      e.cache.isLoading = false → Call.InOrder calls → e.Throughout Roomy (unpurged calls) →
      e.seen calls = e.seen (unpurged calls) := by
  intro hseen
  have hsame := hseen loadedEngine overrunCalls becomes_loadedEngine.1 becomes_loadedEngine.2
    (by decide) (by decide)
  have hran := congrArg (List.map Seen.ranFetch) hsame
  revert hran
  decide

end Engine

end DurableCache
