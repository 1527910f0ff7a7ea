import DurableCache.Proofs.Engine.Reach

/-!
# Engines that are alike

No call looks at how many lookups there were, and only the end of the load looks at what the fence
remembers. So engines that differ in nothing else answer every call alike and stay alike. One of
them may remember the removal of some keys that the other one has not seen: it stays alike as long
as the load of the other one passes over these keys.
-/

namespace DurableCache

/-- The counters less the numbers of lookups. -/
def Counters.lessLookups (c : Counters) : Counters := { c with hits := 0, misses := 0, stale := 0 }

/-- A fence remembers what another one does, and the removal of some more keys. -/
structure Fence.Extends (extra : List String) (f g : Fence) : Prop where
  cleared : f.cleared = g.cleared
  removed : ∀ key, f.removed.contains key = true ↔ g.removed.contains key = true ∨ key ∈ extra

/-- A fence that remembers nothing else extends itself by no keys. -/
theorem Fence.extends_refl (f : Fence) : f.Extends [] f := ⟨rfl, fun key => by simp⟩

/-- Both fences may remember the removal of one more key. -/
theorem Fence.Extends.mark {extra : List String} {f g : Fence} (h : f.Extends extra g)
    (key : String) :
    Fence.Extends extra { f with removed := f.removed.insert key () }
      { g with removed := g.removed.insert key () } := by
  refine ⟨h.cleared, fun other => ?_⟩
  rw [Table.contains_insert, Table.contains_insert, h.removed, or_assoc]

/-- What the one fence holds off, less what the other one does not know of, is what the other one
holds off. -/
theorem Fence.Extends.delivery_eq {extra : List String} {f g : Fence} (h : f.Extends extra g)
    (loaded : Store) : Cache.delivery f loaded = Cache.delivery g (loaded.eraseAll extra) := by
  refine congrArg Table.rows (Table.ext_find? fun key => ?_)
  rw [Table.find?_filter, Table.find?_filter, Store.find?_entries, Store.find?_entries,
    Store.find?_eraseAll]
  have hremoved := h.removed key
  by_cases hkey : key ∈ extra
  · simp [hkey, hremoved]
  · simp_all

/-- Two calls have answered the same, and what they leave behind is related. -/
inductive Agree {α β : Type} (related : β → β → Prop) : α × β → α × β → Prop
  | intro {answer : α} {s t : β} (h : related s t) : Agree related (answer, s) (answer, t)

namespace Agree

variable {α β γ : Type} {related : β → β → Prop} {x y : α × β}

theorem fst_eq (h : Agree related x y) : x.1 = y.1 := by
  obtain ⟨-⟩ := h
  rfl

theorem snd (h : Agree related x y) : related x.2 y.2 := by
  obtain ⟨hrelated⟩ := h
  exact hrelated

/-- The answers may be turned into others. -/
theorem map (h : Agree related x y) (f : α → γ) : Agree related (x.map f id) (y.map f id) := by
  obtain ⟨hrelated⟩ := h
  exact .intro hrelated

end Agree

/-! ### Caches -/

/-- A cache differs from another one in the numbers of lookups, and in that it remembers the removal
of some more keys while the load runs. -/
structure Cache.Alike (extra : List String) (c d : Cache) : Prop where
  rules : c.rules = d.rules
  store : c.store = d.store
  counters : c.counters.lessLookups = d.counters.lessLookups
  fence : Option.Rel (Fence.Extends extra) c.fence d.fence

/-- Counters that differ in the numbers of lookups still do after an event of another kind. -/
theorem Counters.lessLookups_congr {k l : Counters} (h : k.lessLookups = l.lessLookups) :
    k.fetch.lessLookups = l.fetch.lessLookups ∧
      k.fetchFailure.lessLookups = l.fetchFailure.lessLookups ∧
      k.conversionFailure.lessLookups = l.conversionFailure.lessLookups ∧
      ∀ n, (k.evicted n).lessLookups = (l.evicted n).lessLookups := by
  obtain ⟨_, _, _, _, _, _, _⟩ := k
  obtain ⟨_, _, _, _, _, _, _⟩ := l
  simp only [Counters.lessLookups, Counters.mk.injEq, true_and] at h
  obtain ⟨rfl, rfl, rfl, rfl⟩ := h
  exact ⟨rfl, rfl, rfl, fun n => rfl⟩

namespace Cache.Alike

variable {extra : List String} {c d : Cache}

/-- A cache is like itself. -/
theorem refl (c : Cache) : c.Alike [] c := by
  refine ⟨rfl, rfl, rfl, ?_⟩
  cases c.fence with
  | none => exact .none
  | some f => exact .some f.extends_refl

/-- A lookup counts, and that is all. -/
theorem of_lookup (c : Cache) (now : Timestamp) (key : String) :
    (c.lookup now key).2.Alike [] c := by
  have hself := refl c
  unfold Cache.lookup
  split
  · exact ⟨rfl, rfl, rfl, hself.fence⟩
  · split
    · exact hself
    · split
      · exact ⟨rfl, rfl, rfl, hself.fence⟩
      · exact ⟨rfl, rfl, rfl, hself.fence⟩

/-- The removal of a key without an entry is remembered by the fence, and that is all. -/
theorem of_remove {key : String} (h : (c.remove key).1 = false) :
    (c.remove key).2.Alike (if c.isLoading then [key] else []) c ∧ c.store.find? key = none := by
  have hfind : c.store.find? key = none := by simpa [Cache.remove, Store.remove] using h
  have hstore : c.store.erase key = c.store :=
    Store.erase_of_find?_eq_none (by simpa [Store.find?] using hfind)
  refine ⟨⟨rfl, hstore, rfl, ?_⟩, hfind⟩
  show Option.Rel _ (c.fence.map _) c.fence
  unfold Cache.isLoading
  cases c.fence with
  | none => exact .none
  | some f =>
    refine .some ⟨rfl, fun other => ?_⟩
    rw [Table.contains_insert, or_comm]
    simp

/-- Both are loading or neither is. -/
theorem isLoading_eq (h : c.Alike extra d) : c.isLoading = d.isLoading := by
  have hfence := h.fence
  unfold Cache.isLoading
  generalize c.fence = f at hfence ⊢
  generalize d.fence = g at hfence ⊢
  cases hfence <;> rfl

theorem lookup (h : c.Alike extra d) (now : Timestamp) (key : String) :
    Agree (Alike extra) (c.lookup now key) (d.lookup now key) := by
  unfold Cache.lookup
  rw [h.store, h.rules]
  split
  · exact .intro ⟨rfl, rfl, h.counters, h.fence⟩
  · split
    · exact .intro h
    · split
      · exact .intro ⟨rfl, rfl, h.counters, h.fence⟩
      · exact .intro ⟨rfl, rfl, h.counters, h.fence⟩

theorem trim (h : c.Alike extra d) : Agree (Alike extra) c.trim d.trim := by
  unfold Cache.trim
  rw [h.store, h.rules]
  split
  · exact .intro h
  · exact .intro ⟨rfl, rfl, (Counters.lessLookups_congr h.counters).2.2.2 _, h.fence⟩

theorem insert (h : c.Alike extra d) (key : String) (entry : Entry) :
    Agree (Alike extra) (c.insert key entry) (d.insert key entry) := by
  unfold Cache.insert
  rw [h.store, h.rules]
  split
  · exact .intro ⟨rfl, rfl, h.counters, h.fence⟩
  · rename_i store _
    have hwritten : Cache.Alike extra ⟨d.rules, store, c.counters, c.fence⟩
        ⟨d.rules, store, d.counters, d.fence⟩ := ⟨rfl, rfl, h.counters, h.fence⟩
    have htrim := hwritten.trim
    generalize Cache.trim _ = x at htrim ⊢
    generalize Cache.trim _ = y at htrim ⊢
    obtain @⟨answer, _, _, htrimmed⟩ := htrim
    cases answer with
    | error why => exact .intro htrimmed
    | ok count => exact .intro htrimmed

theorem write (h : c.Alike extra d) (now : Timestamp) (key value : String)
    (timeToLive : Option UInt64) :
    Agree (Alike extra) (c.write now key value timeToLive) (d.write now key value timeToLive) := by
  unfold Cache.write
  split
  · exact .intro h
  · exact h.insert key _

theorem remove (h : c.Alike extra d) (key : String) :
    Agree (Alike extra) (c.remove key) (d.remove key) := by
  have hfence := h.fence
  unfold Cache.remove
  rw [h.store, h.rules]
  refine .intro ⟨rfl, rfl, h.counters, ?_⟩
  show Option.Rel _ (c.fence.map _) (d.fence.map _)
  generalize c.fence = f at hfence ⊢
  generalize d.fence = g at hfence ⊢
  cases hfence with
  | none => exact .none
  | @some f g hextends => exact .some (hextends.mark key)

theorem clear (h : c.Alike extra d) : Agree (Alike extra) c.clear d.clear := by
  have hfence := h.fence
  unfold Cache.clear
  rw [h.store, h.rules]
  refine .intro ⟨rfl, rfl, h.counters, ?_⟩
  show Option.Rel _ (c.fence.map _) (d.fence.map _)
  generalize c.fence = f at hfence ⊢
  generalize d.fence = g at hfence ⊢
  cases hfence with
  | none => exact .none
  | some hextends => exact .some ⟨rfl, hextends.removed⟩

theorem purge (h : c.Alike extra d) (now : Timestamp) :
    Agree (Alike extra) (c.purge now) (d.purge now) := by
  unfold Cache.purge
  split
  · exact .intro h
  · rw [h.store, h.rules]
    exact .intro ⟨rfl, rfl, h.counters, h.fence⟩

theorem convert {α : Type} (h : c.Alike extra d) (converter : Converter α) (text : String) :
    Agree (Alike extra) (c.convert converter text) (d.convert converter text) := by
  unfold Cache.convert
  split
  · exact .intro h
  · exact .intro ⟨h.rules, h.store, (Counters.lessLookups_congr h.counters).2.2.1, h.fence⟩

theorem lookupAs {α : Type} (h : c.Alike extra d) (now : Timestamp) (converter : Converter α)
    (key : String) :
    Agree (Alike extra) (c.lookupAs now converter key) (d.lookupAs now converter key) := by
  have hlookup := h.lookup now key
  unfold Cache.lookupAs
  generalize c.lookup now key = x at hlookup ⊢
  generalize d.lookup now key = y at hlookup ⊢
  obtain @⟨answer, _, _, hfound⟩ := hlookup
  cases answer with
  | error why => exact .intro hfound
  | ok value =>
    cases value with
    | none => exact .intro hfound
    | some text => exact (hfound.convert converter text).map Except.ok

theorem beginPopulation (h : c.Alike extra d) (now : Timestamp) (key : String) :
    Agree (Alike extra) (c.beginPopulation now key) (d.beginPopulation now key) := by
  have hlookup := h.lookup now key
  unfold Cache.beginPopulation
  generalize c.lookup now key = x at hlookup ⊢
  generalize d.lookup now key = y at hlookup ⊢
  obtain @⟨answer, _, _, hfound⟩ := hlookup
  cases answer with
  | error why => exact .intro hfound
  | ok value =>
    cases value with
    | some text => exact .intro hfound
    | none =>
      have hcounters := (Counters.lessLookups_congr hfound.counters).1
      exact .intro ⟨hfound.rules, hfound.store, hcounters, hfound.fence⟩

theorem finishPopulation (h : c.Alike extra d) (returned : Timestamp) (key : String)
    (timeToLive : Option UInt64) (fetched : Fetched) :
    Agree (Alike extra) (c.finishPopulation returned key timeToLive fetched)
      (d.finishPopulation returned key timeToLive fetched) := by
  have hfailure : Agree (Alike extra)
      ((.ok none : Except Abort (Option String)), { c with counters := c.counters.fetchFailure })
      (.ok none, { d with counters := d.counters.fetchFailure }) :=
    .intro ⟨h.rules, h.store, (Counters.lessLookups_congr h.counters).2.1, h.fence⟩
  cases fetched with
  | nothing => exact hfailure
  | failed => exact hfailure
  | broken => exact hfailure
  | value text =>
    have hwrite := h.write returned key text timeToLive
    simp only [Cache.finishPopulation]
    generalize c.write returned key text timeToLive = x at hwrite ⊢
    generalize d.write returned key text timeToLive = y at hwrite ⊢
    obtain @⟨answer, _, _, hwritten⟩ := hwrite
    cases answer with
    | error why => exact .intro hwritten
    | ok _ => exact .intro hwritten

theorem populate (h : c.Alike extra d) (now returned : Timestamp) (key : String)
    (timeToLive : Option UInt64) (fetch : Fetch) :
    Agree (Alike extra) (c.populate now returned key timeToLive fetch)
      (d.populate now returned key timeToLive fetch) := by
  have hbegin := h.beginPopulation now key
  unfold Cache.populate
  generalize c.beginPopulation now key = x at hbegin ⊢
  generalize d.beginPopulation now key = y at hbegin ⊢
  obtain @⟨answer, _, _, hbegun⟩ := hbegin
  cases answer with
  | error why => exact .intro hbegun
  | ok value =>
    cases value with
    | some text => exact .intro hbegun
    | none =>
      exact (hbegun.finishPopulation returned key timeToLive (fetch key)).map (Delivery.mk true)

theorem populateAs {α : Type} (h : c.Alike extra d) (now returned : Timestamp)
    (converter : Converter α) (key : String) (timeToLive : Option UInt64) (fetch : Fetch) :
    Agree (Alike extra) (c.populateAs now returned converter key timeToLive fetch)
      (d.populateAs now returned converter key timeToLive fetch) := by
  have hpopulate := h.populate now returned key timeToLive fetch
  unfold Cache.populateAs
  generalize c.populate now returned key timeToLive fetch = x at hpopulate ⊢
  generalize d.populate now returned key timeToLive fetch = y at hpopulate ⊢
  obtain @⟨delivery, _, _, hfilled⟩ := hpopulate
  obtain ⟨started, result⟩ := delivery
  cases result with
  | error why => exact .intro hfilled
  | ok value =>
    cases value with
    | none => exact .intro hfilled
    | some text =>
      exact (hfilled.convert converter text).map fun value => Delivery.mk started (.ok value)

/-- The end of a load is the same for both if the other one passes over the keys whose removal it
has not seen. -/
theorem finishLoad (h : c.Alike extra d) (hloading : c.isLoading = true ∨ extra = [])
    (loaded : Option Store) :
    Agree (Alike extra) (c.finishLoad loaded)
      (d.finishLoad (loaded.map fun s => s.eraseAll extra)) := by
  have hextends : Fence.Extends extra (c.fence.getD .fresh) (d.fence.getD .fresh) := by
    have hfence := h.fence
    unfold Cache.isLoading at hloading
    generalize c.fence = f at hfence hloading ⊢
    generalize d.fence = g at hfence ⊢
    cases hfence with
    | none =>
      obtain rfl : extra = [] := hloading.resolve_left Bool.false_ne_true
      exact Fence.extends_refl .fresh
    | some hextends => exact hextends
  cases loaded with
  | none => exact .intro ⟨h.rules, h.store, h.counters, .none⟩
  | some loaded =>
    have hdelivery : ∀ (f : Fence) (loaded : Store),
        (loaded.entries.rows.filter fun row => !f.removed.contains row.1) =
          Cache.delivery f loaded := fun _ _ => rfl
    simp only [Cache.finishLoad, Option.map_some, hdelivery, hextends.cleared,
      hextends.delivery_eq, h.store, h.rules]
    split
    · exact .intro ⟨rfl, rfl, h.counters, .none⟩
    · exact .intro ⟨rfl, rfl, h.counters, .none⟩

end Cache.Alike

/-! ### Engines -/

/-- An engine whose cache differs from that of another one in the numbers of lookups and in what its
fence remembers, and that is the same otherwise. -/
structure Engine.Alike {σ : Type} (extra : List String) (e f : Engine σ) : Prop where
  cache : e.cache.Alike extra f.cache
  blobs : e.blobs = f.blobs
  retentionDays : e.retentionDays = f.retentionDays
  ready : e.ready = f.ready
  workers : e.workers = f.workers

namespace Engine.Alike

variable {σ α : Type} {extra : List String} {e f : Engine σ}

/-- An engine is like itself. -/
theorem refl (e : Engine σ) : e.Alike [] e := ⟨.refl e.cache, rfl, rfl, rfl, rfl⟩

/-- A load judges entries by the same rules. -/
theorem loadRules_eq (h : e.Alike extra f) : e.loadRules = f.loadRules := by
  unfold Engine.loadRules
  rw [h.cache.rules, h.retentionDays]

/-- Engines stay alike if their caches do and nothing else changes. -/
theorem onCache (h : e.Alike extra f) {c d : Cache} (hcache : c.Alike extra d) :
    Alike extra { e with cache := c } { f with cache := d } :=
  ⟨hcache, h.blobs, h.retentionDays, h.ready, h.workers⟩

/-- Engines stay alike over other blobs that are the same. -/
theorem onBlobs (h : e.Alike extra f) (blobs : σ) :
    Alike extra { e with blobs } { f with blobs } :=
  ⟨h.cache, rfl, h.retentionDays, h.ready, h.workers⟩

/-- Engines stay alike in a call that concerns nothing but the memory. -/
theorem within (h : e.Alike extra f) {x y : α × Cache} (hcall : Agree (Cache.Alike extra) x y) :
    Agree (Alike extra) (x.1, { e with cache := x.2 }) (y.1, { f with cache := y.2 }) := by
  obtain ⟨hcache⟩ := hcall
  exact .intro (h.onCache hcache)

variable [BlobStore σ]

theorem commit (h : e.Alike extra f) (now : Timestamp) :
    Agree (Alike extra) (e.commit now) (f.commit now) := by
  have hcounters := (Counters.lessLookups_congr h.cache.counters).2.2.2
  unfold Engine.commit
  simp only [h.cache.rules, h.cache.store, h.cache.isLoading_eq, h.blobs]
  generalize Gateway.commit f.cache.rules.defaultTtl f.cache.rules.budget (!f.cache.isLoading) now
    f.cache.store f.blobs = result
  obtain ⟨outcome, store, blobs⟩ := result
  refine .intro ⟨⟨rfl, rfl, ?_, h.cache.fence⟩, rfl, h.retentionDays, h.ready, h.workers⟩
  cases outcome with
  | done report => exact hcounters report.evicted
  | failed err => exact h.cache.counters
  | abandoned why => exact h.cache.counters

/-- Every call is abandoned by both or by neither, and leaves them alike. -/
theorem perform (h : e.Alike extra f) (call : Call) :
    Agree (Alike extra) (e.perform call) (f.perform call) := by
  cases call with
  | get now key => exact (h.within (h.cache.lookup now key)).map abort?
  | getAs now converter key => exact (h.within (h.cache.lookupAs now converter key)).map abort?
  | put now key value timeToLive =>
    exact (h.within (h.cache.write now key value timeToLive)).map abort?
  | putJson now key value timeToLive =>
    cases value with
    | error reason => exact .intro h
    | ok value =>
      have hput := h.cache.write now key value.render timeToLive
      simp only [Engine.perform, Engine.putJson, Engine.put, Engine.onCache]
      generalize e.cache.write now key value.render timeToLive = x at hput ⊢
      generalize f.cache.write now key value.render timeToLive = y at hput ⊢
      obtain @⟨answer, _, _, hwritten⟩ := hput
      cases answer with
      | error why => exact .intro (h.onCache hwritten)
      | ok _ => exact .intro (h.onCache hwritten)
  | invalidate key => exact (h.within (h.cache.remove key)).map fun _ => none
  | clear => exact (h.within h.cache.clear).map fun _ => none
  | purge now => exact (h.within (h.cache.purge now)).map abort?
  | populate now returned key timeToLive fetch =>
    exact (h.within (h.cache.populate now returned key timeToLive fetch)).map
      fun d => abort? d.result
  | populateAs now returned converter key timeToLive fetch =>
    exact (h.within (h.cache.populateAs now returned converter key timeToLive fetch)).map
      fun d => abort? d.result
  | memoize now returned operation parts timeToLive produced =>
    exact (h.within (h.cache.populate now returned (Engine.operationKey operation parts) timeToLive
      fun _ => produced.fetched)).map fun d => abort? d.result
  | beginJob now key => exact (h.within (h.cache.beginPopulation now key)).map abort?
  | finishJob returned key timeToLive fetched =>
    exact (h.within (h.cache.finishPopulation returned key timeToLive fetched)).map abort?
  | commit now => exact (h.commit now).map Outcome.abort?

end Engine.Alike

end DurableCache
