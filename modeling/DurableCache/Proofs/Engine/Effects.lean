import DurableCache.Proofs.Engine.Reach

/-!
# The effect of a call

What a change leaves of a store is a function of both: the change is applied, and the trim behind it
takes some keys away. This holds of every call on every engine (`made_perform`), of the calls that
are abandoned and of engines that are not sound as well, so it needs no condition on sizes.
-/

namespace DurableCache

namespace Store

/-- The keys that a trim takes away; one that has no end takes none. -/
def trimmedKeys (budget : Nat) (s : Store) : List String :=
  ((s.trim budget).map Prod.fst).getD []

/-- A trim that ends takes the trimmed keys. -/
theorem trimmedKeys_of_trim {budget : Nat} {s kept : Store} {evicted : List String}
    (h : s.trim budget = some (evicted, kept)) :
    trimmedKeys budget s = evicted ∧ kept = s.eraseAll (trimmedKeys budget s) := by
  have hkeys : trimmedKeys budget s = evicted := by simp [trimmedKeys, h]
  rw [hkeys]
  exact ⟨rfl, trim_eq_eraseAll h⟩

/-- A write that is abandoned changes the lookup of its own key at most. -/
theorem find?_put_of_ne {estimator : Estimator} {s : Store} {key other : String} {entry : Entry}
    (h : other ≠ key) : (s.put estimator key entry).2.find? other = s.find? other := by
  cases hput : s.put estimator key entry with
  | mk answer written =>
    cases answer with
    | ok previous => rw [find?_put_ok hput, if_neg h]
    | error why =>
      obtain ⟨-, hleft⟩ := put_error hput
      show written.find? other = s.find? other
      rw [hleft]
      split
      · rfl
      · rw [halfWritten, find?_mark, find?_erase, if_neg h]

end Store

namespace Change

/-- The store that a change makes before any trim. -/
def applied (rules : CacheRules) (s : Store) : Change → Store
  | .keep | .trim => s
  | .write key entry => (s.put rules.estimator key entry).2
  | .remove key => s.erase key
  | .clear => .empty
  | .purge now => (s.retain fun _ entry => !entry.isStale rules.defaultTtl now).2

/-- The keys that the trim behind a change takes away. A write that is abandoned is not followed
by a trim. -/
def evicted (rules : CacheRules) (s : Store) : Change → List String
  | .keep | .remove _ | .clear | .purge _ => []
  | .write key entry =>
    match s.put rules.estimator key entry with
    | (.ok _, written) => written.trimmedKeys rules.budget
    | (.error _, _) => []
  | .trim => s.trimmedKeys rules.budget

/-- The store that a change leaves. -/
def after (rules : CacheRules) (s : Store) (change : Change) : Store :=
  (change.applied rules s).eraseAll (change.evicted rules s)

variable {rules : CacheRules} {change : Change} {s : Store} {key : String}

/-- A change keeps the sum right, even if its write is abandoned. -/
theorem tallied_after (h : s.Tallied rules.estimator) (change : Change) :
    (change.after rules s).Tallied rules.estimator := by
  refine Store.Tallied.eraseAll ?_ _
  cases change with
  | keep => exact h
  | trim => exact h
  | write key entry => exact h.put key entry
  | remove key => exact h.erase key
  | clear => exact Store.tallied_empty
  | purge now => exact h.retain _

/-- A change that does not write a key, remove it or clear the store, and whose trim does not take
it, leaves the entry under it as it is, unless it purges an entry that is stale. -/
theorem find?_after (hwritten : change.written? key = none) (hremove : change ≠ .remove key)
    (hclear : change ≠ .clear) (hevicted : key ∉ change.evicted rules s) :
    (change.after rules s).find? key = s.find? key ∨
      ∃ now entry, change = .purge now ∧ s.find? key = some entry ∧
        entry.isStale rules.defaultTtl now = true := by
  rw [after, Store.find?_eraseAll, if_neg hevicted]
  cases change with
  | keep => exact Or.inl rfl
  | write k entry =>
    have hne : key ≠ k := by
      rintro rfl
      simp [written?] at hwritten
    exact Or.inl (Store.find?_put_of_ne hne)
  | remove k =>
    have hne : key ≠ k := by
      rintro rfl
      exact hremove rfl
    rw [applied, Store.find?_erase, if_neg hne]
    exact Or.inl rfl
  | clear => exact absurd rfl hclear
  | purge now =>
    rw [applied, Store.find?_retain]
    cases hfind : s.find? key with
    | none => exact Or.inl rfl
    | some entry =>
      cases hstale : entry.isStale rules.defaultTtl now with
      | true => exact Or.inr ⟨now, entry, rfl, rfl, hstale⟩
      | false => exact Or.inl (by rw [Option.filter_some, if_pos (by rw [hstale]; rfl)])
  | trim => exact Or.inl rfl

end Change

namespace Cache

/-- A cache comes of another one by a change: its rules stay, a standing fence remembers the
change, and the store is the one that the change leaves. -/
structure Made (c : Cache) (change : Change) (next : Cache) : Prop where
  rules : next.rules = c.rules
  fence : next.fence = c.fence.map change.mark
  store : next.store = change.after c.rules c.store

variable {c next last : Cache} {change : Change} {key value : String} {now returned : Timestamp}
variable {timeToLive : Option UInt64}

/-- A call that keeps the memory makes no change. -/
theorem made_keep (h : c.Turns .keep next) : c.Made .keep next :=
  ⟨h.rules, h.fence, h.parts.2.2⟩

/-- A change may be made after a call that keeps the memory. -/
theorem Made.after_keep (hkeep : c.Turns .keep next) (h : next.Made change last) :
    c.Made change last := by
  obtain ⟨hrules, hfence, hstore⟩ := hkeep.parts
  refine ⟨h.rules.trans hrules, ?_, ?_⟩
  · rw [h.fence, hfence]
  · rw [h.store, hrules, hstore]

/-- A change may be made before a call that keeps the memory. -/
theorem Made.before_keep (h : c.Made change next) (hkeep : next.Turns .keep last) :
    c.Made change last := by
  obtain ⟨hrules, hfence, hstore⟩ := hkeep.parts
  exact ⟨hrules.trans h.rules, hfence.trans h.fence, hstore.trans h.store⟩

/-- A trim takes the trimmed keys away and counts them. -/
theorem store_trim (c : Cache) :
    c.trim.2.store = c.store.eraseAll (c.store.trimmedKeys c.rules.budget) ∧
      c.trim.2.fence = c.fence := by
  unfold trim
  cases htrim : c.store.trim c.rules.budget with
  | none =>
    have hnone : c.store.trimmedKeys c.rules.budget = [] := by simp [Store.trimmedKeys, htrim]
    rw [hnone]
    exact ⟨rfl, rfl⟩
  | some result =>
    obtain ⟨evicted, kept⟩ := result
    exact ⟨(Store.trimmedKeys_of_trim htrim).2, rfl⟩

/-- A write of an entry. -/
theorem made_insert (c : Cache) (key : String) (entry : Entry) :
    c.Made (.write key entry) (c.insert key entry).2 := by
  unfold insert
  cases hput : c.store.put c.rules.estimator key entry with
  | mk answer written =>
    cases answer with
    | error why =>
      refine ⟨rfl, by cases c.fence <;> rfl, ?_⟩
      simp [Change.after, Change.applied, Change.evicted, hput, Store.eraseAll]
    | ok previous =>
      have htrimmed : ({ c with store := written } : Cache).trim.2.store =
          Change.after c.rules c.store (.write key entry) := by
        rw [(store_trim _).1]
        simp [Change.after, Change.applied, Change.evicted, hput]
      have hfence := (store_trim { c with store := written }).2
      have hrules := rules_trim { c with store := written }
      cases htrim : ({ c with store := written } : Cache).trim with
      | mk answer trimmed =>
        rw [htrim] at htrimmed hfence hrules
        simp only [htrim]
        have hmark : trimmed.fence = c.fence.map (Change.mark · (.write key entry)) := by
          rw [hfence]
          cases c.fence <;> rfl
        cases answer with
        | error why => exact ⟨hrules, hmark, htrimmed⟩
        | ok count => exact ⟨hrules, hmark, htrimmed⟩

/-- A write of a value. -/
theorem made_write (c : Cache) (now : Timestamp) (key value : String)
    (timeToLive : Option UInt64) :
    c.Made (.writeAt now key value timeToLive) (c.write now key value timeToLive).2 := by
  unfold write readClock Change.writeAt
  by_cases hclock : now ≤ latestTime
  · simp only [hclock, if_true]
    exact c.made_insert key _
  · simp only [hclock, if_false]
    exact made_keep (turns_keep rfl rfl rfl)

/-- The write of a job. -/
theorem made_finishPopulation (c : Cache) (returned : Timestamp) (key : String)
    (timeToLive : Option UInt64) (fetched : Fetched) :
    c.Made (.ofFetched returned key timeToLive fetched)
      (c.finishPopulation returned key timeToLive fetched).2 := by
  cases fetched with
  | value text =>
    have hwrite := c.made_write returned key text timeToLive
    simp only [finishPopulation]
    cases hanswer : c.write returned key text timeToLive with
    | mk answer written =>
      rw [hanswer] at hwrite
      cases answer with
      | ok _ => exact hwrite
      | error why => exact hwrite
  | nothing => exact made_keep (turns_keep rfl rfl rfl)
  | failed => exact made_keep (turns_keep rfl rfl rfl)
  | broken => exact made_keep (turns_keep rfl rfl rfl)

/-- A population. -/
theorem made_populate (c : Cache) (now returned : Timestamp) (key : String)
    (timeToLive : Option UInt64) (fetch : Fetch) :
    c.Made (c.populationChange now returned key timeToLive (fetch key))
      (c.populate now returned key timeToLive fetch).2 := by
  have hbegin := c.turns_beginPopulation now key
  have hanswer := c.beginPopulation_fst now key
  unfold populate populationChange
  cases hjob : c.beginPopulation now key with
  | mk answer begun =>
    rw [hjob] at hbegin hanswer
    rw [← hanswer]
    match answer with
    | .error why => exact made_keep hbegin
    | .ok (some value) => exact made_keep hbegin
    | .ok none => exact (begun.made_finishPopulation _ _ _ _).after_keep hbegin

/-- A population with a conversion. -/
theorem made_populateAs {α : Type} (c : Cache) (now returned : Timestamp)
    (converter : Converter α) (key : String) (timeToLive : Option UInt64) (fetch : Fetch) :
    c.Made (c.populationChange now returned key timeToLive (fetch key))
      (c.populateAs now returned converter key timeToLive fetch).2 := by
  have hpopulate := c.made_populate now returned key timeToLive fetch
  unfold populateAs
  split
  · rename_i hfilled
    rwa [hfilled] at hpopulate
  · rename_i hfilled
    rwa [hfilled] at hpopulate
  · rename_i fetched text filled hfilled
    rw [hfilled] at hpopulate
    exact hpopulate.before_keep (turns_convert filled converter text)

/-- A purge, which the clock may prevent. -/
theorem made_purge (c : Cache) (now : Timestamp) :
    c.Made (if now ≤ latestTime then .purge now else .keep) (c.purge now).2 := by
  unfold purge readClock
  by_cases hclock : now ≤ latestTime
  · simp only [hclock, if_true]
    exact ⟨rfl, by cases c.fence <;> rfl, rfl⟩
  · simp only [hclock, if_false]
    exact made_keep (turns_keep rfl rfl rfl)

end Cache

namespace Engine

variable {σ : Type} [BlobStore σ]

/-- The trim of a commit, whatever the commit answers. -/
theorem made_commit (e : Engine σ) (now : Timestamp) :
    e.cache.Made .trim (e.commit now).2.cache := by
  refine ⟨rfl, ?_, ?_⟩
  · show e.cache.fence = _
    cases e.cache.fence <;> rfl
  · show (Gateway.commit _ _ _ now e.cache.store e.blobs).2.1 = _
    unfold Gateway.commit
    cases htrim : e.cache.store.trim e.cache.rules.budget with
    | none => simp [Change.after, Change.applied, Change.evicted, Store.trimmedKeys, htrim,
        Store.eraseAll]
    | some result =>
      obtain ⟨evicted, kept⟩ := result
      exact (Store.trimmedKeys_of_trim htrim).2

/-- Every call makes its change of the memory, and nothing else. -/
theorem made_perform (e : Engine σ) (call : Call) :
    e.cache.Made (e.cache.change call) (e.perform call).2.cache := by
  cases call with
  | get now key => exact Cache.made_keep (e.cache.turns_lookup now key)
  | getAs now converter key => exact Cache.made_keep (e.cache.turns_lookupAs now converter key)
  | put now key value timeToLive => exact e.cache.made_write now key value timeToLive
  | putJson now key value timeToLive =>
    cases value with
    | error reason => exact Cache.made_keep (Cache.turns_keep rfl rfl rfl)
    | ok value =>
      have hwrite := e.cache.made_write now key value.render timeToLive
      simp only [perform, putJson, put, onCache, Cache.change]
      cases hanswer : e.cache.write now key value.render timeToLive with
      | mk answer written =>
        rw [hanswer] at hwrite
        cases answer with
        | ok _ => exact hwrite
        | error why => exact hwrite
  | invalidate key => exact ⟨rfl, rfl, rfl⟩
  | clear => exact ⟨rfl, rfl, rfl⟩
  | purge now => exact e.cache.made_purge now
  | populate now returned key timeToLive fetch => exact e.cache.made_populate _ _ _ _ _
  | populateAs now returned converter key timeToLive fetch =>
    exact e.cache.made_populateAs _ _ _ _ _ _
  | memoize now returned operation parts timeToLive produced =>
    exact e.cache.made_populate now returned _ timeToLive fun _ => produced.fetched
  | beginJob now key => exact Cache.made_keep (e.cache.turns_beginPopulation now key)
  | finishJob returned key timeToLive fetched => exact e.cache.made_finishPopulation _ _ _ _
  | commit now => exact e.made_commit now

end Engine

end DurableCache
