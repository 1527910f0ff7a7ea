import DurableCache.Proofs.Engine.Calls
import DurableCache.Proofs.Store.Abandoned
import DurableCache.Proofs.Store.Eviction

/-!
# What calls do to the memory

Every call turns the store of a sound cache as its change says and lets the fence remember what
the change removes (`turns_perform`). So an invariant of the memory has one case for each kind
of change, and none for each call.
-/

namespace DurableCache

/-- How a change turns one store into another. Entries go by an eviction only to bring the sum
within the budget. -/
inductive Change.Turns (rules : CacheRules) : Change → Store → Store → Prop
  | keep {s : Store} : Turns rules .keep s s
  | write {s written : Store} {key : String} {entry : Entry} {previous : Option Entry}
      {evicted : List String} :
      s.put rules.estimator key entry = (.ok previous, written) →
      written.trim rules.budget = some (evicted, written.eraseAll evicted) →
      (written.eraseAll evicted).total ≤ rules.budget →
      Turns rules (.write key entry) s (written.eraseAll evicted)
  | remove {s : Store} {key : String} : Turns rules (.remove key) s (s.erase key)
  | clear {s : Store} : Turns rules .clear s .empty
  | purge {s : Store} {now : Timestamp} : Turns rules (.purge now) s
      (s.retain fun _ entry => !entry.isStale rules.defaultTtl now).2
  | trim {s : Store} {evicted : List String} :
      s.trim rules.budget = some (evicted, s.eraseAll evicted) →
      (s.eraseAll evicted).total ≤ rules.budget →
      Turns rules .trim s (s.eraseAll evicted)

/-- A change keeps a store sound. -/
theorem Change.Turns.sound {rules : CacheRules} {change : Change} {s next : Store}
    (h : change.Turns rules s next) (hs : s.Sound rules.estimator) :
    next.Sound rules.estimator := by
  cases h with
  | keep => exact hs
  | write hput _ _ => exact (hs.put hput).eraseAll _
  | remove => exact hs.erase _
  | clear => exact Store.sound_empty
  | purge => exact hs.retain _
  | trim _ _ => exact hs.eraseAll _

/-- After a change a key holds nothing, or else the entry that the change writes under it, or
else what it held before. -/
theorem Change.Turns.find? {rules : CacheRules} {change : Change} {s next : Store}
    (h : change.Turns rules s next) (key : String) :
    next.find? key = none ∨ next.find? key = (change.written? key).or (s.find? key) := by
  cases h with
  | keep => exact Or.inr rfl
  | @write _ written k entry _ evicted hput _ _ =>
    rw [Store.find?_eraseAll, Store.find?_put_ok hput]
    by_cases hevicted : key ∈ evicted
    · exact Or.inl (if_pos hevicted)
    · rw [if_neg hevicted]
      by_cases hkey : key = k
      · simp [written?, hkey]
      · simp [written?, hkey, Ne.symm hkey]
  | @remove _ k =>
    rw [Store.find?_erase]
    by_cases hkey : key = k
    · exact Or.inl (if_pos hkey)
    · exact Or.inr (if_neg hkey)
  | clear => exact Or.inl rfl
  | purge =>
    rw [Store.find?_retain]
    cases hfind : s.find? key with
    | none => exact Or.inl rfl
    | some entry =>
      rw [Option.filter_some]
      split
      · exact Or.inr rfl
      · exact Or.inl rfl
  | @trim _ evicted _ _ =>
    rw [Store.find?_eraseAll]
    by_cases hevicted : key ∈ evicted
    · exact Or.inl (if_pos hevicted)
    · exact Or.inr (if_neg hevicted)

namespace Cache

/-- How a change turns one cache into another. -/
structure Turns (c : Cache) (change : Change) (next : Cache) : Prop where
  rules : next.rules = c.rules
  /-- A standing fence remembers the change. -/
  fence : next.fence = c.fence.map change.mark
  store : change.Turns c.rules c.store next.store

variable {c next last : Cache} {change : Change} {key : String} {now : Timestamp}

/-- A cache that differs in its counters alone. -/
theorem turns_keep (hrules : next.rules = c.rules) (hstore : next.store = c.store)
    (hfence : next.fence = c.fence) : c.Turns .keep next where
  rules := hrules
  fence := by
    rw [hfence]
    cases c.fence <;> rfl
  store := hstore ▸ .keep

/-- A change that keeps the memory keeps each of its parts. -/
theorem Turns.parts (h : c.Turns .keep next) :
    next.rules = c.rules ∧ next.fence = c.fence ∧ next.store = c.store := by
  refine ⟨h.rules, ?_, ?_⟩
  · rw [h.fence]
    cases c.fence <;> rfl
  · cases next
    cases h.store
    rfl

/-- A change may be made after a call that keeps the memory. -/
theorem Turns.after_keep (hkeep : c.Turns .keep next) (h : next.Turns change last) :
    c.Turns change last := by
  obtain ⟨hrules, hfence, hstore⟩ := hkeep.parts
  refine ⟨h.rules.trans hrules, ?_, ?_⟩
  · rw [h.fence, hfence]
  · rw [← hrules, ← hstore]
    exact h.store

/-- A change may be made before a call that keeps the memory. -/
theorem Turns.before_keep (h : c.Turns change next) (hkeep : next.Turns .keep last) :
    c.Turns change last := by
  obtain ⟨hrules, hfence, hstore⟩ := hkeep.parts
  refine ⟨hrules.trans h.rules, ?_, ?_⟩
  · rw [hfence, h.fence]
  · rw [hstore]
    exact h.store

/-- A lookup keeps the memory. -/
theorem turns_lookup (c : Cache) (now : Timestamp) (key : String) :
    c.Turns .keep (c.lookup now key).2 := by
  unfold lookup
  split
  · exact turns_keep rfl rfl rfl
  · split
    · exact turns_keep rfl rfl rfl
    · split <;> exact turns_keep rfl rfl rfl

/-- A lookup finds the value of an entry that is held and fresh. -/
theorem fresh_of_lookup {value : String} (h : (c.lookup now key).1 = .ok (some value)) :
    ∃ entry, c.store.find? key = some entry ∧ entry.value = value ∧
      entry.isStale c.rules.defaultTtl now = false := by
  unfold lookup at h
  cases hfind : c.store.find? key with
  | none =>
    rw [hfind] at h
    cases h
  | some entry =>
    simp only [hfind] at h
    cases hread : readClock now with
    | error why =>
      rw [hread] at h
      cases h
    | ok read =>
      obtain ⟨-, rfl⟩ := readClock_eq_ok_iff.mp hread
      simp only [hread] at h
      split at h
      · cases h
      · rename_i hfresh
        cases h
        exact ⟨entry, rfl, rfl, by simpa using hfresh⟩

/-- A conversion keeps the memory. -/
theorem turns_convert {α : Type} (c : Cache) (converter : Converter α) (text : String) :
    c.Turns .keep (c.convert converter text).2 := by
  unfold convert
  split <;> exact turns_keep rfl rfl rfl

/-- A lookup with a conversion keeps the memory. -/
theorem turns_lookupAs {α : Type} (c : Cache) (now : Timestamp) (converter : Converter α)
    (key : String) : c.Turns .keep (c.lookupAs now converter key).2 := by
  have hlookup := c.turns_lookup now key
  unfold lookupAs
  split
  · rename_i found
    rwa [found] at hlookup
  · rename_i found
    rwa [found] at hlookup
  · rename_i found
    rw [found] at hlookup
    exact hlookup.before_keep (turns_convert _ converter _)

/-- The lookup of a job answers what a lookup answers. -/
theorem beginPopulation_fst (c : Cache) (now : Timestamp) (key : String) :
    (c.beginPopulation now key).1 = (c.lookup now key).1 := by
  unfold beginPopulation
  split
  · rename_i found
    rw [found]
  · rfl

/-- The lookup of a job keeps the memory. -/
theorem turns_beginPopulation (c : Cache) (now : Timestamp) (key : String) :
    c.Turns .keep (c.beginPopulation now key).2 := by
  have hlookup := c.turns_lookup now key
  unfold beginPopulation
  split
  · rename_i found
    rw [found] at hlookup
    exact hlookup.before_keep (turns_keep rfl rfl rfl)
  · exact hlookup

/-- A sound cache is trimmed by an eviction. -/
theorem trim_of_sound (hs : c.store.Sound c.rules.estimator) :
    ∃ evicted, c.store.trim c.rules.budget = some (evicted, c.store.eraseAll evicted) ∧
      (c.store.eraseAll evicted).total ≤ c.rules.budget ∧
      c.trim = (.ok evicted.length,
        { c with
          store := c.store.eraseAll evicted
          counters := c.counters.evicted evicted.length }) := by
  obtain ⟨evicted, htrim, htotal⟩ := hs.trim c.rules.budget
  exact ⟨evicted, htrim, htotal, by rw [trim, htrim]⟩

/-- A write of an entry whose sizes fit is a put and a trim behind it, and counts what the trim
evicts. -/
theorem insert_of_sound (hs : c.store.Sound c.rules.estimator) {entry : Entry}
    (hfits : abort? (c.insert key entry).1 ≠ some .sizeOverflow) :
    ∃ previous written evicted,
      c.store.put c.rules.estimator key entry = (.ok previous, written) ∧
      written.trim c.rules.budget = some (evicted, written.eraseAll evicted) ∧
      (written.eraseAll evicted).total ≤ c.rules.budget ∧
      c.insert key entry = (.ok (),
        { c with
          store := written.eraseAll evicted
          counters := c.counters.evicted evicted.length }) := by
  unfold insert at hfits ⊢
  cases hput : c.store.put c.rules.estimator key entry with
  | mk answer written =>
    cases answer with
    | error why =>
      rw [hput] at hfits
      exact absurd (congrArg some (Store.put_error hput).1) hfits
    | ok previous =>
      obtain ⟨evicted, hevicted, htotal, htrim⟩ :=
        trim_of_sound (c := { c with store := written }) (hs.put hput)
      exact ⟨previous, written, evicted, rfl, hevicted, htotal, by simp only [htrim]⟩

/-- A write of an entry whose sizes fit. -/
theorem turns_insert (hs : c.store.Sound c.rules.estimator) {entry : Entry}
    (hfits : abort? (c.insert key entry).1 ≠ some .sizeOverflow) :
    c.Turns (.write key entry) (c.insert key entry).2 := by
  obtain ⟨previous, written, evicted, hput, hevicted, htotal, hinsert⟩ := insert_of_sound hs hfits
  rw [hinsert]
  exact ⟨rfl, by cases c.fence <;> rfl, .write hput hevicted htotal⟩

/-- A write of a value whose sizes fit. -/
theorem turns_write (hs : c.store.Sound c.rules.estimator) {value : String}
    {timeToLive : Option UInt64}
    (hfits : abort? (c.write now key value timeToLive).1 ≠ some .sizeOverflow) :
    c.Turns (.writeAt now key value timeToLive) (c.write now key value timeToLive).2 := by
  unfold write readClock Change.writeAt at *
  by_cases hclock : now ≤ latestTime
  · simp only [hclock, if_true] at hfits ⊢
    exact turns_insert hs hfits
  · simp only [hclock, if_false] at hfits ⊢
    exact turns_keep rfl rfl rfl

/-- The write of a job whose sizes fit. -/
theorem turns_finishPopulation (hs : c.store.Sound c.rules.estimator)
    {timeToLive : Option UInt64} {fetched : Fetched}
    (hfits : abort? (c.finishPopulation now key timeToLive fetched).1 ≠ some .sizeOverflow) :
    c.Turns (.ofFetched now key timeToLive fetched)
      (c.finishPopulation now key timeToLive fetched).2 := by
  cases fetched with
  | value text =>
    have hwrite : abort? (c.write now key text timeToLive).1 ≠ some .sizeOverflow →
        c.Turns (.writeAt now key text timeToLive) (c.write now key text timeToLive).2 :=
      turns_write hs
    simp only [finishPopulation] at hfits ⊢
    cases hanswer : c.write now key text timeToLive with
    | mk answer written =>
      rw [hanswer] at hwrite hfits
      cases answer with
      | ok _ => exact hwrite (by simp [abort?])
      | error why => exact hwrite hfits
  | nothing => exact turns_keep rfl rfl rfl
  | failed => exact turns_keep rfl rfl rfl
  | broken => exact turns_keep rfl rfl rfl

/-- A population whose sizes fit. -/
theorem turns_populate (hs : c.store.Sound c.rules.estimator) {returned : Timestamp}
    {timeToLive : Option UInt64} {fetch : Fetch}
    (hfits : abort? (c.populate now returned key timeToLive fetch).1.result ≠
      some .sizeOverflow) :
    c.Turns (c.populationChange now returned key timeToLive (fetch key))
      (c.populate now returned key timeToLive fetch).2 := by
  have hbegin := c.turns_beginPopulation now key
  have hanswer := c.beginPopulation_fst now key
  unfold populate populationChange at *
  cases hjob : c.beginPopulation now key with
  | mk answer begun =>
    rw [hjob] at hbegin hanswer
    simp only [hjob] at hfits ⊢
    rw [← hanswer]
    match answer with
    | .error why => exact hbegin
    | .ok (some value) => exact hbegin
    | .ok none =>
      have hstore : begun.store.Sound begun.rules.estimator := by
        rw [hbegin.rules]
        exact hbegin.store.sound hs
      exact hbegin.after_keep (turns_finishPopulation hstore hfits)

/-- A population with a conversion whose sizes fit. -/
theorem turns_populateAs {α : Type} (hs : c.store.Sound c.rules.estimator)
    {returned : Timestamp} {converter : Converter α} {timeToLive : Option UInt64} {fetch : Fetch}
    (hfits : abort? (c.populateAs now returned converter key timeToLive fetch).1.result ≠
      some .sizeOverflow) :
    c.Turns (c.populationChange now returned key timeToLive (fetch key))
      (c.populateAs now returned converter key timeToLive fetch).2 := by
  have hpopulate : abort? (c.populate now returned key timeToLive fetch).1.result ≠
        some .sizeOverflow →
      c.Turns (c.populationChange now returned key timeToLive (fetch key))
        (c.populate now returned key timeToLive fetch).2 := turns_populate hs
  unfold populateAs at hfits ⊢
  split at hfits
  · rename_i fetched why filled hfilled
    rw [hfilled] at hpopulate
    exact hpopulate hfits
  · rename_i fetched filled hfilled
    rw [hfilled] at hpopulate
    exact hpopulate hfits
  · rename_i fetched text filled hfilled
    rw [hfilled] at hpopulate
    exact (hpopulate (by simp [abort?])).before_keep (turns_convert filled converter text)

/-- A removal. -/
theorem turns_remove (c : Cache) (key : String) : c.Turns (.remove key) (c.remove key).2 :=
  ⟨rfl, rfl, .remove⟩

/-- The removal of all entries. -/
theorem turns_clear (c : Cache) : c.Turns .clear c.clear.2 := ⟨rfl, rfl, .clear⟩

/-- A purge, which the clock may prevent. -/
theorem turns_purge (c : Cache) (now : Timestamp) :
    c.Turns (if now ≤ latestTime then .purge now else .keep) (c.purge now).2 := by
  unfold purge readClock
  by_cases hclock : now ≤ latestTime
  · simp only [hclock, if_true]
    exact ⟨rfl, by cases c.fence <;> rfl, .purge⟩
  · simp only [hclock, if_false]
    exact turns_keep rfl rfl rfl

end Cache

namespace Engine

variable {σ : Type} [BlobStore σ]

/-- An engine is sound if its store is. -/
def Sound (e : Engine σ) : Prop := e.cache.store.Sound e.cache.rules.estimator

omit [BlobStore σ] in
/-- An engine starts with an empty memory and a load to come, whatever the blobs are. -/
theorem start_ok {config : Config} {estimator : Estimator} {blobs : σ} {e : Engine σ}
    (h : start config estimator blobs = .ok e) :
    e.cache = (Cache.empty ⟨estimator, config.defaultTtl, config.maxMemoryBytes⟩).beginLoad ∧
      e.blobs = blobs ∧ e.retentionDays = config.retentionDays ∧
      ∀ other : σ, start config estimator other = .ok { e with blobs := other } := by
  unfold start at h ⊢
  cases hworkers : Workers.ofSize config.workers with
  | error why =>
    rw [hworkers] at h
    cases h
  | ok workers =>
    rw [hworkers] at h
    cases h
    exact ⟨rfl, rfl, rfl, fun other => rfl⟩

omit [BlobStore σ] in
/-- An engine starts sound. -/
theorem sound_start {config : Config} {estimator : Estimator} {blobs : σ} {e : Engine σ}
    (h : start config estimator blobs = .ok e) : e.Sound := by
  unfold Sound
  rw [(start_ok h).1]
  exact Store.sound_empty

/-- The trim of a commit is all that happens to the memory. -/
theorem turns_commit {e : Engine σ} (hs : e.Sound) (now : Timestamp) :
    e.cache.Turns .trim (e.commit now).2.cache := by
  obtain ⟨evicted, htrim, htotal⟩ := Store.Sound.trim hs e.cache.rules.budget
  have hstore : (e.commit now).2.cache.store = e.cache.store.eraseAll evicted := by
    simp only [commit, Gateway.commit, htrim]
  refine ⟨rfl, ?_, ?_⟩
  · show e.cache.fence = _
    cases e.cache.fence <;> rfl
  · rw [hstore]
    exact .trim htrim htotal

/-- Every call on a sound engine turns its memory as its change says, unless sizes do not fit. -/
theorem turns_perform {e : Engine σ} (hs : e.Sound) (call : Call)
    (hfits : (e.perform call).1 ≠ some .sizeOverflow) :
    e.cache.Turns (e.cache.change call) (e.perform call).2.cache := by
  cases call with
  | get now key => exact e.cache.turns_lookup now key
  | getAs now converter key => exact e.cache.turns_lookupAs now converter key
  | put now key value timeToLive => exact Cache.turns_write hs hfits
  | putJson now key value timeToLive =>
    cases value with
    | error reason => exact Cache.turns_keep rfl rfl rfl
    | ok value =>
      have hwrite : abort? (e.cache.write now key value.render timeToLive).1 ≠
            some .sizeOverflow →
          e.cache.Turns (.writeAt now key value.render timeToLive)
            (e.cache.write now key value.render timeToLive).2 := Cache.turns_write hs
      simp only [perform, putJson, put, onCache, Cache.change] at hfits ⊢
      cases hanswer : e.cache.write now key value.render timeToLive with
      | mk answer written =>
        rw [hanswer] at hwrite hfits
        cases answer with
        | ok _ => exact hwrite (by simp [abort?])
        | error why => exact hwrite hfits
  | invalidate key => exact e.cache.turns_remove key
  | clear => exact e.cache.turns_clear
  | purge now => exact e.cache.turns_purge now
  | populate now returned key timeToLive fetch => exact Cache.turns_populate hs hfits
  | populateAs now returned converter key timeToLive fetch =>
    exact Cache.turns_populateAs hs hfits
  | memoize now returned operation parts timeToLive produced =>
    have hpopulate : abort? (e.cache.populate now returned (operationKey operation parts)
        timeToLive fun _ => produced.fetched).1.result ≠ some .sizeOverflow := hfits
    exact Cache.turns_populate hs hpopulate
  | beginJob now key => exact e.cache.turns_beginPopulation now key
  | finishJob returned key timeToLive fetched => exact Cache.turns_finishPopulation hs hfits
  | commit now => exact turns_commit hs now

/-- A call whose sizes fit keeps an engine sound. -/
theorem Sound.perform {e : Engine σ} (hs : e.Sound) (call : Call)
    (hfits : (e.perform call).1 ≠ some .sizeOverflow) : (e.perform call).2.Sound := by
  have hturns := turns_perform hs call hfits
  unfold Sound
  rw [hturns.rules]
  exact hturns.store.sound hs

/-- A run whose sizes fit keeps an engine sound. -/
theorem Sound.run {e : Engine σ} (hs : e.Sound) {calls : List Call} (hfits : e.Fits calls) :
    (e.run calls).Sound := by
  induction calls generalizing e with
  | nil => exact hs
  | cons call rest ih => exact ih (hs.perform call hfits.1) hfits.2

end Engine

end DurableCache
