import DurableCache.Proofs.Engine.Clock
import DurableCache.Proofs.Engine.Blobs
import DurableCache.Proofs.Engine.Effects
import DurableCache.Proofs.Store.Oldest

/-!
# Lookups behind a write

A write is followed by a trim, which takes the oldest entries and so leaves the one that was just
written, unless there are entries of the same time whose turn comes after it. Of writes of one
millisecond the one with the least key goes first, and that may be the last one.
-/

namespace DurableCache

namespace Change

/-- The write of an entry that is not older than the one it replaces leaves it in a sound store
exactly if it fits into the budget together with the entries after it. -/
theorem Turns.find?_written {rules : CacheRules} {s next : Store} {key : String} {entry : Entry}
    {size : Nat} (h : (Change.write key entry).Turns rules s next) (hs : s.Sound rules.estimator)
    (hsize : rules.estimator.size? entry = some size)
    (hpast : ∀ held, s.find? key = some held → held.timestamp ≤ entry.timestamp) :
    next.find? key =
      if size + s.sizeAfter ⟨entry.timestamp, key⟩ ≤ rules.budget then some entry else none := by
  cases h with
  | write hput htrim _ =>
    rw [Store.find?_eraseAll, Store.find?_put_ok hput, if_pos rfl]
    simp only [hs.mem_trim_put_iff hput hsize hpast htrim, ← Nat.not_le, ite_not]

end Change

namespace Cache

variable {c : Cache} {key value : String} {now : Timestamp} {timeToLive : Option UInt64}
variable {entry : Entry} {size : Nat}

/-- The sizes of a write fit: its entry has one, and so has the sum. -/
def FitsWrite (c : Cache) (key : String) (entry : Entry) (size : Nat) : Prop :=
  c.rules.estimator.size? entry = some size ∧ (c.store.erase key).total + size < wordLimit

/-- A write whose sizes fit is not abandoned. -/
theorem insert_answers (hs : c.store.Sound c.rules.estimator) (hfits : c.FitsWrite key entry size) :
    (c.insert key entry).1 = .ok () := by
  obtain ⟨previous, written, hput⟩ := Store.put_ok_iff.mpr ⟨size, hfits⟩
  obtain ⟨evicted, -, -, htrim⟩ := trim_of_sound (c := { c with store := written }) (hs.put hput)
  simp only [insert, hput, htrim]

/-- A write at a time that the clock can show is not abandoned if its sizes fit. -/
theorem write_answers (hs : c.store.Sound c.rules.estimator) (hclock : now ≤ latestTime)
    (hfits : c.FitsWrite key ⟨value, now, timeToLive⟩ size) :
    (c.write now key value timeToLive).1 = .ok () := by
  simp only [write, readClock, hclock, if_true]
  exact insert_answers hs hfits

/-- The write of a job answers the value that was fetched. -/
theorem finishPopulation_answers (hs : c.store.Sound c.rules.estimator) (hclock : now ≤ latestTime)
    (hfits : c.FitsWrite key ⟨value, now, timeToLive⟩ size) :
    (c.finishPopulation now key timeToLive (.value value)).1 = .ok (some value) := by
  have hwrite := write_answers hs hclock hfits
  unfold finishPopulation
  cases hanswer : c.write now key value timeToLive with
  | mk answer next =>
    rw [hanswer] at hwrite
    simp only at hwrite
    simp only [hanswer, hwrite]

/-- A population that finds nothing fresh runs its fetch and answers the value. -/
theorem populate_answers (hs : c.store.Sound c.rules.estimator) {begun : Timestamp} {fetch : Fetch}
    (hnothing : (c.lookup begun key).1 = .ok none) (hfetch : fetch key = .value value)
    (hclock : now ≤ latestTime) (hfits : c.FitsWrite key ⟨value, now, timeToLive⟩ size) :
    (c.populate begun now key timeToLive fetch).1 = ⟨true, .ok (some value)⟩ := by
  have hkeep := c.turns_beginPopulation begun key
  have hanswer := (c.beginPopulation_fst begun key).trans hnothing
  cases hbegin : c.beginPopulation begun key with
  | mk answer next =>
    rw [hbegin] at hkeep hanswer
    simp only at hkeep hanswer
    have hstore : next.store = c.store := hkeep.parts.2.2
    have hfitsNext : next.FitsWrite key ⟨value, now, timeToLive⟩ size := by
      rw [FitsWrite, hstore, hkeep.rules]
      exact hfits
    have hfinish := finishPopulation_answers (by rwa [hstore, hkeep.rules]) hclock hfitsNext
    unfold populate
    simp only [hbegin, hanswer, hfetch, hfinish]

/-- A population with a conversion delivers something as well. -/
theorem populateAs_answers {α : Type} (hs : c.store.Sound c.rules.estimator) {begun : Timestamp}
    {fetch : Fetch} {converter : Converter α}
    (hnothing : (c.lookup begun key).1 = .ok none) (hfetch : fetch key = .value value)
    (hclock : now ≤ latestTime) (hfits : c.FitsWrite key ⟨value, now, timeToLive⟩ size) :
    ∃ converted, (c.populateAs begun now converter key timeToLive fetch).1 =
      ⟨true, .ok converted⟩ := by
  have hpopulate := populate_answers hs hnothing hfetch hclock hfits
  unfold populateAs
  cases hfilled : c.populate begun now key timeToLive fetch with
  | mk delivery next =>
    rw [hfilled] at hpopulate
    simp only at hpopulate
    simp only [hpopulate]
    exact ⟨_, rfl⟩

/-- An entry that is written at a time is fresh then. -/
theorem lookup_self (hclock : now ≤ latestTime)
    (hfind : c.store.find? key = some ⟨value, now, timeToLive⟩) :
    (c.lookup now key).1 = .ok (some value) := by
  have hfresh : (Entry.mk value now timeToLive).isStale c.rules.defaultTtl now = false :=
    isStale_self timeToLive c.rules.defaultTtl now
  simp [lookup, hfind, readClock, hclock, hfresh]

/-- Without an entry a lookup finds nothing. -/
theorem lookup_absent (hfind : c.store.find? key = none) :
    (c.lookup now key).1 = .ok none := by
  simp [lookup, hfind]

/-- A population that finds a fresh value delivers it and runs no fetch; otherwise it runs its
fetch. -/
theorem populate_iff {found : Option String} (hlookup : (c.lookup now key).1 = .ok found)
    (returned : Timestamp) (fetch : Fetch) :
    (c.populate now returned key timeToLive fetch).1 = ⟨false, .ok (some value)⟩ ↔
      found = some value := by
  have hanswer := (c.beginPopulation_fst now key).trans hlookup
  cases hbegin : c.beginPopulation now key with
  | mk answer next =>
    rw [hbegin] at hanswer
    simp only at hanswer
    unfold populate
    cases found <;> simp [hbegin, hanswer]

end Cache

namespace Engine

variable {σ : Type} [BlobStore σ] {e e₀ : Engine σ} {key value : String} {now : Timestamp}
variable {timeToLive : Option UInt64} {call : Call} {size : Nat}

omit [BlobStore σ] in
/-- Without an entry a key is not found. -/
theorem get_absent (hfind : e.cache.store.find? key = none) : (e.get now key).1 = .ok none :=
  Cache.lookup_absent hfind

/-- The calls that write a value under a key at a time. A population writes if it finds nothing
fresh and its fetch comes to a value. -/
inductive Writes (e : Engine σ) (key value : String) (now : Timestamp)
    (timeToLive : Option UInt64) : Call → Prop
  | put : Writes e key value now timeToLive (.put now key value timeToLive)
  | putJson {json : Json.Value} : json.render = value →
      Writes e key value now timeToLive (.putJson now key (.ok json) timeToLive)
  | populate {begun : Timestamp} {fetch : Fetch} : (e.get begun key).1 = .ok none →
      fetch key = .value value →
      Writes e key value now timeToLive (.populate begun now key timeToLive fetch)
  | populateAs {α : Type} {begun : Timestamp} {converter : Converter α} {fetch : Fetch} :
      (e.get begun key).1 = .ok none → fetch key = .value value →
      Writes e key value now timeToLive (.populateAs begun now converter key timeToLive fetch)
  | memoize {begun : Timestamp} {operation : String} {parts : List String} :
      key = operationKey operation parts → (e.get begun key).1 = .ok none →
      Writes e key value now timeToLive
        (.memoize begun now operation parts timeToLive (.output value))
  | finishJob : Writes e key value now timeToLive (.finishJob now key timeToLive (.value value))

omit [BlobStore σ] in
/-- Such a call changes the memory by that write. -/
theorem Writes.change (h : e.Writes key value now timeToLive call) (hclock : now ≤ latestTime) :
    e.cache.change call = .write key ⟨value, now, timeToLive⟩ := by
  have hwrite : Change.writeAt now key value timeToLive =
      .write key ⟨value, now, timeToLive⟩ := if_pos hclock
  have hpopulation {begun : Timestamp} (hnothing : (e.get begun key).1 = .ok none) :
      e.cache.populationChange begun now key timeToLive (.value value) =
        .write key ⟨value, now, timeToLive⟩ := by
    have hlookup : (e.cache.lookup begun key).1 = .ok none := hnothing
    rw [Cache.populationChange, hlookup]
    exact hwrite
  cases h with
  | put => exact hwrite
  | putJson hjson =>
    subst hjson
    exact hwrite
  | populate hnothing hfetch =>
    rw [Cache.change, hfetch]
    exact hpopulation hnothing
  | populateAs hnothing hfetch =>
    rw [Cache.change, hfetch]
    exact hpopulation hnothing
  | memoize hkey hnothing =>
    subst hkey
    exact hpopulation hnothing
  | finishJob => exact hwrite

/-- Such a call is not abandoned if its sizes fit. -/
theorem Writes.answers (h : e.Writes key value now timeToLive call) (hs : e.Sound)
    (hclock : now ≤ latestTime) (hfits : e.cache.FitsWrite key ⟨value, now, timeToLive⟩ size) :
    (e.perform call).1 = none := by
  have hwrite := Cache.write_answers hs hclock hfits
  cases h with
  | put =>
    show abort? (e.cache.write now key value timeToLive).1 = none
    rw [hwrite]
    rfl
  | @putJson json hjson =>
    subst hjson
    simp only [perform, Engine.putJson, Engine.put, onCache]
    cases hanswer : e.cache.write now key json.render timeToLive with
    | mk answer next =>
      rw [hanswer] at hwrite
      simp only at hwrite
      simp only [hwrite]
      rfl
  | @populate begun fetch hnothing hfetch =>
    have hpopulate := Cache.populate_answers hs hnothing hfetch hclock hfits
    show abort? (e.cache.populate begun now key timeToLive fetch).1.result = none
    rw [hpopulate]
    rfl
  | @populateAs α begun converter fetch hnothing hfetch =>
    have hpopulates : ∃ converted,
        (e.cache.populateAs begun now converter key timeToLive fetch).1 = ⟨true, .ok converted⟩ :=
      Cache.populateAs_answers hs hnothing hfetch hclock hfits
    obtain ⟨converted, hpopulate⟩ := hpopulates
    show abort? (e.cache.populateAs begun now converter key timeToLive fetch).1.result = none
    rw [hpopulate]
    rfl
  | @memoize begun operation parts hkey hnothing =>
    subst hkey
    show abort? (e.cache.populate begun now (operationKey operation parts) timeToLive
      fun _ => .value value).1.result = none
    have hpopulate : (e.cache.populate begun now (operationKey operation parts) timeToLive
        fun _ => .value value).1 = ⟨true, .ok (some value)⟩ :=
      Cache.populate_answers hs hnothing rfl hclock hfits
    rw [hpopulate]
    rfl
  | finishJob =>
    have hfinish := Cache.finishPopulation_answers hs hclock hfits
    show abort? (e.cache.finishPopulation now key timeToLive (.value value)).1 = none
    rw [hfinish]
    rfl

variable {config : Config} {estimator : Estimator} {blobs : σ}

/-- A write at a time that the clock can show and no entry is later than, and whose sizes fit, is
not abandoned. A lookup behind it finds the value, and a population delivers it without a fetch,
exactly if its entry fits into the budget together with the entries of the same time that have
greater keys. So an entry within the budget is found if there are none. -/
theorem get_after_write (hstart : start config estimator blobs = .ok e₀) (hreach : e₀.Reaches e)
    (hpast : ∀ other held, e.cache.store.find? other = some held → held.timestamp ≤ now)
    (hclock : now ≤ latestTime) (hcall : e.Writes key value now timeToLive call)
    (hsize : estimator.size? ⟨value, now, timeToLive⟩ = some size)
    (hsum : (e.cache.store.erase key).total + size < wordLimit) :
    (e.perform call).1 = none ∧
      ((e.perform call).2.get now key).1 =
        .ok (if size + e.cache.store.sizeAfter ⟨now, key⟩ ≤ config.maxMemoryBytes then some value
          else none) ∧
      (∀ returned other fetch,
        ((e.perform call).2.populate now returned key other fetch).1 = ⟨false, .ok (some value)⟩ ↔
          size + e.cache.store.sizeAfter ⟨now, key⟩ ≤ config.maxMemoryBytes) ∧
      (size ≤ config.maxMemoryBytes →
        (∀ other held, e.cache.store.find? other = some held → held.timestamp = now →
          ¬ key < other) →
        ((e.perform call).2.get now key).1 = .ok (some value)) := by
  have hs : e.Sound := hreach.sound (sound_start hstart)
  have hrules : e.cache.rules = ⟨estimator, config.defaultTtl, config.maxMemoryBytes⟩ := by
    rw [hreach.rules (sound_start hstart), (start_ok hstart).1]
    rfl
  have hfits : e.cache.FitsWrite key ⟨value, now, timeToLive⟩ size := by
    refine ⟨?_, hsum⟩
    rw [hrules]
    exact hsize
  have hanswers := hcall.answers hs hclock hfits
  have hturns := turns_perform hs call (by rw [hanswers]; exact fun h => by cases h)
  rw [hcall.change hclock] at hturns
  have hfind := hturns.store.find?_written hs hfits.1 (hpast key)
  have hbudget : e.cache.rules.budget = config.maxMemoryBytes := by rw [hrules]
  rw [hbudget] at hfind
  have hlookup : ((e.perform call).2.cache.lookup now key).1 =
      .ok (if size + e.cache.store.sizeAfter ⟨now, key⟩ ≤ config.maxMemoryBytes then some value
        else none) := by
    split at hfind
    · rename_i hstays
      rw [if_pos hstays]
      exact Cache.lookup_self hclock hfind
    · rename_i hgoes
      rw [if_neg hgoes]
      exact Cache.lookup_absent hfind
  refine ⟨hanswers, hlookup, fun returned other fetch => ?_, fun hwithin hlast => ?_⟩
  · refine (Cache.populate_iff hlookup returned fetch).trans ?_
    split <;> simp_all
  · have hnone : e.cache.store.sizeAfter ⟨now, key⟩ = 0 := Store.sizeAfter_eq_zero hpast hlast
    refine hlookup.trans ?_
    rw [hnone, Nat.add_zero, if_pos hwithin]

/-- An engine with room for some entries of one byte. -/
def roomFor (entries : Nat) : Engine MemoryBlobs :=
  { standard with cache := (Cache.empty ⟨.flat 1, none, entries⟩).beginLoad }

/-- An engine whose estimates are large: a unit takes an eighth of a word, and there is room for
three. -/
def weighty : Engine MemoryBlobs :=
  { standard with
    cache := (Cache.empty ⟨.perUnit 0 (wordLimit / 8), none, 3 * (wordLimit / 8)⟩).beginLoad }

/-- With room for two entries both writes of a millisecond are found, the later one with the lesser
key and a time to live of zero as well. -/
theorem get_after_write_same_time :
    (((roomFor 2).run [.put 1 "b" "x" none, .put 1 "a" "y" (some 0)]).get 1 "a").1 =
        .ok (some "y") ∧
      ∀ fetch, (((roomFor 2).run [.put 1 "b" "x" none, .put 1 "a" "y" (some 0)]).populate 1 1 "a"
        none fetch).1 = ⟨false, .ok (some "y")⟩ := by
  have hstart : start { Config.standard with maxMemoryBytes := 2 } (.flat 1) (roomFor 2).blobs =
      .ok (roomFor 2) := rfl
  have hreach : (roomFor 2).Reaches ((roomFor 2).run [.put 1 "b" "x" none]) :=
    .call (.put 1 "b" "x" none) .start (by decide)
  have hpast : ∀ other held,
      ((roomFor 2).run [.put 1 "b" "x" none]).cache.store.find? other = some held →
        held.timestamp ≤ 1 :=
    Store.forall_find?_iff.mpr (by decide)
  have hfits : 1 + ((roomFor 2).run [.put 1 "b" "x" none]).cache.store.sizeAfter ⟨1, "a"⟩ ≤ 2 := by
    decide
  have hcall : ((roomFor 2).run [.put 1 "b" "x" none]).Writes "a" "y" 1 (some 0)
      (.put 1 "a" "y" (some 0)) := .put
  have hsize : Estimator.size? (.flat 1) ⟨"y", 1, some 0⟩ = some 1 := rfl
  obtain ⟨-, hget, hpopulate, -⟩ :=
    get_after_write hstart hreach hpast (by decide) hcall hsize (by decide)
  refine ⟨hget.trans ?_, fun fetch => (hpopulate 1 none fetch).mpr hfits⟩
  rw [if_pos hfits]

/-- A write that there is room for is not found if a greater key was written in the same
millisecond and keeps the room. Once a write was abandoned halfway, a later one of the same key may
not be found although no entry is of its time. And a write at a time that the clock cannot show is
abandoned. -/
theorem not_get_after_write :
    (¬ ∀ (calls : List Call) (call : Call) (key value : String) (now : Timestamp)
      (timeToLive : Option UInt64) (size : Nat),
      Call.InOrder (calls ++ [call]) → (roomFor 1).Fits calls →
      (∀ other held, ((roomFor 1).run calls).cache.store.find? other = some held →
        held.timestamp ≤ now) →
      ((roomFor 1).run calls).Writes key value now timeToLive call →
      (Estimator.flat 1).size? ⟨value, now, timeToLive⟩ = some size → size ≤ 1 →
      (((roomFor 1).run (calls ++ [call])).get now key).1 = .ok (some value)) ∧
    (weighty.run [.put 1 "b" "x" none, .put 1 "a" "1234567" none]).cache.store.entries.rows =
        [("b", ⟨"x", 1, none⟩)] ∧
      weighty.cache.rules.estimator.size? ⟨"xyz", 2, none⟩ = some weighty.cache.rules.budget ∧
      ((weighty.run [.put 1 "b" "x" none, .put 1 "a" "1234567" none]).perform
        (.put 2 "a" "xyz" none)).1 = none ∧
      (((weighty.run [.put 1 "b" "x" none, .put 1 "a" "1234567" none]).perform
        (.put 2 "a" "xyz" none)).2.get 2 "a").1 = .ok none ∧
    ((roomFor 1).perform (.put (latestTime + 1) "a" "x" none)).1 = some .clockOverrun ∧
      (((roomFor 1).perform (.put (latestTime + 1) "a" "x" none)).2.get (latestTime + 1) "a").1 =
        .ok none := by
  refine ⟨fun hfound => ?_, by decide +kernel, by decide, by decide +kernel,
    get_absent (by decide +kernel), by decide, get_absent (by decide)⟩
  have hpast : ∀ other held,
      ((roomFor 1).run [.put 1 "b" "x" none]).cache.store.find? other = some held →
        held.timestamp ≤ 1 :=
    Store.forall_find?_iff.mpr (by decide)
  have hsome := hfound [.put 1 "b" "x" none] (.put 1 "a" "y" none) "a" "y" 1 none 1 (by decide)
    ⟨by decide, trivial⟩ hpast .put rfl (Nat.le_refl 1)
  have hnone : (((roomFor 1).run [.put 1 "b" "x" none, .put 1 "a" "y" none]).get 1 "a").1 =
      .ok none := get_absent (by decide)
  have hnever := hnone.symm.trans hsome
  cases hnever

end Engine

end DurableCache
