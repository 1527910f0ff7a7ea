import DurableCache.Proofs.Engine.FreshWrites

/-!
# What a population delivers and leaves

A population delivers the fresh value of its key if there is one, and otherwise what its fetch comes
to. Each case has a lemma that gives the delivery and the whole cache behind it. What is delivered
does not depend on the trim behind the write, and a conversion changes one counter at most.
-/

namespace DurableCache

/-- The value that was fetched, if there is one. -/
def Fetched.value? : Fetched → Option String
  | .value text => some text
  | .nothing | .failed | .broken => none

theorem Fetched.value?_eq_some_iff {fetched : Fetched} {text : String} :
    fetched.value? = some text ↔ fetched = .value text := by
  cases fetched <;> simp [value?]

namespace Counters

/-- Counts a lookup that finds nothing fresh, be it that the entry is stale or that none is held. -/
def notFresh (c : Counters) (held : Bool) : Counters := if held then c.staleLookup else c.miss

/-- Counts what a conversion came to, if there was one. -/
def converted {α : Type} (c : Counters) : Option (Except ConversionFault α) → Counters
  | some (.error _) => c.conversionFailure
  | some (.ok _) | none => c

end Counters

namespace Cache

variable {c next : Cache} {key text : String} {now returned : Timestamp}
variable {timeToLive : Option UInt64} {fetch : Fetch} {size : Nat}

/-- The value under a key that is fresh at a time. -/
def fresh? (c : Cache) (now : Timestamp) (key : String) : Option String :=
  ((c.store.find? key).filter fun entry => !entry.isStale c.rules.defaultTtl now).map Entry.value

/-- The clock can show the times at which a population reads it: that of the lookup if an entry is
held, and that of the write if a value was fetched. -/
structure ClockServes (c : Cache) (now returned : Timestamp) (key : String) (fetched : Fetched) :
    Prop where
  looked : (c.store.find? key).isSome = true → now ≤ latestTime
  written : c.fresh? now key = none → fetched.value?.isSome = true → returned ≤ latestTime

/-- The sizes fit if a population writes the value that was fetched. -/
def FitsFetched (c : Cache) (now returned : Timestamp) (key : String) (timeToLive : Option UInt64)
    (fetched : Fetched) : Prop :=
  c.fresh? now key = none → ∀ text, fetched.value? = some text →
    ∃ size, c.FitsWrite key ⟨text, returned, timeToLive⟩ size

/-! ### Lookups -/

/-- A lookup that finds a fresh value. -/
theorem lookup_of_fresh (hclock : (c.store.find? key).isSome = true → now ≤ latestTime)
    (hfresh : c.fresh? now key = some text) :
    c.lookup now key = (.ok (some text), { c with counters := c.counters.hit }) := by
  obtain ⟨entry, hkept, rfl⟩ := Option.map_eq_some_iff.mp hfresh
  obtain ⟨hfind, hstays⟩ := Option.filter_eq_some_iff.mp hkept
  have hread : readClock now = .ok now :=
    readClock_eq_ok_iff.mpr ⟨hclock (by rw [hfind]; rfl), rfl⟩
  have hnot : entry.isStale c.rules.defaultTtl now = false := by simpa using hstays
  simp [lookup, hfind, hread, hnot]

/-- A lookup that finds nothing fresh. -/
theorem lookup_of_not_fresh (hclock : (c.store.find? key).isSome = true → now ≤ latestTime)
    (hfresh : c.fresh? now key = none) :
    c.lookup now key =
      (.ok none,
        { c with counters := c.counters.notFresh (c.store.find? key).isSome }) := by
  cases hfind : c.store.find? key with
  | none => simp [lookup, hfind, Counters.notFresh]
  | some entry =>
    have hread : readClock now = .ok now :=
      readClock_eq_ok_iff.mpr ⟨hclock (by rw [hfind]; rfl), rfl⟩
    have hstale : entry.isStale c.rules.defaultTtl now = true := by
      simpa [fresh?, hfind, Option.filter_some] using hfresh
    simp [lookup, hfind, hread, hstale, Counters.notFresh]

/-! ### Populations -/

/-- A population that finds a fresh value delivers it. -/
theorem populate_of_fresh (hclock : (c.store.find? key).isSome = true → now ≤ latestTime)
    (hfresh : c.fresh? now key = some text) :
    c.populate now returned key timeToLive fetch =
      (⟨false, .ok (some text)⟩, { c with counters := c.counters.hit }) := by
  simp only [populate, beginPopulation, lookup_of_fresh hclock hfresh]

/-- A population that finds nothing fresh and fetches no value delivers nothing. -/
theorem populate_of_nothing (hclock : (c.store.find? key).isSome = true → now ≤ latestTime)
    (hfresh : c.fresh? now key = none) (hfetch : (fetch key).value? = none) :
    c.populate now returned key timeToLive fetch =
      (⟨true, .ok none⟩,
        { c with
          counters :=
            ((c.counters.notFresh (c.store.find? key).isSome).fetch).fetchFailure }) := by
  simp only [populate, beginPopulation, lookup_of_not_fresh hclock hfresh]
  cases hfetched : fetch key with
  | value text =>
    rw [hfetched] at hfetch
    cases hfetch
  | nothing => rfl
  | failed => rfl
  | broken => rfl

/-- A population that finds nothing fresh writes the value that it fetches, trims, and delivers the
value, whatever the trim has taken. -/
theorem populate_of_value (hs : c.store.Sound c.rules.estimator)
    (hclock : (c.store.find? key).isSome = true → now ≤ latestTime)
    (hfresh : c.fresh? now key = none) (hfetch : (fetch key).value? = some text)
    (hwrite : returned ≤ latestTime)
    (hfits : c.FitsWrite key ⟨text, returned, timeToLive⟩ size) :
    ∃ previous written evicted,
      c.store.put c.rules.estimator key ⟨text, returned, timeToLive⟩ = (.ok previous, written) ∧
      written.trim c.rules.budget = some (evicted, written.eraseAll evicted) ∧
      c.populate now returned key timeToLive fetch =
        (⟨true, .ok (some text)⟩,
          { c with
            store := written.eraseAll evicted
            counters := ((c.counters.notFresh (c.store.find? key).isSome).fetch).evicted
              evicted.length }) := by
  have hvalue : fetch key = .value text := Fetched.value?_eq_some_iff.mp hfetch
  have hread : readClock returned = .ok returned := readClock_eq_ok_iff.mpr ⟨hwrite, rfl⟩
  -- The counters that the lookup leaves make no difference to the write.
  have hanswers := insert_answers
    (c := { c with counters := (c.counters.notFresh (c.store.find? key).isSome).fetch })
    hs hfits
  obtain ⟨previous, written, evicted, hput, htrim, -, hinsert⟩ := insert_of_sound
    (c := { c with counters := (c.counters.notFresh (c.store.find? key).isSome).fetch })
    hs (by rw [hanswers]; exact fun h => by cases h)
  refine ⟨previous, written, evicted, hput, htrim, ?_⟩
  simp only [populate, beginPopulation, lookup_of_not_fresh hclock hfresh, hvalue, finishPopulation,
    write, hread, hinsert]

/-- A population with a conversion converts what the plain one delivers and counts a conversion
without a value. -/
theorem populateAs_of_populate {α : Type} {fetched : Bool} {delivered : Option String}
    (h : c.populate now returned key timeToLive fetch = (⟨fetched, .ok delivered⟩, next))
    (converter : Converter α) :
    c.populateAs now returned converter key timeToLive fetch =
      (⟨fetched, .ok (delivered.bind fun text => (converter text).toOption)⟩,
        { next with counters := next.counters.converted (delivered.map converter) }) := by
  unfold populateAs
  cases delivered with
  | none => simp only [h]; rfl
  | some text =>
    simp only [h, convert]
    cases hconverted : converter text with
    | ok a => simp [hconverted, Counters.converted, Except.toOption]
    | error fault => simp [hconverted, Counters.converted, Except.toOption]

/-- A population delivers once, unless the clock cannot show the times at which it is read. -/
theorem populate_serves (hs : c.store.Sound c.rules.estimator)
    (hclock : c.ClockServes now returned key (fetch key))
    (hfits : c.FitsFetched now returned key timeToLive (fetch key)) :
    (c.populate now returned key timeToLive fetch).1 =
      ⟨(c.fresh? now key).isNone, .ok ((c.fresh? now key).or (fetch key).value?)⟩ := by
  cases hfresh : c.fresh? now key with
  | some text =>
    rw [populate_of_fresh hclock.looked hfresh]
    rfl
  | none =>
    cases hfetch : (fetch key).value? with
    | none =>
      rw [populate_of_nothing hclock.looked hfresh hfetch]
      rfl
    | some text =>
      obtain ⟨size, hsize⟩ := hfits hfresh text hfetch
      obtain ⟨_, _, _, -, -, hpopulate⟩ := populate_of_value hs hclock.looked hfresh hfetch
        (hclock.written hfresh (by rw [hfetch]; rfl)) hsize
      rw [hpopulate]
      rfl

/-- If the clock cannot show one of these times nothing is delivered, and no entry is changed. -/
theorem populate_abandoned (timeToLive : Option UInt64)
    (hclock : ¬ c.ClockServes now returned key (fetch key)) :
    (c.populate now returned key timeToLive fetch).1.delivered = [] ∧
      (c.populate now returned key timeToLive fetch).2.store = c.store := by
  by_cases hlooked : (c.store.find? key).isSome = true → now ≤ latestTime
  · -- The lookup is made, so it is the write that cannot be dated.
    have hwritten : ¬ (c.fresh? now key = none → (fetch key).value?.isSome = true →
        returned ≤ latestTime) := fun h => hclock ⟨hlooked, h⟩
    obtain ⟨hfresh, hrest⟩ := Classical.not_imp.mp hwritten
    obtain ⟨hsome, hlate⟩ := Classical.not_imp.mp hrest
    obtain ⟨text, hfetch⟩ := Option.isSome_iff_exists.mp hsome
    have hvalue : fetch key = .value text := Fetched.value?_eq_some_iff.mp hfetch
    have hread : readClock returned = .error .clockOverrun := if_neg hlate
    simp [populate, beginPopulation, lookup_of_not_fresh hlooked hfresh, hvalue, finishPopulation,
      write, hread, Delivery.delivered]
  · obtain ⟨hsome, hlate⟩ := Classical.not_imp.mp hlooked
    obtain ⟨entry, hfind⟩ := Option.isSome_iff_exists.mp hsome
    have hread : readClock now = .error .clockOverrun := if_neg hlate
    simp [populate, beginPopulation, lookup, hfind, hread, Delivery.delivered]

/-- A lookup with a conversion converts the fresh value and counts a conversion without a value. -/
theorem lookupAs_eq_of_fresh {α : Type}
    (hclock : (c.store.find? key).isSome = true → now ≤ latestTime)
    (hfresh : c.fresh? now key = some text) (converter : Converter α) :
    c.lookupAs now converter key =
      (.ok (converter text).toOption,
        { c with counters := c.counters.hit.converted (some (converter text)) }) := by
  simp only [lookupAs, lookup_of_fresh hclock hfresh, convert]
  cases converter text <;> rfl

/-- A lookup with a conversion converts the fresh value. -/
theorem lookupAs_of_fresh {α : Type}
    (hclock : (c.store.find? key).isSome = true → now ≤ latestTime)
    (hfresh : c.fresh? now key = some text) (converter : Converter α) :
    (c.lookupAs now converter key).1 = .ok (converter text).toOption := by
  rw [lookupAs_eq_of_fresh hclock hfresh]

/-- A population with a conversion converts the fresh value. -/
theorem populateAs_of_fresh {α : Type}
    (hclock : (c.store.find? key).isSome = true → now ≤ latestTime)
    (hfresh : c.fresh? now key = some text) (converter : Converter α) :
    (c.populateAs now returned converter key timeToLive fetch).1 =
      ⟨false, .ok (converter text).toOption⟩ := by
  rw [populateAs_of_populate (populate_of_fresh hclock hfresh)]
  rfl

end Cache

namespace Engine

variable {σ : Type} [BlobStore σ] {e e₀ next : Engine σ} {key : String}
variable {now returned : Timestamp} {timeToLive : Option UInt64} {fetch : Fetch}
variable {config : Config} {estimator : Estimator} {blobs : σ} {plain : Delivery String}

/-- The engine with other counters. -/
def counting (e : Engine σ) (counters : Counters) : Engine σ :=
  { e with cache := { e.cache with counters } }

omit [BlobStore σ] in
/-- A call that concerns nothing but the memory answers what it answers there. -/
theorem onCache_eq_iff {α : Type} {call : Cache → α × Cache} {answer : α} :
    e.onCache call = (answer, next) ↔
      ∃ cache, call e.cache = (answer, cache) ∧ next = { e with cache } := by
  constructor
  · intro h
    obtain ⟨hanswer, hnext⟩ := Prod.mk.inj h
    exact ⟨_, Prod.ext hanswer rfl, hnext.symm⟩
  · rintro ⟨cache, hcall, rfl⟩
    rw [onCache, hcall]

/-- A population delivers once: the fresh value of its key, without a fetch, or else what its fetch
comes to. With a fresh value nothing is changed but a counter, and so it is if the fetch comes to no
value. A value that was fetched is put, the store is trimmed to the budget, and the value is
delivered whatever the trim has taken. A population with a conversion delivers what the converter
makes of the same text and leaves the same engine, but that it counts a conversion without a value.
So later calls with another converter find the same text. -/
theorem populate_effect (hstart : start config estimator blobs = .ok e₀) (hreach : e₀.Reaches e)
    (hclock : e.cache.ClockServes now returned key (fetch key))
    (hfits : e.cache.FitsFetched now returned key timeToLive (fetch key))
    (hplain : e.populate now returned key timeToLive fetch = (plain, next)) :
    plain.delivered = [(e.cache.fresh? now key).or (fetch key).value?] ∧
      plain.fetched = (e.cache.fresh? now key).isNone ∧
      (∀ text, e.cache.fresh? now key = some text → next = e.counting e.cache.counters.hit) ∧
      (e.cache.fresh? now key = none → (fetch key).value? = none →
        next = e.counting
          (e.cache.counters.notFresh (e.cache.store.find? key).isSome).fetch.fetchFailure) ∧
      (∀ text, e.cache.fresh? now key = none → (fetch key).value? = some text →
        ∃ previous written evicted kept,
          e.cache.store.put estimator key ⟨text, returned, timeToLive⟩ = (.ok previous, written) ∧
          written.trim config.maxMemoryBytes = some (evicted, kept) ∧
          next = counting { e with cache := { e.cache with store := kept } }
            ((e.cache.counters.notFresh (e.cache.store.find? key).isSome).fetch.evicted
              evicted.length)) ∧
      ∀ {α : Type} (converter : Converter α) (converting : Delivery α) (last : Engine σ),
        e.populateAs now returned converter key timeToLive fetch = (converting, last) →
        converting.delivered =
            [((e.cache.fresh? now key).or (fetch key).value?).bind fun text =>
              (converter text).toOption] ∧
          converting.fetched = plain.fetched ∧
          last = next.counting (next.cache.counters.converted
            (((e.cache.fresh? now key).or (fetch key).value?).map converter)) ∧
          ∀ {β : Type} (other : Converter β) (later : Timestamp) (text : String),
            later ≤ latestTime → next.cache.fresh? later key = some text →
            (last.getAs later other key).1 = .ok (other text).toOption ∧
              ∀ back ttl again, (last.populateAs later back other key ttl again).1 =
                ⟨false, .ok (other text).toOption⟩ := by
  have hs : e.cache.store.Sound e.cache.rules.estimator := hreach.sound (sound_start hstart)
  have hrules := hreach.rules_of_start hstart
  obtain ⟨cache, hcache, rfl⟩ := onCache_eq_iff.mp hplain
  have hserves := Cache.populate_serves hs hclock hfits
  rw [hcache] at hserves
  obtain rfl : plain = _ := hserves
  refine ⟨rfl, rfl, fun text hfresh => ?_, fun hfresh hfetch => ?_, fun text hfresh hfetch => ?_,
    fun {α} converter converting last hlast => ?_⟩
  · rw [Cache.populate_of_fresh hclock.looked hfresh] at hcache
    rw [← (Prod.mk.inj hcache).2]
    rfl
  · rw [Cache.populate_of_nothing hclock.looked hfresh hfetch] at hcache
    rw [← (Prod.mk.inj hcache).2]
    rfl
  · obtain ⟨size, hsize⟩ := hfits hfresh text hfetch
    obtain ⟨previous, written, evicted, hput, htrim, hpopulate⟩ := Cache.populate_of_value hs
      hclock.looked hfresh hfetch (hclock.written hfresh (by rw [hfetch]; rfl)) hsize
    rw [hpopulate] at hcache
    rw [hrules] at hput htrim
    refine ⟨previous, written, evicted, _, hput, htrim, ?_⟩
    rw [← (Prod.mk.inj hcache).2]
    rfl
  · have hconverts := Cache.populateAs_of_populate hcache converter
    obtain ⟨converted, hconverted, rfl⟩ := onCache_eq_iff.mp hlast
    obtain ⟨rfl, rfl⟩ := Prod.mk.inj (hconverts.symm.trans hconverted)
    refine ⟨rfl, rfl, rfl, fun {β} other later text hlater hfresh => ?_⟩
    -- The conversion has changed neither the rules nor the entries.
    have hsame : Cache.fresh?
        { cache with
          counters := cache.counters.converted
            (((e.cache.fresh? now key).or (fetch key).value?).map converter) } later key =
        some text := hfresh
    exact ⟨Cache.lookupAs_of_fresh (fun _ => hlater) hsame other,
      fun back ttl again => Cache.populateAs_of_fresh (fun _ => hlater) hsame other⟩

/-- An engine with room for one entry, which it holds. -/
def holdingOne : Engine MemoryBlobs := (roomFor 1).run [.put 1 "k" "12" none]

/-- A fetch that always has a value. -/
def echo : Fetch := fun key => .value ("of " ++ key)

/-- A fetch that never has one. -/
def noValue : Fetch := fun _ => .nothing

/-- A converter that breaks down over every text. -/
def breaking : Converter Unit := fun _ => .error .broken

/-- An engine without room delivers what was fetched and holds nothing. A converter that breaks down
delivers nothing, and another one finds the same text. -/
theorem populate_effect_evicted :
    ((roomFor 0).populate 5 6 "k" (some 9) echo).1.delivered = [some "of k"] ∧
      ((roomFor 0).populate 5 6 "k" (some 9) echo).2.cache.store.size = 0 ∧
      (holdingOne.populateAs 5 6 breaking "k" none noValue).1.delivered = [none] ∧
      ((holdingOne.populateAs 5 6 breaking "k" none noValue).2.getAs 7 .byteLength "k").1 =
        .ok (some 2) := by
  have hstart (entries : Nat) : start { Config.standard with maxMemoryBytes := entries } (.flat 1)
      (roomFor entries).blobs = .ok (roomFor entries) := rfl
  have hreach : (roomFor 1).Reaches holdingOne := .call (.put 1 "k" "12" none) .start (by decide)
  have hempty : (roomFor 0).cache.ClockServes 5 6 "k" (echo "k") :=
    ⟨fun _ => by decide, fun _ _ => by decide⟩
  have hheld : holdingOne.cache.ClockServes 5 6 "k" (noValue "k") :=
    ⟨fun _ => by decide, fun _ _ => by decide⟩
  have hfits : (roomFor 0).cache.FitsFetched 5 6 "k" (some 9) (echo "k") :=
    fun _ text _ => ⟨1, rfl, by decide⟩
  have hnone : holdingOne.cache.FitsFetched 5 6 "k" none (noValue "k") :=
    fun _ text htext => by cases htext
  obtain ⟨hdelivered, -⟩ := populate_effect (hstart 0) .start hempty hfits rfl
  obtain ⟨-, -, -, -, -, hconverts⟩ := populate_effect (hstart 1) hreach hheld hnone rfl
  obtain ⟨hnothing, -, -, hagain⟩ := hconverts breaking _ _ rfl
  exact ⟨hdelivered, by decide, hnothing, (hagain .byteLength 7 "12" (by decide) (by decide)).1⟩

/-- A population at a time that the clock cannot show delivers nothing at all, although the entry of
its key never grows stale. -/
theorem not_populate_effect :
    ¬ ∀ (now returned : Timestamp) (key : String) (timeToLive : Option UInt64) (fetch : Fetch),
      holdingOne.cache.FitsFetched now returned key timeToLive (fetch key) →
      (holdingOne.populate now returned key timeToLive fetch).1.delivered =
        [(holdingOne.cache.fresh? now key).or (fetch key).value?] := by
  intro hdelivers
  have hone := hdelivers (latestTime + 1) (latestTime + 1) "k" none noValue
    (fun _ text htext => by cases htext)
  have hlate : ¬ holdingOne.cache.ClockServes (latestTime + 1) (latestTime + 1) "k"
      (noValue "k") :=
    fun h => absurd (h.looked (by decide)) (by decide)
  obtain ⟨hnone, -⟩ := Cache.populate_abandoned none hlate
  cases hnone.symm.trans hone

end Engine

end DurableCache
