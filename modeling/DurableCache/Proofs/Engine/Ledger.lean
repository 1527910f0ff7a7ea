import DurableCache.Proofs.Engine.Budget
import DurableCache.Proofs.Load.Fence
import DurableCache.Proofs.Store.Counts

/-!
# The ledger of a run

The counters of an engine wrap around at a word. Beside them a ledger counts what a run did and
answered, call by call and without a limit. The counters then agree with the ledger up to multiples
of a word, and no entry is lost: those written are in memory, or were replaced, removed or evicted
(`counters_balance`). What one step does to the books is said by `Cache.Accounts`, which is a
transitive relation, so the books of a run are those of its steps.
-/

namespace DurableCache

/-- What a run of calls did and answered. -/
structure Ledger where
  /-- Calls that look a key up and fetch nothing. -/
  lookups : Nat := 0
  /-- Populations, which look a key up and may fetch it. -/
  populations : Nat := 0
  /-- Of both, those that were abandoned because the clock could not be read. -/
  unread : Nat := 0
  /-- Populations whose lookup found nothing fresh, so that a fetch began. -/
  missed : Nat := 0
  /-- Fetches that came back. -/
  returned : Nat := 0
  /-- Fetched values that were written. -/
  populated : Nat := 0
  /-- Fetched values that were not written because the clock could not be read. -/
  lost : Nat := 0
  /-- Values that were put. -/
  puts : Nat := 0
  /-- Entries that the end of the load stored. -/
  loaded : Nat := 0
  /-- Entries in whose place another one of their key was written or loaded. -/
  replaced : Nat := 0
  /-- Invalidations that found an entry. -/
  invalidated : Nat := 0
  /-- The numbers that clears and purges answered, added up. -/
  dropped : Nat := 0
  /-- Conversions that failed or broke down. -/
  unconverted : Nat := 0
  deriving DecidableEq, Repr

namespace Ledger

/-- The entries of two ledgers are added up line by line. -/
instance : Add Ledger where
  add l m :=
    { lookups := l.lookups + m.lookups
      populations := l.populations + m.populations
      unread := l.unread + m.unread
      missed := l.missed + m.missed
      returned := l.returned + m.returned
      populated := l.populated + m.populated
      lost := l.lost + m.lost
      puts := l.puts + m.puts
      loaded := l.loaded + m.loaded
      replaced := l.replaced + m.replaced
      invalidated := l.invalidated + m.invalidated
      dropped := l.dropped + m.dropped
      unconverted := l.unconverted + m.unconverted }

/-- The counters and the extent of a store are those of a ledger, up to multiples of a word. -/
structure Balances (l : Ledger) (s : Stats) : Prop where
  /-- Every lookup that could be made is counted as one of three kinds. -/
  looked : s.counters.hits + s.counters.misses + s.counters.stale + UInt64.ofNat l.unread =
    UInt64.ofNat (l.lookups + l.populations)
  /-- Exactly the populations that find nothing fresh fetch. -/
  fetched : s.counters.fetches = UInt64.ofNat l.missed
  /-- A fetch is still out, or failed, or its value was written or could not be. -/
  populated : s.counters.fetches - s.counters.fetchFailures =
    UInt64.ofNat (l.populated + l.lost) + (UInt64.ofNat l.missed - UInt64.ofNat l.returned)
  /-- Every conversion without a value is counted. -/
  converted : s.counters.conversionFailures = UInt64.ofNat l.unconverted
  /-- Every entry that was written is in memory, or was replaced, removed or evicted. -/
  conserved : UInt64.ofNat (l.puts + l.populated + l.loaded) =
    UInt64.ofNat (s.totalEntries + l.replaced + l.invalidated + l.dropped) + s.counters.evictions

end Ledger

namespace Cache

/-! ### What a call adds to the ledger

Each amount is read off the answer of the call and the cache before it. -/

section Tallies

variable {α : Type} (c : Cache) (now returned : Timestamp) (key : String)
variable (timeToLive : Option UInt64)

/-- Whether a lookup is abandoned. -/
def unread : Nat :=
  match (c.lookup now key).1 with
  | .ok _ => 0
  | .error _ => 1

/-- Whether a lookup answers that there is nothing fresh. -/
def missed : Nat :=
  match (c.lookup now key).1 with
  | .ok none => 1
  | .ok (some _) | .error _ => 0

/-- The books of a lookup. -/
def lookupTally : Ledger := { lookups := 1, unread := c.unread now key }

/-- The books of the lookup of a population. -/
def beginTally : Ledger :=
  { populations := 1, unread := c.unread now key, missed := c.missed now key }

/-- The books of a conversion. -/
def conversionTally (converter : Converter α) (text : String) : Ledger :=
  match converter text with
  | .ok _ => {}
  | .error _ => { unconverted := 1 }

/-- The books of a conversion of what was found, if anything was. -/
def foundTally (converter : Converter α) : Except Abort (Option String) → Ledger
  | .ok (some text) => conversionTally converter text
  | .ok none | .error _ => {}

/-- The books of a put. -/
def putTally (value : String) : Ledger :=
  match (c.write now key value timeToLive).1 with
  | .ok () => { puts := 1, replaced := (c.store.contains key).toNat }
  | .error _ => {}

/-- The books of a fetch that has come back. -/
def finishTally : Fetched → Ledger
  | .value text =>
    match (c.write returned key text timeToLive).1 with
    | .ok () => { returned := 1, populated := 1, replaced := (c.store.contains key).toNat }
    | .error _ => { returned := 1, lost := 1 }
  | .nothing | .failed | .broken => { returned := 1 }

/-- The books of a population: those of its lookup, and those of its fetch if it fetches. -/
def populateTally (fetched : Fetched) : Ledger :=
  match c.beginPopulation now key with
  | (.ok none, begun) => c.beginTally now key + begun.finishTally returned key timeToLive fetched
  | (.ok (some _), _) | (.error _, _) => c.beginTally now key

/-- The books of a removal. -/
def removeTally : Ledger := { invalidated := (c.remove key).1.toNat }

/-- The books of the removal of all entries. -/
def clearTally : Ledger := { dropped := c.clear.1 }

/-- The books of a purge. -/
def purgeTally : Ledger :=
  match (c.purge now).1 with
  | .ok removed => { dropped := removed }
  | .error _ => {}

/-- The books of the end of a load that is done. -/
def loadTally (loaded : Store) : Ledger :=
  match (c.finishLoad (some loaded)).1 with
  | .ok stored =>
    { loaded := stored
      replaced :=
        if (c.fence.getD .fresh).cleared then 0
        else c.store.replacedBy (delivery (c.fence.getD .fresh) loaded) }
  | .error _ => {}

end Tallies

/-- One cache comes of another with the books that a ledger shows. -/
structure Accounts (c : Cache) (l : Ledger) (next : Cache) : Prop where
  looked : next.counters.hits + next.counters.misses + next.counters.stale +
      UInt64.ofNat l.unread =
    c.counters.hits + c.counters.misses + c.counters.stale +
      UInt64.ofNat (l.lookups + l.populations)
  fetched : next.counters.fetches = c.counters.fetches + UInt64.ofNat l.missed
  populated : next.counters.fetchFailures + UInt64.ofNat (l.populated + l.lost) =
    c.counters.fetchFailures + UInt64.ofNat l.returned
  converted : next.counters.conversionFailures =
    c.counters.conversionFailures + UInt64.ofNat l.unconverted
  conserved : UInt64.ofNat (next.store.size + l.replaced + l.invalidated + l.dropped) +
      next.counters.evictions =
    UInt64.ofNat (c.store.size + l.puts + l.populated + l.loaded) + c.counters.evictions

variable {c next last : Cache} {l m : Ledger} {now returned : Timestamp} {key value : String}
variable {timeToLive : Option UInt64}

/-- A cache that differs in its fence alone needs no entry in the books. -/
theorem accounts_fence (hstore : next.store = c.store) (hcounters : next.counters = c.counters) :
    c.Accounts {} next := by
  constructor <;> simp [hstore, hcounters]

/-- The books of two steps are added up. -/
theorem Accounts.trans (h : c.Accounts l next) (h' : next.Accounts m last) :
    c.Accounts (l + m) last := by
  obtain ⟨hlooked, hfetched, hpopulated, hconverted, hconserved⟩ := h
  obtain ⟨hlooked', hfetched', hpopulated', hconverted', hconserved'⟩ := h'
  constructor
  · show _ + UInt64.ofNat (l.unread + m.unread) =
      _ + UInt64.ofNat (l.lookups + m.lookups + (l.populations + m.populations))
    simp only [UInt64.ofNat_add] at hlooked hlooked' ⊢
    grind
  · show _ = _ + UInt64.ofNat (l.missed + m.missed)
    simp only [UInt64.ofNat_add]
    grind
  · show _ + UInt64.ofNat (l.populated + m.populated + (l.lost + m.lost)) =
      _ + UInt64.ofNat (l.returned + m.returned)
    simp only [UInt64.ofNat_add] at hpopulated hpopulated' ⊢
    grind
  · show _ = _ + UInt64.ofNat (l.unconverted + m.unconverted)
    simp only [UInt64.ofNat_add]
    grind
  · show UInt64.ofNat (last.store.size + (l.replaced + m.replaced) +
        (l.invalidated + m.invalidated) + (l.dropped + m.dropped)) + _ =
      UInt64.ofNat (c.store.size + (l.puts + m.puts) + (l.populated + m.populated) +
        (l.loaded + m.loaded)) + _
    simp only [UInt64.ofNat_add] at hconserved hconserved' ⊢
    grind

/-- A lookup counts itself as one of three kinds, unless it is abandoned. -/
theorem lookup_snd (c : Cache) (now : Timestamp) (key : String) :
    ∃ hits misses stale, (c.lookup now key).2 =
        { c with counters := { c.counters with hits, misses, stale } } ∧
      hits + misses + stale + UInt64.ofNat (c.unread now key) =
        c.counters.hits + c.counters.misses + c.counters.stale + 1 := by
  have hnone : UInt64.ofNat 0 = 0 := rfl
  unfold unread lookup
  split
  · refine ⟨c.counters.hits, c.counters.misses + 1, c.counters.stale, rfl, ?_⟩
    simp only [hnone]
    grind
  · split
    · exact ⟨c.counters.hits, c.counters.misses, c.counters.stale, rfl, rfl⟩
    · split
      · refine ⟨c.counters.hits, c.counters.misses, c.counters.stale + 1, rfl, ?_⟩
        simp only [hnone]
        grind
      · refine ⟨c.counters.hits + 1, c.counters.misses, c.counters.stale, rfl, ?_⟩
        simp only [hnone]
        grind

/-- The books of a lookup are right. -/
theorem accounts_lookup (c : Cache) (now : Timestamp) (key : String) :
    c.Accounts (c.lookupTally now key) (c.lookup now key).2 := by
  obtain ⟨hits, misses, stale, hnext, hlooked⟩ := c.lookup_snd now key
  rw [hnext]
  constructor
  · exact hlooked
  all_goals simp [lookupTally]

/-- The books of the lookup of a population are right. -/
theorem accounts_beginPopulation (c : Cache) (now : Timestamp) (key : String) :
    c.Accounts (c.beginTally now key) (c.beginPopulation now key).2 := by
  obtain ⟨hits, misses, stale, hnext, hlooked⟩ := c.lookup_snd now key
  have hfetches : (c.beginPopulation now key).2 =
      { c with
        counters :=
          { c.counters with
            hits, misses, stale
            fetches := c.counters.fetches + UInt64.ofNat (c.missed now key) } } := by
    unfold beginPopulation missed
    cases hlookup : c.lookup now key with
    | mk answer found =>
      rw [hlookup] at hnext
      obtain rfl : found = _ := hnext
      match answer with
      | .ok none => rfl
      | .ok (some text) => simp
      | .error why => simp
  rw [hfetches]
  constructor
  · exact hlooked
  all_goals simp [beginTally]

/-- The books of a conversion are right. -/
theorem accounts_convert {α : Type} (c : Cache) (converter : Converter α) (text : String) :
    c.Accounts (conversionTally converter text) (c.convert converter text).2 := by
  unfold convert conversionTally
  cases converter text with
  | ok a => exact accounts_fence rfl rfl
  | error fault => constructor <;> simp [Counters.conversionFailure]

/-- The books of a lookup with a conversion are right. -/
theorem accounts_lookupAs {α : Type} (c : Cache) (now : Timestamp) (converter : Converter α)
    (key : String) :
    c.Accounts (c.lookupTally now key + foundTally converter (c.lookup now key).1)
      (c.lookupAs now converter key).2 := by
  have hlookup := c.accounts_lookup now key
  unfold lookupAs
  cases hanswer : c.lookup now key with
  | mk answer found =>
    rw [hanswer] at hlookup
    match answer with
    | .ok (some text) => exact hlookup.trans (accounts_convert found converter text)
    | .ok none => exact hlookup.trans (accounts_fence rfl rfl)
    | .error why => exact hlookup.trans (accounts_fence rfl rfl)

/-! ### Writes and evictions -/

/-- The number of entries and the evictions are the books of a step that counts nothing else. -/
theorem accounts_store {evicted : Nat} (hcounters : next.counters = c.counters.evicted evicted)
    (hsize : next.store.size + l.replaced + l.invalidated + l.dropped + evicted =
      c.store.size + l.puts + l.populated + l.loaded)
    (hlooked : l.lookups + l.populations = l.unread) (hmissed : l.missed = 0)
    (hreturned : l.returned = l.populated + l.lost) (hconverted : l.unconverted = 0) :
    c.Accounts l next := by
  constructor
  · rw [hcounters, hlooked]
    rfl
  · rw [hcounters, hmissed]
    exact (UInt64.add_zero _).symm
  · rw [hcounters, hreturned]
    rfl
  · rw [hcounters, hconverted]
    exact (UInt64.add_zero _).symm
  · rw [hcounters, ← hsize]
    simp only [Counters.evicted, UInt64.ofNat_add]
    grind

/-- A trim counts the entries that it takes away. -/
theorem accounts_trim (hs : c.store.Sound c.rules.estimator) {answer : Except Abort Nat}
    (h : c.trim = (answer, next)) : c.Accounts {} next := by
  obtain ⟨evicted, hevicted, -, htrim⟩ := trim_of_sound hs
  obtain ⟨-, rfl⟩ := Prod.mk.inj (htrim.symm.trans h)
  exact accounts_store rfl (hs.size_trim hevicted) rfl rfl rfl rfl

/-- A write that answers adds one entry, or replaces one, and counts those that its trim takes
away. -/
theorem insert_ok {entry : Entry} (hs : c.store.Sound c.rules.estimator)
    (h : c.insert key entry = (.ok (), next)) :
    ∃ evicted, next.counters = c.counters.evicted evicted ∧
      next.store.size + (c.store.contains key).toNat + evicted = c.store.size + 1 := by
  have hfits : abort? (c.insert key entry).1 ≠ some .sizeOverflow := by
    rw [h]
    exact fun habandoned => by cases habandoned
  obtain ⟨previous, written, evicted, hput, hevicted, -, hinsert⟩ := insert_of_sound hs hfits
  obtain ⟨-, rfl⟩ := Prod.mk.inj (hinsert.symm.trans h)
  have hadded := Store.size_put_ok hput
  have htaken : (written.eraseAll evicted).size + evicted.length = written.size :=
    (hs.put hput).size_trim hevicted
  refine ⟨evicted.length, rfl, ?_⟩
  show (written.eraseAll evicted).size + _ + _ = _
  omega

/-- A write that answers adds one entry, or replaces one. -/
theorem write_ok (hs : c.store.Sound c.rules.estimator)
    (h : c.write now key value timeToLive = (.ok (), next)) :
    ∃ evicted, next.counters = c.counters.evicted evicted ∧
      next.store.size + (c.store.contains key).toNat + evicted = c.store.size + 1 := by
  unfold write at h
  split at h
  · cases h
  · exact insert_ok hs h

/-- A write whose sizes fit is abandoned only by the clock, and then changes nothing. -/
theorem write_error (hs : c.store.Sound c.rules.estimator) {why : Abort}
    (hfits : abort? (c.write now key value timeToLive).1 ≠ some .sizeOverflow)
    (h : c.write now key value timeToLive = (.error why, next)) : next = c := by
  unfold write at h hfits
  split at h
  · exact (Prod.mk.inj h).2.symm
  · rename_i shown hclock
    rw [hclock] at hfits
    simp only at hfits
    obtain ⟨previous, written, evicted, -, -, -, hinsert⟩ := insert_of_sound hs hfits
    rw [hinsert] at h
    cases h

/-- The books of a put are right. -/
theorem accounts_put (hs : c.store.Sound c.rules.estimator)
    (hfits : abort? (c.write now key value timeToLive).1 ≠ some .sizeOverflow) :
    c.Accounts (c.putTally now key timeToLive value) (c.write now key value timeToLive).2 := by
  unfold putTally
  cases hwrite : c.write now key value timeToLive with
  | mk answer next =>
    cases answer with
    | ok _ =>
      obtain ⟨evicted, hcounters, hsize⟩ := write_ok hs hwrite
      exact accounts_store hcounters (by simpa using hsize) rfl rfl rfl rfl
    | error why =>
      rw [write_error hs hfits hwrite]
      exact accounts_fence rfl rfl

/-- The books of a fetch that has come back are right. -/
theorem accounts_finishPopulation (hs : c.store.Sound c.rules.estimator) {fetched : Fetched}
    (hfits : abort? (c.finishPopulation returned key timeToLive fetched).1 ≠
      some .sizeOverflow) :
    c.Accounts (c.finishTally returned key timeToLive fetched)
      (c.finishPopulation returned key timeToLive fetched).2 := by
  cases fetched with
  | value text =>
    simp only [finishPopulation, finishTally] at hfits ⊢
    cases hwrite : c.write returned key text timeToLive with
    | mk answer next =>
      rw [hwrite] at hfits
      cases answer with
      | ok _ =>
        obtain ⟨evicted, hcounters, hsize⟩ := write_ok hs hwrite
        exact accounts_store hcounters (by simpa using hsize) rfl rfl rfl rfl
      | error why =>
        rw [write_error hs (by rwa [hwrite]) hwrite]
        exact accounts_store (Counters.evicted_zero _).symm rfl rfl rfl rfl rfl
  | nothing | failed | broken =>
    constructor <;> simp [finishPopulation, finishTally, Counters.fetchFailure]

/-- The books of a population are right. -/
theorem accounts_populate (hs : c.store.Sound c.rules.estimator) {fetch : Fetch}
    (hfits : abort? (c.populate now returned key timeToLive fetch).1.result ≠
      some .sizeOverflow) :
    c.Accounts (c.populateTally now returned key timeToLive (fetch key))
      (c.populate now returned key timeToLive fetch).2 := by
  have hbegin := c.accounts_beginPopulation now key
  have hkeep := c.turns_beginPopulation now key
  unfold populate populateTally at *
  cases hjob : c.beginPopulation now key with
  | mk answer begun =>
    rw [hjob] at hbegin hkeep
    simp only [hjob] at hfits ⊢
    match answer with
    | .error why => exact hbegin
    | .ok (some found) => exact hbegin
    | .ok none =>
      have hstore : begun.store.Sound begun.rules.estimator := by
        rw [hkeep.rules]
        exact hkeep.store.sound hs
      exact hbegin.trans (accounts_finishPopulation hstore hfits)

/-- The books of a population with a conversion are right. -/
theorem accounts_populateAs {α : Type} (hs : c.store.Sound c.rules.estimator)
    {converter : Converter α} {fetch : Fetch}
    (hfits : abort? (c.populateAs now returned converter key timeToLive fetch).1.result ≠
      some .sizeOverflow) :
    c.Accounts
      (c.populateTally now returned key timeToLive (fetch key) +
        foundTally converter (c.populate now returned key timeToLive fetch).1.result)
      (c.populateAs now returned converter key timeToLive fetch).2 := by
  have hpopulate : abort? (c.populate now returned key timeToLive fetch).1.result ≠
        some .sizeOverflow →
      c.Accounts (c.populateTally now returned key timeToLive (fetch key))
        (c.populate now returned key timeToLive fetch).2 := accounts_populate hs
  unfold populateAs at hfits ⊢
  cases hanswer : c.populate now returned key timeToLive fetch with
  | mk delivery filled =>
    obtain ⟨fetched, result⟩ := delivery
    rw [hanswer] at hpopulate hfits
    match result with
    | .error why => exact (hpopulate hfits).trans (accounts_fence rfl rfl)
    | .ok none => exact (hpopulate (by simp [abort?])).trans (accounts_fence rfl rfl)
    | .ok (some text) =>
      exact (hpopulate (by simp [abort?])).trans (accounts_convert filled converter text)

/-! ### Removals and the end of the load -/

/-- The books of a removal are right. -/
theorem accounts_remove (c : Cache) (key : String) :
    c.Accounts (c.removeTally key) (c.remove key).2 := by
  refine accounts_store (Counters.evicted_zero _).symm ?_ rfl rfl rfl rfl
  have hsize := c.store.size_erase_add key
  rw [Store.contains_eq_isSome] at hsize
  simpa [removeTally, remove, Store.remove] using hsize

/-- The books of the removal of all entries are right. -/
theorem accounts_clear (c : Cache) : c.Accounts c.clearTally c.clear.2 := by
  refine accounts_store (Counters.evicted_zero _).symm ?_ rfl rfl rfl rfl
  simp [clearTally, clear, Store.clear]

/-- The books of a purge are right. -/
theorem accounts_purge (c : Cache) (now : Timestamp) :
    c.Accounts (c.purgeTally now) (c.purge now).2 := by
  unfold purgeTally purge
  cases readClock now with
  | error why => exact accounts_fence rfl rfl
  | ok shown =>
    refine accounts_store (Counters.evicted_zero _).symm ?_ rfl rfl rfl rfl
    have hsize := c.store.size_retain fun _ entry => !entry.isStale c.rules.defaultTtl shown
    simpa using hsize

/-- The books of the end of a load that is done are right. -/
theorem accounts_finishLoad {loaded : Store} {stored : Nat}
    (h : c.finishLoad (some loaded) = (.ok stored, next)) :
    c.Accounts (c.loadTally loaded) next := by
  have hanswer : (c.finishLoad (some loaded)).1 = .ok stored := by rw [h]
  simp only [loadTally, hanswer]
  simp only [finishLoad] at h
  split at h
  · rename_i hcleared
    obtain ⟨hzero, rfl⟩ := Prod.mk.inj h
    obtain rfl := Except.ok.inj hzero
    rw [if_pos hcleared]
    exact accounts_fence rfl rfl
  · rename_i hcleared
    obtain ⟨hstored, rfl⟩ := Prod.mk.inj h
    rw [if_neg hcleared]
    have hsize : (c.store.merge c.rules.estimator
          (delivery (c.fence.getD .fresh) loaded)).2.size +
        c.store.replacedBy (delivery (c.fence.getD .fresh) loaded) = c.store.size + stored :=
      Store.size_merge (delivery_nodup _ _) (Prod.ext hstored rfl)
    exact accounts_store (Counters.evicted_zero _).symm hsize rfl rfl rfl rfl

/-- The books of the end of a load, with entries or without. -/
def endTally (c : Cache) (loaded : Option Store) : Ledger := loaded.elim {} c.loadTally

/-- The end of a load whose sizes fit and the trim behind it keep a cache sound and bring it within
its budget, and their books are right. -/
theorem accounts_trim_finishLoad (hs : c.store.Sound c.rules.estimator) {loaded : Option Store}
    (hfits : abort? (c.finishLoad loaded).1 ≠ some .sizeOverflow) :
    ∃ stored merged evicted trimmed, c.finishLoad loaded = (.ok stored, merged) ∧
      merged.trim = (.ok evicted, trimmed) ∧ trimmed.rules = c.rules ∧
      trimmed.store.Sound c.rules.estimator ∧ trimmed.store.total ≤ c.rules.budget ∧
      c.Accounts (c.endTally loaded) trimmed := by
  obtain ⟨stored, merged, evicted, hfinish, hrules, hsound, htotal, htrim⟩ :=
    trim_finishLoad_of_sound hs hfits
  have hbooks : c.Accounts (c.endTally loaded) merged := by
    cases loaded with
    | none =>
      obtain ⟨-, rfl⟩ := Prod.mk.inj hfinish
      exact accounts_fence rfl rfl
    | some staged => exact accounts_finishLoad hfinish
  have hmerged : merged.store.Sound merged.rules.estimator := by rwa [hrules]
  exact ⟨stored, merged, evicted.length, _, hfinish, htrim, hrules, hsound.eraseAll evicted, htotal,
    hbooks.trans (accounts_trim hmerged htrim)⟩

end Cache

end DurableCache
