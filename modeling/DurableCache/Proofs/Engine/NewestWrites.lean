import DurableCache.Proofs.Engine.FreshWrites
import DurableCache.Proofs.Store.Runs
import DurableCache.Proofs.Store.Suffixes

/-!
# Puts at ascending times

Every put trims the memory at once. After puts of different keys at ascending times the memory holds
the last of them, as many as fit into the budget, and the evictions are as many as the others. So
the trims after each put come to what one trim after all of them comes to.
-/

namespace DurableCache

/-- Evictions may be counted in two parts. -/
theorem Counters.evicted_evicted (c : Counters) (first second : Nat) :
    (c.evicted first).evicted second = c.evicted (first + second) := by
  simp [Counters.evicted, UInt64.ofNat_add, UInt64.add_assoc]

namespace Engine

variable {σ : Type} [BlobStore σ] {e e₀ : Engine σ}

/-- A value that is put under a key at a time. -/
structure Put where
  now : Timestamp
  key : String
  value : String
  timeToLive : Option UInt64
  deriving DecidableEq, Repr

namespace Put

/-- The entry that a put writes. -/
def entry (p : Put) : Entry := ⟨p.value, p.now, p.timeToLive⟩

/-- The row that a put writes. -/
def row (p : Put) : String × Entry := (p.key, p.entry)

/-- A put as a call. -/
def call (p : Put) : Call := .put p.now p.key p.value p.timeToLive

/-- A put without the trim behind it. -/
def operation (p : Put) : Store.Operation := .put p.key p.entry

end Put

variable {p : Put} {puts : List Put} {evicted : List String}

/-- A put that fits and whose time the clock can show writes its row and trims. -/
theorem perform_put (hs : e.Sound) (hclock : p.now ≤ latestTime)
    (hfits : (e.perform p.call).1 ≠ some .sizeOverflow) :
    ∃ previous written evicted,
      e.cache.store.put e.cache.rules.estimator p.key p.entry = (.ok previous, written) ∧
      written.trim e.cache.rules.budget = some (evicted, written.eraseAll evicted) ∧
      (e.perform p.call).2.cache =
        { e.cache with
          store := written.eraseAll evicted
          counters := e.cache.counters.evicted evicted.length } := by
  have hwrite : (e.perform p.call).2.cache = (e.cache.insert p.key p.entry).2 ∧
      (e.perform p.call).1 = abort? (e.cache.insert p.key p.entry).1 := by
    have hread : readClock p.now = .ok p.now := readClock_eq_ok_iff.mpr ⟨hclock, rfl⟩
    simp [Put.call, Put.entry, perform, put, onCache, Cache.write, hread]
  rw [hwrite.2] at hfits
  obtain ⟨previous, written, evicted, hput, htrim, -, hinsert⟩ := Cache.insert_of_sound hs hfits
  refine ⟨previous, written, evicted, hput, htrim, ?_⟩
  rw [hwrite.1, hinsert]

/-- Puts of new keys at later times, made where the newest of some rows are held. -/
theorem keepsNewest_run {rows : List (String × Entry)} (hs : e.Sound)
    (hheld : Store.KeepsNewest e.cache.rules.estimator e.cache.rules.budget rows evicted
      e.cache.store)
    (hclock : ∀ p ∈ puts, p.now ≤ latestTime)
    (hkeys : ((rows ++ puts.map Put.row).map Prod.fst).Nodup)
    (hsorted : (rows ++ puts.map Put.row).Pairwise Store.Precedes)
    (hfits : e.Fits (puts.map Put.call)) :
    ∃ more,
      Store.KeepsNewest e.cache.rules.estimator e.cache.rules.budget (rows ++ puts.map Put.row)
        (evicted ++ more) (e.run (puts.map Put.call)).cache.store ∧
      (e.run (puts.map Put.call)).cache.counters = e.cache.counters.evicted more.length := by
  induction puts generalizing e rows evicted with
  | nil =>
    refine ⟨[], ?_, (Counters.evicted_zero _).symm⟩
    simpa [run] using hheld
  | cons p rest ih =>
    obtain ⟨hnow, hlater⟩ := List.forall_mem_cons.mp hclock
    obtain ⟨hfirst, hrest⟩ := hfits
    obtain ⟨previous, written, taken, hput, htrim, hcache⟩ := perform_put hs hnow hfirst
    have hsplit : rows ++ (p :: rest).map Put.row = rows ++ [p.row] ++ rest.map Put.row := by simp
    rw [hsplit] at hkeys hsorted ⊢
    have hsub : (rows ++ [p.row]).Sublist (rows ++ [p.row] ++ rest.map Put.row) :=
      List.sublist_append_left _ _
    have hnext :=
      hheld.write hs (hkeys.sublist (hsub.map Prod.fst)) (hsorted.sublist hsub) hput htrim
    have hsound := hs.perform p.call hfirst
    have hrules : (e.perform p.call).2.cache.rules = e.cache.rules := by rw [hcache]
    have hstore : (e.perform p.call).2.cache.store = written.eraseAll taken := by rw [hcache]
    have hcounters : (e.perform p.call).2.cache.counters =
        e.cache.counters.evicted taken.length := by rw [hcache]
    rw [← hstore, ← hrules] at hnext
    obtain ⟨more, hmore, hcounted⟩ := ih hsound hnext hlater hkeys hsorted hrest
    refine ⟨taken ++ more, ?_, ?_⟩
    · rw [hrules, List.append_assoc evicted] at hmore
      exact hmore
    · rw [List.length_append, ← Counters.evicted_evicted, ← hcounters]
      exact hcounted

/-- Rows that are put at ascending times are in the order of eviction. -/
theorem pairwise_rows (h : puts.Pairwise fun p q => p.now < q.now) :
    (puts.map Put.row).Pairwise Store.Precedes :=
  List.pairwise_map.mpr (h.imp fun hlt => Or.inl hlt)

omit [BlobStore σ] in
/-- There are no more ascending times than words. -/
theorem length_lt_of_ascending (hclock : ∀ p ∈ puts, p.now ≤ latestTime)
    (hascending : puts.Pairwise fun p q => p.now < q.now) : puts.length < wordLimit := by
  have hnodup : (puts.map fun p => p.now.toNat).Nodup := by
    refine List.pairwise_map.mpr (hascending.imp fun hlt => ?_)
    exact Nat.ne_of_lt (UInt64.lt_iff_toNat_lt.mp hlt)
  have hsub : (puts.map fun p => p.now.toNat) ⊆ List.range (latestTime.toNat + 1) := by
    intro time htime
    obtain ⟨p, hp, rfl⟩ := List.mem_map.mp htime
    exact List.mem_range.mpr (Nat.lt_succ_of_le (UInt64.le_iff_toNat_le.mp (hclock p hp)))
  have hlength := (List.subperm_of_subset hnodup hsub).length_le
  rw [List.length_map, List.length_range] at hlength
  exact Nat.lt_of_le_of_lt hlength (by decide)

/-- A store to which new rows are added without any trim holds them all. -/
theorem holdsRows_performAll {s : Store} {estimator : Estimator} {rows : List (String × Entry)}
    (hs : s.Sound estimator) (hheld : s.HoldsRows rows)
    (hkeys : ((rows ++ puts.map Put.row).map Prod.fst).Nodup)
    (hfits : ∀ step ∈ s.made estimator (puts.map Put.operation),
      (step.before.perform estimator step.operation).1 ≠ some .sizeOverflow) :
    (s.performAll estimator (puts.map Put.operation)).HoldsRows (rows ++ puts.map Put.row) := by
  induction puts generalizing s rows with
  | nil => simpa [Store.performAll] using hheld
  | cons p rest ih =>
    obtain ⟨hfirst, hrest⟩ := List.forall_mem_cons.mp hfits
    have hnext := (hs.perform hfirst).2
    have hsplit : rows ++ (p :: rest).map Put.row = rows ++ [p.row] ++ rest.map Put.row := by simp
    rw [hsplit] at hkeys ⊢
    cases hput : s.put estimator p.key p.entry with
    | mk answer written =>
      have hstore : (s.perform estimator p.operation).2 = written := by
        simp [Put.operation, Store.perform, hput]
      cases answer with
      | error why =>
        refine absurd ?_ hfirst
        simp [Put.operation, Store.perform, hput, abort?, (Store.put_error hput).1]
      | ok previous =>
        have hnew : p.key ∉ rows.map Prod.fst := by
          rw [List.map_append, List.map_append] at hkeys
          have hkeys := (List.nodup_append.mp hkeys).1
          intro hmem
          exact (List.nodup_append.mp hkeys).2.2 p.key hmem p.key (by simp [Put.row]) rfl
        have hadded := hheld.put hnew hput
        rw [← hstore] at hadded
        exact ih hnext hadded hkeys hrest

/-- A sound store without entries holds no rows. -/
theorem holdsRows_nil {s : Store} (h : s.size = 0) : s.HoldsRows [] := by
  have hrows : s.slots.rows = [] := List.eq_nil_of_length_eq_zero h
  intro key entry
  simp [Store.find?, Table.find?, Rows.find?, hrows]

/-- One trim after all the puts evicts what the trims after each of them do, and leaves the same
store. -/
theorem trim_performAll {s last : Store} {estimator : Estimator} {budget : Nat}
    (hs : s.Sound estimator) (hlast : last.Sound estimator) (hnothing : s.size = 0)
    (hkeys : ((puts.map Put.row).map Prod.fst).Nodup)
    (hsorted : (puts.map Put.row).Pairwise Store.Precedes)
    (hkept : Store.KeepsNewest estimator budget (puts.map Put.row) evicted last)
    (hfits : ∀ step ∈ s.made estimator (puts.map Put.operation),
      (step.before.perform estimator step.operation).1 ≠ some .sizeOverflow) :
    (s.performAll estimator (puts.map Put.operation)).trim budget = some (evicted, last) := by
  have hall := holdsRows_performAll hs (holdsRows_nil hnothing) hkeys hfits
  have hwhole := (hs.performAll hfits).2
  obtain ⟨others, htrim, -⟩ := hwhole.trim budget
  obtain ⟨hcut, hleft⟩ := hall.trim hwhole hkeys hsorted htrim
  obtain rfl : evicted = others := hkept.cut.unique hcut
  -- Both stores are sound and hold the same rows.
  have hsame : (s.performAll estimator (puts.map Put.operation)).eraseAll evicted = last :=
    (hwhole.eraseAll evicted).ext_find? hlast fun key => Option.ext fun entry =>
      (hleft key entry).trans (hkept.held key entry).symm
  rw [htrim, hsame]

variable {config : Config} {estimator : Estimator} {blobs : σ}

/-- Values are put under different keys at ascending times, which the clock can show and whose sizes
fit, into an engine that holds nothing, such as one whose load has ended without entries. Then the
engine holds the longest suffix of them that fits into the budget, and its evictions have grown by
the number of the others. If everything is put without a trim and the sizes fit as well, one trim
evicts the same keys and leaves the same store. -/
theorem puts_keep_newest (hstart : start config estimator blobs = .ok e₀) (hreach : e₀.Reaches e)
    (hnothing : e.cache.store.size = 0) (hclock : ∀ p ∈ puts, p.now ≤ latestTime)
    (hascending : puts.Pairwise fun p q => p.now < q.now) (hkeys : (puts.map Put.key).Nodup)
    (hfits : e.Fits (puts.map Put.call)) :
    ∃ evicted,
      Store.ShortestCut estimator config.maxMemoryBytes (puts.map Put.row) evicted ∧
      (∀ key entry, (e.run (puts.map Put.call)).cache.store.find? key = some entry ↔
        (key, entry) ∈ (puts.map Put.row).drop evicted.length) ∧
      (e.run (puts.map Put.call)).cache.counters = e.cache.counters.evicted evicted.length ∧
      (e.cache.counters.evictions = 0 →
        (e.run (puts.map Put.call)).cache.counters.evictions.toNat = evicted.length) ∧
      ((∀ step ∈ e.cache.store.made estimator (puts.map Put.operation),
          (step.before.perform estimator step.operation).1 ≠ some .sizeOverflow) →
        (e.cache.store.performAll estimator (puts.map Put.operation)).trim config.maxMemoryBytes =
          some (evicted, (e.run (puts.map Put.call)).cache.store)) := by
  have hs : e.Sound := hreach.sound (sound_start hstart)
  have hrules := hreach.rules_of_start hstart
  have hnodup : ((puts.map Put.row).map Prod.fst).Nodup := by
    rw [List.map_map]
    exact hkeys
  have hsorted := pairwise_rows hascending
  obtain ⟨evicted, hlast, hcounters⟩ := keepsNewest_run hs
    (Store.keepsNewest_nil (holdsRows_nil hnothing)) hclock hnodup hsorted hfits
  rw [List.nil_append, List.nil_append, hrules] at hlast
  have hlength : evicted.length < wordLimit := by
    have hle := hlast.cut.length_le
    rw [List.length_map] at hle
    exact Nat.lt_of_le_of_lt hle (length_lt_of_ascending hclock hascending)
  refine ⟨evicted, hlast.cut, hlast.held, hcounters, fun hzero => ?_, fun hbatch => ?_⟩
  · rw [hcounters]
    show (e.cache.counters.evictions + UInt64.ofNat evicted.length).toNat = evicted.length
    rw [hzero, UInt64.zero_add]
    exact UInt64.toNat_ofNat_of_lt' hlength
  · have hbefore : e.cache.store.Sound estimator := by
      unfold Engine.Sound at hs
      rwa [hrules] at hs
    have hafter : (e.run (puts.map Put.call)).Sound := hs.run hfits
    unfold Engine.Sound at hafter
    rw [(hreach.run hfits).rules_of_start hstart] at hafter
    exact trim_performAll hbefore hafter hnothing hnodup hsorted hlast hbatch

/-- An engine with room for three units over a blob that is no entry. -/
def roomForThree : Engine MemoryBlobs :=
  { standard with
    cache := (Cache.empty ⟨.perUnit 0 1, none, 3⟩).beginLoad
    blobs := ⟨Table.ofList [("old", "no entry")]⟩ }

/-- The same engine after its load, which has delivered nothing. -/
def loadedForThree : Engine MemoryBlobs := (roomForThree.runLoad 1).2

/-- Puts of all sizes, one without a unit and one for which there is never room among them. -/
def sixSizes : List Put :=
  [⟨1, "a", "", none⟩, ⟨2, "b", "xx", none⟩, ⟨3, "c", "wxyz", none⟩, ⟨4, "d", "xy", some 0⟩,
    ⟨5, "e", "", none⟩, ⟨6, "f", "z", none⟩]

/-- The last three of them fit together, and the one before them would not. -/
theorem puts_keep_newest_six :
    loadedForThree.ready = true ∧ loadedForThree.cache.fence = none ∧
      (loadedForThree.run (sixSizes.map Put.call)).cache.counters.evictions = 3 ∧
      (∀ key entry, (loadedForThree.run (sixSizes.map Put.call)).cache.store.find? key =
        some entry ↔
        (key, entry) ∈ [("d", ⟨"xy", 4, some 0⟩), ("e", ⟨"", 5, none⟩), ("f", ⟨"z", 6, none⟩)]) ∧
      ((loadedForThree.cache.store.performAll (.perUnit 0 1) (sixSizes.map Put.operation)).trim
        3).map Prod.fst = some ["a", "b", "c"] := by
  have hstart : start { Config.standard with maxMemoryBytes := 3 } (.perUnit 0 1)
      roomForThree.blobs = .ok roomForThree := rfl
  have hreach : roomForThree.Reaches loadedForThree := .load 1 .start rfl (by decide)
  have hfits : loadedForThree.Fits (sixSizes.map Put.call) :=
    ⟨by decide, by decide, by decide, by decide, by decide, by decide, trivial⟩
  have hevictions : (loadedForThree.run (sixSizes.map Put.call)).cache.counters.evictions = 3 := by
    decide
  obtain ⟨evicted, hcut, hheld, -, hcounted, hbatch⟩ := puts_keep_newest hstart hreach (by decide)
    (by decide) (by decide) (by decide) hfits
  have hlength : evicted.length = 3 := by
    rw [← hcounted (by decide), hevictions]
    rfl
  have hkeys := hcut.first
  rw [hlength] at hheld hkeys
  refine ⟨by decide, by decide, hevictions, hheld, ?_⟩
  rw [hbatch (by decide), hkeys]
  rfl

/-- A put at a time that the clock cannot show is abandoned. There is room for its entry, and
nothing is held. -/
theorem not_puts_keep_newest :
    ¬ ∀ puts : List Put, puts.Pairwise (fun p q => p.now < q.now) → (puts.map Put.key).Nodup →
      loadedForThree.Fits (puts.map Put.call) →
      ∃ evicted,
        Store.ShortestCut (.perUnit 0 1) 3 (puts.map Put.row) evicted ∧
        ∀ key entry,
          (loadedForThree.run (puts.map Put.call)).cache.store.find? key = some entry ↔
            (key, entry) ∈ (puts.map Put.row).drop evicted.length := by
  intro hkept
  obtain ⟨evicted, hcut, hheld⟩ := hkept [⟨latestTime + 1, "a", "x", none⟩] (by decide) (by decide)
    ⟨by decide, trivial⟩
  obtain rfl : [] = evicted := (Store.shortestCut_nil rfl (by decide)).unique hcut
  have hfound := (hheld "a" ⟨"x", latestTime + 1, none⟩).mpr (by decide)
  have hnone : (loadedForThree.run
      [Put.call ⟨latestTime + 1, "a", "x", none⟩]).cache.store.find? "a" = none := by decide
  cases hnone.symm.trans hfound

end Engine

end DurableCache
