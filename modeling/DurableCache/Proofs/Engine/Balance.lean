import DurableCache.Proofs.Engine.Ledger

/-!
# The books balance

A run keeps a ledger of its calls and of the end of its load. Every step accounts for what it does
to the memory and the counters; a commit needs no entry, even one that fails and counts nothing,
because in a reachable engine its trim has nothing to evict. So the counters of a run balance with
its ledger (`counters_balance`).
-/

namespace DurableCache.Engine

open Cache

variable {σ : Type} [BlobStore σ] {e₀ e : Engine σ} {l : Ledger} {call : Call} {now : Timestamp}

/-- What a call adds to the ledger. -/
def tally (e : Engine σ) : Call → Ledger
  | .get now key => e.cache.lookupTally now key
  | .getAs now converter key =>
    e.cache.lookupTally now key + foundTally converter (e.cache.lookup now key).1
  | .put now key value timeToLive => e.cache.putTally now key timeToLive value
  | .putJson _ _ (.error _) _ => {}
  | .putJson now key (.ok value) timeToLive => e.cache.putTally now key timeToLive value.render
  | .invalidate key => e.cache.removeTally key
  | .clear => e.cache.clearTally
  | .purge now => e.cache.purgeTally now
  | .populate now returned key timeToLive fetch =>
    e.cache.populateTally now returned key timeToLive (fetch key)
  | .populateAs now returned converter key timeToLive fetch =>
    e.cache.populateTally now returned key timeToLive (fetch key) +
      foundTally converter (e.cache.populate now returned key timeToLive fetch).1.result
  | .memoize now returned operation parts timeToLive produced =>
    e.cache.populateTally now returned (operationKey operation parts) timeToLive produced.fetched
  | .beginJob now key => e.cache.beginTally now key
  | .finishJob returned key timeToLive fetched =>
    e.cache.finishTally returned key timeToLive fetched
  | .commit _ => {}

/-- What the load adds to the ledger: the entries that its end stores, if it is done. -/
def loadTally (e : Engine σ) (now : Timestamp) : Ledger :=
  match Gateway.load e.loadRules now .empty e.blobs with
  | (.done _, staged, _) => e.cache.loadTally staged
  | (.failed _, _, _) | (.abandoned _, _, _) => {}

/-- The engines that calls and the load make of an engine, as long as all sizes fit, each with the
ledger of its run. The load is one step here, from the listing of the blobs to the trim behind the
merge; `Loading.Books` has the steps of the load with calls in between. -/
inductive Books (e₀ : Engine σ) : Ledger → Engine σ → Prop
  | start : Books e₀ {} e₀
  | call {l : Ledger} {e : Engine σ} (call : Call) : Books e₀ l e →
      (e.perform call).1 ≠ some .sizeOverflow → Books e₀ (l + e.tally call) (e.perform call).2
  | load {l : Ledger} {e : Engine σ} (now : Timestamp) : Books e₀ l e →
      e.workers.loading = true → abort? (e.runLoad now).1 ≠ some .sizeOverflow →
      Books e₀ (l + e.loadTally now) (e.runLoad now).2

/-- The ledger at the end of a list of calls. -/
def ledger (e : Engine σ) (l : Ledger) : List Call → Ledger
  | [] => l
  | call :: rest => (e.perform call).2.ledger (l + e.tally call) rest

/-- A list of calls whose sizes fit goes into the books. -/
theorem Books.run (h : e₀.Books l e) {calls : List Call} (hfits : e.Fits calls) :
    e₀.Books (e.ledger l calls) (e.run calls) := by
  induction calls generalizing e l with
  | nil => exact h
  | cons call rest ih => exact ih (h.call call hfits.1) hfits.2

/-- Exactly the reachable engines have books. -/
theorem reaches_iff_books : e₀.Reaches e ↔ ∃ l, e₀.Books l e := by
  constructor
  · intro h
    induction h with
    | start => exact ⟨{}, .start⟩
    | call call _ hfits ih =>
      obtain ⟨l, hbooks⟩ := ih
      exact ⟨_, .call call hbooks hfits⟩
    | load now _ hloading hfits ih =>
      obtain ⟨l, hbooks⟩ := ih
      exact ⟨_, .load now hbooks hloading hfits⟩
  · rintro ⟨l, h⟩
    induction h with
    | start => exact .start
    | call call _ hfits ih => exact .call call ih hfits
    | load now _ hloading hfits ih => exact .load now ih hloading hfits

/-- The books of a call on a sound engine within its budget are right. -/
theorem accounts_perform (hs : e.Sound) (hwithin : e.cache.store.total ≤ e.cache.rules.budget)
    (hfits : (e.perform call).1 ≠ some .sizeOverflow) :
    e.cache.Accounts (e.tally call) (e.perform call).2.cache := by
  cases call with
  | get now key => exact e.cache.accounts_lookup now key
  | getAs now converter key => exact e.cache.accounts_lookupAs now converter key
  | put now key value timeToLive => exact accounts_put hs hfits
  | putJson now key value timeToLive =>
    cases value with
    | error reason => exact accounts_fence rfl rfl
    | ok value =>
      have hput : abort? (e.cache.write now key value.render timeToLive).1 ≠ some .sizeOverflow →
          e.cache.Accounts (e.cache.putTally now key timeToLive value.render)
            (e.cache.write now key value.render timeToLive).2 := accounts_put hs
      simp only [perform, putJson, put, onCache, tally] at hfits ⊢
      cases hanswer : e.cache.write now key value.render timeToLive with
      | mk answer written =>
        rw [hanswer] at hput hfits
        cases answer with
        | ok _ => exact hput (by simp [abort?])
        | error why => exact hput hfits
  | invalidate key => exact e.cache.accounts_remove key
  | clear => exact e.cache.accounts_clear
  | purge now => exact e.cache.accounts_purge now
  | populate now returned key timeToLive fetch => exact accounts_populate hs hfits
  | populateAs now returned converter key timeToLive fetch => exact accounts_populateAs hs hfits
  | memoize now returned operation parts timeToLive produced =>
    have hpopulate : abort? (e.cache.populate now returned (operationKey operation parts)
        timeToLive fun _ => produced.fetched).1.result ≠ some .sizeOverflow := hfits
    exact accounts_populate hs hpopulate
  | beginJob now key => exact e.cache.accounts_beginPopulation now key
  | finishJob returned key timeToLive fetched => exact accounts_finishPopulation hs hfits
  | commit now =>
    -- A commit that fails would leave its evictions uncounted; there are none.
    show e.cache.Accounts {} (e.commit now).2.cache
    rw [(commit_of_total_le hwithin now).1]
    exact accounts_fence rfl rfl

/-- The books of a load on a sound engine are right. -/
theorem accounts_runLoad (hs : e.Sound) (hfits : abort? (e.runLoad now).1 ≠ some .sizeOverflow) :
    e.cache.Accounts (e.loadTally now) (e.runLoad now).2.cache := by
  obtain ⟨-, hfinishFits⟩ := load_fits_of_runLoad hfits
  unfold runLoad Engine.loadTally
  simp only [loadRules_workers]
  cases hload : Gateway.load e.loadRules now .empty e.blobs with
  | mk outcome rest =>
    obtain ⟨staged, blobs⟩ := rest
    cases outcome with
    | abandoned why => exact accounts_fence rfl rfl
    | failed err =>
      have hnone : abort? (e.cache.finishLoad none).1 ≠ some .sizeOverflow := fun h => by cases h
      obtain ⟨stored, merged, evicted, trimmed, hfinish, htrim, -, -, -, hbooks⟩ :=
        accounts_trim_finishLoad hs hnone
      simp only [hfinish, htrim]
      exact hbooks
    | done answer =>
      obtain ⟨stored, merged, evicted, trimmed, hfinish, htrim, -, -, -, hbooks⟩ :=
        accounts_trim_finishLoad hs (hfinishFits answer staged blobs hload)
      simp only [hfinish, htrim]
      exact hbooks

/-- The books of a run are those of its steps. -/
theorem Books.accounts (h : e₀.Books l e) (hs : e₀.Sound)
    (hwithin : e₀.cache.store.total ≤ e₀.cache.rules.budget) : e₀.cache.Accounts l e.cache := by
  induction h with
  | start => exact accounts_fence rfl rfl
  | call call hbooks hfits ih =>
    have hreach := reaches_iff_books.mpr ⟨_, hbooks⟩
    exact ih.trans (accounts_perform (hreach.sound hs) (hreach.total_le hs hwithin) hfits)
  | load now hbooks _ hfits ih =>
    have hreach := reaches_iff_books.mpr ⟨_, hbooks⟩
    exact ih.trans (accounts_runLoad (hreach.sound hs) hfits)

/-- Books that are right since the start balance with the counters, up to multiples of a word.
Without an abandoned lookup and a fetch that is out or lost there is no remainder. -/
theorem balances_of_accounts {rules : CacheRules} {c : Cache}
    (h : (Cache.empty rules).beginLoad.Accounts l c) :
    l.Balances c.stats ∧
      (l.unread = 0 → c.counters.hits + c.counters.misses + c.counters.stale =
        UInt64.ofNat (l.lookups + l.populations)) ∧
      (l.lost = 0 → l.returned = l.missed →
        c.counters.fetches - c.counters.fetchFailures = UInt64.ofNat l.populated) := by
  have hlooked : c.counters.hits + c.counters.misses + c.counters.stale +
      UInt64.ofNat l.unread = UInt64.ofNat (l.lookups + l.populations) :=
    h.looked.trans (UInt64.zero_add _)
  have hfetched : c.counters.fetches = UInt64.ofNat l.missed :=
    h.fetched.trans (UInt64.zero_add _)
  have hreturned : c.counters.fetchFailures + UInt64.ofNat (l.populated + l.lost) =
      UInt64.ofNat l.returned :=
    h.populated.trans (UInt64.zero_add _)
  have hconverted : c.counters.conversionFailures = UInt64.ofNat l.unconverted :=
    h.converted.trans (UInt64.zero_add _)
  have hconserved : UInt64.ofNat (c.store.size + l.replaced + l.invalidated + l.dropped) +
      c.counters.evictions = UInt64.ofNat (0 + l.puts + l.populated + l.loaded) + 0 :=
    h.conserved
  rw [UInt64.add_zero, Nat.zero_add] at hconserved
  refine ⟨⟨hlooked, hfetched, ?_, hconverted, hconserved.symm⟩, fun hread => ?_,
    fun hlost hback => ?_⟩
  · show c.counters.fetches - c.counters.fetchFailures = _
    rw [hfetched]
    grind
  · rw [hread] at hlooked
    exact (UInt64.add_zero _).symm.trans hlooked
  · rw [hlost, Nat.add_zero, hback] at hreturned
    rw [hfetched]
    grind

variable {config : Config} {estimator : Estimator} {blobs : σ}

/-- The counters of a run from the start balance with its ledger, up to multiples of a word: every
lookup and every population is counted as one of three kinds, exactly the populations that find
nothing fresh fetch, the fetches that did not fail are the values written by populations, the
failed conversions are counted, and no entry is lost. The clock of a run that can always be read,
and fetches that have all come back, leave no remainder. -/
theorem counters_balance (hstart : start config estimator blobs = .ok e₀)
    (hbooks : e₀.Books l e) :
    l.Balances e.cache.stats ∧
      (l.unread = 0 → e.cache.counters.hits + e.cache.counters.misses + e.cache.counters.stale =
        UInt64.ofNat (l.lookups + l.populations)) ∧
      (l.lost = 0 → l.returned = l.missed →
        e.cache.counters.fetches - e.cache.counters.fetchFailures = UInt64.ofNat l.populated) := by
  have hcache := (start_ok hstart).1
  have hwithin : e₀.cache.store.total ≤ e₀.cache.rules.budget := by
    rw [hcache]
    exact Nat.zero_le _
  have haccounts := hbooks.accounts (sound_start hstart) hwithin
  rw [hcache] at haccounts
  exact balances_of_accounts haccounts

instance decidableFits (e : Engine σ) : (calls : List Call) → Decidable (e.Fits calls)
  | [] => isTrue trivial
  | call :: rest =>
    have := decidableFits (e.perform call).2 rest
    inferInstanceAs (Decidable (_ ∧ _))

/-- Calls while the load has not ended: two populations and a commit that fails. -/
def early : List Call :=
  [.put 1 "a" "x" none, .get 2 "a", .populate 3 3 "b" none (fun _ => .value "y"),
    .populate 3 3 "q" none (fun _ => .broken), .commit 3]

/-- Calls behind the load: the put replaces an entry, and the population evicts one. -/
def late : List Call :=
  [.put 6 "b" "z" none, .beginJob 7 "d", .finishJob 8 "d" none (.value "w"),
    .getAs 8 Converter.unsigned "b", .invalidate "b", .clear, .commit 9]

/-- The books of such a run. The failed commit has written both entries of the memory, so the load
brings them back beside the persisted one and replaces them. -/
theorem counters_balance_busy :
    ∃ l, cramped.Books l (((cramped.run early).runLoad 5).2.run late) ∧
      l = { lookups := 2, populations := 3, missed := 3, returned := 3, populated := 2, puts := 2
            loaded := 3, replaced := 3, invalidated := 1, dropped := 1, unconverted := 1 } ∧
      l.Balances (((cramped.run early).runLoad 5).2.run late).cache.stats ∧
      (((cramped.run early).runLoad 5).2.run late).cache.stats = ⟨⟨2, 3, 0, 3, 1, 1, 2⟩, 0, 0⟩ := by
  have hstart : start { Config.standard with maxMemoryBytes := 2 } (.flat 1) cramped.blobs =
      .ok cramped := rfl
  have hearly : cramped.Fits early := by decide +kernel
  have hload : abort? ((cramped.run early).runLoad 5).1 ≠ some .sizeOverflow := by decide +kernel
  have hlate : ((cramped.run early).runLoad 5).2.Fits late := by decide +kernel
  have hbooks := ((Books.start.run hearly).load 5 (by decide) hload).run hlate
  exact ⟨_, hbooks, by decide +kernel, (counters_balance hstart hbooks).1, by decide +kernel⟩

end DurableCache.Engine
