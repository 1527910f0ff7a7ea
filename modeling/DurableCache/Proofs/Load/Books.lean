import DurableCache.Proofs.Engine.Balance
import DurableCache.Proofs.Load.Passing
import DurableCache.Proofs.Load.Survival

/-!
# Books around the steps of a load

Calls may come between any two steps of a load. Up to its merge the load works beside the memory,
and the merge and the trim behind it are one operation, a turn of the load. So whatever calls come
before and after it, the memory stays sound and within its budget (`Loading.stats_of_books`), and
the counters balance with the ledger of the calls and of the merge (`Loading.balances_of_books`).
Without calls in between, the turns make up the load (`Loading.turns_runLoad`).
-/

namespace DurableCache

namespace Cache

variable {c : Cache} {loaded : Option Store}

/-- A sound cache takes in what was loaded, if the sizes fit. Then it is within its budget. -/
theorem takeIn_of_sound (hs : c.store.Sound c.rules.estimator)
    (hfits : abort? (c.finishLoad loaded).1 ≠ some .sizeOverflow) :
    ∃ next, c.takeIn loaded = (.ok (), next) ∧ next.rules = c.rules ∧
      next.store.Sound c.rules.estimator ∧ next.store.total ≤ c.rules.budget ∧
      c.Accounts (c.endTally loaded) next := by
  obtain ⟨stored, merged, evicted, trimmed, hfinish, htrim, hkept⟩ :=
    accounts_trim_finishLoad hs hfits
  refine ⟨trimmed, ?_, hkept⟩
  rw [takeIn, hfinish]
  simp only [htrim]
  rfl

end Cache

namespace Loading

variable {σ α : Type} [BlobStore σ] {e₀ e : Engine σ} {l : Loading σ} {ledger : Ledger}
variable {now : Timestamp}

/-! ### Turns of a load -/

/-- The next turn of a load: its next step, or its end. The merge and the trim behind it are one
turn. -/
def turn (now : Timestamp) (l : Loading σ) : Loading σ :=
  if (l.proceed now).stage = .merged then (l.proceed now).proceed now else l.proceed now

/-- What a step before the merge leaves: the memory as it was, or a load that has failed. -/
def Beside (c : Cache) (next : Loading σ) : Prop :=
  (next.stage ≠ .merged ∧ next.engine.cache = c) ∨
    (next.stage = .merged ∧ next.engine.cache = (c.finishLoad none).2)

omit [BlobStore σ] in
/-- A call on the blob store that is not done fails the load or breaks it down. -/
theorem beside_afterCall (e : Engine σ) (outcome : Outcome α) (blobs : σ) :
    Beside e.cache (afterCall e outcome blobs) := by
  cases outcome with
  | done _ | abandoned _ => exact .inl ⟨(fun h => by cases h), rfl⟩
  | failed _ => exact .inr ⟨rfl, rfl⟩

/-- Up to the merge a load works beside the memory. -/
theorem beside_proceed (now : Timestamp) (hstaged : ∀ staged, l.stage ≠ .staged staged)
    (hmerged : l.stage ≠ .merged) : Beside l.engine.cache (l.proceed now) := by
  obtain ⟨e, stage⟩ := l
  have hnever (stage : Stage) (engine : Engine σ) (hcache : engine.cache = e.cache)
      (hstage : stage ≠ .merged) : Beside e.cache ⟨engine, stage⟩ := .inl ⟨hstage, hcache⟩
  cases stage with
  | waiting =>
    simp only [proceed, advance?, stop]
    cases BlobStore.getAll e.blobs with
    | mk outcome blobs =>
      have hend := beside_afterCall e outcome blobs
      cases outcome with
      | failed err => exact hend
      | abandoned why => exact hend
      | done persisted =>
        cases readClock now with
        | error why => exact hend
        | ok listed => exact hnever _ _ rfl fun h => by cases h
  | reading listed rows report staged =>
    cases rows with
    | nil =>
      simp only [proceed, advance?, stop]
      split
      · exact hnever _ _ rfl fun h => by cases h
      · cases BlobStore.flush e.blobs with
        | mk outcome blobs =>
          have hend := beside_afterCall e outcome blobs
          cases outcome with
          | failed err => exact hend
          | abandoned why => exact hend
          | done _ => exact hnever _ _ rfl fun h => by cases h
    | cons row rest =>
      obtain ⟨key, blob⟩ := row
      simp only [proceed, advance?, stop]
      cases Gateway.loadRow e.loadRules listed now key blob report staged e.blobs with
      | mk outcome left =>
        have hend := beside_afterCall e outcome left.2
        cases outcome with
        | failed err => exact hend
        | abandoned why => exact hend
        | done counted => exact hnever _ _ rfl fun h => by cases h
  | staged staged => exact absurd rfl (hstaged staged)
  | merged => exact absurd rfl hmerged
  | ended => exact hnever _ _ rfl fun h => by cases h

/-- The trim behind a merge ends the load. -/
theorem proceed_merged (now : Timestamp) (hmerged : l.stage = .merged) :
    (l.proceed now).stage = .ended ∧ (l.proceed now).engine.cache = l.engine.cache.trim.2 := by
  obtain ⟨e, stage⟩ := l
  obtain rfl : stage = .merged := hmerged
  simp only [proceed, advance?, stop]
  cases e.cache.trim with
  | mk answer trimmed => cases answer <;> exact ⟨rfl, rfl⟩

/-- A turn before the merge leaves the memory as it is, unless the load fails and ends without
entries. -/
theorem turn_beside (now : Timestamp) (hstaged : ∀ staged, l.stage ≠ .staged staged)
    (hmerged : l.stage ≠ .merged) : (l.turn now).stage ≠ .merged ∧
      ((l.turn now).engine.cache = l.engine.cache ∨
        (l.turn now).engine.cache = (l.engine.cache.takeIn none).2) := by
  unfold turn
  rcases beside_proceed now hstaged hmerged with ⟨hstage, hcache⟩ | ⟨hstage, hcache⟩
  · rw [if_neg hstage]
    exact ⟨hstage, .inl hcache⟩
  · rw [if_pos hstage]
    obtain ⟨hended, htrim⟩ := proceed_merged now hstage
    rw [hended, htrim, hcache]
    exact ⟨(fun h => by cases h), .inr rfl⟩

/-- The turn that merges what is staged takes it in. -/
theorem turn_staged (now : Timestamp) (e : Engine σ) (staged : Store) :
    (turn now ⟨e, .staged staged⟩).stage ≠ .merged ∧
      (turn now ⟨e, .staged staged⟩).engine.cache = (e.cache.takeIn (some staged)).2 := by
  unfold turn Cache.takeIn
  cases hfinish : e.cache.finishLoad (some staged) with
  | mk answer merged =>
    cases answer with
    | error why =>
      have hproceed : proceed now ⟨e, .staged staged⟩ = leave { e with cache := merged } := by
        simp only [proceed, advance?, stop, hfinish, Option.getD_none]
      rw [hproceed, if_neg fun h => by cases h]
      exact ⟨(fun h => by cases h), rfl⟩
    | ok stored =>
      have hproceed : proceed now ⟨e, .staged staged⟩ = ⟨{ e with cache := merged }, .merged⟩ := by
        simp only [proceed, advance?, hfinish, Option.getD_some]
      rw [hproceed, if_pos rfl]
      have htrims := proceed_merged (l := ⟨{ e with cache := merged }, .merged⟩) now rfl
      rw [htrims.1, htrims.2]
      exact ⟨(fun h => by cases h), rfl⟩

/-- Turns of the load at one time, with no calls in between. -/
abbrev Turns (now : Timestamp) : Loading σ → Loading σ → Prop :=
  Relation.ReflTransGen fun l next => l.turn now = next

/-- Steps that do not stop between the merge and the trim are turns. -/
theorem turns_of_proceeds {last : Loading σ} (h : Proceeds now l last)
    (hlast : last.stage ≠ .merged) :
    if l.stage = .merged then Turns now (l.proceed now) last else Turns now l last := by
  induction h using Relation.ReflTransGen.head_induction_on with
  | refl =>
    rw [if_neg hlast]
  | @head l next hstep _ ih =>
    subst hstep
    by_cases hmerged : l.stage = .merged
    · rw [if_pos hmerged]
      rwa [(proceed_merged now hmerged).1, if_neg fun h => by cases h] at ih
    · rw [if_neg hmerged]
      refine .head (b := l.turn now) rfl ?_
      unfold turn
      split at ih
      · rwa [if_pos ‹_›]
      · rwa [if_neg ‹_›]

/-- Without calls in between, the turns of a load make up the load, however it ends. -/
theorem turns_runLoad (e : Engine σ) (now : Timestamp) :
    Turns now ⟨e, .waiting⟩ ⟨(e.runLoad now).2, .ended⟩ := by
  have hturns := turns_of_proceeds (proceeds_runLoad e now) fun h => by cases h
  rwa [if_neg fun h => by cases h] at hturns

/-! ### Books of calls and turns -/

/-- What the next turn of a load adds to the ledger: the entries that it stores, if it merges. -/
def tally (l : Loading σ) : Ledger :=
  match l.stage with
  | .staged staged => l.engine.cache.loadTally staged
  | .waiting | .reading _ _ _ _ | .merged | .ended => {}

/-- The sizes of what is staged fit, if the load is about to merge it. -/
def MergeFits (l : Loading σ) : Prop :=
  ∀ staged, l.stage = .staged staged →
    abort? (l.engine.cache.finishLoad (some staged)).1 ≠ some .sizeOverflow

/-- The engines that calls make of an engine while the load takes its turns, before it begins and
after it has ended, as long as all sizes fit, each with the ledger of its run. -/
inductive Books (e₀ : Engine σ) : Ledger → Loading σ → Prop
  | start : Books e₀ {} ⟨e₀, .waiting⟩
  | call {ledger : Ledger} {l : Loading σ} (call : Call) : Books e₀ ledger l →
      (l.engine.perform call).1 ≠ some .sizeOverflow →
      Books e₀ (ledger + l.engine.tally call) (l.perform call)
  | turn {ledger : Ledger} {l : Loading σ} (now : Timestamp) : Books e₀ ledger l →
      l.MergeFits → Books e₀ (ledger + l.tally) (l.turn now)

/-- What calls and turns keep. -/
structure Orderly (e₀ : Engine σ) (ledger : Ledger) (l : Loading σ) : Prop where
  rules : l.engine.cache.rules = e₀.cache.rules
  sound : l.engine.Sound
  within : l.engine.cache.store.total ≤ l.engine.cache.rules.budget
  accounts : e₀.cache.Accounts ledger l.engine.cache
  unmerged : l.stage ≠ .merged

/-- A call whose sizes fit keeps them. -/
theorem Orderly.call (h : Orderly e₀ ledger l) (call : Call)
    (hfits : (l.engine.perform call).1 ≠ some .sizeOverflow) :
    Orderly e₀ (ledger + l.engine.tally call) (l.perform call) := by
  have hturns := Engine.turns_perform h.sound call hfits
  refine ⟨hturns.rules.trans h.rules, h.sound.perform call hfits, ?_,
    h.accounts.trans (Engine.accounts_perform h.sound h.within hfits), h.unmerged⟩
  show (l.engine.perform call).2.cache.store.total ≤ (l.engine.perform call).2.cache.rules.budget
  rw [hturns.rules]
  exact hturns.store.total_le h.within

omit [BlobStore σ] in
/-- What was loaded is taken in, or nothing is, and the rest is kept. -/
theorem Orderly.takeIn (h : Orderly e₀ ledger l) {loaded : Option Store} {next : Loading σ}
    (hfits : abort? (l.engine.cache.finishLoad loaded).1 ≠ some .sizeOverflow)
    (hcache : next.engine.cache = (l.engine.cache.takeIn loaded).2)
    (hstage : next.stage ≠ .merged) :
    Orderly e₀ (ledger + l.engine.cache.endTally loaded) next := by
  obtain ⟨taken, htaken, hrules, hsound, htotal, hbooks⟩ := Cache.takeIn_of_sound h.sound hfits
  rw [htaken] at hcache
  refine ⟨?_, ?_, ?_, ?_, hstage⟩
  · rw [hcache, hrules, h.rules]
  · rw [Engine.Sound, hcache, hrules]
    exact hsound
  · rw [hcache, hrules]
    exact htotal
  · rw [hcache]
    exact h.accounts.trans hbooks

/-- A turn whose merge fits keeps them. -/
theorem Orderly.turn (h : Orderly e₀ ledger l) (now : Timestamp) (hfits : l.MergeFits) :
    Orderly e₀ (ledger + l.tally) (l.turn now) := by
  by_cases hstaged : ∃ staged, l.stage = .staged staged
  · obtain ⟨staged, hstaged⟩ := hstaged
    obtain ⟨e, stage⟩ := l
    obtain rfl : stage = .staged staged := hstaged
    obtain ⟨hstage, hcache⟩ := turn_staged now e staged
    exact h.takeIn (hfits staged rfl) hcache hstage
  · have hnone : l.tally = {} := by
      unfold tally
      split
      · exact absurd ⟨_, ‹_›⟩ hstaged
      all_goals rfl
    rw [hnone]
    obtain ⟨hstage, hcache | hcache⟩ := turn_beside now (not_exists.mp hstaged) h.unmerged
    · refine ⟨?_, ?_, ?_, ?_, hstage⟩
      · rw [hcache, h.rules]
      · rw [Engine.Sound, hcache]
        exact h.sound
      · rw [hcache]
        exact h.within
      · rw [hcache]
        exact h.accounts.trans (Cache.accounts_fence rfl rfl)
    · have hfits : abort? (l.engine.cache.finishLoad none).1 ≠ some .sizeOverflow :=
        fun h => by cases h
      exact h.takeIn hfits hcache hstage

/-- They hold of all that calls and turns make of a sound engine within its budget. -/
theorem Books.orderly (h : Books e₀ ledger l) (hs : e₀.Sound)
    (hwithin : e₀.cache.store.total ≤ e₀.cache.rules.budget) : Orderly e₀ ledger l := by
  induction h with
  | start => exact ⟨rfl, hs, hwithin, Cache.accounts_fence rfl rfl, fun h => by cases h⟩
  | call call _ hfits ih => exact ih.call call hfits
  | turn now _ hfits ih => exact ih.turn now hfits

variable {config : Config} {estimator : Estimator} {blobs : σ}

/-- They hold of all that calls and turns make of a started engine. -/
theorem orderly_of_start (hstart : Engine.start config estimator blobs = .ok e₀)
    (hbooks : Books e₀ ledger l) : Orderly e₀ ledger l := by
  refine hbooks.orderly (Engine.sound_start hstart) ?_
  rw [(Engine.start_ok hstart).1]
  exact Nat.zero_le _

/-- Between the turns of a load as well, the bytes that the statistics show are the sum of the
estimates of the entries in memory and within the budget, and the entries that they show are those
in memory. So the trim of a commit changes nothing. -/
theorem stats_of_books (hstart : Engine.start config estimator blobs = .ok e₀)
    (hbooks : Books e₀ ledger l) :
    l.engine.cache.store.recount? estimator = some l.engine.cache.stats.estimatedBytes ∧
      l.engine.cache.stats.estimatedBytes ≤ config.maxMemoryBytes ∧
      l.engine.cache.stats.totalEntries = l.engine.cache.store.entries.keys.length ∧
      ∀ now, (l.engine.commit now).2.cache = l.engine.cache ∧
        ∀ report, (l.engine.commit now).1 = .done report → report.evicted = 0 := by
  have horderly := orderly_of_start hstart hbooks
  have hrules : l.engine.cache.rules = ⟨estimator, config.defaultTtl, config.maxMemoryBytes⟩ := by
    rw [horderly.rules, (Engine.start_ok hstart).1]
    rfl
  have hwithin := horderly.within
  rw [hrules] at hwithin
  exact horderly.sound.stats hrules hwithin

/-- Between the turns of a load as well, the counters balance with the ledger, up to multiples of a
word. -/
theorem balances_of_books (hstart : Engine.start config estimator blobs = .ok e₀)
    (hbooks : Books e₀ ledger l) :
    ledger.Balances l.engine.cache.stats ∧
      (ledger.unread = 0 → l.engine.cache.counters.hits + l.engine.cache.counters.misses +
        l.engine.cache.counters.stale = UInt64.ofNat (ledger.lookups + ledger.populations)) ∧
      (ledger.lost = 0 → ledger.returned = ledger.missed →
        l.engine.cache.counters.fetches - l.engine.cache.counters.fetchFailures =
          UInt64.ofNat ledger.populated) := by
  have haccounts := (orderly_of_start hstart hbooks).accounts
  rw [(Engine.start_ok hstart).1] at haccounts
  exact Engine.balances_of_accounts haccounts

end Loading

end DurableCache
