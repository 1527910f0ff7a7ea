import DurableCache.Proofs.Engine.Blobs
import DurableCache.Proofs.Engine.Clock
import DurableCache.Proofs.Gateway.Load
import DurableCache.Proofs.Gateway.Persisted
import DurableCache.Proofs.Load.Fence
import DurableCache.Proofs.Load.Stepwise

/-!
# Blobs survive commits around a load

A run alternates calls with the steps of a load. As long as nothing removes or writes a key and no
trim takes it, its blob survives every commit at which its entry is still fresh: before the merge
because the commit does not prune, and behind it because the entry is in memory and written again
(`commit_keeps_persisted`).
-/

namespace DurableCache

open LawfulBlobs Gateway

variable {σ : Type} [BlobStore σ]

/-! ### Loading one blob -/

namespace Gateway

variable {P : σ → Prop} {s next : σ} {rules : LoadRules} {listed now : Timestamp}
variable {key first blob : String} {report answer : LoadReport} {store staged : Store}
variable {entry : Entry}

/-- Loading a blob keeps what its deletion keeps. -/
theorem kept_loadRow (hremove : P (BlobStore.remove first s).2) (hs : P s)
    (h : loadRow rules listed now first blob report store s = (.done answer, staged, next)) :
    P next := by
  rcases loadRow_cases h with ⟨-, rfl, -⟩ | ⟨-, rfl, -⟩ | ⟨rfl, -⟩
  · exact hs
  · exact hremove
  · exact hs

/-- A put that may be too old changes the lookup of its own key at most. -/
theorem find?_putIfNewer_of_ne {estimator : Estimator} {stored : Bool} (hne : key ≠ first)
    (h : store.putIfNewer estimator first entry = (.ok stored, staged)) :
    staged.find? key = store.find? key := by
  rw [(putIfNewer_settles h).2, if_neg hne]

/-- Loading the blob of another key stages nothing under a key. -/
theorem find?_loadRow_of_ne (hne : key ≠ first)
    (h : loadRow rules listed now first blob report store s = (.done answer, staged, next)) :
    staged.find? key = store.find? key := by
  rcases loadRow_cases h with ⟨rfl, -, -⟩ | ⟨rfl, -, -⟩ | ⟨-, held, stored, -, hput⟩
  · rfl
  · rfl
  · exact find?_putIfNewer_of_ne hne hput

/-- Loading the blob of an entry within the retention stages the entry, unless it is stale, and
leaves the blobs as they are. -/
theorem find?_loadRow_self (hread : Entry.ofBlob? blob = .ok entry)
    (hwithin : outlived rules.retentionDays listed entry = false) (hfree : store.find? key = none)
    (h : loadRow rules listed now key blob report store s = (.done answer, staged, next)) :
    next = s ∧
      (entry.isStale rules.defaultTtl now = true ∨ staged.find? key = some entry) := by
  rcases loadRow_cases h with
    ⟨-, hnext, hstale⟩ | ⟨-, -, held, hheld, houtlived⟩ | ⟨hnext, held, stored, hheld, hput⟩
  · exact ⟨hnext, Or.inl (hstale entry hread)⟩
  · rw [hread] at hheld
    cases hheld
    rw [hwithin] at houtlived
    cases houtlived
  · rw [hread] at hheld
    cases hheld
    exact ⟨hnext, Or.inr (by rw [find?_putIfNewer hfree hput, if_pos rfl])⟩

end Gateway

/-! ### Calls that leave a key alone -/

namespace Change

variable {change : Change} {f : Fence} {key : String}

/-- What a fence remembers of a key changes by its removal and by a clear only. -/
theorem mark_of_ne (hremove : change ≠ .remove key) (hclear : change ≠ .clear) :
    (change.mark f).cleared = f.cleared ∧
      (change.mark f).removed.contains key = f.removed.contains key := by
  cases change with
  | remove k =>
    have hne : key ≠ k := by
      rintro rfl
      exact hremove rfl
    refine ⟨rfl, ?_⟩
    rw [Bool.eq_iff_iff]
    exact (Table.contains_insert f.removed k key ()).trans (or_iff_right hne)
  | clear => exact absurd rfl hclear
  | _ => exact ⟨rfl, rfl⟩

end Change

/-- A call purges at a time at which it reads the clock. -/
theorem Cache.mem_times_of_purge {c : Cache} {call : Call} {now : Timestamp}
    (h : c.change call = .purge now) : now ∈ call.times := by
  have hwrite (t : Timestamp) (key value : String) (timeToLive : Option UInt64) :
      Change.writeAt t key value timeToLive ≠ .purge now := by
    unfold Change.writeAt
    split <;> exact fun h => by cases h
  have hfetched (t : Timestamp) (key : String) (timeToLive : Option UInt64) (fetched : Fetched) :
      Change.ofFetched t key timeToLive fetched ≠ .purge now := by
    cases fetched with
    | value text => exact hwrite t key text timeToLive
    | _ => exact fun h => by cases h
  have hpopulation (t r : Timestamp) (key : String) (timeToLive : Option UInt64)
      (fetched : Fetched) : c.populationChange t r key timeToLive fetched ≠ .purge now := by
    unfold Cache.populationChange
    split
    · exact hfetched r key timeToLive fetched
    · exact fun h => by cases h
    · exact fun h => by cases h
  cases call with
  | purge t =>
    simp only [Cache.change] at h
    split at h
    · cases h
      exact List.mem_singleton_self _
    · cases h
  | put t key value timeToLive => exact absurd h (hwrite _ _ _ _)
  | putJson t key value timeToLive =>
    cases value with
    | error reason => cases h
    | ok value => exact absurd h (hwrite _ _ _ _)
  | populate t r key timeToLive fetch => exact absurd h (hpopulation _ _ _ _ _)
  | populateAs t r converter key timeToLive fetch => exact absurd h (hpopulation _ _ _ _ _)
  | memoize t r operation parts timeToLive produced => exact absurd h (hpopulation _ _ _ _ _)
  | finishJob r key timeToLive fetched => exact absurd h (hfetched _ _ _ _)
  | _ => cases h

namespace Engine

/-- A call leaves a key alone: it neither writes nor removes its entry, it does not clear the
memory, and the trim behind it does not take the key. A purge leaves it alone even if the entry is
stale. -/
def Leaves (e : Engine σ) (key : String) (call : Call) : Prop :=
  (e.cache.change call).written? key = none ∧ e.cache.change call ≠ .remove key ∧
    e.cache.change call ≠ .clear ∧
    key ∉ (e.cache.change call).evicted e.cache.rules e.cache.store

instance (e : Engine σ) (key : String) (call : Call) : Decidable (e.Leaves key call) :=
  inferInstanceAs (Decidable (_ ∧ _))

variable [LawfulBlobs σ] {e : Engine σ} {key : String} {entry : Entry} {call : Call}
variable {before after : Timestamp}

/-- A persisted entry that the load has yet to deliver: the memory does not know its key, and the
fence stands and has not seen a removal of it. -/
structure Unmerged (e : Engine σ) (key : String) (entry : Entry) : Prop where
  free : e.cache.store.find? key = none
  standing : ∃ f, e.cache.fence = some f ∧ f.cleared = false ∧ f.removed.contains key = false
  persisted : Persisted e.blobs key entry

/-- A persisted entry that is in memory, with the fence down. -/
structure Merged (e : Engine σ) (key : String) (entry : Entry) : Prop where
  held : e.cache.store.find? key = some entry
  down : e.cache.fence = none
  persisted : Persisted e.blobs key entry

/-- A call that leaves a key alone keeps its entry to be delivered. A commit does not prune. -/
theorem Unmerged.perform (h : e.Unmerged key entry) (hleaves : e.Leaves key call) :
    (e.perform call).2.Unmerged key entry := by
  obtain ⟨hwritten, hremove, hclear, hevicted⟩ := hleaves
  obtain ⟨f, hfence, hcleared, hremoved⟩ := h.standing
  have hmade := e.made_perform call
  refine ⟨?_, ?_, ?_⟩
  · rw [hmade.store]
    rcases Change.find?_after hwritten hremove hclear hevicted with hsame | ⟨_, held, -, hheld, -⟩
    · rw [hsame, h.free]
    · rw [h.free] at hheld
      cases hheld
  · obtain ⟨hkeep, hkeepRemoved⟩ := Change.mark_of_ne (f := f) hremove hclear
    refine ⟨(e.cache.change call).mark f, ?_, hkeep.trans hcleared, hkeepRemoved.trans hremoved⟩
    rw [hmade.fence, hfence]
    rfl
  · by_cases hcommit : ∃ now, call = .commit now
    · obtain ⟨now, rfl⟩ := hcommit
      have hloading : (!e.cache.isLoading) = false := by rw [Cache.isLoading, hfence]; rfl
      show Persisted (e.commit now).2.blobs key entry
      rw [blobs_commit, hloading]
      refine h.persisted.commit (fun held hheld => ?_) (fun hnever => by cases hnever)
      rw [h.free] at hheld
      cases hheld
    · rw [blobs_perform e (fun now heq => hcommit ⟨now, heq⟩)]
      exact h.persisted

/-- A call that leaves a key alone keeps its entry in memory and persisted, unless the entry is
stale when the call has ended. A commit writes it again. -/
theorem Merged.perform (h : e.Merged key entry) (hleaves : e.Leaves key call)
    (hfault : ∀ access, fault e.blobs access = none) (htakes : call.Takes before after) :
    entry.isStale e.cache.rules.defaultTtl after = true ∨ (e.perform call).2.Merged key entry := by
  obtain ⟨hwritten, hremove, hclear, hevicted⟩ := hleaves
  have hmade := e.made_perform call
  have hdown : (e.perform call).2.cache.fence = none := by
    rw [hmade.fence, h.down]
    rfl
  rcases Change.find?_after hwritten hremove hclear hevicted with
    hsame | ⟨now, held, hpurge, hheld, hstale⟩
  · have hstill : (e.perform call).2.cache.store.find? key = some entry := by
      rw [hmade.store, hsame, h.held]
    by_cases hcommit : ∃ now, call = .commit now
    · obtain ⟨now, rfl⟩ := hcommit
      cases hstale : entry.isStale e.cache.rules.defaultTtl now with
      | true => exact Or.inl (isStale_mono (htakes.between (List.mem_singleton_self now)).2 hstale)
      | false =>
        refine Or.inr ⟨hstill, hdown, ?_⟩
        show Persisted (e.commit now).2.blobs key entry
        rw [blobs_commit]
        refine h.persisted.commit (fun held hheld => ?_) (fun _ => ?_)
        · rw [h.held] at hheld
          exact (Option.some.inj hheld).symm
        · exact ⟨h.held, hevicted, hstale, hfault _⟩
    · refine Or.inr ⟨hstill, hdown, ?_⟩
      rw [blobs_perform e (fun now heq => hcommit ⟨now, heq⟩)]
      exact h.persisted
  · rw [h.held] at hheld
    cases hheld
    exact Or.inl (isStale_mono (htakes.between (Cache.mem_times_of_purge hpurge)).2 hstale)

end Engine

namespace Loading

variable {l next : Loading σ} {now listed : Timestamp} {key : String} {entry : Entry}

/-! ### Steps of the load -/

/-- A step of the load keeps the rules and the retention, and of the blobs what listing, deletions
and a flush keep. -/
theorem Advances.kept {P : σ → Prop} (h : Advances now l next) (hkept : BlobStore.KeptByDeletion P)
    (hflush : ∀ s, P s → P (BlobStore.flush s).2) (hP : P l.engine.blobs) :
    next.engine.cache.rules = l.engine.cache.rules ∧
      next.engine.retentionDays = l.engine.retentionDays ∧ P next.engine.blobs := by
  cases h with
  | @list e _ _ hlist _ =>
    have hlisted := hkept.getAll e.blobs hP
    rw [hlist] at hlisted
    exact ⟨rfl, rfl, hlisted⟩
  | judge hrow => exact ⟨rfl, rfl, kept_loadRow (hkept.remove _ _ hP) hP hrow⟩
  | skipFlush => exact ⟨rfl, rfl, hP⟩
  | @flush e _ _ _ _ hflushed =>
    have hlast := hflush e.blobs hP
    rw [hflushed] at hlast
    exact ⟨rfl, rfl, hlast⟩
  | @merge e staged _ _ hfinish =>
    have hrules := e.cache.rules_finishLoad (some staged)
    rw [hfinish] at hrules
    exact ⟨hrules, rfl, hP⟩
  | @trim e _ _ _ htrim =>
    have hrules := e.cache.rules_trim
    rw [htrim] at hrules
    exact ⟨hrules, rfl, hP⟩

/-- Makes a call between two steps of the load. -/
def perform (l : Loading σ) (call : Call) : Loading σ :=
  { l with engine := (l.engine.perform call).2 }

/-- The load after its next step, or as it is if it makes none. -/
def advanced (l : Loading σ) (now : Timestamp) : Loading σ := (l.advance? now).getD l

/-- A step of the load leaves a key alone: its trim does not take the key. -/
def Leaves (l : Loading σ) (key : String) : Prop :=
  match l.stage with
  | .merged => key ∉ l.engine.cache.store.trimmedKeys l.engine.cache.rules.budget
  | .waiting | .reading _ _ _ _ | .staged _ | .ended => True

instance (l : Loading σ) (key : String) : Decidable (l.Leaves key) :=
  match l with
  | ⟨e, .merged⟩ =>
    inferInstanceAs (Decidable (key ∉ e.cache.store.trimmedKeys e.cache.rules.budget))
  | ⟨_, .waiting⟩ | ⟨_, .reading _ _ _ _⟩ | ⟨_, .staged _⟩ | ⟨_, .ended⟩ => isTrue trivial

variable [LawfulBlobs σ]

/-- An entry is on its way: its blob is still to be judged, or it is staged. -/
def Awaits (key : String) (entry : Entry) (rows : List (String × String)) (staged : Store) : Prop :=
  (∃ text, Rows.find? key rows = some text ∧ Entry.ofBlob? text = .ok entry ∧
    staged.find? key = none) ∨
  (key ∉ rows.map Prod.fst ∧ staged.find? key = some entry)

/-- Where a persisted entry is at each stage of the load. -/
def Holds (l : Loading σ) (listed : Timestamp) (key : String) (entry : Entry) : Prop :=
  match l.stage with
  | .waiting => l.engine.Unmerged key entry
  | .reading time rows _ staged =>
    l.engine.Unmerged key entry ∧ time = listed ∧ (rows.map Prod.fst).Nodup ∧
      Awaits key entry rows staged
  | .staged staged => l.engine.Unmerged key entry ∧ staged.find? key = some entry
  | .merged | .ended => l.engine.Merged key entry

/-- The entry is persisted at each stage. -/
theorem Holds.persisted (h : l.Holds listed key entry) : Persisted l.engine.blobs key entry := by
  obtain ⟨e, stage⟩ := l
  cases stage with
  | waiting => exact Engine.Unmerged.persisted h
  | reading time rows report staged => exact h.1.persisted
  | staged staged => exact h.1.persisted
  | merged => exact Engine.Merged.persisted h
  | ended => exact Engine.Merged.persisted h

/-- A call that leaves the key alone keeps its entry where it is, unless it is stale then. -/
theorem Holds.perform (h : l.Holds listed key entry) {call : Call} {before after : Timestamp}
    (hleaves : l.engine.Leaves key call) (hfault : ∀ access, fault l.engine.blobs access = none)
    (htakes : call.Takes before after) :
    entry.isStale l.engine.cache.rules.defaultTtl after = true ∨
      (l.perform call).Holds listed key entry := by
  obtain ⟨e, stage⟩ := l
  cases stage with
  | waiting => exact Or.inr (Engine.Unmerged.perform h hleaves)
  | reading time rows report staged =>
    obtain ⟨hunmerged, hrest⟩ := h
    exact Or.inr ⟨hunmerged.perform hleaves, hrest⟩
  | staged staged =>
    obtain ⟨hunmerged, hrest⟩ := h
    exact Or.inr ⟨hunmerged.perform hleaves, hrest⟩
  | merged => exact Engine.Merged.perform h hleaves hfault htakes
  | ended => exact Engine.Merged.perform h hleaves hfault htakes

/-- The end of a load merges what is staged under a key that the memory does not know. -/
theorem merged_of_finishLoad {e : Engine σ} {staged : Store} {stored : Nat} {cache : Cache}
    (h : e.Unmerged key entry) (hstaged : staged.find? key = some entry)
    (hfinish : e.cache.finishLoad (some staged) = (.ok stored, cache)) :
    Engine.Merged { e with cache } key entry := by
  obtain ⟨f, hfence, hcleared, hremoved⟩ := h.standing
  obtain ⟨hdown, hsettled, -⟩ := Cache.finishLoad_settles hfence hcleared hfinish
  refine ⟨?_, hdown, h.persisted⟩
  show cache.store.find? key = some entry
  rw [hsettled, Store.settled, Cache.find?_delivery, hremoved, hstaged]
  simp [Store.holdsNewer, h.free]

/-- A step of the load brings an entry within the retention one stage further, unless it is stale
then. -/
theorem Advances.holds (hadvance : Advances now l next) (h : l.Holds listed key entry)
    (hfault : ∀ access, fault l.engine.blobs access = none)
    (hlisted : l.stage = .waiting → now = listed) (hleaves : l.Leaves key)
    (hwithin : outlived l.engine.retentionDays listed entry = false) :
    entry.isStale l.engine.cache.rules.defaultTtl now = true ∨ next.Holds listed key entry := by
  cases hadvance with
  | @list e persisted blobs hlist hclock =>
    have hunmerged : e.Unmerged key entry := h
    have hmeets := getAll_meets e.blobs
    have hcontents := contents_getAll e.blobs
    rw [hlist] at hmeets hcontents
    rw [hfault] at hmeets
    cases hmeets
    obtain ⟨text, htext, hread⟩ := hunmerged.persisted
    refine Or.inr ⟨⟨hunmerged.free, hunmerged.standing, text, ?_, hread⟩, hlisted rfl,
      (contents e.blobs).keys_nodup, Or.inl ⟨text, htext, hread, rfl⟩⟩
    exact (congrArg (fun blobs => Table.find? blobs key) hcontents).trans htext
  | @judge e time first blob rest report counted store staged blobs hrow =>
    obtain ⟨hunmerged, rfl, hkeys, hawaits⟩ := h
    obtain ⟨hfirst, hrest⟩ := List.nodup_cons.mp hkeys
    by_cases hkey : key = first
    · subst hkey
      rcases hawaits with ⟨text, htext, hread, hfree⟩ | ⟨hgone, -⟩
      · rw [Rows.find?_cons_self] at htext
        cases htext
        have hretained : outlived e.loadRules.retentionDays time entry = false := hwithin
        obtain ⟨rfl, hstale | hstaged⟩ := find?_loadRow_self hread hretained hfree hrow
        · exact Or.inl hstale
        · exact Or.inr ⟨hunmerged, rfl, hrest, Or.inr ⟨hfirst, hstaged⟩⟩
      · exact absurd List.mem_cons_self hgone
    · have hstore := find?_loadRow_of_ne hkey hrow
      have hpersisted : Persisted blobs key entry :=
        kept_loadRow (P := fun s => Persisted s key entry)
          (hunmerged.persisted.remove (Ne.symm hkey)) hunmerged.persisted hrow
      refine Or.inr ⟨⟨hunmerged.free, hunmerged.standing, hpersisted⟩, rfl, hrest, ?_⟩
      rcases hawaits with ⟨text, htext, hread, hfree⟩ | ⟨hgone, hstaged⟩
      · rw [Rows.find?_cons_of_ne hkey] at htext
        exact Or.inl ⟨text, htext, hread, hstore.trans hfree⟩
      · exact Or.inr ⟨fun hmem => hgone (List.mem_cons_of_mem _ hmem), hstore.trans hstaged⟩
  | skipFlush =>
    obtain ⟨hunmerged, -, -, hawaits⟩ := h
    rcases hawaits with ⟨text, htext, -, -⟩ | ⟨-, hstaged⟩
    · cases htext
    · exact Or.inr ⟨hunmerged, hstaged⟩
  | @flush e _ _ _ blobs hflush =>
    obtain ⟨hunmerged, -, -, hawaits⟩ := h
    have hpersisted := hunmerged.persisted.flush
    rw [hflush] at hpersisted
    rcases hawaits with ⟨text, htext, -, -⟩ | ⟨-, hstaged⟩
    · cases htext
    · exact Or.inr ⟨⟨hunmerged.free, hunmerged.standing, hpersisted⟩, hstaged⟩
  | merge hfinish =>
    obtain ⟨hunmerged, hstaged⟩ := h
    exact Or.inr (merged_of_finishLoad hunmerged hstaged hfinish)
  | @trim e _ cache _ htrim =>
    have hmerged : e.Merged key entry := h
    obtain ⟨hstore, hfence⟩ := e.cache.store_trim
    rw [htrim] at hstore hfence
    refine Or.inr ⟨?_, hfence.trans hmerged.down, hmerged.persisted⟩
    show cache.store.find? key = some entry
    rw [hstore, Store.find?_eraseAll, if_neg hleaves, hmerged.held]

/-! ### Runs -/

omit [LawfulBlobs σ] in
/-- The runs of an engine in which calls and the steps of its load alternate under a clock that
never goes backwards, and all of them leave a key alone. The blobs are listed at the time `listed`.
A run has come to a time and to a state. -/
inductive Run (e₀ : Engine σ) (key : String) (listed : Timestamp) :
    Timestamp → Loading σ → Prop
  | start {now : Timestamp} : Run e₀ key listed now ⟨e₀, .waiting⟩
  | call {before after : Timestamp} {l : Loading σ} (call : Call) : Run e₀ key listed before l →
      call.Takes before after → l.engine.Leaves key call →
      Run e₀ key listed after (l.perform call)
  | step {before now : Timestamp} {l next : Loading σ} : Run e₀ key listed before l →
      before ≤ now → l.advance? now = some next → (l.stage = .waiting → now = listed) →
      l.Leaves key → Run e₀ key listed now next

variable {e₀ : Engine σ} {before after : Timestamp}

/-- Makes calls, and steps of the load where there is no call. Each has ended at its time. -/
def play : Timestamp → Loading σ → List (Timestamp × Option Call) → Timestamp × Loading σ
  | before, l, [] => (before, l)
  | _, l, (after, some call) :: rest => play after (l.perform call) rest
  | _, l, (now, none) :: rest => play now (l.advanced now) rest

/-- The calls and the steps of a list make up a run. -/
def Plays (key : String) (listed : Timestamp) :
    Timestamp → Loading σ → List (Timestamp × Option Call) → Prop
  | _, _, [] => True
  | before, l, (after, some call) :: rest =>
    (call.Takes before after ∧ l.engine.Leaves key call) ∧
      Plays key listed after (l.perform call) rest
  | before, l, (now, none) :: rest =>
    (before ≤ now ∧ (l.advance? now).isSome ∧ (l.stage = .waiting → now = listed) ∧
        l.Leaves key) ∧
      Plays key listed now (l.advanced now) rest

instance decidablePlays (key : String) (listed : Timestamp) :
    (before : Timestamp) → (l : Loading σ) → (turns : List (Timestamp × Option Call)) →
      Decidable (Plays key listed before l turns)
  | _, _, [] => isTrue trivial
  | _, l, (after, some call) :: rest =>
    have := decidablePlays key listed after (l.perform call) rest
    inferInstanceAs (Decidable (_ ∧ _))
  | _, l, (now, none) :: rest =>
    have := decidablePlays key listed now (l.advanced now) rest
    inferInstanceAs (Decidable (_ ∧ _))

omit [LawfulBlobs σ] in
/-- A run goes on with what such a list says. -/
theorem Run.play (h : Run e₀ key listed before l) {turns : List (Timestamp × Option Call)}
    (hplays : Plays key listed before l turns) :
    Run e₀ key listed (Loading.play before l turns).1 (Loading.play before l turns).2 := by
  induction turns generalizing before l with
  | nil => exact h
  | cons turn rest ih =>
    obtain ⟨time, call?⟩ := turn
    cases call? with
    | some call =>
      obtain ⟨⟨htakes, hleaves⟩, hrest⟩ := hplays
      exact ih (h.call call htakes hleaves) hrest
    | none =>
      obtain ⟨⟨hlater, hmoves, hlisted, hleaves⟩, hrest⟩ := hplays
      obtain ⟨next, hnext⟩ := Option.isSome_iff_exists.mp hmoves
      have hadvanced : l.advanced time = next := by
        rw [advanced, hnext]
        rfl
      refine ih (h.step hlater ?_ hlisted hleaves) hrest
      rw [hadvanced, hnext]

/-- What a run keeps of a persisted entry. -/
structure Keeps (l : Loading σ) (e₀ : Engine σ) (listed now : Timestamp) (key : String)
    (entry : Entry) : Prop where
  rules : l.engine.cache.rules = e₀.cache.rules
  retentionDays : l.engine.retentionDays = e₀.retentionDays
  faultless : fault l.engine.blobs = fun _ => none
  holds : entry.isStale e₀.cache.rules.defaultTtl now = true ∨ l.Holds listed key entry

/-- What is kept of an entry is kept by a call that leaves its key alone. -/
theorem Keeps.perform (h : l.Keeps e₀ listed before key entry) {call : Call}
    (htakes : call.Takes before after) (hleaves : l.engine.Leaves key call) :
    (l.perform call).Keeps e₀ listed after key entry := by
  obtain ⟨hrules, hdays, hfaultless, hholds⟩ := h
  refine ⟨?_, ?_, ?_, ?_⟩
  · exact (l.engine.made_perform call).rules.trans hrules
  · exact (l.engine.retentionDays_perform call).trans hdays
  · exact Engine.kept_perform (kept_fault fun _ => none)
      (fun s hs => (fault_flush s).trans hs) hfaultless call
  · rcases hholds with hstale | hholds
    · exact Or.inl (isStale_mono htakes.le hstale)
    · have hnext := hholds.perform hleaves (fun access => congrFun hfaultless access) htakes
      rwa [hrules] at hnext

/-- What is kept of an entry within the retention is kept by a step of the load that leaves its key
alone. -/
theorem Keeps.advance (h : l.Keeps e₀ listed before key entry) (hlater : before ≤ now)
    (hadvance : Advances now l next) (hlisted : l.stage = .waiting → now = listed)
    (hleaves : l.Leaves key) (hwithin : outlived e₀.retentionDays listed entry = false) :
    next.Keeps e₀ listed now key entry := by
  obtain ⟨hrules, hdays, hfaultless, hholds⟩ := h
  obtain ⟨hsame, hretention, hfaults⟩ := hadvance.kept (kept_fault fun _ => none).byDeletion
    (fun s hs => (fault_flush s).trans hs) hfaultless
  refine ⟨hsame.trans hrules, hretention.trans hdays, hfaults, ?_⟩
  rcases hholds with hstale | hholds
  · exact Or.inl (isStale_mono hlater hstale)
  · rw [← hdays] at hwithin
    have hnext := hadvance.holds hholds (fun access => congrFun hfaultless access) hlisted hleaves
      hwithin
    rwa [hrules] at hnext

/-- A run keeps an entry within the retention whose key it leaves alone. -/
theorem Run.keeps (h : Run e₀ key listed now l) (hstart : Engine.Unmerged e₀ key entry)
    (hfault : ∀ access, fault e₀.blobs access = none)
    (hwithin : outlived e₀.retentionDays listed entry = false) :
    l.Keeps e₀ listed now key entry := by
  induction h with
  | start => exact ⟨rfl, rfl, funext hfault, Or.inr hstart⟩
  | call call _ htakes hleaves ih => exact ih.perform htakes hleaves
  | step _ hlater hadvance hlisted hleaves ih =>
    exact ih.advance hlater (advances_of_advance? hadvance) hlisted hleaves hwithin

variable {config : Config} {estimator : Estimator} {blobs : σ} {blob : String}

/-- A commit does not lose blobs, neither while the load runs nor behind it: in every run in which
calls and the steps of a load that does not fail alternate, over a blob store without faults and
under a clock that never goes backwards, the blob of an entry within the retention whose key is
left alone is read as this entry after every commit at which the entry is still fresh. -/
theorem commit_keeps_persisted (hstart : Engine.start config estimator blobs = .ok e₀)
    (hfault : ∀ access, fault blobs access = none)
    (hblob : (contents blobs).find? key = some blob) (hread : Entry.ofBlob? blob = .ok entry)
    (hwithin : entry.age listed ≤ config.retentionDays * dayLength)
    (hrun : Run e₀ key listed before l) (hlater : before ≤ now)
    (hleaves : l.engine.Leaves key (.commit now))
    (hfresh : entry.isStale config.defaultTtl now = false) :
    ∃ text, (contents (l.engine.commit now).2.blobs).find? key = some text ∧
      Entry.ofBlob? text = .ok entry := by
  obtain ⟨hcache, hblobs, hdays, -⟩ := Engine.start_ok hstart
  have hunmerged : e₀.Unmerged key entry := by
    refine ⟨?_, ⟨.fresh, ?_, rfl, rfl⟩, blob, ?_, hread⟩
    · rw [hcache]
      rfl
    · rw [hcache]
      rfl
    · rw [hblobs]
      exact hblob
  have hretained : outlived e₀.retentionDays listed entry = false := by
    rw [hdays]
    exact outlived_eq_false_iff.mpr hwithin
  have htakes : (Call.commit now).Takes before now := by
    simp [Call.Takes, Call.times, hlater]
  have hkeeps := (hrun.keeps hunmerged (by rw [hblobs]; exact hfault) hretained).perform htakes
    hleaves
  have hdefault : e₀.cache.rules.defaultTtl = config.defaultTtl := by
    rw [hcache]
    rfl
  rcases hkeeps.holds with hstale | hholds
  · rw [hdefault, hfresh] at hstale
    cases hstale
  · exact hholds.persisted

/-- An engine that retains no blob that is older than its listing, before the load. Of the two
entries that are persisted, the load deletes the older one if it lists them at the time 5. -/
def forgetful : Engine MemoryBlobs where
  cache := (Cache.empty ⟨.flat 1, some 50, 2⟩).beginLoad
  blobs :=
    ⟨(Table.insert ∅ "a" (Entry.mk "new" 5 none).toBlob).insert "b" (Entry.mk "old" 0 none).toBlob⟩
  retentionDays := 0
  ready := false
  workers := ⟨10, true, [], []⟩

/-- Commits before the listing, between the deletion and the merge, and behind the load. -/
def around : List (Timestamp × Option Call) :=
  [(5, some (.commit 5)), (5, none), (6, some (.put 6 "c" "live" none)), (6, none), (6, none),
    (7, none), (7, some (.commit 7)), (7, none), (8, none), (8, some (.invalidate "c"))]

/-- The last commit deletes the blob of a key that was removed, and keeps the one that was
loaded. -/
theorem commit_keeps_persisted_around_load :
    ∃ l : Loading MemoryBlobs, Run forgetful "a" 5 8 l ∧ l.stage = .ended ∧
      l.engine.blobs.blobs.keys = ["a", "c"] ∧
      (l.engine.commit 9).2.blobs.blobs.keys = ["a"] ∧
      ∃ text, (l.engine.commit 9).2.blobs.blobs.find? "a" = some text ∧
        Entry.ofBlob? text = .ok ⟨"new", 5, none⟩ := by
  have hstart : Engine.start
      { Config.standard with maxMemoryBytes := 2, defaultTtl := some 50, retentionDays := 0 }
      (.flat 1) forgetful.blobs = .ok forgetful := rfl
  have hblob : (contents forgetful.blobs).find? "a" = some (Entry.mk "new" 5 none).toBlob := by
    decide +kernel
  have hplays : Plays "a" 5 5 ⟨forgetful, .waiting⟩ around := by decide +kernel
  have hwaiting : Run forgetful "a" 5 5 ⟨forgetful, .waiting⟩ := .start
  have hrun := hwaiting.play hplays
  have hlast : (play 5 ⟨forgetful, .waiting⟩ around).2.stage = .ended ∧
      (play 5 ⟨forgetful, .waiting⟩ around).2.engine.Leaves "a" (.commit 9) := by
    decide +kernel
  have hkeys : (play 5 ⟨forgetful, .waiting⟩ around).2.engine.blobs.blobs.keys = ["a", "c"] ∧
      ((play 5 ⟨forgetful, .waiting⟩ around).2.engine.commit 9).2.blobs.blobs.keys = ["a"] := by
    decide +kernel
  exact ⟨_, hrun, hlast.1, hkeys.1, hkeys.2,
    commit_keeps_persisted hstart (fun _ => rfl) hblob (Entry.ofBlob?_toBlob _) (by decide)
      hrun (by decide) hlast.2 (by decide)⟩

end Loading

end DurableCache
