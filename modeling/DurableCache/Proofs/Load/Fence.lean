import DurableCache.Proofs.Engine.Reach

/-!
# The fence of a load

While a load runs, the fence remembers exactly the removals that calls have made since it
began (`fence_run`). So the end of the load stores a loaded entry exactly if its key was not
removed meanwhile and the store holds no strictly newer write, and it leaves every other key
alone.
-/

namespace DurableCache

namespace Change

variable (f : Fence)

@[simp] theorem mark_keep : mark f .keep = f := rfl

@[simp] theorem mark_write (key : String) (entry : Entry) : mark f (.write key entry) = f := rfl

@[simp] theorem mark_purge (now : Timestamp) : mark f (.purge now) = f := rfl

@[simp] theorem mark_trim : mark f .trim = f := rfl

@[simp] theorem mark_remove (key : String) :
    mark f (.remove key) = { f with removed := f.removed.insert key () } := rfl

@[simp] theorem mark_clear : mark f .clear = { f with cleared := true } := rfl

@[simp] theorem mark_writeAt (now : Timestamp) (key value : String)
    (timeToLive : Option UInt64) : mark f (writeAt now key value timeToLive) = f := by
  unfold writeAt
  split <;> rfl

@[simp] theorem mark_ofFetched (returned : Timestamp) (key : String)
    (timeToLive : Option UInt64) (fetched : Fetched) :
    mark f (ofFetched returned key timeToLive fetched) = f := by
  cases fetched with
  | value text => exact mark_writeAt f returned key text timeToLive
  | nothing => rfl
  | failed => rfl
  | broken => rfl

@[simp] theorem mark_populationChange (c : Cache) (now returned : Timestamp) (key : String)
    (timeToLive : Option UInt64) (fetched : Fetched) :
    mark f (c.populationChange now returned key timeToLive fetched) = f := by
  unfold Cache.populationChange
  split
  · exact mark_ofFetched f returned key timeToLive fetched
  · rfl
  · rfl

/-- A call clears the fence's keys exactly if it removes all entries. -/
theorem cleared_mark_change (c : Cache) (call : Call) :
    (mark f (c.change call)).cleared = true ↔ f.cleared = true ∨ Call.clear = call := by
  cases call with
  | putJson now key value timeToLive => cases value <;> simp [Cache.change]
  | purge now =>
    simp only [Cache.change]
    split <;> simp
  | _ => simp [Cache.change]

/-- A call adds a key to the fence exactly if it removes that key. -/
theorem removed_mark_change (c : Cache) (call : Call) (key : String) :
    (mark f (c.change call)).removed.contains key = true ↔
      f.removed.contains key = true ∨ Call.invalidate key = call := by
  cases call with
  | putJson now key value timeToLive => cases value <;> simp [Cache.change]
  | purge now =>
    simp only [Cache.change]
    split <;> simp
  | invalidate k => simp [Cache.change, Table.contains_insert, or_comm]
  | _ => simp [Cache.change]

end Change

namespace Engine

variable {σ : Type} [BlobStore σ] {e : Engine σ} {calls : List Call}

/-- A standing fence outlasts a run and adds exactly the removals that the run makes. -/
theorem fence_run (hs : e.Sound) (hfits : e.Fits calls) {f : Fence}
    (hf : e.cache.fence = some f) :
    ∃ g, (e.run calls).cache.fence = some g ∧
      (g.cleared = true ↔ f.cleared = true ∨ Call.clear ∈ calls) ∧
      ∀ key, g.removed.contains key = true ↔
        f.removed.contains key = true ∨ Call.invalidate key ∈ calls := by
  induction calls generalizing e f with
  | nil => exact ⟨f, hf, by simp, by simp⟩
  | cons call rest ih =>
    obtain ⟨hcall, hrest⟩ := hfits
    have hturns := turns_perform hs call hcall
    have hmark : (e.perform call).2.cache.fence = some (Change.mark f (e.cache.change call)) := by
      rw [hturns.fence, hf]
      rfl
    obtain ⟨g, hg, hcleared, hremoved⟩ := ih (hs.perform call hcall) hrest hmark
    refine ⟨g, hg, ?_, fun key => ?_⟩
    · rw [hcleared, Change.cleared_mark_change, List.mem_cons, or_assoc]
    · rw [hremoved, Change.removed_mark_change, List.mem_cons, or_assoc]

/-- Calls never change the rules of an engine. -/
theorem rules_run (hs : e.Sound) (hfits : e.Fits calls) :
    (e.run calls).cache.rules = e.cache.rules := by
  induction calls generalizing e with
  | nil => rfl
  | cons call rest ih =>
    obtain ⟨hcall, hrest⟩ := hfits
    exact (ih (hs.perform call hcall) hrest).trans (turns_perform hs call hcall).rules

end Engine

namespace Cache

variable {c : Cache} {loaded : Store}

/-- What a load delivers under a key: it has read an entry for the key, no call has removed the
key meanwhile, and the store holds no strictly newer write. -/
def Delivers (c : Cache) (calls : List Call) (loaded : Store) (key : String) : Prop :=
  Call.clear ∉ calls ∧ Call.invalidate key ∉ calls ∧
    ∃ entry, loaded.find? key = some entry ∧
      ∀ held, c.store.find? key = some held → ¬ entry.timestamp < held.timestamp

/-- The loaded entry under a key is merged unless the fence remembers the key. -/
theorem find?_delivery (f : Fence) (loaded : Store) (key : String) :
    Rows.find? key (delivery f loaded) =
      if f.removed.contains key then none else loaded.find? key := by
  have hfilter := Table.find?_filter loaded.entries (fun key _ => !f.removed.contains key) key
  rw [Store.find?_entries] at hfilter
  refine hfilter.trans ?_
  cases hfind : loaded.find? key with
  | none => simp
  | some entry => cases f.removed.contains key <;> simp

/-- No key is delivered twice. -/
theorem delivery_nodup (f : Fence) (loaded : Store) :
    ((delivery f loaded).map Prod.fst).Nodup :=
  (loaded.entries.filter fun key _ => !f.removed.contains key).keys_nodup

/-- The end of a load stores its delivery where no newer write stands in the way. -/
theorem finishLoad_settles {f : Fence} (hf : c.fence = some f) (hcleared : f.cleared = false)
    {stored : Nat} {next : Cache} (h : c.finishLoad (some loaded) = (.ok stored, next)) :
    next.fence = none ∧ (∀ key, next.store.find? key = c.store.settled (delivery f loaded) key) ∧
      stored =
        ((delivery f loaded).filter fun row => !c.store.holdsNewer row.1 row.2).length := by
  rw [finishLoad_some hf, hcleared] at h
  obtain ⟨hanswer, rfl⟩ := Prod.mk.inj h
  obtain ⟨hfind, hcount⟩ := Store.settled_merge (delivery_nodup f loaded)
    (Prod.ext hanswer rfl : c.store.merge c.rules.estimator (delivery f loaded) = (.ok stored, _))
  exact ⟨rfl, hfind, hcount⟩

/-- The keys that a load delivers. -/
def deliveredKeys (c : Cache) (f : Fence) (loaded : Store) : List String :=
  if f.cleared then []
  else ((delivery f loaded).filter fun row => !c.store.holdsNewer row.1 row.2).map Prod.fst

/-- No key is listed twice. -/
theorem deliveredKeys_nodup (c : Cache) (f : Fence) (loaded : Store) :
    (c.deliveredKeys f loaded).Nodup := by
  unfold deliveredKeys
  split
  · exact List.nodup_nil
  · exact (delivery_nodup f loaded).sublist (List.filter_sublist.map Prod.fst)

/-- A key is delivered exactly if the fence lets it pass and no newer write is held. -/
theorem mem_deliveredKeys {f : Fence} {key : String} :
    key ∈ c.deliveredKeys f loaded ↔ f.cleared = false ∧ f.removed.contains key = false ∧
      ∃ entry, loaded.find? key = some entry ∧ c.store.holdsNewer key entry = false := by
  unfold deliveredKeys
  cases hcleared : f.cleared with
  | true => simp
  | false =>
    have hrow (entry : Entry) : (key, entry) ∈ delivery f loaded ↔
        f.removed.contains key = false ∧ loaded.find? key = some entry := by
      have hmem : (key, entry) ∈ delivery f loaded ↔
          Rows.find? key (delivery f loaded) = some entry := Table.mem_rows_iff
      rw [hmem, find?_delivery]
      cases f.removed.contains key <;> simp
    simp only [Bool.false_eq_true, if_false, List.mem_map, List.mem_filter, true_and]
    constructor
    · rintro ⟨⟨_, entry⟩, ⟨hmem, hnewer⟩, rfl⟩
      obtain ⟨hremoved, hfind⟩ := (hrow entry).mp hmem
      exact ⟨hremoved, entry, hfind, by simpa using hnewer⟩
    · rintro ⟨hremoved, entry, hfind, hnewer⟩
      exact ⟨(key, entry), ⟨(hrow entry).mpr ⟨hremoved, hfind⟩, by simpa using hnewer⟩, rfl⟩

/-- The end of a load changes the lookups of the delivered keys only, and counts these. -/
theorem finishLoad_deliveredKeys {f : Fence} (hf : c.fence = some f) {stored : Nat}
    {next : Cache} (h : c.finishLoad (some loaded) = (.ok stored, next)) :
    next.fence = none ∧ stored = (c.deliveredKeys f loaded).length ∧
      ∀ key, next.store.find? key =
        if key ∈ c.deliveredKeys f loaded then loaded.find? key else c.store.find? key := by
  cases hcleared : f.cleared with
  | true =>
    rw [finishLoad_some hf, hcleared] at h
    cases h
    simp [deliveredKeys, hcleared]
  | false =>
    obtain ⟨hfence, hfind, hcount⟩ := finishLoad_settles hf hcleared h
    refine ⟨hfence, ?_, fun key => ?_⟩
    · rw [hcount]
      simp [deliveredKeys, hcleared]
    · rw [hfind, Store.settled, find?_delivery]
      by_cases hmem : key ∈ c.deliveredKeys f loaded
      · obtain ⟨-, hremoved, entry, hentry, hnewer⟩ := mem_deliveredKeys.mp hmem
        simp [if_pos hmem, hremoved, hentry, hnewer]
      · rw [if_neg hmem]
        cases hremoved : f.removed.contains key with
        | true => simp
        | false =>
          cases hentry : loaded.find? key with
          | none => simp
          | some entry =>
            cases hnewer : c.store.holdsNewer key entry with
            | true => simp [hnewer]
            | false =>
              exact absurd (mem_deliveredKeys.mpr ⟨hcleared, hremoved, entry, hentry, hnewer⟩)
                hmem

end Cache

namespace Engine

variable {σ : Type} [BlobStore σ] {config : Config} {estimator : Estimator} {blobs : σ}
variable {e₀ e : Engine σ} {calls : List Call}

/-- The engine with a load that begins now. -/
def beginLoad (e : Engine σ) : Engine σ := { e with cache := e.cache.beginLoad }

/-- A run in the window of a load delivers what its fence lets pass. -/
theorem mem_deliveredKeys_run {f : Fence}
    (hcleared : f.cleared = true ↔ Call.clear ∈ calls)
    (hremoved : ∀ key, f.removed.contains key = true ↔ Call.invalidate key ∈ calls)
    {c : Cache} {loaded : Store} {key : String} :
    key ∈ c.deliveredKeys f loaded ↔ c.Delivers calls loaded key := by
  rw [Cache.mem_deliveredKeys, ← Bool.not_eq_true, ← Bool.not_eq_true, hcleared, hremoved]
  refine and_congr_right fun _ => and_congr_right fun _ => exists_congr fun entry =>
    and_congr_right fun _ => ?_
  rw [← Bool.not_eq_true, Store.holdsNewer_iff]
  constructor
  · intro hnone held hheld hlt
    exact hnone ⟨held, hheld, hlt⟩
  · rintro hall ⟨held, hheld, hlt⟩
    exact hall held hheld hlt

/-- The end of a load after a run stores exactly what the load delivers, counts it, keeps the
other lookups and the soundness of the store, and takes the fence down. -/
theorem exists_delivered (hs : e.Sound) (hfits : e.Fits calls)
    (hfresh : e.cache.fence = some .fresh) {loaded : Store}
    (hanswer : abort? ((e.run calls).cache.finishLoad (some loaded)).1 ≠ some .sizeOverflow) :
    ∃ (keys : List String) (next : Cache),
      (e.run calls).cache.finishLoad (some loaded) = (.ok keys.length, next) ∧ keys.Nodup ∧
      (∀ key, key ∈ keys ↔ (e.run calls).cache.Delivers calls loaded key) ∧
      (∀ key, next.store.find? key =
        if key ∈ keys then loaded.find? key else (e.run calls).cache.store.find? key) ∧
      next.store.Sound e.cache.rules.estimator ∧ next.isLoading = false := by
  obtain ⟨f, hf, hcleared, hremoved⟩ := fence_run hs hfits hfresh
  have hrules : (e.run calls).cache.rules = e.cache.rules := rules_run hs hfits
  have hnone (key : String) : Fence.fresh.removed.contains key = true ↔ False := by
    simp [Fence.fresh, Table.contains]
  cases hfinish : (e.run calls).cache.finishLoad (some loaded) with
  | mk answer next =>
    cases answer with
    | error why =>
      rw [hfinish] at hanswer
      exact absurd (congrArg some (Cache.finishLoad_error hfinish)) hanswer
    | ok stored =>
      obtain ⟨hfence, rfl, hfind⟩ := Cache.finishLoad_deliveredKeys hf hfinish
      have hnext := Cache.sound_finishLoad (hs.run hfits) hfinish
      refine ⟨_, next, rfl, Cache.deliveredKeys_nodup _ f loaded, fun key => ?_, hfind,
        hrules ▸ hnext, by simp [Cache.isLoading, hfence]⟩
      refine mem_deliveredKeys_run ?_ (fun key => ?_)
      · simpa [Fence.fresh] using hcleared
      · simpa [hnone] using hremoved key

/-- A load that begins in any state and ends after any calls: the load still runs when they are
made, and its end stores exactly the loaded entries whose keys were not removed meanwhile and
that no strictly newer write precedes, keeps every other lookup, counts what it stores, keeps the
store sound and ends the load. A load that fails changes no entry. -/
theorem finishLoad_run (hstart : start config estimator blobs = .ok e₀) (hreach : e₀.Reaches e)
    (hfits : e.beginLoad.Fits calls) :
    let c := (e.beginLoad.run calls).cache
    c.isLoading = true ∧ c.finishLoad none = (.ok 0, { c with fence := none }) ∧
      ∀ loaded, abort? (c.finishLoad (some loaded)).1 ≠ some .sizeOverflow →
        ∃ (keys : List String) (next : Cache),
          c.finishLoad (some loaded) = (.ok keys.length, next) ∧ keys.Nodup ∧
          (∀ key, key ∈ keys ↔ c.Delivers calls loaded key) ∧
          (∀ key, next.store.find? key =
            if key ∈ keys then loaded.find? key else c.store.find? key) ∧
          next.store.Sound e.cache.rules.estimator ∧ next.isLoading = false := by
  intro c
  have hsound : e.beginLoad.Sound := hreach.sound (sound_start hstart)
  obtain ⟨f, hf, -, -⟩ := fence_run hsound hfits rfl
  refine ⟨?_, rfl, fun loaded hanswer => exists_delivered hsound hfits rfl hanswer⟩
  have hfence : c.fence = some f := hf
  rw [Cache.isLoading, hfence]
  rfl

/-- A load that has read two keys of which one was removed and written again meanwhile. -/
theorem finishLoad_run_put_after_invalidate :
    ∃ (loaded : Store) (keys : List String) (next : Cache),
      (standard.beginLoad.run [.invalidate "a", .put 3 "a" "live" none]).cache.finishLoad
        (some loaded) = (.ok keys.length, next) ∧
      "a" ∉ keys ∧ next.store.find? "a" = some ⟨"live", 3, none⟩ ∧
      "b" ∈ keys ∧ next.store.find? "b" = some ⟨"disk", 5, none⟩ := by
  let loaded : Store :=
    (((Store.empty.insert "a" ⟨"disk", 5, none⟩ 1).2).insert "b" ⟨"disk", 5, none⟩ 1).2
  have hfits : standard.beginLoad.Fits [.invalidate "a", .put 3 "a" "live" none] :=
    ⟨by decide, by decide, trivial⟩
  obtain ⟨-, -, hdone⟩ := finishLoad_run start_standard .start hfits
  obtain ⟨keys, next, hnext, -, hkeys, hfind, -, -⟩ := hdone loaded (by decide)
  have ha : "a" ∉ keys := by
    intro ha
    have hremoved := ((hkeys "a").mp ha).2.1
    simp at hremoved
  have hb : "b" ∈ keys := by
    refine (hkeys "b").mpr ⟨by simp, by simp, ⟨"disk", 5, none⟩, by decide, fun held hheld => ?_⟩
    have hnone : (standard.beginLoad.run
        [.invalidate "a", .put 3 "a" "live" none]).cache.store.find? "b" = none := by decide
    rw [hnone] at hheld
    cases hheld
  refine ⟨loaded, keys, next, hnext, ha, ?_, hb, ?_⟩
  · rw [hfind, if_neg ha]
    decide
  · rw [hfind, if_pos hb]
    decide

end Engine

end DurableCache
