import DurableCache.Proofs.Engine.Histories
import DurableCache.Proofs.Gateway.Persisted

/-!
# Where the entries under a key come from

What is held or persisted under a key was written under this key. So a property that every write
under a key gives to its entry holds of all entries under the key: calls keep it, the load does, and
so does a start over the blobs (`Confines.of_becomes`). Nothing is required of the sizes, and no
call needs to come to an end.
-/

namespace DurableCache

open LawfulBlobs

variable {Q : Entry → Prop} {key : String} {entry : Entry}

/-! ### Entries in memory -/

namespace Change

variable {rules : CacheRules} {change : Change} {s : Store}

/-- After a change a key holds what it held before or what the change has written under it. -/
theorem of_find?_after (h : (change.after rules s).find? key = some entry) :
    s.find? key = some entry ∨ change.written? key = some entry := by
  rw [after, Store.find?_eraseAll] at h
  split at h
  · cases h
  · cases change with
    | keep => exact Or.inl h
    | trim => exact Or.inl h
    | write k new =>
      by_cases hkey : key = k
      · subst hkey
        rw [applied] at h
        cases hput : s.put rules.estimator key new with
        | mk answer written =>
          rw [hput] at h
          cases answer with
          | ok previous =>
            rw [Store.find?_put_ok hput, if_pos rfl] at h
            exact Or.inr (by rw [written?, if_pos rfl, h])
          | error why =>
            rw [(Store.put_error hput).2] at h
            split at h
            · exact Or.inl h
            · rw [Store.halfWritten, Store.find?_mark, Store.find?_erase, if_pos rfl] at h
              cases h
      · rw [applied, Store.find?_put_of_ne hkey] at h
        exact Or.inl h
    | remove k =>
      rw [applied, Store.find?_erase] at h
      split at h
      · cases h
      · exact Or.inl h
    | clear => cases h
    | purge now =>
      rw [applied, Store.find?_retain] at h
      exact Or.inl (Option.filter_eq_some_iff.mp h).1

end Change

namespace Store

variable {estimator : Estimator} {s : Store}

/-- Writing a batch, to its end or not, leaves under a key what it held or an entry of the batch. -/
theorem of_find?_insertAll {sized : List Sized} {count : Nat}
    (h : (s.insertAll count sized).2.find? key = some entry) :
    s.find? key = some entry ∨ ∃ item ∈ sized, item.key = key ∧ item.entry = entry := by
  induction sized generalizing s count with
  | nil => exact Or.inl h
  | cons item rest ih =>
    cases hone : s.insertIfNewer item.key item.entry item.size with
    | mk answer next =>
      cases answer with
      | error why =>
        have hleft : (s.insertAll count (item :: rest)).2 = next := by simp only [insertAll, hone]
        rw [hleft, (insertIfNewer_error hone).2, halfWritten, find?_mark, find?_erase] at h
        split at h
        · cases h
        · exact Or.inl h
      | ok written =>
        have hrest : ∃ reached,
            (s.insertAll count (item :: rest)).2 = (next.insertAll reached rest).2 := by
          cases written <;> simp only [insertAll, hone] <;> exact ⟨_, rfl⟩
        obtain ⟨reached, hrest⟩ := hrest
        rw [hrest] at h
        rcases ih h with hnext | ⟨other, hother, hitem⟩
        · rw [find?_insertIfNewer hone] at hnext
          split at hnext
          · rename_i hkey
            exact Or.inr ⟨item, List.mem_cons_self, hkey.1.symm, Option.some.inj hnext⟩
          · exact Or.inl hnext
        · exact Or.inr ⟨other, List.mem_cons_of_mem _ hother, hitem⟩

/-- A merge leaves under a key what it held or an entry of the batch. -/
theorem of_find?_merge {batch : List (String × Entry)}
    (h : (s.merge estimator batch).2.find? key = some entry) :
    s.find? key = some entry ∨ (key, entry) ∈ batch := by
  unfold merge at h
  cases hsized : sizeAll? estimator batch with
  | none =>
    rw [hsized] at h
    exact Or.inl h
  | some sized =>
    simp only [hsized] at h
    rcases of_find?_insertAll h with hheld | ⟨item, hitem, rfl, rfl⟩
    · exact Or.inl hheld
    · exact Or.inr (mem_of_sizeAll? hsized hitem)

end Store

namespace Cache

variable {c : Cache} {loaded : Option Store}

/-- The end of a load leaves under a key what it held or what was loaded for it. -/
theorem of_find?_finishLoad (h : (c.finishLoad loaded).2.store.find? key = some entry) :
    c.store.find? key = some entry ∨
      ∃ staged, loaded = some staged ∧ staged.find? key = some entry := by
  unfold finishLoad at h
  cases loaded with
  | none => exact Or.inl h
  | some staged =>
    simp only at h
    split at h
    · exact Or.inl h
    · rcases Store.of_find?_merge h with hheld | hrow
      · exact Or.inl hheld
      · refine Or.inr ⟨staged, rfl, ?_⟩
        rw [← Store.find?_entries]
        exact Table.mem_rows_iff.mp (List.mem_filter.mp hrow).1

/-- The trim behind the end of a load adds nothing to that. -/
theorem of_find?_takeIn (h : (c.takeIn loaded).2.store.find? key = some entry) :
    c.store.find? key = some entry ∨
      ∃ staged, loaded = some staged ∧ staged.find? key = some entry := by
  apply of_find?_finishLoad
  unfold takeIn at h
  cases hfinish : c.finishLoad loaded with
  | mk answer merged =>
    rw [hfinish] at h
    cases answer with
    | error why => exact h
    | ok stored =>
      have htrimmed : merged.trim.2.store.find? key = some entry := h
      rw [(merged.store_trim).1, Store.find?_eraseAll] at htrimmed
      split at htrimmed
      · cases htrimmed
      · exact htrimmed

end Cache

/-! ### Entries in blobs -/

namespace Gateway

variable {σ : Type} [BlobStore σ] [LawfulBlobs σ] {s : σ}

/-- Every entry that is persisted under a key has a property. -/
def PersistsOnly (Q : Entry → Prop) (key : String) (s : σ) : Prop :=
  ∀ entry, Persisted s key entry → Q entry

/-- Listing and deletions persist nothing new. -/
theorem kept_persistsOnly (Q : Entry → Prop) (key : String) :
    BlobStore.KeptByDeletion (PersistsOnly (σ := σ) Q key) where
  getAll s h entry hentry := h entry (hentry.congr (by rw [contents_getAll]))
  remove other s h entry hentry := by
    obtain ⟨text, htext, hread⟩ := hentry
    rw [find?_contents_remove] at htext
    split at htext
    · cases htext
    · exact h entry ⟨text, htext, hread⟩

/-- A flush persists nothing new. -/
theorem PersistsOnly.flush (h : PersistsOnly Q key s) :
    PersistsOnly Q key (BlobStore.flush s).2 :=
  fun entry hentry => h entry (hentry.congr (by rw [contents_flush]))

/-- A write persists its entry under its own key. -/
theorem PersistsOnly.put (h : PersistsOnly Q key s) {other : String} {written : Entry}
    (hQ : other = key → Q written) :
    PersistsOnly Q key (BlobStore.put other written.toBlob s).2 := by
  intro entry hentry
  obtain ⟨text, htext, hread⟩ := hentry
  rw [find?_contents_put] at htext
  split at htext
  · rename_i hown
    cases htext
    rw [Entry.ofBlob?_toBlob] at hread
    cases hread
    exact hQ hown.1.symm
  · exact h entry ⟨text, htext, hread⟩

/-- A commit persists under a key what the memory holds under it. -/
theorem PersistsOnly.commit (h : PersistsOnly Q key s) {defaultTtl : Option UInt64} {budget : Nat}
    {pruning : Bool} {now : Timestamp} {store : Store}
    (hQ : ∀ entry, store.find? key = some entry → Q entry) :
    PersistsOnly Q key (Gateway.commit defaultTtl budget pruning now store s).2.2 := by
  unfold Gateway.commit
  cases htrim : store.trim budget with
  | none => exact h
  | some result =>
    obtain ⟨evicted, trimmed⟩ := result
    refine kept_save (kept_persistsOnly Q key) (fun row hrow s hs => hs.put fun hkey => ?_)
      (fun s hs => hs.flush) h
    have hfind : trimmed.find? row.1 = some row.2 := by
      rw [← Store.find?_entries]
      exact Table.mem_rows_iff.mp hrow
    rw [Store.trim_eq_eraseAll htrim, Store.find?_eraseAll] at hfind
    split at hfind
    · cases hfind
    · rw [hkey] at hfind
      exact hQ row.2 hfind

/-- A load that is done stages under a key what is persisted under it. -/
theorem persisted_of_load {rules : LoadRules} {now : Timestamp} {answer : LoadReport}
    {staged : Store} {next : σ} (h : load rules now .empty s = (.done answer, staged, next))
    (hfind : staged.find? key = some entry) : Persisted s key entry := by
  rw [find?_load_done h fun _ => rfl] at hfind
  exact (loadedFrom?_eq_some_iff.mp hfind).1

end Gateway

/-! ### Engines -/

namespace Engine

variable {σ : Type} [BlobStore σ] {e e' : Engine σ} {now : Timestamp} {call : Call}

/-- A call that writes no entry under a key without a property. -/
def WritesOnly (Q : Entry → Prop) (key : String) (e : Engine σ) (call : Call) : Prop :=
  ∀ entry, (e.cache.change call).written? key = some entry → Q entry

variable [LawfulBlobs σ]

/-- Every entry that is held or persisted under a key has a property. -/
structure Confines (Q : Entry → Prop) (key : String) (e : Engine σ) : Prop where
  held : ∀ entry, e.cache.store.find? key = some entry → Q entry
  persisted : Gateway.PersistsOnly Q key e.blobs

/-- A call keeps the entries under a key confined if it writes no other one there. -/
theorem Confines.perform (h : e.Confines Q key) (hwrites : WritesOnly Q key e call) :
    (e.perform call).2.Confines Q key := by
  constructor
  · intro entry hentry
    rw [(e.made_perform call).store] at hentry
    rcases Change.of_find?_after hentry with hheld | hwritten
    · exact h.held entry hheld
    · exact hwrites entry hwritten
  · by_cases hcommit : ∃ now, call = .commit now
    · obtain ⟨now, rfl⟩ := hcommit
      show Gateway.PersistsOnly Q key (e.commit now).2.blobs
      rw [blobs_commit]
      exact h.persisted.commit h.held
    · rw [blobs_perform e (fun now heq => hcommit ⟨now, heq⟩)]
      exact h.persisted

/-- A run of calls keeps them confined as well. -/
theorem Confines.run {calls : List Call} (h : e.Confines Q key)
    (hwrites : e.Throughout (WritesOnly Q key) calls) : (e.run calls).Confines Q key := by
  induction calls generalizing e with
  | nil => exact h
  | cons call rest ih =>
    obtain ⟨hcall, hrest⟩ := hwrites
    exact ih (h.perform hcall) hrest

/-- A load brings in what is persisted, wherever it comes to its end, and the calls in between bring
in what they write. -/
theorem Confines.runLoadAmid {during : List Call} (h : e.Confines Q key) (now : Timestamp)
    (hwrites : (e.readBlobs now).2.Throughout (WritesOnly Q key) during) :
    (e.runLoadAmid now during).2.Confines Q key := by
  have hread : (e.readBlobs now).2.Confines Q key := by
    constructor
    · exact h.held
    · exact Gateway.kept_load (Gateway.kept_persistsOnly Q key) (fun s hs => hs.flush) h.persisted
  have hstaged (staged : Store) (hloaded : (e.readBlobs now).1 = .ok (some staged)) (entry : Entry)
      (hentry : staged.find? key = some entry) : Q entry := by
    obtain ⟨answer, blobs, hload⟩ := load_of_readBlobs hloaded
    exact h.persisted entry (Gateway.persisted_of_load hload hentry)
  unfold Engine.runLoadAmid
  cases hcase : e.readBlobs now with
  | mk answer read =>
    rw [hcase] at hread hwrites hstaged
    have hrun := hread.run hwrites
    cases answer with
    | error why => exact hrun
    | ok loaded =>
      constructor
      · intro entry hentry
        have htaken : ((read.run during).cache.takeIn loaded).2.store.find? key = some entry := by
          rw [← ((read.run during).endLoad_snd loaded).1]
          exact hentry
        rcases Cache.of_find?_takeIn htaken with hheld | ⟨staged, rfl, hfind⟩
        · exact hrun.held entry hheld
        · exact hstaged staged rfl entry hfind
      · show Gateway.PersistsOnly Q key ((read.run during).endLoad loaded).2.blobs
        rw [blobs_endLoad]
        exact hrun.persisted

/-- The entries under a key stay confined as long as no call writes another one there, over loads
and restarts. -/
theorem Confines.of_becomes (h : e.Confines Q key) (hbecomes : e.Becomes (WritesOnly Q key) e') :
    e'.Confines Q key := by
  induction hbecomes with
  | refl => exact h
  | call call _ hwrites ih => exact ih.perform hwrites
  | load now during _ hwrites ih => exact ih.runLoadAmid now hwrites
  | restart config estimator _ hstart ih =>
    obtain ⟨hcache, hblobs, -, -⟩ := start_ok hstart
    constructor
    · intro entry hentry
      rw [hcache] at hentry
      cases hentry
    · rw [hblobs]
      exact ih.persisted

end Engine

end DurableCache
