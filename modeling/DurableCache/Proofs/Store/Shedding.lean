import DurableCache.Proofs.Engine.Effects

/-!
# Stores that have shed stale entries

A store has shed entries of another one if it holds what the other holds, but for some entries that
are stale. Every change keeps it so, as long as the other store has room for what is written and
needs no eviction (`Easy`): then the smaller one has room as well and needs none either. Only the
sums of both have to be right; what abandoned writes have left in the index does not matter.
-/

namespace DurableCache

namespace Store

variable {estimator : Estimator} {s part written : Store} {key : String} {entry : Entry}

/-- A store has shed entries of another one that are stale at a time. The sums of both are right. -/
structure Sheds (rules : CacheRules) (time : Timestamp) (s part : Store) : Prop where
  whole : s.Tallied rules.estimator
  left : part.Tallied rules.estimator
  held : ∀ key, part.find? key = s.find? key ∨
    (part.find? key = none ∧
      ∃ entry, s.find? key = some entry ∧ entry.isStale rules.defaultTtl time = true)

namespace Sheds

variable {rules : CacheRules} {time later : Timestamp}

/-- A store has shed nothing of itself. -/
theorem refl (h : s.Tallied rules.estimator) (time : Timestamp) : s.Sheds rules time s :=
  ⟨h, h, fun _ => Or.inl rfl⟩

/-- What is stale stays stale. -/
theorem mono (h : s.Sheds rules time part) (hle : time ≤ later) : s.Sheds rules later part := by
  refine ⟨h.whole, h.left, fun key => ?_⟩
  rcases h.held key with hsame | ⟨hnone, entry, hheld, hstale⟩
  · exact Or.inl hsame
  · exact Or.inr ⟨hnone, entry, hheld, isStale_mono hle hstale⟩

/-- What is left is held by the other store as well. -/
theorem find?_of_part (h : s.Sheds rules time part) (hpart : part.find? key = some entry) :
    s.find? key = some entry := by
  rcases h.held key with hsame | ⟨hnone, -⟩
  · rw [← hsame, hpart]
  · rw [hnone] at hpart
    cases hpart

/-- What is left takes no more than the whole. -/
theorem total_le (h : s.Sheds rules time part) : part.total ≤ s.total :=
  h.whole.total_le h.left fun _ _ hpart => h.find?_of_part hpart

/-- Both stores may erase a key. -/
theorem erase (h : s.Sheds rules time part) (key : String) :
    (s.erase key).Sheds rules time (part.erase key) := by
  refine ⟨h.whole.erase key, h.left.erase key, fun other => ?_⟩
  rw [find?_erase, find?_erase]
  by_cases hother : other = key
  · exact Or.inl (by rw [if_pos hother, if_pos hother])
  · rw [if_neg hother, if_neg hother]
    exact h.held other

/-- What fits into the whole fits into what is left of it. -/
theorem put (h : s.Sheds rules time part) {previous : Option Entry}
    (hput : s.put rules.estimator key entry = (.ok previous, written)) :
    ∃ held kept, part.put rules.estimator key entry = (.ok held, kept) ∧
      written.Sheds rules time kept := by
  obtain ⟨size, hsize, hfits⟩ := put_ok_iff.mp ⟨previous, written, hput⟩
  have hroom : (part.erase key).total + size < wordLimit := by
    have hle := (h.erase key).total_le
    omega
  obtain ⟨held, kept, hkept⟩ := put_ok_iff.mpr ⟨size, hsize, hroom⟩
  have hwhole := h.whole.put key entry
  have hleft := h.left.put key entry
  rw [hput] at hwhole
  rw [hkept] at hleft
  refine ⟨held, kept, hkept, hwhole, hleft, fun other => ?_⟩
  rw [find?_put_ok hput, find?_put_ok hkept]
  by_cases hother : other = key
  · exact Or.inl (by rw [if_pos hother, if_pos hother])
  · rw [if_neg hother, if_neg hother]
    exact h.held other

/-- Both stores may drop what is stale at some time. -/
theorem retain (h : s.Sheds rules time part) (now : Timestamp) :
    (s.retain fun _ entry => !entry.isStale rules.defaultTtl now).2.Sheds rules time
      (part.retain fun _ entry => !entry.isStale rules.defaultTtl now).2 := by
  refine ⟨h.whole.retain _, h.left.retain _, fun key => ?_⟩
  rw [find?_retain, find?_retain]
  rcases h.held key with hsame | ⟨hnone, entry, hheld, hstale⟩
  · exact Or.inl (by rw [hsame])
  · rw [hnone, hheld, Option.filter_none]
    by_cases hdropped : entry.isStale rules.defaultTtl now = true
    · exact Or.inl (by simp [Option.filter_some, hdropped])
    · exact Or.inr ⟨rfl, entry, by simp [Option.filter_some, hdropped], hstale⟩

/-- What is left may drop what has grown stale since. -/
theorem retain_part (h : s.Sheds rules time part) {now : Timestamp} (hle : time ≤ now) :
    s.Sheds rules now (part.retain fun _ entry => !entry.isStale rules.defaultTtl now).2 := by
  refine ⟨h.whole, h.left.retain _, fun key => ?_⟩
  rw [find?_retain]
  rcases (h.mono hle).held key with hsame | ⟨hnone, entry, hheld, hstale⟩
  · cases hfind : part.find? key with
    | none =>
      rw [hfind] at hsame
      exact Or.inl hsame
    | some entry =>
      rw [hfind] at hsame
      cases hstale : entry.isStale rules.defaultTtl now with
      | false => exact Or.inl (by rw [← hsame]; simp [Option.filter_some, hstale])
      | true => exact Or.inr ⟨by simp [Option.filter_some, hstale], entry, hsame.symm, hstale⟩
  · exact Or.inr ⟨by rw [hnone]; rfl, entry, hheld, hstale⟩

/-- The entries that are left are listed as the whole lists them. -/
theorem rows_part (h : s.Sheds rules time part) :
    part.entries.rows = s.entries.rows.filter fun row => (part.find? row.1).isSome := by
  have htable : part.entries = s.entries.filter fun key _ => (part.find? key).isSome := by
    refine Table.ext_find? fun key => ?_
    rw [Table.find?_filter, find?_entries, find?_entries]
    cases hpart : part.find? key with
    | none => cases s.find? key <;> simp [Option.filter]
    | some entry => simp [h.find?_of_part hpart, Option.filter]
  exact congrArg Table.rows htable

/-- An entry that is not left is stale. -/
theorem stale_of_shed (h : s.Sheds rules time part) {row : String × Entry}
    (hrow : row ∈ s.entries.rows) (hshed : (part.find? row.1).isSome = false) :
    row.2.isStale rules.defaultTtl time = true := by
  have hheld : s.find? row.1 = some row.2 := by
    rw [← find?_entries]
    exact Table.mem_rows_iff.mp hrow
  rcases h.held row.1 with hsame | ⟨-, entry, hentry, hstale⟩
  · rw [hsame, hheld] at hshed
    cases hshed
  · rw [hheld] at hentry
    cases hentry
    exact hstale

end Sheds

end Store

namespace Change

variable {rules : CacheRules} {change : Change} {s part : Store} {time : Timestamp}

/-- A store has room for a change: the sizes of what is written fit, and a trim finds the sum within
the budget. -/
def Easy (rules : CacheRules) (s : Store) : Change → Prop
  | .keep | .remove _ | .clear | .purge _ => True
  | .write key entry =>
    abort? (s.put rules.estimator key entry).1 = none ∧
      (s.put rules.estimator key entry).2.total ≤ rules.budget
  | .trim => s.total ≤ rules.budget

instance (rules : CacheRules) (s : Store) : (change : Change) → Decidable (change.Easy rules s)
  | .keep | .remove _ | .clear | .purge _ => isTrue trivial
  | .write _ _ => inferInstanceAs (Decidable (_ ∧ _))
  | .trim => inferInstanceAs (Decidable (_ ≤ _))

/-- A store has room for a write exactly if the put succeeds and leaves the sum within the
budget. -/
theorem easy_write_iff {key : String} {entry : Entry} :
    (Change.write key entry).Easy rules s ↔
      ∃ previous written, s.put rules.estimator key entry = (.ok previous, written) ∧
        written.total ≤ rules.budget := by
  rw [Easy]
  cases s.put rules.estimator key entry with
  | mk answer left =>
    constructor
    · rintro ⟨hanswer, hwithin⟩
      cases answer with
      | ok previous => exact ⟨previous, left, rfl, hwithin⟩
      | error why => cases hanswer
    · rintro ⟨previous, written, hput, hwithin⟩
      cases hput
      exact ⟨rfl, hwithin⟩

/-- Then a change is only applied, and the trim behind it takes nothing. -/
theorem Easy.after (h : change.Easy rules s) : change.after rules s = change.applied rules s := by
  have hnone : change.evicted rules s = [] := by
    cases change with
    | write key entry =>
      obtain ⟨previous, written, hput, hwithin⟩ := easy_write_iff.mp h
      simp only [evicted, hput]
      rw [Store.trimmedKeys, Store.trim_of_le hwithin]
      rfl
    | trim =>
      have hwithin : s.total ≤ rules.budget := h
      rw [evicted, Store.trimmedKeys, Store.trim_of_le hwithin]
      rfl
    | _ => rfl
  rw [Change.after, hnone]
  rfl

/-- If the whole has room for a change, what is left of it has, and it stays so. -/
theorem Easy.sheds (h : change.Easy rules s) (hsheds : s.Sheds rules time part) :
    change.Easy rules part ∧ (change.after rules s).Sheds rules time (change.after rules part) := by
  have happlied : change.Easy rules part ∧
      (change.applied rules s).Sheds rules time (change.applied rules part) := by
    cases change with
    | keep => exact ⟨trivial, hsheds⟩
    | remove key => exact ⟨trivial, hsheds.erase key⟩
    | clear => exact ⟨trivial, .refl Store.tallied_empty time⟩
    | purge now => exact ⟨trivial, hsheds.retain now⟩
    | trim => exact ⟨Nat.le_trans hsheds.total_le h, hsheds⟩
    | write key entry =>
      obtain ⟨previous, written, hput, hwithin⟩ := easy_write_iff.mp h
      obtain ⟨held, kept, hkept, hwritten⟩ := hsheds.put hput
      refine ⟨easy_write_iff.mpr ⟨held, kept, hkept, ?_⟩, ?_⟩
      · exact Nat.le_trans hwritten.total_le hwithin
      · simp only [applied, hput, hkept]
        exact hwritten
  obtain ⟨heasy, hshed⟩ := happlied
  rw [h.after, heasy.after]
  exact ⟨heasy, hshed⟩

end Change

end DurableCache
