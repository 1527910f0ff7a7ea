import DurableCache.Proofs.Store.Counts
import DurableCache.Proofs.Store.Intact

/-!
# Evictions that never end

An eviction makes its rounds without a bound. A round that comes to the age of an entry takes this
entry, and so does the first one that comes to an age left behind by an abandoned write, if its key
has been written again; but that age stays the least, and any further round takes nothing. So an
eviction ends exactly if the entries that it can come to are enough to meet the budget
(`evicts_iff`), and then each round has taken one entry.
-/

namespace DurableCache

namespace Store

variable {estimator : Estimator} {s t kept : Store} {budget : Nat} {key : String}
variable {keys : List String}

/-! ### What every run keeps -/

namespace Kept

variable {P : Store → Prop}

/-- An operation keeps it, whether it is abandoned or not. -/
theorem perform (h : Kept estimator P) (operation : Operation) (hs : P s) :
    P (s.perform estimator operation).2 := by
  cases operation with
  | put key entry => exact h.put key entry hs
  | putIfNewer key entry =>
    show P (s.putIfNewer estimator key entry).2
    unfold Store.putIfNewer
    cases hsize : estimator.size? entry with
    | none => exact hs
    | some size => exact h.insertIfNewer key hsize hs
  | merge batch => exact h.merge batch hs
  | remove key => exact h.erase key hs
  | clear => exact h.empty
  | retain keep => exact h.eraseAll _ hs
  | evict budget =>
    simp only [Store.perform]
    cases hevict : s.evict budget with
    | none => exact hs
    | some found =>
      rw [evictRounds_eq_eraseAll hevict]
      exact h.eraseAll _ hs

theorem performAll (h : Kept estimator P) (operations : List Operation) (hs : P s) :
    P (s.performAll estimator operations) := by
  induction operations generalizing s with
  | nil => exact hs
  | cons operation rest ih => exact ih (h.perform operation hs)

/-- A run keeps it, whichever of its operations are abandoned. -/
theorem run (h : Kept estimator P) (actions : List Action) (hs : P s) :
    P (s.run estimator actions) := by
  induction actions generalizing s with
  | nil => exact hs
  | cons action rest ih =>
    apply ih
    rw [← performAll_operations]
    exact h.performAll _ hs

end Kept

/-- A store of right sizes and sum whose index lists every entry at its age, and maybe other
ages. -/
structure Usable (estimator : Estimator) (s : Store) : Prop extends Tallied estimator s where
  listed : ∀ key entry, s.find? key = some entry → s.ages.contains ⟨entry.timestamp, key⟩ = true

/-- Erasing keeps a store usable: the age that goes is that of the entry. -/
theorem Usable.erase (h : s.Usable estimator) (key : String) : (s.erase key).Usable estimator where
  toTallied := h.toTallied.erase key
  listed other entry hentry := by
    rw [find?_erase] at hentry
    split at hentry
    · cases hentry
    · rename_i hne
      have hlisted := h.listed other entry hentry
      cases hslot : s.slots.find? key with
      | none => rwa [erase_of_find?_eq_none hslot]
      | some slot =>
        have hage : (⟨entry.timestamp, other⟩ : Age) ≠ ⟨slot.entry.timestamp, key⟩ :=
          fun heq => hne (congrArg Age.key heq)
        have hages : (s.erase key).ages = s.ages.erase ⟨slot.entry.timestamp, key⟩ := by
          simp [Store.erase, hslot]
        rw [hages, Table.contains, Table.find?_erase, if_neg hage]
        exact hlisted

/-- A write keeps a store usable, even if it is abandoned halfway. -/
theorem Usable.insert (h : s.Usable estimator) (key : String) {entry : Entry} {size : Nat}
    (hsize : estimator.size? entry = some size) :
    (s.insert key entry size).2.Usable estimator where
  toTallied := h.toTallied.insert key hsize
  listed other held hheld := by
    have hages : (s.insert key entry size).2.ages =
        (s.erase key).ages.insert ⟨entry.timestamp, key⟩ () := by
      unfold Store.insert
      by_cases hfits : ((s.erase key).mark key entry).total + size < wordLimit
      · rw [if_pos hfits]
        rfl
      · rw [if_neg hfits]
        rfl
    rw [hages, Table.contains_insert]
    cases hinsert : s.insert key entry size with
    | mk answer written =>
      rw [hinsert] at hheld
      cases answer with
      | ok previous =>
        rw [find?_insert_ok hinsert] at hheld
        split at hheld
        · rename_i hother
          cases hheld
          exact Or.inl (by rw [hother])
        · rename_i hne
          refine Or.inr ((h.erase key).listed other held ?_)
          rw [find?_erase, if_neg hne]
          exact hheld
      | error why =>
        obtain ⟨-, rfl⟩ := insert_error hinsert
        exact Or.inr ((h.erase key).listed other held hheld)

theorem usable_kept : Kept estimator (Usable estimator) where
  empty := ⟨tallied_empty, fun key entry hentry => by cases hentry⟩
  erase key h := h.erase key
  insert key _ _ hsize h := h.insert key hsize

/-- Every run leaves a usable store, whichever of its operations were abandoned. -/
theorem usable_run (estimator : Estimator) (actions : List Action) :
    (empty.run estimator actions).Usable estimator :=
  usable_kept.run actions usable_kept.empty

/-! ### Rounds without a bound -/

/-- The key that the next round takes; none if the sum is within the budget or no age is left. -/
def victim? (budget : Nat) (s : Store) : Option String :=
  if s.total ≤ budget then none else s.ages.keys.head?.map Age.key

/-- The rounds of an eviction, and the keys that they take. -/
inductive Rounds (budget : Nat) : Store → List String → Store → Prop
  | nil (s : Store) : Rounds budget s [] s
  | cons {s t : Store} {key : String} {keys : List String} (hvictim : s.victim? budget = some key)
      (hrest : Rounds budget (s.erase key) keys t) : Rounds budget s (key :: keys) t

/-- The rounds of an eviction end when they have taken these keys. -/
structure Evicts (budget : Nat) (s : Store) (keys : List String) (kept : Store) : Prop where
  rounds : Rounds budget s keys kept
  settled : kept.victim? budget = none

/-- The rounds of an eviction never end: any number of them is made, and another one follows. -/
def Endless (budget : Nat) (s : Store) : Prop :=
  ∀ n, ∃ keys t, keys.length = n ∧ Rounds budget s keys t ∧ (t.victim? budget).isSome = true

/-- A key is taken only if the sum exceeds the budget, and it is that of the least age. -/
theorem victim?_eq_some_iff :
    s.victim? budget = some key ↔
      budget < s.total ∧ ∃ age rest, s.ages.keys = age :: rest ∧ age.key = key := by
  unfold victim?
  split
  · rename_i hwithin
    simp [Nat.not_lt.mpr hwithin]
  · rename_i hover
    cases hkeys : s.ages.keys with
    | nil => simp
    | cons age rest =>
      simp only [List.head?_cons, Option.map_some, Option.some.injEq, List.cons.injEq]
      constructor
      · intro h
        exact ⟨by omega, age, rest, ⟨rfl, rfl⟩, h⟩
      · rintro ⟨-, age', rest', ⟨rfl, -⟩, h⟩
        exact h

/-- Where no key is to be taken no round is made. -/
theorem evicts_iff_of_over (h : s.victim? budget = none) :
    Evicts budget s keys kept ↔ keys = [] ∧ kept = s := by
  constructor
  · rintro ⟨hrounds, -⟩
    cases hrounds with
    | nil => exact ⟨rfl, rfl⟩
    | cons hvictim _ =>
      rw [h] at hvictim
      cases hvictim
  · rintro ⟨rfl, rfl⟩
    exact ⟨.nil kept, h⟩

/-- Where a key is to be taken the first round takes it. -/
theorem evicts_iff_of_victim (h : s.victim? budget = some key) :
    Evicts budget s keys kept ↔
      ∃ rest, keys = key :: rest ∧ Evicts budget (s.erase key) rest kept := by
  constructor
  · rintro ⟨hrounds, hover⟩
    cases hrounds with
    | nil =>
      rw [h] at hover
      cases hover
    | cons hvictim hrest =>
      obtain rfl := Option.some.inj (h.symm.trans hvictim)
      exact ⟨_, rfl, hrest, hover⟩
  · rintro ⟨rest, rfl, hrounds, hover⟩
    exact ⟨.cons h hrounds, hover⟩

/-- There is one way to make a number of rounds. -/
theorem Rounds.unique {others : List String} {u : Store} (h : Rounds budget s keys t)
    (h' : Rounds budget s others u) (hlength : others.length = keys.length) : u = t := by
  induction h generalizing others with
  | nil s =>
    obtain rfl := List.eq_nil_of_length_eq_zero hlength
    cases h'
    rfl
  | cons hvictim hrest ih =>
    cases h' with
    | nil => cases hlength
    | cons hvictim' hrest' =>
      obtain rfl := Option.some.inj (hvictim.symm.trans hvictim')
      exact ih hrest' (Nat.succ.inj hlength)

/-- A further round may be made. -/
theorem Rounds.concat (h : Rounds budget s keys t) (hvictim : t.victim? budget = some key) :
    Rounds budget s (keys ++ [key]) (t.erase key) := by
  induction h with
  | nil s => exact .cons hvictim (.nil _)
  | cons hfirst _ ih => exact .cons hfirst (ih hvictim)

/-- Rounds erase the keys that they take. -/
theorem Rounds.eq_eraseAll (h : Rounds budget s keys t) : t = s.eraseAll keys := by
  induction h with
  | nil => rfl
  | cons _ _ ih => exact ih

/-- Once the next key is not stored, no round changes anything. -/
theorem Rounds.eq_of_absent (h : Rounds budget s keys t) (hvictim : s.victim? budget = some key)
    (habsent : s.find? key = none) : t = s := by
  induction h with
  | nil => rfl
  | cons hfirst _ ih =>
    obtain rfl := Option.some.inj (hvictim.symm.trans hfirst)
    have hsame := erase_of_find?_eq_none (Option.map_eq_none_iff.mp habsent)
    rw [hsame] at ih
    exact ih hvictim habsent

/-- Rounds that end do not come to a key that is not stored. -/
theorem Evicts.find?_victim (h : Evicts budget s keys kept)
    (hvictim : s.victim? budget = some key) : (s.find? key).isSome = true := by
  rw [Option.isSome_iff_ne_none]
  intro habsent
  have hsame := h.rounds.eq_of_absent hvictim habsent
  have hover := h.settled
  rw [hsame, hvictim] at hover
  cases hover

/-- Rounds that end take different keys, all of them stored. -/
theorem Evicts.stored (h : Evicts budget s keys kept) :
    keys.Nodup ∧ ∀ key ∈ keys, s.contains key = true := by
  obtain ⟨hrounds, hover⟩ := h
  induction hrounds with
  | nil => exact ⟨List.nodup_nil, fun key hmem => by cases hmem⟩
  | @cons s t first rest hvictim hrest ih =>
    obtain ⟨hnodup, hstored⟩ := ih hover
    have hlater (other : String) (hother : other ∈ rest) :
        other ≠ first ∧ s.contains other = true := by
      have hcontains := hstored other hother
      rw [contains_eq_isSome, find?_erase] at hcontains
      split at hcontains
      · cases hcontains
      · rename_i hne
        exact ⟨hne, by rwa [contains_eq_isSome]⟩
    refine ⟨List.nodup_cons.mpr ⟨fun hmem => (hlater first hmem).1 rfl, hnodup⟩, ?_⟩
    intro other hother
    rcases List.mem_cons.mp hother with rfl | hmem
    · rw [contains_eq_isSome]
      exact Evicts.find?_victim ⟨.cons hvictim hrest, hover⟩ hvictim
    · exact (hlater other hmem).2

/-- Rounds that end take one entry each. -/
theorem Evicts.size_add_length (h : Evicts budget s keys kept) :
    kept.size + keys.length = s.size := by
  obtain ⟨hnodup, hstored⟩ := h.stored
  rw [h.rounds.eq_eraseAll]
  exact size_eraseAll hnodup hstored

/-- The rounds with a bound stop when no key is to be taken. -/
theorem evictRounds_of_over {rounds : Nat} (h : s.victim? budget = none) :
    evictRounds budget rounds s = some ([], s) := by
  unfold victim? at h
  rw [evictRounds.eq_def]
  split at h
  · rename_i hwithin
    simp [hwithin]
  · rename_i hover
    have hfirst : s.ages.first? = none := by
      rw [Option.map_eq_none_iff, List.head?_eq_none_iff] at h
      rw [Table.first?, List.map_eq_nil_iff.mp h]
      rfl
    simp [hover, hfirst]

/-- The rounds with a bound take the same key first, unless the bound is met. -/
theorem evictRounds_of_victim {rounds : Nat} (h : s.victim? budget = some key) :
    evictRounds budget rounds s =
      match rounds with
      | 0 => none
      | rounds + 1 =>
        (evictRounds budget rounds (s.erase key)).map fun found => (key :: found.1, found.2) := by
  obtain ⟨hover, age, rest, hkeys, rfl⟩ := victim?_eq_some_iff.mp h
  obtain ⟨row, rows, hrows, hage, -⟩ := List.map_eq_cons_iff.mp hkeys
  have hfirst : s.ages.first? = some (age, ()) := by
    rw [Table.first?, hrows, List.head?_cons, ← hage]
  rw [evictRounds.eq_def]
  cases rounds <;> simp [Nat.not_le.mpr hover, hfirst]

/-- With a bound the same rounds are made, as long as the bound is not met. -/
theorem evictRounds_eq_some_iff {rounds : Nat} :
    evictRounds budget rounds s = some (keys, kept) ↔
      Evicts budget s keys kept ∧ keys.length ≤ rounds := by
  induction rounds generalizing s keys with
  | zero =>
    cases hvictim : s.victim? budget with
    | none =>
      rw [evictRounds_of_over hvictim, evicts_iff_of_over hvictim]
      simp [and_comm, eq_comm]
    | some key =>
      rw [evictRounds_of_victim hvictim, evicts_iff_of_victim hvictim]
      constructor
      · intro h
        cases h
      · rintro ⟨⟨rest, rfl, -⟩, hlength⟩
        cases hlength
  | succ rounds ih =>
    cases hvictim : s.victim? budget with
    | none =>
      rw [evictRounds_of_over hvictim, evicts_iff_of_over hvictim]
      constructor
      · intro h
        cases h
        exact ⟨⟨rfl, rfl⟩, Nat.zero_le _⟩
      · rintro ⟨⟨rfl, rfl⟩, -⟩
        rfl
    | some key =>
      rw [evictRounds_of_victim hvictim, evicts_iff_of_victim hvictim]
      constructor
      · intro h
        obtain ⟨found, hrest, heq⟩ := Option.map_eq_some_iff.mp h
        obtain ⟨rfl, rfl⟩ := Prod.mk.inj heq
        obtain ⟨hends, hlength⟩ := ih.mp hrest
        exact ⟨⟨found.1, rfl, hends⟩, Nat.succ_le_succ hlength⟩
      · rintro ⟨⟨rest, rfl, hends⟩, hlength⟩
        have hrest := ih.mpr ⟨hends, Nat.le_of_succ_le_succ hlength⟩
        simp only [hrest, Option.map_some]

/-- An eviction answers what its rounds come to without a bound: there are never more of them than
entries. -/
theorem evict_eq_some_iff : s.evict budget = some (keys, kept) ↔ Evicts budget s keys kept := by
  rw [evict, evictRounds_eq_some_iff]
  constructor
  · exact And.left
  · intro h
    have hsize := h.size_add_length
    exact ⟨h, by omega⟩

/-- Rounds that do not end never end. -/
theorem endless_iff : Endless budget s ↔ ¬ ∃ keys kept, Evicts budget s keys kept := by
  constructor
  · rintro hendless ⟨keys, kept, hrounds, hover⟩
    obtain ⟨others, t, hlength, hmade, hnext⟩ := hendless keys.length
    rw [hrounds.unique hmade hlength, hover] at hnext
    cases hnext
  · intro hnever n
    have hmade : ∃ keys t, keys.length = n ∧ Rounds budget s keys t := by
      induction n with
      | zero => exact ⟨[], s, rfl, .nil s⟩
      | succ n ih =>
        obtain ⟨keys, t, rfl, hmade⟩ := ih
        cases hvictim : t.victim? budget with
        | none => exact absurd ⟨keys, t, hmade, hvictim⟩ hnever
        | some key =>
          refine ⟨keys ++ [key], t.erase key, List.length_append, hmade.concat hvictim⟩
    obtain ⟨keys, t, hlength, hrounds⟩ := hmade
    refine ⟨keys, t, hlength, hrounds, ?_⟩
    rw [Option.isSome_iff_ne_none]
    intro hover
    exact hnever ⟨keys, t, hrounds, hover⟩

/-! ### Which evictions end -/

/-- Whether an age is that of the entry under its key. -/
def dates (s : Store) (age : Age) : Bool :=
  (s.find? age.key).map Entry.timestamp == some age.written

/-- The keys that rounds come to while they go through ages: those of the first ages that are ages
of entries, and the next one. -/
def reach (s : Store) : List Age → List String
  | [] => []
  | age :: rest => if s.dates age then age.key :: s.reach rest else [age.key]

/-- The keys that an eviction can come to. -/
def evictable (s : Store) : List String := s.reach s.ages.keys

/-- Erasing the entry of an age makes no difference to the other ages. -/
theorem dates_erase {age other : Age} (h : s.dates age = true) (hne : other ≠ age) :
    (s.erase age.key).dates other = s.dates other := by
  unfold dates at h ⊢
  rw [find?_erase]
  split
  · rename_i hkey
    have hwritten : age.written ≠ other.written := by
      intro heq
      apply hne
      cases age
      cases other
      simp_all
    rw [hkey, beq_iff_eq.mp h]
    simpa using hwritten
  · rfl

theorem reach_erase {age : Age} (h : s.dates age = true) {ages : List Age} (hnew : age ∉ ages) :
    (s.erase age.key).reach ages = s.reach ages := by
  induction ages with
  | nil => rfl
  | cons other rest ih =>
    have hne : other ≠ age := fun heq => hnew (heq ▸ List.mem_cons_self)
    have hrest : age ∉ rest := fun hmem => hnew (List.mem_cons_of_mem other hmem)
    simp only [reach, dates_erase h hne, ih hrest]

/-- Erasing the entry of the least age takes this age out of the index. -/
theorem keys_ages_erase_of_dates {age : Age} {rest : List Age} (hkeys : s.ages.keys = age :: rest)
    (h : s.dates age = true) : (s.erase age.key).ages.keys = rest := by
  obtain ⟨entry, hentry, hwritten⟩ := Option.map_eq_some_iff.mp (beq_iff_eq.mp h)
  obtain ⟨slot, hslot, rfl⟩ := Option.map_eq_some_iff.mp hentry
  have hages : (s.erase age.key).ages = s.ages.erase age := by
    simp [erase, hslot, hwritten]
  rw [hages]
  exact Table.keys_erase_first hkeys

/-- Erasing the key of the least age leaves this age in the index if it is not that of the entry. -/
theorem keys_ages_erase_of_not_dates {age : Age} {rest : List Age}
    (hkeys : s.ages.keys = age :: rest) (h : s.dates age = false) :
    ∃ others, (s.erase age.key).ages.keys = age :: others := by
  cases hslot : s.slots.find? age.key with
  | none => exact ⟨rest, by rw [erase_of_find?_eq_none hslot, hkeys]⟩
  | some slot =>
    have hne : age ≠ ⟨slot.entry.timestamp, age.key⟩ := by
      intro heq
      have hdates : s.dates age = true := by
        have hwritten : age.written = slot.entry.timestamp := congrArg Age.written heq
        simp [dates, find?, hslot, hwritten]
      rw [h] at hdates
      cases hdates
    have hages : (s.erase age.key).ages = s.ages.erase ⟨slot.entry.timestamp, age.key⟩ := by
      simp [erase, hslot]
    rw [hages, Table.keys_erase, hkeys, List.filter_cons_of_pos (by simpa using hne)]
    exact ⟨_, rfl⟩

/-- Without ages a usable store holds nothing. -/
theorem Usable.total_eq_zero (h : s.Usable estimator) (hkeys : s.ages.keys = []) : s.total = 0 := by
  rcases Nat.eq_zero_or_pos s.total with hzero | hpos
  · exact hzero
  · obtain ⟨key, entry, hentry⟩ := h.exists_find?_of_total_pos hpos
    obtain ⟨_, hage⟩ := Table.contains_eq_true_iff.mp (h.listed key entry hentry)
    have hmem := Table.mem_keys_iff.mpr ⟨_, hage⟩
    rw [hkeys] at hmem
    cases hmem

/-- An eviction ends exactly if the keys that it can come to are enough. -/
theorem Usable.evicts_iff (h : s.Usable estimator) (budget : Nat) :
    (∃ keys kept, Evicts budget s keys kept) ↔ (s.eraseAll s.evictable).total ≤ budget := by
  unfold evictable
  generalize hages : s.ages.keys = ages
  induction ages generalizing s with
  | nil =>
    have hzero := h.total_eq_zero hages
    have hover : s.victim? budget = none := by
      rw [victim?, hzero, if_pos (Nat.zero_le budget)]
    constructor
    · intro _
      show s.total ≤ budget
      omega
    · intro _
      exact ⟨[], s, .nil s, hover⟩
  | cons age rest ih =>
    by_cases hwithin : s.total ≤ budget
    · constructor
      · intro _
        exact Nat.le_trans (total_eraseAll_le s _) hwithin
      · intro _
        exact ⟨[], s, .nil s, if_pos hwithin⟩
    · have hvictim : s.victim? budget = some age.key :=
        victim?_eq_some_iff.mpr ⟨by omega, age, rest, hages, rfl⟩
      have hfirst : (∃ keys kept, Evicts budget s keys kept) ↔
          ∃ keys kept, Evicts budget (s.erase age.key) keys kept := by
        constructor
        · rintro ⟨keys, kept, hends⟩
          obtain ⟨others, -, hrest⟩ := (evicts_iff_of_victim hvictim).mp hends
          exact ⟨others, kept, hrest⟩
        · rintro ⟨keys, kept, hends⟩
          exact ⟨age.key :: keys, kept, (evicts_iff_of_victim hvictim).mpr ⟨keys, rfl, hends⟩⟩
      rw [hfirst]
      cases hdates : s.dates age with
      | true =>
        have hnew : age ∉ rest := by
          have hnodup := s.ages.keys_nodup
          rw [hages] at hnodup
          exact (List.nodup_cons.mp hnodup).1
        rw [ih (h.erase age.key) (keys_ages_erase_of_dates hages hdates), reach_erase hdates hnew,
          reach, if_pos hdates]
        rfl
      | false =>
        -- The age stays the least, and now its key is not stored: no round can take anything more.
        obtain ⟨others, hothers⟩ := keys_ages_erase_of_not_dates hages hdates
        have herased : s.eraseAll (s.reach (age :: rest)) = s.erase age.key := by
          rw [reach, hdates]
          rfl
        rw [herased]
        constructor
        · rintro ⟨keys, kept, hends⟩
          refine Nat.le_of_not_lt fun hover => ?_
          have hstuck : (s.erase age.key).victim? budget = some age.key :=
            victim?_eq_some_iff.mpr ⟨hover, age, others, hothers, rfl⟩
          have hstored := hends.find?_victim hstuck
          rw [find?_erase, if_pos rfl] at hstored
          cases hstored
        · intro hends
          exact ⟨[], _, .nil _, if_pos hends⟩

/-- Where the rounds end a usable store is within the budget. -/
theorem Usable.total_le_of_evicts (h : s.Usable estimator) (hends : Evicts budget s keys kept) :
    kept.total ≤ budget := by
  have hover := hends.settled
  have hkept : kept.Usable estimator := by
    rw [hends.rounds.eq_eraseAll]
    exact usable_kept.eraseAll keys h
  unfold victim? at hover
  split at hover
  · assumption
  · rw [Option.map_eq_none_iff, List.head?_eq_none_iff] at hover
    rw [hkept.total_eq_zero hover]
    exact Nat.zero_le budget

/-- Over every run, whichever of its operations were abandoned, an eviction makes its rounds to the
end exactly if the entries that it can come to are enough to bring the sum within the budget.
Otherwise its rounds never end. When they end there are no more of them than entries, each one has
taken another stored key, and the sum is within the budget. -/
theorem evict_ends_iff (estimator : Estimator) (actions : List Action) (budget : Nat) :
    let s := empty.run estimator actions
    (∀ keys kept, s.evict budget = some (keys, kept) ↔ Evicts budget s keys kept) ∧
      ((∃ keys kept, Evicts budget s keys kept) ↔ (s.eraseAll s.evictable).total ≤ budget) ∧
      (Endless budget s ↔ budget < (s.eraseAll s.evictable).total) ∧
      ∀ keys kept, Evicts budget s keys kept →
        keys.length ≤ s.size ∧ kept.size + keys.length = s.size ∧ keys.Nodup ∧
          (∀ key ∈ keys, s.contains key = true) ∧ kept = s.eraseAll keys ∧ kept.total ≤ budget := by
  intro s
  have husable : s.Usable estimator := usable_run estimator actions
  have hends := husable.evicts_iff budget
  refine ⟨fun keys kept => evict_eq_some_iff, hends, ?_, fun keys kept hevicts => ?_⟩
  · rw [endless_iff, hends, Nat.not_le]
  · have hsize := hevicts.size_add_length
    obtain ⟨hnodup, hstored⟩ := hevicts.stored
    exact ⟨by omega, hsize, hnodup, hstored, hevicts.rounds.eq_eraseAll,
      husable.total_le_of_evicts hevicts⟩

/-- Two entries that fill three quarters of a word, and a write of one half in place of the first of
them, at a time of its own. -/
def halfway (written : Timestamp) : List Action :=
  [.operate (.put "a" ⟨"x", 1, none⟩), .operate (.put "b" ⟨"yy", 5, none⟩),
    .operate (.put "a" ⟨"xx", written, none⟩)]

/-- An age that is left behind as the greatest does not keep an eviction from its end. -/
theorem evict_ends_iff_behind :
    (empty.run quarter (halfway 9)).Stranded "a" ⟨"xx", 9, none⟩ ∧
      ∃ kept, Evicts 0 (empty.run quarter (halfway 9)) ["b"] kept ∧ kept.size = 0 ∧
        kept.total ≤ 0 := by
  have habsent : (empty.run quarter (halfway 9)).find? "a" = none := by decide
  have haged : (empty.run quarter (halfway 9)).ages.contains ⟨9, "a"⟩ = true := by decide
  have hsize : (empty.run quarter (halfway 9)).size = 1 := by decide
  have hkeys : ((empty.run quarter (halfway 9)).evict 0).map Prod.fst = some ["b"] := by decide
  obtain ⟨⟨keys, kept⟩, hfound, rfl⟩ := Option.map_eq_some_iff.mp hkeys
  obtain ⟨hevict, -, -, hall⟩ := evict_ends_iff quarter (halfway 9) 0
  have hends := (hevict _ _).mp hfound
  obtain ⟨-, hleft, -, -, -, hwithin⟩ := hall _ _ hends
  rw [hsize] at hleft
  exact ⟨⟨habsent, haged⟩, kept, hends, Nat.succ.inj hleft, hwithin⟩

/-- An age that is left behind as the least keeps an eviction going for ever. -/
theorem not_evict_ends :
    ¬ ∀ (estimator : Estimator) (actions : List Action) (budget : Nat),
      ∃ keys kept, Evicts budget (empty.run estimator actions) keys kept := by
  intro hall
  obtain ⟨keys, kept, hends⟩ := hall quarter (halfway 3) 0
  have hnone : (empty.run quarter (halfway 3)).evict 0 = none := by decide
  rw [evict_eq_some_iff.mpr hends] at hnone
  cases hnone

end Store

end DurableCache
