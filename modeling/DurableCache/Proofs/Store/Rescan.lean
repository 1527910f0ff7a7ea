import DurableCache.Proofs.Store.Oldest
import DurableCache.Proofs.Store.Runs
import DurableCache.Proofs.Text.ByteOrder
import Mathlib.Data.List.Perm.Basic

/-!
# Eviction by looking at everything again

The plain way to bring a store within its budget estimates all entries again, looks through all of
them for the oldest one and removes it, as often as the sum exceeds the budget. An eviction keeps
sizes, sum and ages instead and looks at no entry again. On a sound store the two remove the same
entries (`Sound.rescan_trim`), and these are the fewest of the oldest that will do
(`shortestCut_rescan`).
-/

namespace DurableCache.Store

variable {estimator : Estimator} {s kept : Store} {budget : Nat} {evicted : List String}

/-! ### The order of eviction -/

/-- One row comes before another one if it was written earlier, or at the same time under a key
whose bytes come first. -/
def Precedes (a b : String × Entry) : Prop :=
  a.2.timestamp < b.2.timestamp ∨
    a.2.timestamp = b.2.timestamp ∧ Text.utf8Bytes a.1 < Text.utf8Bytes b.1

instance : DecidableRel Precedes := fun _ _ => inferInstanceAs (Decidable (_ ∨ _))

/-- The age of a row. -/
def rowAge (row : String × Entry) : Age := ⟨row.2.timestamp, row.1⟩

/-- Rows come one before the other as their ages do. -/
theorem precedes_iff {a b : String × Entry} :
    Precedes a b ↔ compare (rowAge a) (rowAge b) = .lt := by
  rw [Age.compare_eq_lt_iff, Precedes, Text.utf8Bytes_lt_iff]
  rfl

/-- No two rows come one before the other in turn. -/
theorem Precedes.asymm {a b : String × Entry} (h : Precedes a b) : ¬ Precedes b a := by
  rw [precedes_iff] at h ⊢
  exact Std.OrientedCmp.not_lt_of_lt h

/-- Of two rows of different keys one comes before the other. -/
theorem precedes_or_precedes {a b : String × Entry} (hne : a.1 ≠ b.1) :
    Precedes a b ∨ Precedes b a := by
  rw [precedes_iff, precedes_iff]
  cases hage : compare (rowAge a) (rowAge b) with
  | lt => exact Or.inl rfl
  | eq => exact absurd (congrArg Age.key (Age.compare_eq_iff.mp hage)) hne
  | gt => exact Or.inr (Std.OrientedCmp.lt_of_gt hage)

/-- The first row in the order of eviction. -/
def oldest? : List (String × Entry) → Option (String × Entry)
  | [] => none
  | row :: rest =>
    match oldest? rest with
    | none => some row
    | some other => if Precedes other row then some other else some row

theorem mem_of_oldest? {rows : List (String × Entry)} {row : String × Entry}
    (h : oldest? rows = some row) : row ∈ rows := by
  induction rows generalizing row with
  | nil => cases h
  | cons first rest ih =>
    unfold oldest? at h
    split at h
    · cases h
      exact List.mem_cons_self
    · rename_i other hother
      split at h
      · cases h
        exact List.mem_cons_of_mem _ (ih hother)
      · cases h
        exact List.mem_cons_self

/-- The row that comes before all others is found. -/
theorem oldest?_of_forall_precedes {rows : List (String × Entry)} {row : String × Entry}
    (hmem : row ∈ rows) (hleast : ∀ other ∈ rows, other = row ∨ Precedes row other) :
    oldest? rows = some row := by
  induction rows with
  | nil => cases hmem
  | cons first rest ih =>
    obtain ⟨hfirst, hrest⟩ := List.forall_mem_cons.mp hleast
    have hirrefl : ¬ Precedes row row := fun h => h.asymm h
    unfold oldest?
    rcases List.mem_cons.mp hmem with rfl | hlater
    · -- What is found in the rest does not come before the first row.
      cases hother : oldest? rest with
      | none => rfl
      | some other =>
        have hafter : ¬ Precedes other row := by
          rcases hrest other (mem_of_oldest? hother) with rfl | hafter
          · exact hirrefl
          · exact hafter.asymm
        exact if_neg hafter
    · rw [ih hlater hrest]
      rcases hfirst with rfl | hbefore
      · exact if_neg hirrefl
      · exact if_pos hbefore

/-- All rows in the order of eviction. -/
def byAge (entries : Table String Entry) : List (String × Entry) :=
  entries.rows.mergeSort fun a b => !decide (Precedes b a)

theorem byAge_perm (entries : Table String Entry) : (byAge entries).Perm entries.rows :=
  List.mergeSort_perm _ _

theorem not_precedes_iff {a b : String × Entry} :
    (!decide (Precedes b a)) = true ↔ (compare (rowAge a) (rowAge b)).isLE = true := by
  rw [Bool.not_eq_true', decide_eq_false_iff_not, precedes_iff]
  refine ⟨fun h => ?_, Std.OrientedCmp.not_lt_of_isLE⟩
  by_contra hnot
  exact h (Std.OrientedCmp.lt_of_not_isLE hnot)

/-- The order of eviction leaves no two rows in doubt. -/
theorem pairwise_byAge (entries : Table String Entry) : (byAge entries).Pairwise Precedes := by
  have hkeys : ((byAge entries).map Prod.fst).Nodup :=
    ((byAge_perm entries).map Prod.fst).nodup_iff.mpr entries.keys_nodup
  have hsorted : (byAge entries).Pairwise fun a b => (!decide (Precedes b a)) = true := by
    refine List.pairwise_mergeSort (fun a b c hab hbc => ?_) (fun a b => ?_) _
    · rw [not_precedes_iff] at hab hbc ⊢
      exact Std.TransCmp.isLE_trans hab hbc
    · by_cases hba : Precedes b a
      · simp [hba, hba.asymm]
      · simp [hba]
  refine ((List.pairwise_map.mp hkeys).and hsorted).imp fun {a b} h => ?_
  obtain ⟨hne, hafter⟩ := h
  exact (precedes_or_precedes hne).resolve_right (by simpa using hafter)

/-! ### The plain algorithm -/

/-- One entry less. -/
theorem size_erase_lt {entries : Table String Entry} {row : String × Entry}
    (h : oldest? entries.rows = some row) : (entries.erase row.1).size < entries.size := by
  have hfind : entries.find? row.1 = some row.2 := Table.mem_rows_iff.mp (mem_of_oldest? h)
  have hone := Table.total_erase (fun _ => 1) hfind
  rw [Table.total_one, Table.total_one] at hone
  omega

/-- Estimates all entries again and, while their sizes exceed the budget, looks through all of them
for the oldest one and removes it. Answers the keys of the removed entries and those that stay;
nothing if some entry has no size. -/
def rescan (estimator : Estimator) (budget : Nat) (entries : Table String Entry) :
    Option (List String × Table String Entry) :=
  match sumSizes? estimator entries.rows with
  | none => none
  | some sum =>
    if sum ≤ budget then some ([], entries)
    else
      match _hrow : oldest? entries.rows with
      | none => some ([], entries)
      | some row =>
        (rescan estimator budget (entries.erase row.1)).map
          fun (keys, rest) => (row.1 :: keys, rest)
termination_by entries.size
decreasing_by exact size_erase_lt _hrow

theorem rescan_of_le {entries : Table String Entry} {sum : Nat}
    (hsum : sumSizes? estimator entries.rows = some sum) (h : sum ≤ budget) :
    rescan estimator budget entries = some ([], entries) := by
  rw [rescan, hsum]
  simp [h]

theorem rescan_of_lt {entries : Table String Entry} {sum : Nat} {row : String × Entry}
    (hsum : sumSizes? estimator entries.rows = some sum) (h : budget < sum)
    (hrow : oldest? entries.rows = some row) :
    rescan estimator budget entries =
      (rescan estimator budget (entries.erase row.1)).map
        fun (keys, rest) => (row.1 :: keys, rest) := by
  rw [rescan, hsum]
  simp only [Nat.not_le.mpr h, if_false]
  split
  · rename_i hnone
    rw [hrow] at hnone
    cases hnone
  · rename_i other hother
    rw [hrow] at hother
    cases hother
    rfl

/-! ### What the plain algorithm comes to -/

/-- The sum of the sizes does not depend on the order of the entries. -/
theorem sumSizes?_perm {rows others : List (String × Entry)} (h : rows.Perm others) :
    sumSizes? estimator rows = sumSizes? estimator others := by
  induction h with
  | nil => rfl
  | cons row _ ih =>
    obtain ⟨key, entry⟩ := row
    rw [sumSizes?, sumSizes?, ih]
  | swap a b rest =>
    obtain ⟨a, x⟩ := a
    obtain ⟨b, y⟩ := b
    simp only [sumSizes?]
    cases estimator.size? x <;> cases estimator.size? y <;> cases sumSizes? estimator rest <;>
      simp [Nat.add_left_comm]
  | trans _ _ first second => exact first.trans second

/-- Of entries that leave in a given order, the fewest leave that bring the sum of the sizes of
the others within the budget. -/
structure ShortestCut (estimator : Estimator) (budget : Nat) (order : List (String × Entry))
    (evicted : List String) : Prop where
  /-- The keys are those of the first entries, in their order. -/
  first : evicted = (order.take evicted.length).map Prod.fst
  /-- The other entries fit into the budget. -/
  enough : ∃ sum, sumSizes? estimator (order.drop evicted.length) = some sum ∧ sum ≤ budget
  /-- They would not if fewer entries had left. -/
  fewest : ∀ count < evicted.length,
    ∃ sum, sumSizes? estimator (order.drop count) = some sum ∧ budget < sum

/-- Nothing leaves if all entries fit. -/
theorem shortestCut_nil {order : List (String × Entry)} {sum : Nat}
    (hsum : sumSizes? estimator order = some sum) (h : sum ≤ budget) :
    ShortestCut estimator budget order [] where
  first := rfl
  enough := ⟨sum, hsum, h⟩
  fewest := by
    intro count hcount
    cases hcount

/-- If the entries do not fit, the first one leaves, and then the fewest of the others. -/
theorem ShortestCut.cons {row : String × Entry} {rest : List (String × Entry)}
    {others : List String} {sum : Nat} (hsum : sumSizes? estimator (row :: rest) = some sum)
    (hover : budget < sum) (h : ShortestCut estimator budget rest others) :
    ShortestCut estimator budget (row :: rest) (row.1 :: others) where
  first := by
    rw [List.length_cons, List.take_succ_cons, List.map_cons, ← h.first]
  enough := h.enough
  fewest := by
    intro count hcount
    cases count with
    | zero => exact ⟨sum, hsum, hover⟩
    | succ count => exact h.fewest count (Nat.lt_of_succ_lt_succ hcount)

/-- The rows of a table without the first one of an order are the others. -/
theorem perm_erase {entries : Table String Entry} {row : String × Entry}
    {rest : List (String × Entry)} (h : (row :: rest).Perm entries.rows) :
    rest.Perm (entries.erase row.1).rows := by
  have hkeys : ((row :: rest).map Prod.fst).Nodup :=
    (h.map Prod.fst).nodup_iff.mpr entries.keys_nodup
  obtain ⟨hnew, -⟩ := List.nodup_cons.mp hkeys
  have hdropped : Rows.erase row.1 (row :: rest) = rest := by
    have hothers : Rows.erase row.1 rest = rest := by
      refine Rows.erase_of_forall_ne fun other hother hsame => hnew ?_
      exact List.mem_map.mpr ⟨other, hother, hsame⟩
    rw [Rows.erase, List.filter_cons_of_neg (by simp)]
    exact hothers
  have hfiltered := h.filter fun other => compare other.1 row.1 != .eq
  rw [Rows.erase] at hdropped
  rwa [hdropped] at hfiltered

/-- The plain algorithm removes the fewest of the first entries that bring the others within the
budget. -/
theorem shortestCut_rescan {order : List (String × Entry)} {entries left : Table String Entry}
    (hperm : order.Perm entries.rows) (hsorted : order.Pairwise Precedes)
    (h : rescan estimator budget entries = some (evicted, left)) :
    ShortestCut estimator budget order evicted := by
  induction order generalizing entries evicted with
  | nil =>
    have hsum : sumSizes? estimator entries.rows = some 0 := (sumSizes?_perm hperm).symm
    rw [rescan_of_le hsum (Nat.zero_le budget)] at h
    cases h
    exact shortestCut_nil rfl (Nat.zero_le budget)
  | cons row rest ih =>
    obtain ⟨hfirst, hlater⟩ := List.pairwise_cons.mp hsorted
    have hsame : sumSizes? estimator (row :: rest) = sumSizes? estimator entries.rows :=
      sumSizes?_perm hperm
    cases hsum : sumSizes? estimator entries.rows with
    | none =>
      rw [rescan, hsum] at h
      cases h
    | some sum =>
      rw [hsum] at hsame
      by_cases hfits : sum ≤ budget
      · rw [rescan_of_le hsum hfits] at h
        cases h
        exact shortestCut_nil hsame hfits
      · have hrow : oldest? entries.rows = some row := by
          refine oldest?_of_forall_precedes (hperm.subset List.mem_cons_self) fun other hother => ?_
          rcases List.mem_cons.mp (hperm.symm.subset hother) with hother | hother
          · exact Or.inl hother
          · exact Or.inr (hfirst other hother)
        rw [rescan_of_lt hsum (Nat.not_le.mp hfits) hrow] at h
        obtain ⟨⟨others, last⟩, hrest, heq⟩ := Option.map_eq_some_iff.mp h
        obtain ⟨rfl, rfl⟩ := Prod.mk.inj heq
        exact (ih (perm_erase hperm) hlater hrest).cons hsame (Nat.not_le.mp hfits)

/-! ### The eviction of a sound store -/

/-- The entries after an erasure. -/
theorem entries_erase (s : Store) (key : String) : (s.erase key).entries = s.entries.erase key := by
  refine Table.ext_find? fun other => ?_
  rw [find?_entries, find?_erase, Table.find?_erase, find?_entries]

/-- The least age of a sound store is that of the oldest entry. -/
theorem Sound.oldest?_entries (h : s.Sound estimator) {age : Age}
    (hfirst : s.ages.first? = some (age, ())) :
    ∃ entry, oldest? s.entries.rows = some (age.key, entry) := by
  obtain ⟨entry, hentry, hwritten⟩ := h.find?_of_first? hfirst
  have hage : rowAge (age.key, entry) = age := by rw [rowAge, hwritten]
  refine ⟨entry, oldest?_of_forall_precedes ?_ fun other hother => ?_⟩
  · exact Table.mem_rows_iff.mpr ((find?_entries s age.key).trans hentry)
  · have hheld : s.find? other.1 = some other.2 :=
      (find?_entries s other.1).symm.trans (Table.mem_rows_iff.mp hother)
    obtain ⟨slot, hslot, hsame⟩ := Option.map_eq_some_iff.mp hheld
    have hother : ageOf other.1 slot = rowAge other := by rw [ageOf, rowAge, hsame]
    rcases h.first_le hfirst hslot with hleast | hafter
    · left
      have hkey : other.1 = age.key := congrArg Age.key (hother.symm.trans hleast)
      rw [hkey, hentry] at hheld
      exact Prod.ext hkey (Option.some.inj hheld).symm
    · rw [hother] at hafter
      right
      rwa [precedes_iff, hage]

/-- An eviction from a sound store does what the plain algorithm does. -/
theorem Sound.rescan_evictRounds (h : s.Sound estimator) {rounds : Nat}
    (hevict : Store.evictRounds budget rounds s = some (evicted, kept)) :
    rescan estimator budget s.entries = some (evicted, kept.entries) := by
  induction rounds generalizing s evicted with
  | zero =>
    rcases evictRounds_cases hevict with ⟨hends, rfl, rfl⟩ | ⟨_, _, _, -, -, hnone, -⟩
    · exact rescan_of_le h.recount (h.total_le_of_ends hends)
    · cases hnone
  | succ rounds ih =>
    rcases evictRounds_cases hevict with
      ⟨hends, rfl, rfl⟩ | ⟨age, others, left, hover, hfirst, hleft, hrest, rfl⟩
    · exact rescan_of_le h.recount (h.total_le_of_ends hends)
    · obtain rfl := Nat.succ.inj hleft
      obtain ⟨entry, hentry⟩ := h.oldest?_entries hfirst
      have hothers := ih (h.erase age.key) hrest
      rw [entries_erase] at hothers
      rw [rescan_of_lt h.recount hover hentry, hothers]
      rfl

/-- A trim of a sound store does what the plain algorithm does. -/
theorem Sound.rescan_trim (h : s.Sound estimator) (htrim : s.trim budget = some (evicted, kept)) :
    rescan estimator budget s.entries = some (evicted, kept.entries) := by
  unfold Store.trim at htrim
  split at htrim
  · rename_i hwithin
    cases htrim
    exact rescan_of_le h.recount hwithin
  · exact h.rescan_evictRounds htrim

/-- No key leaves twice. -/
theorem ShortestCut.nodup {entries : Table String Entry}
    (h : ShortestCut estimator budget (byAge entries) evicted) : evicted.Nodup := by
  have hkeys : ((byAge entries).map Prod.fst).Nodup :=
    ((byAge_perm entries).map Prod.fst).nodup_iff.mpr entries.keys_nodup
  rw [h.first]
  exact hkeys.sublist ((List.take_sublist _ _).map _)

/-- Nothing leaves exactly if all entries fit. -/
theorem ShortestCut.eq_nil_iff {entries : Table String Entry}
    (h : ShortestCut estimator budget (byAge entries) evicted) :
    evicted = [] ↔ ∃ sum, sumSizes? estimator entries.rows = some sum ∧ sum ≤ budget := by
  rw [← sumSizes?_perm (byAge_perm entries)]
  constructor
  · rintro rfl
    exact h.enough
  · rintro ⟨sum, hsum, hfits⟩
    by_contra hsome
    obtain ⟨all, hall, hover⟩ := h.fewest 0 (List.length_pos_of_ne_nil hsome)
    rw [List.drop_zero, hsum] at hall
    cases hall
    omega

/-- A trim of a store that any run of operations whose sizes fit leaves behind ends. It does what
the plain algorithm does, which estimates all entries again before each one that it removes: the
fewest entries leave, in the order of their times and keys, that bring the others within the budget.
Those that stay are as they were. -/
theorem trim_eq_rescan {actions : List Action}
    (hfits : ∀ step ∈ empty.steps estimator actions,
      (step.before.perform estimator step.operation).1 ≠ some .sizeOverflow)
    (budget : Nat) :
    ∃ evicted kept, (empty.run estimator actions).trim budget = some (evicted, kept) ∧
      rescan estimator budget (empty.run estimator actions).entries =
        some (evicted, kept.entries) ∧
      ShortestCut estimator budget (byAge (empty.run estimator actions).entries) evicted ∧
      evicted.Nodup ∧
      (∀ key, kept.find? key =
        if key ∈ evicted then none else (empty.run estimator actions).find? key) ∧
      (evicted = [] ↔
        ∃ sum, (empty.run estimator actions).recount? estimator = some sum ∧ sum ≤ budget) := by
  obtain ⟨-, hsound⟩ := sound_empty.run hfits
  obtain ⟨evicted, htrim, -⟩ := hsound.trim budget
  have hrescan := hsound.rescan_trim htrim
  have hcut := shortestCut_rescan (byAge_perm _) (pairwise_byAge _) hrescan
  exact ⟨evicted, _, htrim, hrescan, hcut, hcut.nodup, find?_eraseAll _ evicted, hcut.eq_nil_iff⟩

/-- An entry of size zero, two of the same time, of which the one with the lesser bytes was written
later, and one that would fit alone. -/
def graded : List Action :=
  [.operate (.put "😀" ⟨"x", 1, none⟩), .operate (.put "\uffff" ⟨"x", 1, none⟩),
    .operate (.put "b" ⟨"", 0, none⟩), .operate (.put "a" ⟨"xyz", 2, none⟩)]

/-- The plain algorithm removes the three that come before the last one. -/
theorem trim_eq_rescan_graded :
    (∀ step ∈ empty.steps (.perUnit 0 1) graded,
      (step.before.perform (.perUnit 0 1) step.operation).1 ≠ some .sizeOverflow) ∧
      (rescan (.perUnit 0 1) 3 (empty.run (.perUnit 0 1) graded).entries).map Prod.fst =
        some ["b", "\uffff", "😀"] := by
  have hfits : ∀ step ∈ empty.steps (.perUnit 0 1) graded,
      (step.before.perform (.perUnit 0 1) step.operation).1 ≠ some .sizeOverflow := by decide
  have htrim : ((empty.run (.perUnit 0 1) graded).trim 3).map Prod.fst =
      some ["b", "\uffff", "😀"] := by decide
  obtain ⟨evicted, kept, hkept, hrescan, -⟩ := trim_eq_rescan hfits 3
  rw [hkept] at htrim
  exact ⟨hfits, by rw [hrescan]; exact htrim⟩

end DurableCache.Store
