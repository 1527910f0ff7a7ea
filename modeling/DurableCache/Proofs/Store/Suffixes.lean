import DurableCache.Proofs.Store.Rescan
import Mathlib.Data.List.Nodup

/-!
# Trims after every write

Writes at ascending times come one after the other, and the store is trimmed after each of them. No
trim can take back what an earlier one has evicted. Still the store holds the longest suffix of the
writes that fits into the budget (`KeepsNewest.write`), since what does not fit together with the
writes behind it does not fit together with more of them either (`ShortestCut.concat`).
-/

namespace DurableCache.Store

variable {estimator : Estimator} {s written : Store} {budget : Nat} {key : String} {entry : Entry}
variable {order rows : List (String × Entry)} {row : String × Entry} {evicted others : List String}

/-! ### Cuts of a growing list -/

/-- One row more adds its size. -/
theorem sumSizes?_concat {sum size : Nat} (hsum : sumSizes? estimator rows = some sum)
    (hsize : estimator.size? row.2 = some size) :
    sumSizes? estimator (rows ++ [row]) = some (size + sum) := by
  rw [sumSizes?_perm (List.perm_append_singleton row rows), sumSizes?, hsize, hsum]

/-- No more rows leave than there are. -/
theorem ShortestCut.length_le (h : ShortestCut estimator budget order evicted) :
    evicted.length ≤ order.length := by
  have hlength := congrArg List.length h.first
  rw [List.length_map, List.length_take] at hlength
  omega

/-- If one cut is shorter, the rows that it leaves would not fit according to the other one. -/
theorem ShortestCut.le_length (h : ShortestCut estimator budget order evicted)
    (hother : ShortestCut estimator budget order others) : others.length ≤ evicted.length := by
  refine Nat.le_of_not_lt fun hlt => ?_
  obtain ⟨sum, hsum, hfits⟩ := h.enough
  obtain ⟨same, hsame, hover⟩ := hother.fewest evicted.length hlt
  obtain rfl := Option.some.inj (hsum.symm.trans hsame)
  omega

/-- There is one shortest cut. -/
theorem ShortestCut.unique (h : ShortestCut estimator budget order evicted)
    (hother : ShortestCut estimator budget order others) : evicted = others := by
  have hlength := Nat.le_antisymm (hother.le_length h) (h.le_length hother)
  rw [h.first, hother.first, hlength]

/-- What leaves a list and then, after one row more, the rest of it, is what leaves the longer list
at once. -/
theorem ShortestCut.concat (h : ShortestCut estimator budget rows evicted) {size : Nat}
    (hsize : estimator.size? row.2 = some size)
    (hmore : ShortestCut estimator budget (rows.drop evicted.length ++ [row]) others) :
    ShortestCut estimator budget (rows ++ [row]) (evicted ++ others) := by
  have hle := h.length_le
  have hdrop : (rows ++ [row]).drop evicted.length = rows.drop evicted.length ++ [row] :=
    List.drop_append_of_le_length hle
  have hlater (count : Nat) : (rows ++ [row]).drop (evicted.length + count) =
      (rows.drop evicted.length ++ [row]).drop count := by
    rw [← List.drop_drop, hdrop]
  refine ⟨?_, ?_, fun count hcount => ?_⟩
  · rw [List.length_append, List.take_add, List.map_append, hdrop, ← hmore.first,
      List.take_append_of_le_length hle, ← h.first]
  · rw [List.length_append, hlater]
    exact hmore.enough
  · rw [List.length_append] at hcount
    rcases Nat.lt_or_ge count evicted.length with hfewer | hmany
    · -- These rows did not fit before there was one more.
      obtain ⟨sum, hsum, hover⟩ := h.fewest count hfewer
      have hcut : (rows ++ [row]).drop count = rows.drop count ++ [row] :=
        List.drop_append_of_le_length (by omega)
      rw [hcut]
      exact ⟨size + sum, sumSizes?_concat hsum hsize, by omega⟩
    · obtain ⟨rest, rfl⟩ := Nat.exists_eq_add_of_le hmany
      rw [hlater]
      exact hmore.fewest rest (by omega)

/-! ### Stores that hold the rows of a list -/

/-- A store holds the rows of a list and nothing else. -/
def HoldsRows (s : Store) (rows : List (String × Entry)) : Prop :=
  ∀ key entry, s.find? key = some entry ↔ (key, entry) ∈ rows

/-- The rows of such a list are the entries in another order. -/
theorem HoldsRows.perm (h : s.HoldsRows rows) (hkeys : (rows.map Prod.fst).Nodup) :
    rows.Perm s.entries.rows := by
  have hrows : s.entries.rows.Nodup := List.Nodup.of_map Prod.fst s.entries.keys_nodup
  refine (List.perm_ext_iff_of_nodup (List.Nodup.of_map Prod.fst hkeys) hrows).mpr fun row => ?_
  rw [← h row.1 row.2, ← find?_entries]
  exact Table.mem_rows_iff.symm

/-- The put of a new key adds a row. -/
theorem HoldsRows.put (h : s.HoldsRows rows) (hnew : key ∉ rows.map Prod.fst)
    {previous : Option Entry}
    (hput : s.put estimator key entry = (.ok previous, written)) :
    written.HoldsRows (rows ++ [(key, entry)]) := by
  intro other found
  rw [find?_put_ok hput, List.mem_append, List.mem_singleton, Prod.mk.injEq]
  by_cases hother : other = key
  · subst hother
    have habsent : (other, found) ∉ rows := fun hmem => hnew (List.mem_map_of_mem hmem)
    simp [habsent, eq_comm]
  · simp [hother, h other found]

/-- The rows behind a cut are those whose keys are not cut off. -/
theorem ShortestCut.mem_drop_iff (h : ShortestCut estimator budget order evicted)
    (hkeys : (order.map Prod.fst).Nodup) :
    row ∈ order.drop evicted.length ↔ row ∈ order ∧ row.1 ∉ evicted := by
  have hparts : order.take evicted.length ++ order.drop evicted.length = order :=
    List.take_append_drop _ _
  rw [← hparts, List.map_append] at hkeys
  obtain ⟨-, -, hapart⟩ := List.nodup_append.mp hkeys
  rw [← h.first] at hapart
  constructor
  · intro hmem
    refine ⟨List.mem_of_mem_drop hmem, fun hcut => ?_⟩
    exact hapart row.1 hcut row.1 (List.mem_map_of_mem hmem) rfl
  · rintro ⟨hmem, hstays⟩
    rw [← hparts, List.mem_append] at hmem
    refine hmem.resolve_left fun hcut => hstays ?_
    rw [h.first]
    exact List.mem_map_of_mem hcut

/-- A trim of a store whose rows are known in the order of eviction cuts the first of them off. -/
theorem HoldsRows.trim (h : s.HoldsRows order) (hs : s.Sound estimator)
    (hkeys : (order.map Prod.fst).Nodup) (hsorted : order.Pairwise Precedes)
    (htrim : s.trim budget = some (evicted, s.eraseAll evicted)) :
    ShortestCut estimator budget order evicted ∧
      (s.eraseAll evicted).HoldsRows (order.drop evicted.length) := by
  have hcut := shortestCut_rescan (h.perm hkeys) hsorted (hs.rescan_trim htrim)
  refine ⟨hcut, fun key entry => ?_⟩
  rw [hcut.mem_drop_iff hkeys, ← h key entry, find?_eraseAll]
  by_cases hevicted : key ∈ evicted <;> simp [hevicted]

/-! ### A trim after each write -/

/-- Of the writes in a list the last ones are held, as many as fit into the budget, and the keys of
the others have been evicted. -/
structure KeepsNewest (estimator : Estimator) (budget : Nat) (writes : List (String × Entry))
    (evicted : List String) (s : Store) : Prop where
  cut : ShortestCut estimator budget writes evicted
  held : s.HoldsRows (writes.drop evicted.length)

/-- Before any write nothing is held. -/
theorem keepsNewest_nil (hempty : s.HoldsRows []) : KeepsNewest estimator budget [] [] s where
  cut := shortestCut_nil rfl (Nat.zero_le budget)
  held := hempty

/-- A write that is later than the others, and the trim behind it. -/
theorem KeepsNewest.write (h : KeepsNewest estimator budget rows evicted s)
    (hs : s.Sound estimator) (hkeys : ((rows ++ [(key, entry)]).map Prod.fst).Nodup)
    (hsorted : (rows ++ [(key, entry)]).Pairwise Precedes) {previous : Option Entry}
    (hput : s.put estimator key entry = (.ok previous, written))
    (htrim : written.trim budget = some (others, written.eraseAll others)) :
    KeepsNewest estimator budget (rows ++ [(key, entry)]) (evicted ++ others)
      (written.eraseAll others) := by
  have hsub : (rows.drop evicted.length ++ [(key, entry)]).Sublist (rows ++ [(key, entry)]) :=
    (List.drop_sublist _ _).append_right _
  obtain ⟨size, hsize, -⟩ := put_ok_iff.mp ⟨_, _, hput⟩
  have hnew : key ∉ (rows.drop evicted.length).map Prod.fst := by
    have hlast := hkeys.sublist (hsub.map Prod.fst)
    rw [List.map_append] at hlast
    exact fun hmem => (List.nodup_append.mp hlast).2.2 key hmem key (by simp) rfl
  obtain ⟨hcut, hheld⟩ := (h.held.put hnew hput).trim (hs.put hput)
    (hkeys.sublist (hsub.map Prod.fst)) (hsorted.sublist hsub) htrim
  refine ⟨h.cut.concat hsize hcut, ?_⟩
  have hdrop : (rows ++ [(key, entry)]).drop (evicted ++ others).length =
      (rows.drop evicted.length ++ [(key, entry)]).drop others.length := by
    rw [List.length_append, ← List.drop_drop, List.drop_append_of_le_length h.cut.length_le]
  rwa [hdrop]

end DurableCache.Store
