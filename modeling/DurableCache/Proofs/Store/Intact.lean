import DurableCache.Proofs.Store.Runs

/-!
# What abandoned operations leave behind

An abandoned operation leaves the store as it was exactly if one of its entries has no size, as
sizes are estimated before anything changes (`intact_perform_iff`). When the sum does not fit, the
entry that was to be replaced is lost, and the index keeps an age that belongs to no entry.
-/

namespace DurableCache.Store

variable {estimator : Estimator} {s next : Store}

/-- The index holds no age whose key is not stored. -/
def Indexed (s : Store) : Prop :=
  ∀ age, s.ages.contains age = true → s.contains age.key = true

/-- A store that looks as another one did, with an index of stored keys alone. -/
structure Intact (s next : Store) : Prop where
  entries : ∀ key, next.find? key = s.find? key
  size : next.size = s.size
  total : next.total = s.total
  indexed : next.Indexed

/-- The age of an entry that is to be written is indexed, but nothing is stored under its key. -/
structure Stranded (s : Store) (key : String) (entry : Entry) : Prop where
  absent : s.find? key = none
  aged : s.ages.contains ⟨entry.timestamp, key⟩ = true

/-- The entries that an operation is to write. -/
def Operation.entries : Operation → List (String × Entry)
  | .put key entry | .putIfNewer key entry => [(key, entry)]
  | .merge batch => batch
  | .remove _ | .clear | .retain _ | .evict _ => []

/-- Some entry that an operation is to write has no size. -/
def Operation.Unsized (estimator : Estimator) (operation : Operation) : Prop :=
  ∃ row ∈ operation.entries, estimator.size? row.2 = none

/-- The ages of a sound store are those of stored keys. -/
theorem Sound.indexed (h : s.Sound estimator) : s.Indexed := by
  intro age hage
  obtain ⟨_, hfind⟩ := Table.contains_eq_true_iff.mp hage
  obtain ⟨entry, hentry, -⟩ := Option.map_eq_some_iff.mp ((h.aged age).mp hfind)
  obtain ⟨slot, hslot, -⟩ := Option.map_eq_some_iff.mp hentry
  exact Table.contains_eq_true_iff.mpr ⟨slot, hslot⟩

/-- A write that stops halfway strands the age of its entry. -/
theorem stranded_halfWritten (s : Store) (key : String) (entry : Entry) :
    (s.halfWritten key entry).Stranded key entry where
  absent := by rw [halfWritten, find?_mark, find?_erase, if_pos rfl]
  aged := by
    rw [halfWritten, mark, Table.contains_insert]
    exact Or.inl rfl

/-- An index with a stranded age is not one of stored keys alone. -/
theorem Stranded.not_indexed {key : String} {entry : Entry} (h : s.Stranded key entry) :
    ¬ s.Indexed := by
  intro hindexed
  have hstored := hindexed _ h.aged
  obtain ⟨slot, hslot⟩ := Table.contains_eq_true_iff.mp hstored
  have habsent := h.absent
  simp [find?, hslot] at habsent

/-- A batch has sizes unless some entry of it has none. -/
theorem sizeAll?_eq_none_iff {batch : List (String × Entry)} :
    sizeAll? estimator batch = none ↔ ∃ row ∈ batch, estimator.size? row.2 = none := by
  induction batch with
  | nil => simp [sizeAll?]
  | cons row rest ih =>
    obtain ⟨key, entry⟩ := row
    simp only [List.mem_cons, exists_eq_or_imp, ← ih, sizeAll?]
    cases estimator.size? entry <;> cases sizeAll? estimator rest <;> simp

/-- The items of a sized batch are its entries. -/
theorem mem_of_sizeAll? {batch : List (String × Entry)} {sized : List Sized}
    (h : sizeAll? estimator batch = some sized) {item : Sized} (hitem : item ∈ sized) :
    (item.key, item.entry) ∈ batch := by
  induction batch generalizing sized with
  | nil =>
    cases h
    cases hitem
  | cons row rest ih =>
    obtain ⟨size, others, -, hothers, rfl⟩ := sizeAll?_cons h
    rcases List.mem_cons.mp hitem with rfl | hlater
    · exact List.mem_cons_self
    · exact List.mem_cons_of_mem _ (ih hothers hlater)

/-- What is left of a write of one entry that was abandoned. -/
theorem write_abandoned {key : String} {entry : Entry} {operation : Operation}
    (hentries : operation.entries = [(key, entry)])
    (hleft : next = if estimator.size? entry = none then s else s.halfWritten key entry) :
    (operation.Unsized estimator ∧ next = s) ∨
      (¬ operation.Unsized estimator ∧
        ∃ row ∈ operation.entries, ∃ t : Store, next = t.halfWritten row.1 row.2) := by
  unfold Operation.Unsized
  rw [hentries]
  by_cases hsize : estimator.size? entry = none
  · rw [if_pos hsize] at hleft
    exact Or.inl ⟨⟨_, List.mem_singleton_self _, hsize⟩, hleft⟩
  · rw [if_neg hsize] at hleft
    refine Or.inr ⟨?_, _, List.mem_singleton_self _, s, hleft⟩
    rintro ⟨row, hrow, hnone⟩
    rw [List.mem_singleton.mp hrow] at hnone
    exact hsize hnone

/-- What is left of a merge that was abandoned. -/
theorem merge_abandoned {batch : List (String × Entry)} {why : Abort}
    (h : s.merge estimator batch = (.error why, next)) :
    (Operation.Unsized estimator (.merge batch) ∧ next = s) ∨
      (¬ Operation.Unsized estimator (.merge batch) ∧
        ∃ row ∈ batch, ∃ t : Store, next = t.halfWritten row.1 row.2) := by
  rcases (merge_error h).2 with
    ⟨hnone, hleft⟩ | ⟨before, item, after, reached, t, hsized, -, hleft⟩
  · exact Or.inl ⟨sizeAll?_eq_none_iff.mp hnone, hleft⟩
  · have hitem := mem_of_sizeAll? hsized (List.mem_append_right before List.mem_cons_self)
    refine Or.inr ⟨?_, _, hitem, t, hleft⟩
    intro hunsized
    have hnone : sizeAll? estimator batch = none := sizeAll?_eq_none_iff.mpr hunsized
    rw [hnone] at hsized
    cases hsized

/-- An operation that is abandoned on an error leaves what the error leaves. -/
theorem eq_error_of_map {α : Type} {x : Except Abort α × Store} {why : Abort}
    (h : x.map abort? id = (some why, next)) : x = (.error why, next) := by
  obtain ⟨answer, left⟩ := x
  cases answer with
  | ok answer => cases h
  | error err =>
    cases h
    rfl

/-- An abandoned operation has changed nothing if one of its entries has no size, and otherwise it
has stopped halfway through one of them. -/
theorem perform_abandoned {operation : Operation}
    (h : s.perform estimator operation = (some .sizeOverflow, next)) :
    (operation.Unsized estimator ∧ next = s) ∨
      (¬ operation.Unsized estimator ∧
        ∃ row ∈ operation.entries, ∃ t : Store, next = t.halfWritten row.1 row.2) := by
  cases operation with
  | put key entry => exact write_abandoned rfl (put_error (eq_error_of_map h)).2
  | putIfNewer key entry => exact write_abandoned rfl (putIfNewer_error (eq_error_of_map h)).2
  | merge batch => exact merge_abandoned (eq_error_of_map h)
  | remove key => cases h
  | clear => cases h
  | retain keep => cases h
  | evict budget =>
    simp only [perform] at h
    split at h <;> cases h

/-- An abandoned operation leaves the store as it was, with an index of stored keys alone, exactly
if one of its entries has no size and the index was one of stored keys before. Otherwise, if all
its entries have sizes, the key of one of them is stored no longer and its age is stranded. -/
theorem intact_perform_iff {actions : List Action} {operation : Operation} {next : Store}
    (h : (empty.run estimator actions).perform estimator operation =
      (some .sizeOverflow, next)) :
    ((empty.run estimator actions).Intact next ↔
      operation.Unsized estimator ∧ (empty.run estimator actions).Indexed) ∧
      (¬ operation.Unsized estimator → ∃ row ∈ operation.entries, next.Stranded row.1 row.2) := by
  rcases perform_abandoned h with ⟨hunsized, rfl⟩ | ⟨hsized, row, hrow, t, rfl⟩
  · refine ⟨⟨fun hintact => ⟨hunsized, hintact.indexed⟩, fun hboth => ?_⟩, absurd hunsized⟩
    exact ⟨fun key => rfl, rfl, rfl, hboth.2⟩
  · have hstranded := stranded_halfWritten t row.1 row.2
    refine ⟨⟨fun hintact => ?_, fun hboth => absurd hboth.1 hsized⟩,
      fun _ => ⟨row, hrow, hstranded⟩⟩
    exact absurd hintact.indexed hstranded.not_indexed

/-- An estimator by which four units do not fit into a word. -/
def quarter : Estimator := .perUnit 0 (wordLimit / 4)

/-- An entry of one unit and an entry of two. -/
def filling : List Action :=
  [.operate (.put "a" ⟨"x", 1, none⟩), .operate (.put "b" ⟨"yy", 2, none⟩)]

/-- An entry of four units has no size, and nothing changes. -/
theorem intact_perform_unsized :
    ((empty.run quarter filling).perform quarter (.put "a" ⟨"xxxx", 3, none⟩)).1 =
        some .sizeOverflow ∧
      (empty.run quarter filling).Intact
        ((empty.run quarter filling).perform quarter (.put "a" ⟨"xxxx", 3, none⟩)).2 := by
  have habandoned : ((empty.run quarter filling).perform quarter
      (.put "a" ⟨"xxxx", 3, none⟩)).1 = some .sizeOverflow := by decide
  have hsound : (empty.run quarter filling).Sound quarter := (sound_empty.run (by decide)).2
  have hunsized : Operation.Unsized quarter (.put "a" ⟨"xxxx", 3, none⟩) :=
    ⟨("a", ⟨"xxxx", 3, none⟩), List.mem_singleton_self _, by decide⟩
  obtain ⟨hiff, -⟩ := intact_perform_iff (Prod.ext habandoned rfl)
  exact ⟨habandoned, hiff.mpr ⟨hunsized, hsound.indexed⟩⟩

/-- An entry of two units in place of the first one would make the sum four, and the first one is
lost. -/
theorem not_intact_perform_replacing :
    ¬ ∀ (estimator : Estimator) (actions : List Action) (operation : Operation),
      ((empty.run estimator actions).perform estimator operation).1 = some .sizeOverflow →
      (empty.run estimator actions).Intact
        ((empty.run estimator actions).perform estimator operation).2 := by
  intro hintact
  have habandoned : ((empty.run quarter filling).perform quarter
      (.put "a" ⟨"xx", 3, none⟩)).1 = some .sizeOverflow := by decide
  have hkept := (hintact quarter filling _ habandoned).entries "a"
  have hlost : ((empty.run quarter filling).perform quarter
      (.put "a" ⟨"xx", 3, none⟩)).2.find? "a" = none := by decide
  have hheld : (empty.run quarter filling).find? "a" = some ⟨"x", 1, none⟩ := by decide
  rw [hlost, hheld] at hkept
  cases hkept

end DurableCache.Store
