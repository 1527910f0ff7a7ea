import DurableCache.Proofs.Store.Abandoned
import DurableCache.Proofs.Store.Merge

/-!
# Batches entry by entry

A merge does what its entries do that are put one by one, each unless its key holds a newer write
(`merge_one_by_one`). So a key ends up with the latest of its entries: the last one among those that
no other is newer than. What a batch leaves is left as it is by the same batch again, and if the
times of different entries differ it does not depend on the order of the batch.
-/

namespace DurableCache.Store

/-! ### The latest of some entries -/

/-- An entry is the latest of a list if no entry before it is newer and all behind it are older. -/
def IsLatest (entries : List Entry) (entry : Entry) : Prop :=
  ∃ before after, entries = before ++ entry :: after ∧
    (∀ other ∈ before, other.timestamp ≤ entry.timestamp) ∧
    ∀ other ∈ after, other.timestamp < entry.timestamp

variable {first second latest : Entry} {front rest entries others : List Entry}

theorem IsLatest.mem (h : IsLatest entries latest) : latest ∈ entries := by
  obtain ⟨before, after, rfl, -, -⟩ := h
  exact List.mem_append_right _ List.mem_cons_self

/-- No entry is newer than the latest. -/
theorem IsLatest.le (h : IsLatest entries latest) :
    ∀ other ∈ entries, other.timestamp ≤ latest.timestamp := by
  obtain ⟨before, after, rfl, hbefore, hafter⟩ := h
  intro other hother
  rcases List.mem_append.mp hother with hother | hother
  · exact hbefore other hother
  · rcases List.mem_cons.mp hother with rfl | hother
    · exact UInt64.le_refl _
    · exact UInt64.le_of_lt (hafter other hother)

/-- A single entry is the latest. -/
theorem isLatest_singleton (entry : Entry) : IsLatest [entry] entry :=
  ⟨[], [], rfl, by simp, by simp⟩

/-- An entry in front of an older one hides it. -/
theorem IsLatest.cons_older (hlt : second.timestamp < first.timestamp)
    (h : IsLatest (first :: rest) latest) : IsLatest (first :: second :: rest) latest := by
  have hfirst := h.le first List.mem_cons_self
  obtain ⟨before, after, heq, hbefore, hafter⟩ := h
  cases before with
  | nil =>
    obtain ⟨rfl, rfl⟩ := List.cons.inj heq
    exact ⟨[], second :: rest, rfl, by simp, List.forall_mem_cons.mpr ⟨hlt, hafter⟩⟩
  | cons other before =>
    obtain ⟨rfl, rfl⟩ := List.cons.inj heq
    obtain ⟨-, hbefore⟩ := List.forall_mem_cons.mp hbefore
    have hsecond := UInt64.le_of_lt (UInt64.lt_of_lt_of_le hlt hfirst)
    exact ⟨first :: second :: before, after, rfl,
      List.forall_mem_cons.mpr ⟨hfirst, List.forall_mem_cons.mpr ⟨hsecond, hbefore⟩⟩, hafter⟩

/-- An entry that is not older hides the one in front of it. -/
theorem IsLatest.cons_newer (hle : first.timestamp ≤ second.timestamp)
    (h : IsLatest (second :: rest) latest) : IsLatest (first :: second :: rest) latest := by
  have hfirst := UInt64.le_trans hle (h.le second List.mem_cons_self)
  obtain ⟨before, after, heq, hbefore, hafter⟩ := h
  rw [heq]
  exact ⟨first :: before, after, rfl, List.forall_mem_cons.mpr ⟨hfirst, hbefore⟩, hafter⟩

/-- Of two entries that are both the latest from the first one on, neither stands behind the
other. -/
private theorem eq_of_split {mid after behind : List Entry}
    (hmid : ∀ other ∈ mid, other.timestamp ≤ second.timestamp)
    (hafter : ∀ other ∈ after, other.timestamp < first.timestamp)
    (heq : first :: after = mid ++ second :: behind) : first = second := by
  cases mid with
  | nil => exact (List.cons.inj heq).1
  | cons other mid =>
    obtain ⟨rfl, rfl⟩ := List.cons.inj heq
    exact absurd (hafter second (by simp)) (UInt64.not_lt.mpr (hmid first List.mem_cons_self))

/-- There is but one latest entry. -/
theorem IsLatest.unique (h : IsLatest entries first) (h' : IsLatest entries second) :
    first = second := by
  obtain ⟨before, after, rfl, hbefore, hafter⟩ := h
  obtain ⟨before', after', heq, hbefore', hafter'⟩ := h'
  rcases List.append_eq_append_iff.mp heq with ⟨mid, rfl, hmid⟩ | ⟨mid, rfl, hmid⟩
  · exact eq_of_split (List.forall_mem_append.mp hbefore').2 hafter hmid
  · exact (eq_of_split (List.forall_mem_append.mp hbefore).2 hafter' hmid).symm

/-- The latest entry may stand for all that came before the rest. -/
theorem IsLatest.cons_of_append (h : IsLatest (front ++ rest) latest) :
    IsLatest (latest :: rest) latest := by
  obtain ⟨before, after, heq, hbefore, hafter⟩ := h
  rcases List.append_eq_append_iff.mp heq with ⟨mid, rfl, rfl⟩ | ⟨mid, rfl, hmid⟩
  · obtain ⟨-, hmid⟩ := List.forall_mem_append.mp hbefore
    exact ⟨latest :: mid, after, rfl, List.forall_mem_cons.mpr ⟨UInt64.le_refl _, hmid⟩, hafter⟩
  · cases mid with
    | nil =>
      obtain rfl : latest :: after = rest := hmid
      exact ⟨[latest], after, rfl, by simp, hafter⟩
    | cons other mid =>
      obtain ⟨rfl, rfl⟩ := List.cons.inj hmid
      exact ⟨[], rest, rfl, by simp, (List.forall_mem_append.mp hafter).2⟩

/-- If entries of the same time are the same, the latest does not depend on the order. -/
theorem IsLatest.eq_of_perm (hperm : others.Perm entries)
    (hsame : ∀ a ∈ entries, ∀ b ∈ entries, a.timestamp = b.timestamp → a = b)
    (h : IsLatest others first) (h' : IsLatest entries second) : first = second := by
  have hfirst := hperm.subset h.mem
  have hsecond := hperm.symm.subset h'.mem
  exact hsame first hfirst second h'.mem
    (UInt64.le_antisymm (h'.le first hfirst) (h.le second hsecond))

/-- A key holds the latest of some entries, or nothing if there are none. -/
def HoldsLatest (entries : List Entry) : Option Entry → Prop
  | none => entries = []
  | some entry => IsLatest entries entry

/-- A key may hold a newer entry in front of an older one. -/
theorem HoldsLatest.cons_older {held : Option Entry} (hlt : second.timestamp < first.timestamp)
    (h : HoldsLatest (first :: rest) held) : HoldsLatest (first :: second :: rest) held := by
  cases held with
  | none => cases h
  | some entry => exact IsLatest.cons_older hlt h

/-- A key may hold an entry behind one that is not newer. -/
theorem HoldsLatest.cons_newer {held : Option Entry} (hle : first.timestamp ≤ second.timestamp)
    (h : HoldsLatest (second :: rest) held) : HoldsLatest (first :: second :: rest) held := by
  cases held with
  | none => cases h
  | some entry => exact IsLatest.cons_newer hle h

/-- A key that holds the latest of some entries holds no other one. -/
theorem HoldsLatest.eq_some_iff {held : Option Entry} (h : HoldsLatest entries held) :
    held = some latest ↔ IsLatest entries latest := by
  cases held with
  | none =>
    obtain rfl : entries = [] := h
    exact ⟨(fun hsome => by cases hsome), fun hlatest => absurd hlatest.mem List.not_mem_nil⟩
  | some entry =>
    have hentry : IsLatest entries entry := h
    constructor
    · rintro ⟨⟩
      exact hentry
    · intro hlatest
      rw [hentry.unique hlatest]

/-- Without entries a key holds nothing. -/
theorem HoldsLatest.eq_none {held : Option Entry} (h : HoldsLatest [] held) : held = none := by
  cases held with
  | none => rfl
  | some entry => exact absurd (IsLatest.mem h) List.not_mem_nil

/-- If entries of the same time are the same, a key holds the same in any order of them. -/
theorem HoldsLatest.eq_of_perm {held other : Option Entry} (hperm : others.Perm entries)
    (hsame : ∀ a ∈ entries, ∀ b ∈ entries, a.timestamp = b.timestamp → a = b)
    (h : HoldsLatest others other) (h' : HoldsLatest entries held) : other = held := by
  cases other with
  | none =>
    obtain rfl : others = [] := h
    obtain rfl := hperm.nil_eq
    exact h'.eq_none.symm
  | some first =>
    cases held with
    | none =>
      obtain rfl : entries = [] := h'
      obtain rfl := hperm.eq_nil
      exact absurd (IsLatest.mem h) List.not_mem_nil
    | some second => rw [IsLatest.eq_of_perm hperm hsame h h']

/-! ### Entries that are put one by one -/

/-- The entries that compete for a key: the one that is held and those of a batch, in order. -/
def contenders (s : Store) (batch : List (String × Entry)) (key : String) : List Entry :=
  (s.find? key).toList ++ (batch.filter fun row => row.1 = key).map Prod.snd

/-- Puts the entries of a batch by calls of their own, each unless its key holds a newer write, and
answers what these calls answer. -/
def putEach (estimator : Estimator) (s : Store) :
    List (String × Entry) → List (Except Abort Bool) × Store
  | [] => ([], s)
  | (key, entry) :: rest =>
    let (answer, next) := s.putIfNewer estimator key entry
    let (answers, last) := next.putEach estimator rest
    (answer :: answers, last)

/-- None of these calls is abandoned because a size or the sum does not fit. -/
def FitsEach (estimator : Estimator) (s : Store) (batch : List (String × Entry)) : Prop :=
  ∀ answer ∈ (s.putEach estimator batch).1, abort? answer ≠ some .sizeOverflow

instance (estimator : Estimator) (s : Store) (batch : List (String × Entry)) :
    Decidable (s.FitsEach estimator batch) :=
  inferInstanceAs (Decidable (∀ answer ∈ (s.putEach estimator batch).1, _))

/-- The number of calls that wrote their entry. -/
def storedEach (answers : List (Except Abort Bool)) : Nat :=
  answers.countP fun answer => answer.toOption = some true

variable {estimator : Estimator} {s next : Store} {key : String} {entry : Entry}
variable {batch shuffled : List (String × Entry)}

/-- If no call is abandoned the first one answers, and the others are made on what it leaves. -/
theorem fitsEach_cons (h : s.FitsEach estimator ((key, entry) :: batch)) :
    ∃ stored next, s.putIfNewer estimator key entry = (.ok stored, next) ∧
      next.FitsEach estimator batch := by
  unfold FitsEach at h
  rw [putEach] at h
  cases hput : s.putIfNewer estimator key entry with
  | mk answer next =>
    rw [hput] at h
    obtain ⟨hfirst, hrest⟩ := List.forall_mem_cons.mp h
    cases answer with
    | ok stored => exact ⟨stored, next, rfl, hrest⟩
    | error why => exact absurd (congrArg some (putIfNewer_error hput).1) hfirst

/-- A call that answers is a write of an entry that has a size. -/
theorem putIfNewer_ok {stored : Bool}
    (h : s.putIfNewer estimator key entry = (.ok stored, next)) :
    ∃ size, estimator.size? entry = some size ∧
      s.insertIfNewer key entry size = (.ok stored, next) := by
  unfold putIfNewer at h
  split at h
  · cases h
  · rename_i size hsize
    exact ⟨size, hsize, h⟩

/-- A batch whose calls all answer has a size for each entry, and is written like them. -/
theorem insertAll_of_fitsEach (h : s.FitsEach estimator batch) :
    ∃ sized, sizeAll? estimator batch = some sized ∧ ∀ written,
      s.insertAll written sized = (.ok (written + storedEach (s.putEach estimator batch).1),
        (s.putEach estimator batch).2) := by
  induction batch generalizing s with
  | nil => exact ⟨[], rfl, fun written => rfl⟩
  | cons row rest ih =>
    obtain ⟨key, entry⟩ := row
    obtain ⟨stored, next, hput, hnext⟩ := fitsEach_cons h
    obtain ⟨size, hsize, hinsert⟩ := putIfNewer_ok hput
    obtain ⟨others, hothers, hrest⟩ := ih hnext
    refine ⟨⟨key, entry, size⟩ :: others, by simp [sizeAll?, hsize, hothers], fun written => ?_⟩
    have hcount (answers : List (Except Abort Bool)) :
        storedEach (.ok stored :: answers) = storedEach answers + stored.toNat := by
      cases stored <;> simp [storedEach, Except.toOption]
    simp only [insertAll, putEach, hput, hinsert, hcount]
    cases stored with
    | true => simp only [hrest, Bool.toNat_true, Nat.add_assoc, Nat.add_comm 1]
    | false => simp only [hrest, Bool.toNat_false, Nat.add_zero]

/-- A merge does what its entries do that are put one by one. -/
theorem merge_of_fitsEach (h : s.FitsEach estimator batch) :
    s.merge estimator batch =
      (.ok (storedEach (s.putEach estimator batch).1), (s.putEach estimator batch).2) := by
  obtain ⟨sized, hsized, hwrite⟩ := insertAll_of_fitsEach h
  rw [merge, hsized]
  simp only [hwrite, Nat.zero_add]

/-- If a merge is not abandoned, none of the calls is. -/
theorem fitsEach_of_insertAll {sized : List Sized} {written stored : Nat} {merged : Store}
    (hsized : sizeAll? estimator batch = some sized)
    (hwrite : s.insertAll written sized = (.ok stored, merged)) : s.FitsEach estimator batch := by
  induction batch generalizing s sized written with
  | nil => exact fun answer hmem => by cases hmem
  | cons row rest ih =>
    obtain ⟨key, entry⟩ := row
    obtain ⟨size, others, hsize, hothers, rfl⟩ := sizeAll?_cons hsized
    obtain ⟨one, next, hone, hrest⟩ := insertAll_cons hwrite
    have hput : s.putIfNewer estimator key entry = (.ok one, next) := by
      rw [putIfNewer, hsize]
      exact hone
    have hlater := ih hothers hrest
    unfold FitsEach at hlater ⊢
    rw [putEach, hput]
    exact List.forall_mem_cons.mpr ⟨(fun h => by cases h), hlater⟩

/-- A merge is not abandoned exactly if none of the calls is. -/
theorem fitsEach_iff :
    s.FitsEach estimator batch ↔ ∃ stored, (s.merge estimator batch).1 = .ok stored := by
  constructor
  · intro h
    exact ⟨_, congrArg Prod.fst (merge_of_fitsEach h)⟩
  · rintro ⟨stored, hstored⟩
    unfold merge at hstored
    cases hsized : sizeAll? estimator batch with
    | none =>
      rw [hsized] at hstored
      cases hstored
    | some sized =>
      rw [hsized] at hstored
      exact fitsEach_of_insertAll hsized (Prod.ext hstored rfl)

/-! ### What a batch leaves -/

/-- The first entry of a batch is a contender for its key. -/
theorem contenders_cons_self (s : Store) (key : String) (entry : Entry)
    (batch : List (String × Entry)) :
    s.contenders ((key, entry) :: batch) key =
      (s.find? key).toList ++ entry :: (batch.filter fun row => row.1 = key).map Prod.snd := by
  simp [contenders]

/-- The first entry of a batch is no contender for another key. -/
theorem contenders_cons_of_ne {other : String} (hother : other ≠ key)
    (hfind : next.find? other = s.find? other) (entry : Entry) :
    s.contenders ((key, entry) :: batch) other = next.contenders batch other := by
  simp [contenders, hfind, Ne.symm hother]

/-- After a batch a key holds the latest of its contenders. -/
theorem holdsLatest_putEach (h : s.FitsEach estimator batch) (key : String) :
    HoldsLatest (s.contenders batch key) ((s.putEach estimator batch).2.find? key) := by
  induction batch generalizing s with
  | nil =>
    cases hfind : s.find? key with
    | none => simp [putEach, contenders, hfind, HoldsLatest]
    | some entry => simpa [putEach, contenders, hfind, HoldsLatest] using isLatest_singleton entry
  | cons row rest ih =>
    obtain ⟨k, entry⟩ := row
    obtain ⟨stored, next, hput, hnext⟩ := fitsEach_cons h
    obtain ⟨size, hsize, hinsert⟩ := putIfNewer_ok hput
    have hlatest := ih hnext
    have hlast :
        (s.putEach estimator ((k, entry) :: rest)).2 = (next.putEach estimator rest).2 := by
      rw [putEach, hput]
    rw [hlast]
    by_cases hkey : key = k
    · subst hkey
      rw [contenders_cons_self]
      unfold contenders at hlatest
      rcases insertIfNewer_ok hinsert with ⟨hnewer, -, rfl⟩ | ⟨hnewer, -, previous, hwrite⟩
      · obtain ⟨held, hheld, hlt⟩ := holdsNewer_iff.mp hnewer
        rw [hheld] at hlatest ⊢
        exact hlatest.cons_older hlt
      · rw [find?_insert_ok hwrite, if_pos rfl] at hlatest
        cases hheld : s.find? key with
        | none => exact hlatest
        | some held =>
          refine hlatest.cons_newer (UInt64.not_lt.mp fun hlt => ?_)
          rw [holdsNewer_iff.mpr ⟨held, hheld, hlt⟩] at hnewer
          cases hnewer
    · have hfind : next.find? key = s.find? key := by simp [find?_insertIfNewer hinsert, hkey]
      rwa [contenders_cons_of_ne hkey hfind entry]

/-- A key that holds an entry holds one after a batch that is not older. -/
theorem exists_newer_putEach (h : s.FitsEach estimator batch) {held : Entry}
    (hheld : s.find? key = some held) :
    ∃ entry, (s.putEach estimator batch).2.find? key = some entry ∧
      held.timestamp ≤ entry.timestamp := by
  have hlatest := holdsLatest_putEach h key
  have hcontends : held ∈ s.contenders batch key := by simp [contenders, hheld]
  cases hentry : (s.putEach estimator batch).2.find? key with
  | none =>
    rw [hentry] at hlatest
    have hnone : s.contenders batch key = [] := hlatest
    rw [hnone] at hcontends
    cases hcontends
  | some entry => exact ⟨entry, rfl, (hlatest.eq_some_iff.mp hentry).le held hcontends⟩

/-- A key that is not in a batch keeps its entry. -/
theorem find?_putEach_of_absent (h : s.FitsEach estimator batch)
    (habsent : ∀ row ∈ batch, row.1 ≠ key) :
    (s.putEach estimator batch).2.find? key = s.find? key := by
  have hlatest := holdsLatest_putEach h key
  have hnone : (batch.filter fun row => row.1 = key) = [] :=
    List.filter_eq_nil_iff.mpr fun row hrow => by simpa using habsent row hrow
  rw [contenders, hnone, List.map_nil, List.append_nil] at hlatest
  cases hheld : s.find? key with
  | none =>
    rw [hheld] at hlatest
    exact hlatest.eq_none
  | some entry =>
    rw [hheld] at hlatest
    exact hlatest.eq_some_iff.mpr (isLatest_singleton entry)

/-- A batch that is put leaves a sound store sound. -/
theorem Sound.putEach (hs : s.Sound estimator) (h : s.FitsEach estimator batch) :
    (s.putEach estimator batch).2.Sound estimator :=
  hs.merge (merge_of_fitsEach h)

/-- The same batch again leaves every entry as it is. -/
theorem putEach_again (h : s.FitsEach estimator batch)
    (hagain : (s.putEach estimator batch).2.FitsEach estimator batch) (key : String) :
    ((s.putEach estimator batch).2.putEach estimator batch).2.find? key =
      (s.putEach estimator batch).2.find? key := by
  have hfirst := holdsLatest_putEach h key
  have hlast := holdsLatest_putEach hagain key
  unfold contenders at hlast
  cases hheld : (s.putEach estimator batch).2.find? key with
  | none =>
    rw [hheld] at hfirst
    obtain ⟨-, hempty⟩ := List.append_eq_nil_iff.mp hfirst
    rw [hheld, hempty] at hlast
    exact hlast.eq_none
  | some entry =>
    rw [hheld] at hfirst hlast
    exact hlast.eq_some_iff.mpr (IsLatest.cons_of_append hfirst)

/-- Each key has the same contenders in another order. -/
theorem contenders_perm (hperm : shuffled.Perm batch) (s : Store) (key : String) :
    (s.contenders shuffled key).Perm (s.contenders batch key) :=
  ((hperm.filter _).map Prod.snd).append_left _

/-- Putting the entries of a batch one by one, each unless its key holds a newer write, comes to
what a merge comes to: the same store, and the number of calls that wrote their entry. A key ends up
with the latest of the entry that it held and those of the batch, so it never goes back in time, and
a key that is not in the batch keeps its entry. The same batch again changes no entry. If different
entries for one key have different times, the batch may be merged in any order. -/
theorem merge_one_by_one {answers : List (Except Abort Bool)} {last : Store}
    (heach : s.putEach estimator batch = (answers, last))
    (hfits : ∀ answer ∈ answers, abort? answer ≠ some .sizeOverflow) :
    s.merge estimator batch = (.ok (storedEach answers), last) ∧
      (∀ key entry, last.find? key = some entry ↔ IsLatest (s.contenders batch key) entry) ∧
      (∀ key held, s.find? key = some held →
        ∃ entry, last.find? key = some entry ∧ held.timestamp ≤ entry.timestamp) ∧
      (∀ key, (∀ row ∈ batch, row.1 ≠ key) → last.find? key = s.find? key) ∧
      (∀ stored again, last.merge estimator batch = (.ok stored, again) →
        (∀ key, again.find? key = last.find? key) ∧ (s.Sound estimator → again = last)) ∧
      ∀ shuffled stored other, shuffled.Perm batch →
        s.merge estimator shuffled = (.ok stored, other) →
        (∀ key, ∀ a ∈ s.contenders batch key, ∀ b ∈ s.contenders batch key,
          a.timestamp = b.timestamp → a = b) →
        (∀ key, other.find? key = last.find? key) ∧ (s.Sound estimator → other = last) := by
  have hanswers : (s.putEach estimator batch).1 = answers := congrArg Prod.fst heach
  obtain rfl : (s.putEach estimator batch).2 = last := congrArg Prod.snd heach
  have hall : s.FitsEach estimator batch := by
    unfold FitsEach
    rwa [hanswers]
  have hlatest (key : String) := holdsLatest_putEach hall key
  have hmerged := merge_of_fitsEach hall
  refine ⟨hanswers ▸ hmerged, fun key entry => (hlatest key).eq_some_iff,
    fun key held => exists_newer_putEach hall, fun key => find?_putEach_of_absent hall,
    fun stored again hagain => ?_, fun shuffled stored other hperm hother hsame => ?_⟩
  · have hfitsAgain : (s.putEach estimator batch).2.FitsEach estimator batch :=
      fitsEach_iff.mpr ⟨stored, congrArg Prod.fst hagain⟩
    obtain rfl : _ = again := congrArg Prod.snd ((merge_of_fitsEach hfitsAgain).symm.trans hagain)
    have hentries := putEach_again hall hfitsAgain
    exact ⟨hentries, fun hs => ((hs.putEach hall).putEach hfitsAgain).ext_find? (hs.putEach hall)
      hentries⟩
  · have hfitsOther : s.FitsEach estimator shuffled :=
      fitsEach_iff.mpr ⟨stored, congrArg Prod.fst hother⟩
    obtain rfl : _ = other := congrArg Prod.snd ((merge_of_fitsEach hfitsOther).symm.trans hother)
    have hentries (key : String) : (s.putEach estimator shuffled).2.find? key =
        (s.putEach estimator batch).2.find? key :=
      HoldsLatest.eq_of_perm (contenders_perm hperm s key) (hsame key)
        (holdsLatest_putEach hfitsOther key) (hlatest key)
    exact ⟨hentries, fun hs => (hs.putEach hfitsOther).ext_find? (hs.putEach hall) hentries⟩

/-- A store with one entry. -/
def single : Store := (empty.put .standard "a" ⟨"held", 5, none⟩).2

/-- A batch with an entry that is too old, and three for one key of which two have the same time. -/
def rivals : List (String × Entry) :=
  [("b", ⟨"x", 1, none⟩), ("a", ⟨"old", 4, none⟩), ("b", ⟨"y", 2, none⟩), ("b", ⟨"z", 2, some 7⟩)]

/-- Of the two that have the same time the second one stays. The entry that is held stays too. -/
theorem merge_one_by_one_rivals :
    (single.putEach .standard rivals).1.map Except.toOption =
        [some true, some false, some true, some true] ∧
      (single.merge .standard rivals).1.toOption = some 3 ∧
      (single.merge .standard rivals).2.find? "b" = some ⟨"z", 2, some 7⟩ ∧
      ((single.merge .standard rivals).2.merge .standard rivals).2.find? "a" =
        some ⟨"held", 5, none⟩ := by
  have hfits : ∀ answer ∈ (single.putEach .standard rivals).1,
      abort? answer ≠ some .sizeOverflow := by decide
  obtain ⟨hmerge, hlatest, -, -, hagain, -⟩ := merge_one_by_one rfl hfits
  obtain ⟨again, hrest⟩ : ∃ again, (single.putEach .standard rivals).2.merge .standard rivals =
      (.ok 2, again) := ⟨_, rfl⟩
  rw [hmerge]
  refine ⟨by decide, by decide, (hlatest "b" _).mpr ?_, ?_⟩
  · exact ⟨[⟨"x", 1, none⟩, ⟨"y", 2, none⟩], [], by decide, by decide, by simp⟩
  · rw [hrest, (hagain 2 again hrest).1]
    decide

end DurableCache.Store
