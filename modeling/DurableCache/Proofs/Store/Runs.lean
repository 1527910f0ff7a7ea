import DurableCache.Proofs.Store.Abandoned
import DurableCache.Proofs.Store.Eviction
import DurableCache.Proofs.Store.Merge

/-!
# Runs of operations on a store

A run is a list of actions, each an operation or a visit of all entries whose visitor makes
operations of its own. As long as all sizes fit, every operation of a run ends and leaves a sound
store, and it never takes a size from a smaller sum (`sound_of_mem_steps`).
-/

namespace DurableCache.Store

/-- An operation on a store. -/
inductive Operation where
  | put (key : String) (entry : Entry)
  | putIfNewer (key : String) (entry : Entry)
  | merge (batch : List (String × Entry))
  | remove (key : String)
  | clear
  | retain (keep : String → Entry → Bool)
  | evict (budget : Nat)

/-- What is done with a store. -/
inductive Action where
  | operate (operation : Operation)
  /-- A visit of all entries; for each one the visitor makes some operations. -/
  | visit (visitor : String → Entry → List Operation)

/-- An operation with the store on which it is made. -/
structure Step where
  before : Store
  operation : Operation

section

variable (estimator : Estimator)

/-- Makes an operation, and answers why it was abandoned if it was. -/
def perform (s : Store) : Operation → Option Abort × Store
  | .put key entry => (s.put estimator key entry).map abort? id
  | .putIfNewer key entry => (s.putIfNewer estimator key entry).map abort? id
  | .merge batch => (s.merge estimator batch).map abort? id
  | .remove key => (none, (s.remove key).2)
  | .clear => (none, s.clear.2)
  | .retain keep => (none, (s.retain keep).2)
  | .evict budget =>
    match s.evict budget with
    | none => (some .endless, s)
    | some (_, rest) => (none, rest)

/-- The store after a list of operations. The store stays in use when one is abandoned. -/
def performAll (s : Store) : List Operation → Store
  | [] => s
  | operation :: rest => (s.perform estimator operation).2.performAll rest

/-- The store after an action. -/
def act (s : Store) : Action → Store
  | .operate operation => (s.perform estimator operation).2
  | .visit visitor => s.visit fun key entry s => s.performAll estimator (visitor key entry)

/-- The store after a list of actions. -/
def run (s : Store) : List Action → Store
  | [] => s
  | action :: rest => (s.act estimator action).run rest

/-- The operations of a list, each with the store on which it is made. -/
def made (s : Store) : List Operation → List Step
  | [] => []
  | operation :: rest => ⟨s, operation⟩ :: (s.perform estimator operation).2.made rest

/-- The operations that an action comes to. A visitor is led through the entries that there are at
the beginning. -/
def Action.operations (s : Store) : Action → List Operation
  | .operate operation => [operation]
  | .visit visitor => s.entries.rows.flatMap fun row => visitor row.1 row.2

/-- The operations of a run, those of visitors among them. -/
def steps (s : Store) : List Action → List Step
  | [] => []
  | action :: rest => s.made estimator (action.operations s) ++ (s.act estimator action).steps rest

/-- The keys of a list, each with the store from which it is erased if they are erased one after
the other. -/
def erasures (s : Store) : List String → List (Store × String)
  | [] => []
  | key :: rest => (s, key) :: (s.erase key).erasures rest

/-- The keys of a batch, each with the store in which it is to be replaced. -/
def replacements (s : Store) : List Sized → List (Store × String)
  | [] => []
  | item :: rest =>
    (s, item.key) :: (s.insertIfNewer item.key item.entry item.size).2.replacements rest

/-- The keys whose entries an operation may take out, each with the store as it is in that
moment. -/
def Operation.removals (s : Store) : Operation → List (Store × String)
  | .put key _ | .putIfNewer key _ | .remove key => [(s, key)]
  | .merge batch => ((sizeAll? estimator batch).map s.replacements).getD []
  | .clear => []
  | .retain keep => s.erasures (s.entries.filter fun key entry => !keep key entry).keys
  | .evict budget => ((s.evict budget).map fun found => s.erasures found.1).getD []

end

variable {estimator : Estimator} {s : Store}

/-! ### Visits -/

/-- Operations may be made in two parts. -/
theorem performAll_append (first second : List Operation) :
    s.performAll estimator (first ++ second) =
      (s.performAll estimator first).performAll estimator second := by
  induction first generalizing s with
  | nil => rfl
  | cons operation rest ih => exact ih

/-- The operations of an action are all that it does. -/
theorem performAll_operations (action : Action) :
    s.performAll estimator (action.operations s) = s.act estimator action := by
  cases action with
  | operate operation => rfl
  | visit visitor =>
    have hrows (rows : List (String × Entry)) (t : Store) :
        t.performAll estimator (rows.flatMap fun row => visitor row.1 row.2) =
          rows.foldl (fun t row => t.performAll estimator (visitor row.1 row.2)) t := by
      induction rows generalizing t with
      | nil => rfl
      | cons row rest ih =>
        rw [List.flatMap_cons, performAll_append, ih]
        rfl
    exact hrows s.entries.rows s

/-! ### Operations on sound stores -/

/-- No key is indexed twice in a sound store. -/
theorem Sound.ages_nodup (h : s.Sound estimator) : (s.ages.keys.map Age.key).Nodup := by
  have haged (age : Age) (hage : age ∈ s.ages.keys) :
      (s.find? age.key).map Entry.timestamp = some age.written := by
    obtain ⟨_, hfind⟩ := Table.mem_keys_iff.mp hage
    exact (h.aged age).mp hfind
  refine List.pairwise_map.mpr (s.ages.keys_nodup.imp_of_mem ?_)
  -- Two ages of one key are both that of its entry.
  intro a b ha hb hne hkey
  apply hne
  have hwritten := haged a ha
  rw [hkey, haged b hb] at hwritten
  cases a
  cases b
  simp_all

/-- A size in a sound store is a part of the sum. -/
theorem Sound.size_le_total (h : s.Sound estimator) {key : String} {slot : Slot}
    (hslot : s.slots.find? key = some slot) : slot.size ≤ s.total := by
  have hsum := Table.total_erase Slot.size hslot
  rw [h.summed]
  omega

/-- A put that may be too old keeps a store sound. -/
theorem Sound.putIfNewer (h : s.Sound estimator) {key : String} {entry : Entry} {stored : Bool}
    {written : Store} (hput : s.putIfNewer estimator key entry = (.ok stored, written)) :
    written.Sound estimator := by
  unfold Store.putIfNewer at hput
  split at hput
  · cases hput
  · rename_i size hsize
    exact h.insertIfNewer hsize hput

/-- An eviction from a sound store erases the keys that it answers. -/
theorem Sound.evict (h : s.Sound estimator) (budget : Nat) :
    ∃ evicted, s.evict budget = some (evicted, s.eraseAll evicted) := by
  obtain ⟨evicted, hevict, -⟩ := h.evictRounds budget (Nat.le_refl s.size)
  exact ⟨evicted, hevict⟩

/-- A write is not abandoned if its sizes fit, as nothing else abandons it. -/
theorem answered {α : Type} {x : Except Abort α × Store} {P : Store → Prop}
    (hok : ∀ answer next, x = (.ok answer, next) → P next)
    (herror : ∀ why next, x = (.error why, next) → why = .sizeOverflow)
    (hfits : (x.map abort? id).1 ≠ some .sizeOverflow) :
    (x.map abort? id).1 = none ∧ P (x.map abort? id).2 := by
  obtain ⟨answer, next⟩ := x
  cases answer with
  | ok answer => exact ⟨rfl, hok answer next rfl⟩
  | error why => exact absurd (congrArg some (herror why next rfl)) hfits

/-- An operation on a sound store whose sizes fit ends and leaves a sound store. -/
theorem Sound.perform (h : s.Sound estimator) {operation : Operation}
    (hfits : (s.perform estimator operation).1 ≠ some .sizeOverflow) :
    (s.perform estimator operation).1 = none ∧
      (s.perform estimator operation).2.Sound estimator := by
  cases operation with
  | put key entry =>
    exact answered (fun _ _ hput => h.put hput) (fun _ _ hput => (put_error hput).1) hfits
  | putIfNewer key entry =>
    exact answered (fun _ _ hput => h.putIfNewer hput) (fun _ _ hput => (putIfNewer_error hput).1)
      hfits
  | merge batch =>
    exact answered (fun _ _ hmerge => h.merge hmerge) (fun _ _ hmerge => (merge_error hmerge).1)
      hfits
  | remove key => exact ⟨rfl, h.erase key⟩
  | clear => exact ⟨rfl, sound_empty⟩
  | retain keep => exact ⟨rfl, h.retain keep⟩
  | evict budget =>
    obtain ⟨evicted, hevict⟩ := h.evict budget
    simp only [Store.perform, hevict]
    exact ⟨trivial, h.eraseAll evicted⟩

/-- Each key of a list is erased from a sound store. -/
theorem Sound.erasures (h : s.Sound estimator) (keys : List String) :
    ∀ removal ∈ s.erasures keys, removal.1.Sound estimator := by
  induction keys generalizing s with
  | nil => exact fun removal hmem => by cases hmem
  | cons key rest ih =>
    intro removal hmem
    rcases List.mem_cons.mp hmem with rfl | hlater
    · exact h
    · exact ih (h.erase key) removal hlater

/-- Each key of a batch is replaced in a sound store. -/
theorem Sound.replacements (h : s.Sound estimator) {batch : List (String × Entry)}
    {sized : List Sized} {written stored : Nat} {merged : Store}
    (hsized : sizeAll? estimator batch = some sized)
    (hwrite : s.insertAll written sized = (.ok stored, merged)) :
    ∀ removal ∈ s.replacements sized, removal.1.Sound estimator := by
  induction batch generalizing s sized written with
  | nil =>
    cases hsized
    exact fun removal hmem => by cases hmem
  | cons row rest ih =>
    obtain ⟨size, others, hsize, hothers, rfl⟩ := sizeAll?_cons hsized
    obtain ⟨one, next, hone, hrest⟩ := insertAll_cons hwrite
    intro removal hmem
    rcases List.mem_cons.mp hmem with rfl | hlater
    · exact h
    · rw [hone] at hlater
      exact ih (h.insertIfNewer hsize hone) hothers hrest removal hlater

/-- An operation on a sound store whose sizes fit takes entries out of sound stores only. -/
theorem Sound.removals (h : s.Sound estimator) {operation : Operation}
    (hfits : (s.perform estimator operation).1 ≠ some .sizeOverflow) :
    ∀ removal ∈ operation.removals estimator s, removal.1.Sound estimator := by
  cases operation with
  | put key entry => exact List.forall_mem_singleton.mpr h
  | putIfNewer key entry => exact List.forall_mem_singleton.mpr h
  | remove key => exact List.forall_mem_singleton.mpr h
  | clear => exact fun removal hmem => by cases hmem
  | retain keep => exact h.erasures _
  | evict budget =>
    obtain ⟨evicted, hevict⟩ := h.evict budget
    simp only [Operation.removals, hevict]
    exact h.erasures evicted
  | merge batch =>
    simp only [Store.perform, Store.merge, Operation.removals] at hfits ⊢
    cases hsized : sizeAll? estimator batch with
    | none => exact fun removal hmem => by cases hmem
    | some sized =>
      simp only [hsized] at hfits
      cases hwrite : s.insertAll 0 sized with
      | mk answer merged =>
        rw [hwrite] at hfits
        cases answer with
        | ok stored => exact h.replacements hsized hwrite
        | error why => exact absurd (congrArg some (insertAll_error hwrite).1) hfits

/-! ### Runs -/

/-- Operations whose sizes fit are made on sound stores and leave a sound one. -/
theorem Sound.performAll (h : s.Sound estimator) {operations : List Operation}
    (hfits : ∀ step ∈ s.made estimator operations,
      (step.before.perform estimator step.operation).1 ≠ some .sizeOverflow) :
    (∀ step ∈ s.made estimator operations, step.before.Sound estimator) ∧
      (s.performAll estimator operations).Sound estimator := by
  induction operations generalizing s with
  | nil => exact ⟨(fun step hmem => by cases hmem), h⟩
  | cons operation rest ih =>
    have hfirst := hfits ⟨s, operation⟩ List.mem_cons_self
    obtain ⟨hmade, hlast⟩ := ih (h.perform hfirst).2 fun step hmem =>
      hfits step (List.mem_cons_of_mem _ hmem)
    exact ⟨List.forall_mem_cons.mpr ⟨h, hmade⟩, hlast⟩

/-- A run whose sizes fit makes its operations on sound stores and leaves a sound one. -/
theorem Sound.run (h : s.Sound estimator) {actions : List Action}
    (hfits : ∀ step ∈ s.steps estimator actions,
      (step.before.perform estimator step.operation).1 ≠ some .sizeOverflow) :
    (∀ step ∈ s.steps estimator actions, step.before.Sound estimator) ∧
      (s.run estimator actions).Sound estimator := by
  induction actions generalizing s with
  | nil => exact ⟨(fun step hmem => by cases hmem), h⟩
  | cons action rest ih =>
    obtain ⟨hfirst, hlater⟩ := List.forall_mem_append.mp hfits
    obtain ⟨hmade, hnext⟩ := h.performAll hfirst
    rw [performAll_operations] at hnext
    obtain ⟨hsteps, hlast⟩ := ih hnext hlater
    exact ⟨List.forall_mem_append.mpr ⟨hmade, hsteps⟩, hlast⟩

/-- Every operation of a run whose sizes fit ends. After it the index holds the ages of the stored
entries and nothing else, with no key twice, each size is the estimate of its entry, and the sum
is the sum of the sizes; and on its way it took each size from a sum that was not smaller. -/
theorem sound_of_mem_steps {actions : List Action}
    (hfits : ∀ step ∈ empty.steps estimator actions,
      (step.before.perform estimator step.operation).1 ≠ some .sizeOverflow) :
    ∀ step ∈ empty.steps estimator actions,
      (step.before.perform estimator step.operation).1 = none ∧
        (step.before.perform estimator step.operation).2.Sound estimator ∧
        ((step.before.perform estimator step.operation).2.ages.keys.map Age.key).Nodup ∧
        ∀ removal ∈ step.operation.removals estimator step.before, ∀ slot,
          removal.1.slots.find? removal.2 = some slot → slot.size ≤ removal.1.total := by
  intro step hmem
  obtain ⟨hbefore, -⟩ := sound_empty.run hfits
  obtain ⟨hends, hafter⟩ := (hbefore step hmem).perform (hfits step hmem)
  refine ⟨hends, hafter, hafter.ages_nodup, ?_⟩
  intro removal hremoval slot hslot
  have hsound := (hbefore step hmem).removals (hfits step hmem) removal hremoval
  exact hsound.size_le_total hslot

/-- Two entries, a batch that writes one key three times and another once, a visit that rewrites
and removes what it comes to, and an eviction. -/
def mixed : List Action :=
  [.operate (.put "a" ⟨"xx", 3, none⟩), .operate (.put "b" ⟨"y", 1, none⟩),
    .operate (.merge [("b", ⟨"yy", 1, none⟩), ("b", ⟨"yyy", 4, none⟩), ("b", ⟨"", 2, none⟩),
      ("c", ⟨"z", 4, none⟩)]),
    .visit fun key entry =>
      if key = "b" then [.remove key] else [.put key { entry with value := "" }],
    .operate (.evict 40)]

/-- The visit is led to three entries, and the eviction spares the youngest. -/
theorem sound_of_mem_steps_mixed :
    (empty.steps .standard mixed).length = 7 ∧
      (∀ step ∈ empty.steps .standard mixed,
        (step.before.perform .standard step.operation).2.Sound .standard) ∧
      (empty.run .standard mixed).entries.keys = ["c"] := by
  have hsound := @sound_of_mem_steps .standard mixed (by decide)
  exact ⟨by decide, fun step hmem => (hsound step hmem).2.1, by decide⟩

end DurableCache.Store
