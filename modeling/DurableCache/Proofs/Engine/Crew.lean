import DurableCache.Proofs.Engine.Effects
import DurableCache.Proofs.Store.Shedding
import Mathlib.Logic.Function.Basic

/-!
# Populations that interleave

A crew is any number of jobs that populate keys of one cache. A job looks its key up in one step. If
it finds nothing fresh, it fetches in a second step and writes in a third, and other jobs may take
steps in between, and values may be put and removed. Nothing ties the write of a job to its lookup:
what a key holds is what the last write or removal has left there (`populations_interleave`).
-/

namespace DurableCache

namespace Change

variable {rules : CacheRules} {s : Store} {change : Change}

/-- What a change leaves under a key that it writes or removes. -/
def leaves? (key : String) : Change → Option (Option Entry)
  | .write k entry => if k = key then some (some entry) else none
  | .remove k => if k = key then some none else none
  | .clear => some none
  | .keep | .purge _ | .trim => none

/-- What the last change that writes or removes a key leaves there. -/
def lastLeft? (key : String) (changes : List Change) : Option (Option Entry) :=
  (changes.filterMap (leaves? key)).getLast?

/-- With room for a change, a key holds what the change leaves there, or else what it held. -/
theorem Easy.find?_after (h : change.Easy rules s) (hpurge : ∀ now, change ≠ .purge now)
    (key : String) :
    (change.after rules s).find? key = (change.leaves? key).getD (s.find? key) := by
  rw [h.after]
  cases change with
  | keep => rfl
  | trim => rfl
  | clear => rfl
  | purge now => exact absurd rfl (hpurge now)
  | remove k =>
    rw [applied, Store.find?_erase]
    by_cases hkey : k = key
    · simp [leaves?, hkey]
    · simp [leaves?, hkey, Ne.symm hkey]
  | write k entry =>
    obtain ⟨previous, written, hput, -⟩ := easy_write_iff.mp h
    rw [applied, hput, Store.find?_put_ok hput]
    by_cases hkey : k = key
    · simp [leaves?, hkey]
    · simp [leaves?, hkey, Ne.symm hkey]

/-- The last of several changes decides before the first one does. -/
theorem lastLeft?_cons (key : String) (change : Change) (rest : List Change)
    (held : Option Entry) :
    (lastLeft? key (change :: rest)).getD held =
      (lastLeft? key rest).getD ((change.leaves? key).getD held) := by
  unfold lastLeft?
  cases hleaves : change.leaves? key with
  | none => rw [List.filterMap_cons_none hleaves, Option.getD_none]
  | some left => rw [List.filterMap_cons_some hleaves, List.getLast?_cons, Option.getD_some,
      Option.getD_some]

end Change

/-- How far a job has come. -/
inductive JobStage where
  /-- It has not looked its key up yet. -/
  | waiting
  /-- Its lookup has found nothing fresh, and its fetch has not come back. -/
  | fetching
  /-- Its fetch has come back, and nothing is written yet. -/
  | returned (fetched : Fetched)
  /-- It has delivered. -/
  | delivered (value : Option String)
  /-- It was abandoned before it could deliver. -/
  | abandoned (why : Abort)
  deriving DecidableEq, Repr

/-- Whether a job has come to its end. -/
def JobStage.isOver : JobStage → Bool
  | .delivered _ | .abandoned _ => true
  | .waiting | .fetching | .returned _ => false

/-- The stage of a job that has come to a delivery. -/
def JobStage.ofDelivery (d : Delivery String) : JobStage :=
  match d.result with
  | .ok value => .delivered value
  | .error why => .abandoned why

/-- The text that a fetch comes to. -/
def Fetched.text? : Fetched → Option String
  | .value text => some text
  | .nothing | .failed | .broken => none

/-- A step of a job, or a call from outside. -/
inductive Act (ι : Type) where
  /-- A job looks its key up. -/
  | look (job : ι) (now : Timestamp)
  /-- A job runs its fetch. -/
  | fetch (job : ι)
  /-- A job writes what its fetch came to. -/
  | store (job : ι) (returned : Timestamp)
  | put (now : Timestamp) (key value : String) (timeToLive : Option UInt64)
  | invalidate (key : String)
  deriving DecidableEq

namespace Act

variable {ι : Type}

/-- The job whose step it is. -/
def job? : Act ι → Option ι
  | .look i _ | .fetch i | .store i _ => some i
  | .put _ _ _ _ | .invalidate _ => none

/-- What an act does to the entries in memory. -/
def change (jobs : ι → Job) : Act ι → Change
  | .look _ _ | .fetch _ => .keep
  | .store i returned =>
    .ofFetched returned (jobs i).key (jobs i).timeToLive ((jobs i).fetch (jobs i).key)
  | .put now key value timeToLive => .writeAt now key value timeToLive
  | .invalidate key => .remove key

/-- What the last act that writes or removes a key leaves there. -/
def lastLeft? (jobs : ι → Job) (key : String) (acts : List (Act ι)) : Option (Option Entry) :=
  Change.lastLeft? key (acts.map (change jobs))

/-- No act purges. -/
theorem change_ne_purge (jobs : ι → Job) (act : Act ι) (now : Timestamp) :
    act.change jobs ≠ .purge now := by
  have hwrite (time : Timestamp) (key value : String) (timeToLive : Option UInt64) :
      Change.writeAt time key value timeToLive ≠ .purge now := by
    unfold Change.writeAt
    split
    · exact fun h => by cases h
    · exact fun h => by cases h
  cases act with
  | look i time => exact fun h => by cases h
  | fetch i => exact fun h => by cases h
  | invalidate key => exact fun h => by cases h
  | put time key value timeToLive => exact hwrite time key value timeToLive
  | store i returned =>
    rw [change]
    cases (jobs i).fetch (jobs i).key with
    | value text => exact hwrite returned _ text _
    | nothing => exact fun h => by cases h
    | failed => exact fun h => by cases h
    | broken => exact fun h => by cases h

end Act

/-- Jobs that share a cache. -/
structure Crew (ι : Type) where
  cache : Cache
  stage : ι → JobStage

namespace Crew

variable {ι : Type}

/-- No job has begun. -/
def start (c : Cache) : Crew ι := ⟨c, fun _ => .waiting⟩

variable [DecidableEq ι]

/-- A job comes to a stage and leaves a cache behind. -/
def moved (crew : Crew ι) (i : ι) (stage : JobStage) (cache : Cache) : Crew ι :=
  ⟨cache, Function.update crew.stage i stage⟩

@[simp] theorem stage_moved_self (crew : Crew ι) (i : ι) (stage : JobStage) (cache : Cache) :
    (crew.moved i stage cache).stage i = stage := Function.update_self _ _ _

theorem stage_moved_of_ne {i j : ι} (h : i ≠ j) (crew : Crew ι) (stage : JobStage) (cache : Cache) :
    (crew.moved j stage cache).stage i = crew.stage i := Function.update_of_ne h _ _

/-- Makes an act; nothing if a job is not at the stage for its step. -/
def step (jobs : ι → Job) (crew : Crew ι) : Act ι → Option (Crew ι)
  | .look i now =>
    match crew.stage i with
    | .waiting =>
      match crew.cache.beginPopulation now (jobs i).key with
      | (.error why, cache) => some (crew.moved i (.abandoned why) cache)
      | (.ok (some value), cache) => some (crew.moved i (.delivered (some value)) cache)
      | (.ok none, cache) => some (crew.moved i .fetching cache)
    | _ => none
  | .fetch i =>
    match crew.stage i with
    | .fetching => some (crew.moved i (.returned ((jobs i).fetch (jobs i).key)) crew.cache)
    | _ => none
  | .store i returned =>
    match crew.stage i with
    | .returned fetched =>
      match crew.cache.finishPopulation returned (jobs i).key (jobs i).timeToLive fetched with
      | (.error why, cache) => some (crew.moved i (.abandoned why) cache)
      | (.ok value, cache) => some (crew.moved i (.delivered value) cache)
    | _ => none
  | .put now key value timeToLive =>
    some { crew with cache := (crew.cache.write now key value timeToLive).2 }
  | .invalidate key => some { crew with cache := (crew.cache.remove key).2 }

/-- Makes acts one after the other. -/
def run (jobs : ι → Job) (crew : Crew ι) : List (Act ι) → Option (Crew ι)
  | [] => some crew
  | act :: rest => (crew.step jobs act).bind fun next => next.run jobs rest

/-- Nothing is evicted in a run: there is room for every entry that it writes. -/
def Roomy (jobs : ι → Job) (crew : Crew ι) : List (Act ι) → Prop
  | [] => True
  | act :: rest =>
    (act.change jobs).Easy crew.cache.rules crew.cache.store ∧
      ∀ next ∈ crew.step jobs act, next.Roomy jobs rest

instance decidableRoomy (jobs : ι → Job) (crew : Crew ι) :
    (acts : List (Act ι)) → Decidable (crew.Roomy jobs acts)
  | [] => isTrue trivial
  | act :: rest =>
    have : ∀ next, Decidable (Roomy jobs next rest) := fun next => decidableRoomy jobs next rest
    inferInstanceAs (Decidable (_ ∧ ∀ next ∈ crew.step jobs act, _))

variable {jobs : ι → Job} {crew next last : Crew ι} {act : Act ι} {acts before after : List (Act ι)}
variable {i : ι} {now : Timestamp} {fetched : Fetched} {value : Option String}

/-- A run goes on where an earlier one has ended. -/
theorem run_append (crew : Crew ι) (before after : List (Act ι)) :
    crew.run jobs (before ++ after) =
      (crew.run jobs before).bind fun mid => mid.run jobs after := by
  induction before generalizing crew with
  | nil => rfl
  | cons act before ih =>
    rw [List.cons_append, run, run, Option.bind_assoc]
    congr 1
    funext next
    exact ih next

/-! ### The steps of one job -/

/-- How an act on a cache moves one job. The jobs whose step it is not stay where they are. -/
inductive Moves (jobs : ι → Job) (c : Cache) (i : ι) : Act ι → JobStage → JobStage → Prop
  | missed {now : Timestamp} : (c.lookup now (jobs i).key).1 = .ok none →
      Moves jobs c i (.look i now) .waiting .fetching
  | found {now : Timestamp} {value : String} :
      (c.lookup now (jobs i).key).1 = .ok (some value) →
      Moves jobs c i (.look i now) .waiting (.delivered (some value))
  | failed {now : Timestamp} {why : Abort} : (c.lookup now (jobs i).key).1 = .error why →
      Moves jobs c i (.look i now) .waiting (.abandoned why)
  | fetched : Moves jobs c i (.fetch i) .fetching (.returned ((jobs i).fetch (jobs i).key))
  | stored {returned : Timestamp} {fetched : Fetched} :
      Moves jobs c i (.store i returned) (.returned fetched) (.delivered fetched.text?)
  | lost {returned : Timestamp} {fetched : Fetched} {why : Abort} :
      Moves jobs c i (.store i returned) (.returned fetched) (.abandoned why)
  | other {act : Act ι} {stage : JobStage} : act.job? ≠ some i → Moves jobs c i act stage stage

omit [DecidableEq ι] in
/-- A job that writes delivers the text of its fetch, unless its write is abandoned. -/
theorem delivered_of_finishPopulation {c written : Cache} {returned : Timestamp} {key : String}
    {timeToLive : Option UInt64}
    (h : c.finishPopulation returned key timeToLive fetched = (.ok value, written)) :
    value = fetched.text? := by
  unfold Cache.finishPopulation at h
  cases fetched with
  | value text =>
    simp only at h
    split at h
    · cases h
      rfl
    · cases h
  | nothing => cases h; rfl
  | failed => cases h; rfl
  | broken => cases h; rfl

/-- An act moves the job whose step it is, and no other one. -/
theorem moves_moved {c cache : Cache} {stage : JobStage} {j : ι} (hjob : act.job? = some j)
    (hmove : Moves jobs c j act (crew.stage j) stage) (i : ι) :
    Moves jobs c i act (crew.stage i) ((crew.moved j stage cache).stage i) := by
  by_cases hij : i = j
  · subst hij
    rw [stage_moved_self]
    exact hmove
  · rw [stage_moved_of_ne hij]
    exact .other fun hother => hij (Option.some.inj (hother.symm.trans hjob))

/-- Every act that can be made moves each job as its kind says. -/
theorem moves_step (h : crew.step jobs act = some next) (i : ι) :
    Moves jobs crew.cache i act (crew.stage i) (next.stage i) := by
  cases act with
  | look j now =>
    have hanswer := crew.cache.beginPopulation_fst now (jobs j).key
    simp only [step] at h
    split at h
    · rename_i hstage
      split at h
      · rename_i why cache hbegin
        obtain rfl := Option.some.inj h
        rw [hbegin] at hanswer
        exact moves_moved rfl (hstage ▸ .failed hanswer.symm) i
      · rename_i found cache hbegin
        obtain rfl := Option.some.inj h
        rw [hbegin] at hanswer
        exact moves_moved rfl (hstage ▸ .found hanswer.symm) i
      · rename_i cache hbegin
        obtain rfl := Option.some.inj h
        rw [hbegin] at hanswer
        exact moves_moved rfl (hstage ▸ .missed hanswer.symm) i
    · cases h
  | fetch j =>
    simp only [step] at h
    split at h
    · rename_i hstage
      obtain rfl := Option.some.inj h
      exact moves_moved rfl (hstage ▸ .fetched) i
    · cases h
  | store j returned =>
    simp only [step] at h
    split at h
    · rename_i fetched hstage
      split at h
      · obtain rfl := Option.some.inj h
        exact moves_moved rfl (hstage ▸ .lost) i
      · rename_i answer cache hfinish
        obtain rfl := Option.some.inj h
        obtain rfl := delivered_of_finishPopulation hfinish
        exact moves_moved rfl (hstage ▸ .stored) i
    · cases h
  | put now key value timeToLive =>
    obtain rfl := Option.some.inj h
    exact .other fun hjob => by cases hjob
  | invalidate key =>
    obtain rfl := Option.some.inj h
    exact .other fun hjob => by cases hjob

/-- A job that is over stays as it is and runs no fetch. -/
theorem run_of_isOver (hover : (crew.stage i).isOver = true) (h : crew.run jobs acts = some last) :
    last.stage i = crew.stage i ∧ acts.count (.fetch i) = 0 := by
  induction acts generalizing crew with
  | nil =>
    obtain rfl := Option.some.inj h
    exact ⟨rfl, rfl⟩
  | cons act rest ih =>
    obtain ⟨next, hstep, hrest⟩ := Option.bind_eq_some_iff.mp h
    have hmove := moves_step hstep i
    generalize hbefore : crew.stage i = before at hmove hover
    generalize hafter : next.stage i = after at hmove
    cases hmove with
    | other hjob =>
      have hne : act ≠ .fetch i := by
        rintro rfl
        exact hjob rfl
      obtain ⟨hstage, hcount⟩ := ih (by rw [hafter]; exact hover) hrest
      exact ⟨hstage.trans hafter, by rw [List.count_cons_of_ne hne, hcount]⟩
    | _ => cases hover

/-- A job whose fetch has come back runs no other one. It delivers the text of that fetch or is
abandoned. -/
theorem run_of_returned (hstage : crew.stage i = .returned fetched)
    (h : crew.run jobs acts = some last) :
    acts.count (.fetch i) = 0 ∧
      (last.stage i = .returned fetched ∨ last.stage i = .delivered fetched.text? ∨
        ∃ why, last.stage i = .abandoned why) := by
  induction acts generalizing crew with
  | nil =>
    obtain rfl := Option.some.inj h
    exact ⟨rfl, Or.inl hstage⟩
  | cons act rest ih =>
    obtain ⟨next, hstep, hrest⟩ := Option.bind_eq_some_iff.mp h
    have hmove := moves_step hstep i
    rw [hstage] at hmove
    generalize hafter : next.stage i = after at hmove
    cases hmove with
    | stored =>
      obtain ⟨hlast, hcount⟩ := run_of_isOver (by rw [hafter]; rfl) hrest
      exact ⟨by rw [List.count_cons_of_ne (by simp), hcount],
        Or.inr (Or.inl (hlast.trans hafter))⟩
    | lost =>
      obtain ⟨hlast, hcount⟩ := run_of_isOver (by rw [hafter]; rfl) hrest
      exact ⟨by rw [List.count_cons_of_ne (by simp), hcount],
        Or.inr (Or.inr ⟨_, hlast.trans hafter⟩)⟩
    | other hjob =>
      have hne : act ≠ .fetch i := by
        rintro rfl
        exact hjob rfl
      obtain ⟨hcount, hlast⟩ := ih hafter hrest
      exact ⟨by rw [List.count_cons_of_ne hne, hcount], hlast⟩

/-- A job whose lookup has missed runs its fetch at most once, and exactly once to its end. It
delivers the text of that fetch or is abandoned. -/
theorem run_of_fetching (hstage : crew.stage i = .fetching) (h : crew.run jobs acts = some last) :
    acts.count (.fetch i) ≤ 1 ∧
      ((last.stage i).isOver = true → acts.count (.fetch i) = 1) ∧
      ∀ value, last.stage i = .delivered value →
        value = ((jobs i).fetch (jobs i).key).text? := by
  induction acts generalizing crew with
  | nil =>
    obtain rfl := Option.some.inj h
    refine ⟨Nat.zero_le 1, fun hover => ?_, fun value hdelivered => ?_⟩
    · rw [hstage] at hover
      cases hover
    · rw [hstage] at hdelivered
      cases hdelivered
  | cons act rest ih =>
    obtain ⟨next, hstep, hrest⟩ := Option.bind_eq_some_iff.mp h
    have hmove := moves_step hstep i
    rw [hstage] at hmove
    generalize hafter : next.stage i = after at hmove
    cases hmove with
    | fetched =>
      obtain ⟨hcount, hlast⟩ := run_of_returned hafter hrest
      rw [List.count_cons_self, hcount]
      refine ⟨Nat.le_refl 1, fun _ => rfl, fun value hdelivered => ?_⟩
      rw [hdelivered] at hlast
      rcases hlast with hlast | hlast | ⟨why, hlast⟩
      · cases hlast
      · exact JobStage.delivered.inj hlast
      · cases hlast
    | other hjob =>
      have hne : act ≠ .fetch i := by
        rintro rfl
        exact hjob rfl
      rw [List.count_cons_of_ne hne]
      exact ih hafter hrest

/-- A job that has looked its key up does not wait again. -/
theorem run_ne_waiting (hstage : crew.stage i ≠ .waiting) (h : crew.run jobs acts = some last) :
    last.stage i ≠ .waiting := by
  induction acts generalizing crew with
  | nil =>
    obtain rfl := Option.some.inj h
    exact hstage
  | cons act rest ih =>
    obtain ⟨next, hstep, hrest⟩ := Option.bind_eq_some_iff.mp h
    refine ih ?_ hrest
    have hmove := moves_step hstep i
    generalize hbefore : crew.stage i = before at hmove hstage
    generalize next.stage i = after at hmove
    cases hmove with
    | other _ => exact hstage
    | _ => exact fun hwaiting => by cases hwaiting

/-- A job that waits at the end has run no fetch. -/
theorem count_of_waiting (h : crew.run jobs acts = some last) (hstage : last.stage i = .waiting) :
    acts.count (.fetch i) = 0 := by
  induction acts generalizing crew with
  | nil => rfl
  | cons act rest ih =>
    obtain ⟨next, hstep, hrest⟩ := Option.bind_eq_some_iff.mp h
    have hwaiting : next.stage i = .waiting := by
      by_contra hne
      exact run_ne_waiting hne hrest hstage
    have hne : act ≠ .fetch i := by
      rintro rfl
      have hmove := moves_step hstep i
      rw [hwaiting] at hmove
      generalize crew.stage i = before at hmove
      cases hmove with
      | other hjob => exact hjob rfl
    rw [List.count_cons_of_ne hne]
    exact ih hrest

/-- A job that no longer waits has looked its key up at some point of the run. -/
theorem exists_look (hwaiting : crew.stage i = .waiting) (h : crew.run jobs acts = some last)
    (hstage : last.stage i ≠ .waiting) :
    ∃ before now after mid, acts = before ++ .look i now :: after ∧
      crew.run jobs before = some mid := by
  induction acts generalizing crew with
  | nil =>
    obtain rfl := Option.some.inj h
    exact absurd hwaiting hstage
  | cons act rest ih =>
    obtain ⟨next, hstep, hrest⟩ := Option.bind_eq_some_iff.mp h
    have hmove := moves_step hstep i
    rw [hwaiting] at hmove
    generalize hafter : next.stage i = after at hmove
    have hlook (now : Timestamp) : ∃ before time after mid,
        .look i now :: rest = before ++ .look i time :: after ∧ crew.run jobs before = some mid :=
      ⟨[], now, rest, crew, rfl, rfl⟩
    cases hmove with
    | missed _ => exact hlook _
    | found _ => exact hlook _
    | failed _ => exact hlook _
    | other _ =>
      obtain ⟨before, now, after, mid, rfl, hmid⟩ := ih hafter hrest
      refine ⟨act :: before, now, after, mid, rfl, ?_⟩
      rw [run, hstep]
      exact hmid

/-- What becomes of a job whose lookup is known: it delivers what the lookup has found, or else the
text of the one fetch that it runs. -/
theorem run_of_look {mid : Crew ι} (hbefore : crew.run jobs before = some mid)
    (h : crew.run jobs (before ++ .look i now :: after) = some last) :
    ((mid.cache.lookup now (jobs i).key).1 = .ok none ∧
        (before ++ .look i now :: after).count (.fetch i) ≤ 1 ∧
        ((last.stage i).isOver = true → (before ++ .look i now :: after).count (.fetch i) = 1) ∧
        ∀ value, last.stage i = .delivered value →
          value = ((jobs i).fetch (jobs i).key).text?) ∨
      ((mid.cache.lookup now (jobs i).key).1 ≠ .ok none ∧
        (before ++ .look i now :: after).count (.fetch i) = 0 ∧
        ∀ value, last.stage i = .delivered value →
          (mid.cache.lookup now (jobs i).key).1 = .ok value) := by
  rw [run_append, hbefore, Option.bind_some] at h
  obtain ⟨next, hstep, hrest⟩ := Option.bind_eq_some_iff.mp h
  have hmove := moves_step hstep i
  generalize hwaiting : mid.stage i = stage at hmove
  generalize hstage : next.stage i = reached at hmove
  have hcount (hnone : mid.stage i = .waiting) :
      (before ++ .look i now :: after).count (.fetch i) = after.count (.fetch i) := by
    rw [List.count_append, count_of_waiting hbefore hnone, List.count_cons_of_ne (by simp),
      Nat.zero_add]
  cases hmove with
  | missed hlookup =>
    rw [hcount hwaiting]
    exact Or.inl ⟨hlookup, run_of_fetching hstage hrest⟩
  | found hlookup =>
    rw [hcount hwaiting, hlookup]
    obtain ⟨hlast, hzero⟩ := run_of_isOver (by rw [hstage]; rfl) hrest
    refine Or.inr ⟨(fun hnone => by cases hnone), hzero, fun value hdelivered => ?_⟩
    rw [hlast, hstage] at hdelivered
    exact congrArg Except.ok (JobStage.delivered.inj hdelivered)
  | failed hlookup =>
    rw [hcount hwaiting, hlookup]
    obtain ⟨hlast, hzero⟩ := run_of_isOver (by rw [hstage]; rfl) hrest
    refine Or.inr ⟨(fun hnone => by cases hnone), hzero, fun value hdelivered => ?_⟩
    rw [hlast, hstage] at hdelivered
    cases hdelivered
  | other hjob => exact absurd rfl hjob

/-! ### What keys hold -/

/-- What has come back to a job is what its own fetch comes to. -/
def Own (jobs : ι → Job) (crew : Crew ι) : Prop :=
  ∀ i fetched, crew.stage i = .returned fetched → fetched = (jobs i).fetch (jobs i).key

omit [DecidableEq ι] in
theorem own_start (jobs : ι → Job) (c : Cache) : (start c).Own jobs := fun _ _ h => by cases h

/-- Jobs keep to their own fetches. -/
theorem Own.step (hown : crew.Own jobs) (h : crew.step jobs act = some next) : next.Own jobs := by
  intro i fetched hstage
  have hmove := moves_step h i
  rw [hstage] at hmove
  generalize hbefore : crew.stage i = before at hmove
  cases hmove with
  | fetched => rfl
  | other _ => exact hown i fetched hbefore

/-- An act makes its change of the cache. -/
theorem Own.made (hown : crew.Own jobs) (h : crew.step jobs act = some next) :
    crew.cache.Made (act.change jobs) next.cache := by
  cases act with
  | look i now =>
    have hkeep := Cache.made_keep (crew.cache.turns_beginPopulation now (jobs i).key)
    simp only [Crew.step] at h
    split at h
    · split at h
      · rename_i hbegin
        obtain rfl := Option.some.inj h
        rwa [hbegin] at hkeep
      · rename_i hbegin
        obtain rfl := Option.some.inj h
        rwa [hbegin] at hkeep
      · rename_i hbegin
        obtain rfl := Option.some.inj h
        rwa [hbegin] at hkeep
    · cases h
  | fetch i =>
    simp only [Crew.step] at h
    split at h
    · obtain rfl := Option.some.inj h
      exact Cache.made_keep (Cache.turns_keep rfl rfl rfl)
    · cases h
  | store i returned =>
    simp only [Crew.step] at h
    split at h
    · rename_i fetched hstage
      have hmade := crew.cache.made_finishPopulation returned (jobs i).key (jobs i).timeToLive
        fetched
      rw [hown i fetched hstage] at hmade h
      split at h
      · rename_i hfinish
        obtain rfl := Option.some.inj h
        rwa [hfinish] at hmade
      · rename_i hfinish
        obtain rfl := Option.some.inj h
        rwa [hfinish] at hmade
    · cases h
  | put now key value timeToLive =>
    obtain rfl := Option.some.inj h
    exact crew.cache.made_write now key value timeToLive
  | invalidate key =>
    obtain rfl := Option.some.inj h
    exact ⟨rfl, rfl, rfl⟩

/-- With room for every write, a key holds what the last write or removal has left there, and the
rules stay. -/
theorem Own.find?_run (hown : crew.Own jobs) (h : crew.run jobs acts = some last)
    (hroom : crew.Roomy jobs acts) :
    last.cache.rules = crew.cache.rules ∧ ∀ key, last.cache.store.find? key =
      (Act.lastLeft? jobs key acts).getD (crew.cache.store.find? key) := by
  induction acts generalizing crew with
  | nil =>
    obtain rfl := Option.some.inj h
    exact ⟨rfl, fun key => rfl⟩
  | cons act rest ih =>
    obtain ⟨next, hstep, hrest⟩ := Option.bind_eq_some_iff.mp h
    have hmade := hown.made hstep
    obtain ⟨hrules, hfind⟩ := ih (hown.step hstep) hrest (hroom.2 next hstep)
    refine ⟨hrules.trans hmade.rules, fun key => ?_⟩
    rw [hfind, hmade.store, hroom.1.find?_after (act.change_ne_purge jobs), Act.lastLeft?,
      Act.lastLeft?, List.map_cons, Change.lastLeft?_cons]

/-- What begins with room goes on with room. -/
theorem Roomy.earlier (h : crew.Roomy jobs acts) (hpart : before <+: acts) :
    crew.Roomy jobs before := by
  induction before generalizing crew acts with
  | nil => trivial
  | cons act before ih =>
    obtain ⟨rest, rfl⟩ := hpart
    exact ⟨h.1, fun next hstep => ih (h.2 next hstep) (List.prefix_append before rest)⟩

/-- A population that nothing disturbs is what a job does whose steps follow one another. -/
theorem run_undisturbed (jobs : ι → Job) (c : Cache) (i : ι) (now returned : Timestamp) :
    ∃ acts last, (start c).run jobs acts = some last ∧
      last.cache = (c.populate now returned (jobs i).key (jobs i).timeToLive (jobs i).fetch).2 ∧
      last.stage i = .ofDelivery
        (c.populate now returned (jobs i).key (jobs i).timeToLive (jobs i).fetch).1 ∧
      acts.count (.fetch i) =
        if (c.populate now returned (jobs i).key (jobs i).timeToLive (jobs i).fetch).1.fetched
        then 1 else 0 := by
  unfold Cache.populate
  cases hbegin : c.beginPopulation now (jobs i).key with
  | mk answer begun =>
    match answer with
    | .error why =>
      refine ⟨[.look i now], (start c).moved i (.abandoned why) begun, ?_, rfl,
        stage_moved_self _ _ _ _, rfl⟩
      simp only [run, step, start, hbegin, Option.bind_some]
    | .ok (some value) =>
      refine ⟨[.look i now], (start c).moved i (.delivered (some value)) begun, ?_, rfl,
        stage_moved_self _ _ _ _, rfl⟩
      simp only [run, step, start, hbegin, Option.bind_some]
    | .ok none =>
      let fetching := (start c : Crew ι).moved i .fetching begun
      let came := fetching.moved i (.returned ((jobs i).fetch (jobs i).key)) begun
      have hlook : (start c).step jobs (.look i now) = some fetching := by
        simp only [step, start, hbegin]
        rfl
      have hfetch : fetching.step jobs (.fetch i) = some came := by
        simp only [step, fetching, stage_moved_self]
        rfl
      have hcame : came.stage i = .returned ((jobs i).fetch (jobs i).key) :=
        stage_moved_self _ _ _ _
      have hcache : came.cache = begun := rfl
      have hcount : [Act.look i now, .fetch i, .store i returned].count (.fetch i) = 1 := by
        simp
      cases hfinish : begun.finishPopulation returned (jobs i).key (jobs i).timeToLive
          ((jobs i).fetch (jobs i).key) with
      | mk answer written =>
        simp only [hfinish]
        cases answer with
        | error why =>
          have hstore : came.step jobs (.store i returned) =
              some (came.moved i (.abandoned why) written) := by
            simp only [step, hcame, hcache, hfinish]
          refine ⟨[.look i now, .fetch i, .store i returned], came.moved i (.abandoned why) written,
            ?_, rfl, stage_moved_self _ _ _ _, hcount⟩
          simp only [run, hlook, hfetch, hstore, Option.bind_some]
        | ok value =>
          have hstore : came.step jobs (.store i returned) =
              some (came.moved i (.delivered value) written) := by
            simp only [step, hcame, hcache, hfinish]
          refine ⟨[.look i now, .fetch i, .store i returned],
            came.moved i (.delivered value) written, ?_, rfl, stage_moved_self _ _ _ _, hcount⟩
          simp only [run, hlook, hfetch, hstore, Option.bind_some]

/-- A run of any jobs whose steps come in any order, with values that are put and keys that are
removed in between, and with nothing evicted. Each job delivers the text of its own fetch or the
value that the last write of its key before its lookup has left there, if no removal came after that
write and the entry was fresh at the lookup. A job whose lookup has missed runs its fetch exactly
once, and another one runs none. At the end a key holds what the last write has left there, and
nothing if a removal came after it. A key without writes and removals holds what it held at the
start. -/
theorem populations_interleave {c : Cache} (hrun : (start c).run jobs acts = some last)
    (hroom : (start c).Roomy jobs acts) :
    (∀ i value, last.stage i = .delivered (some value) →
      ((jobs i).fetch (jobs i).key = .value value ∧ acts.count (.fetch i) = 1) ∨
      ∃ before now after entry, acts = before ++ .look i now :: after ∧
        (Act.lastLeft? jobs (jobs i).key before).getD (c.store.find? (jobs i).key) = some entry ∧
        entry.value = value ∧ entry.isStale c.rules.defaultTtl now = false) ∧
    (∀ i before now after mid, acts = before ++ .look i now :: after →
      (start c).run jobs before = some mid →
      ((mid.cache.lookup now (jobs i).key).1 = .ok none → acts.count (.fetch i) ≤ 1 ∧
        ((last.stage i).isOver = true → acts.count (.fetch i) = 1)) ∧
      ((mid.cache.lookup now (jobs i).key).1 ≠ .ok none → acts.count (.fetch i) = 0)) ∧
    ∀ key, last.cache.store.find? key =
      (Act.lastLeft? jobs key acts).getD (c.store.find? key) := by
  refine ⟨fun i value hdelivered => ?_, fun i before now after mid hacts hbefore => ?_,
    ((own_start jobs c).find?_run hrun hroom).2⟩
  · have hended : last.stage i ≠ .waiting := by
      rw [hdelivered]
      exact fun h => by cases h
    obtain ⟨before, now, after, mid, rfl, hbefore⟩ := exists_look rfl hrun hended
    rcases run_of_look hbefore hrun with ⟨-, -, honce, htext⟩ | ⟨-, -, hfound⟩
    · refine Or.inl ⟨?_, honce (by rw [hdelivered]; rfl)⟩
      have hvalue := htext _ hdelivered
      cases hfetch : (jobs i).fetch (jobs i).key with
      | value text =>
        rw [hfetch] at hvalue
        rw [Option.some.inj hvalue]
      | _ =>
        rw [hfetch] at hvalue
        cases hvalue
    · obtain ⟨entry, hfind, hvalue, hfresh⟩ := Cache.fresh_of_lookup (hfound _ hdelivered)
      have hearlier := hroom.earlier (List.prefix_append before (.look i now :: after))
      obtain ⟨hrules, hheld⟩ := (own_start jobs c).find?_run hbefore hearlier
      rw [hheld] at hfind
      rw [hrules] at hfresh
      exact Or.inr ⟨before, now, after, entry, rfl, hfind, hvalue, hfresh⟩
  · subst hacts
    rcases run_of_look hbefore hrun with ⟨hmissed, hmost, honce, -⟩ | ⟨hother, hzero, -⟩
    · exact ⟨fun _ => ⟨hmost, honce⟩, fun hne => absurd hmissed hne⟩
    · exact ⟨fun hmissed => absurd hmissed hother, fun _ => hzero⟩

/-- Three jobs for one key. -/
def trio (i : Fin 3) : Job where
  id := toString i
  key := "k"
  timeToLive := none
  fetch _ := .value (["first", "second", "third"].get i)
  duration := 0

/-- The first two jobs miss before either of them has written, and the second one writes first. -/
def overlapping : List (Act (Fin 3)) :=
  [.look 0 1, .look 1 1, .fetch 0, .fetch 1, .invalidate "k", .store 1 2, .look 2 3,
    .put 3 "other" "x" none, .store 0 4]

/-- The third job finds what the second one has written, and at the end the key holds what the first
one has written. -/
theorem populations_interleave_overlapping :
    ∃ last, (start (Cache.empty ⟨.standard, none, 100⟩)).run trio overlapping = some last ∧
      (start (Cache.empty ⟨.standard, none, 100⟩)).Roomy trio overlapping ∧
      last.stage 2 = .delivered (some "second") ∧ overlapping.count (.fetch 2) = 0 ∧
      last.cache.store.find? "k" = some ⟨"first", 4, none⟩ := by
  have hroom : (start (Cache.empty ⟨.standard, none, 100⟩)).Roomy trio overlapping := by
    decide +kernel
  obtain ⟨last, hrun⟩ := Option.isSome_iff_exists.mp (show
    ((start (Cache.empty ⟨.standard, none, 100⟩)).run trio overlapping).isSome by decide +kernel)
  have hstage : ((start (Cache.empty ⟨.standard, none, 100⟩)).run trio overlapping).map
      (fun crew => crew.stage 2) = some (.delivered (some "second")) := by decide +kernel
  obtain ⟨mid, hbefore⟩ := Option.isSome_iff_exists.mp (show
    ((start (Cache.empty ⟨.standard, none, 100⟩)).run trio (overlapping.take 6)).isSome by
      decide +kernel)
  have hlookup : ((start (Cache.empty ⟨.standard, none, 100⟩)).run trio (overlapping.take 6)).map
      (fun crew => (crew.cache.lookup 3 "k").1.toOption) = some (some (some "second")) := by
    decide +kernel
  rw [hrun] at hstage
  rw [hbefore] at hlookup
  obtain ⟨-, hfetches, hheld⟩ := populations_interleave hrun hroom
  have hfound : (mid.cache.lookup 3 "k").1 ≠ .ok none := by
    intro hnone
    have hvalue : (mid.cache.lookup 3 "k").1.toOption = some (some "second") :=
      Option.some.inj hlookup
    rw [hnone] at hvalue
    cases hvalue
  exact ⟨last, hrun, hroom, Option.some.inj hstage, (hfetches 2 _ 3 _ mid rfl hbefore).2 hfound,
    (hheld "k").trans (by decide)⟩

end Crew

end DurableCache
