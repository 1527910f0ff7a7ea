import DurableCache.Proofs.Gateway.Failures
import DurableCache.Proofs.Http.Routing
import DurableCache.Proofs.Load.Passing

/-!
# Rejected requests

A request that is answered with a status of the four hundreds changes nothing that shows later but
the numbers of lookups. There is one exception, by design: while the load runs, the deletion of a
key that is not there keeps the load from bringing the key in. Then everything is as if the load had
passed over this key (`rejected_unnoticed`).
-/

namespace DurableCache.Http

variable {σ : Type} [BlobStore σ]

/-! ### Answers -/

/-- The answer to a request for statistics. -/
def Request.statsAnswer (r : Request) (stats : Stats) : Option (Except Abort Response) :=
  let answer : Except Abort Response := match stats.hitRate? with
    | none => .error .sizeOverflow
    | some rate => .ok (jsonResponse 200 (statsBody stats rate))
  some (answer.map r.finish)

/-- Two answers to a request differ at most in the numbers of lookups in statistics, and in what is
computed from these. -/
inductive Unnoticed (r : Request) :
    Option (Except Abort Response) → Option (Except Abort Response) → Prop
  | same {answer : Option (Except Abort Response)} : Unnoticed r answer answer
  | stats {s t : Stats} (hresource : r.resource? = some .stats)
      (hcounters : s.counters.lessLookups = t.counters.lessLookups)
      (hentries : s.totalEntries = t.totalEntries) (hbytes : s.estimatedBytes = t.estimatedBytes) :
      Unnoticed r (r.statsAnswer s) (r.statsAnswer t)

variable {keys : List String} {e f : Engine σ}

/-- Statistics are answered without an effect. -/
theorem serve_stats (e : Engine σ) (now : Timestamp) (r : Request) :
    some ((serve e now r .stats).1.map r.finish) = r.statsAnswer e.cache.stats ∧
      (serve e now r .stats).2 = e := by
  simp only [serve, Request.statsAnswer]
  cases e.cache.stats.hitRate? with
  | none => exact ⟨rfl, rfl⟩
  | some rate => exact ⟨rfl, rfl⟩

/-- A request makes at most one call. -/
theorem respond_calls (e : Engine σ) (now : Timestamp) (r : Request) :
    (respond e now r).2 = e ∨ ∃ call, (respond e now r).2 = (e.perform call).2 := by
  cases hresource : r.resource? with
  | none =>
    obtain ⟨answer, hall⟩ := respond_of_no_resource (σ := σ) hresource
    rw [hall e now]
    exact Or.inl rfl
  | some resource =>
    rw [respond_of_resource hresource]
    cases resource with
    | set =>
      simp only [serve]
      cases r.readSet with
      | error response => exact Or.inl rfl
      | ok request =>
        refine Or.inr ⟨.put now request.key request.value request.timeToLive, ?_⟩
        simp only [Engine.perform, Prod.map]
        cases e.put now request.key request.value request.timeToLive with
        | mk answer written => cases answer <;> rfl
    | get key =>
      simp only [serve]
      cases Percent.decode? key with
      | none => exact Or.inl rfl
      | some key =>
        refine Or.inr ⟨.get now key, ?_⟩
        simp only [Engine.perform, Prod.map]
        cases e.get now key with
        | mk answer found =>
          cases answer with
          | error why => rfl
          | ok value => cases value <;> rfl
    | delete key =>
      simp only [serve]
      cases Percent.decode? key with
      | none => exact Or.inl rfl
      | some key =>
        refine Or.inr ⟨.invalidate key, ?_⟩
        simp only [Engine.perform]
        cases e.invalidate key with
        | mk answer removed => cases answer <;> rfl
    | commit =>
      refine Or.inr ⟨.commit now, ?_⟩
      simp only [serve, Engine.perform, Prod.map]
      cases e.commit now with
      | mk outcome committed => cases outcome <;> rfl
    | clear => exact Or.inr ⟨.clear, rfl⟩
    | stats => exact Or.inl (serve_stats e now r).2
    | health => exact Or.inl rfl

/-- No request ends the load. -/
theorem isLoading_respond (e : Engine σ) (now : Timestamp) (r : Request) :
    (respond e now r).2.cache.isLoading = e.cache.isLoading := by
  rcases respond_calls e now r with hsame | ⟨call, hcall⟩
  · rw [hsame]
  · rw [hcall]
    exact (e.standing_run [call]).1

/-- A resource other than the statistics serves a request alike. -/
theorem agree_serve (h : e.Alike keys f) (now : Timestamp) (r : Request) {resource : Resource}
    (hstats : resource ≠ .stats) :
    Agree (Engine.Alike keys) (serve e now r resource) (serve f now r resource) := by
  cases resource with
  | set =>
    simp only [serve]
    cases r.readSet with
    | error response => exact .intro h
    | ok request =>
      have hput : Agree (Engine.Alike keys)
          (e.put now request.key request.value request.timeToLive)
          (f.put now request.key request.value request.timeToLive) :=
        h.within (h.cache.write now _ _ _)
      simp only
      generalize e.put now request.key request.value request.timeToLive = x at hput ⊢
      generalize f.put now request.key request.value request.timeToLive = y at hput ⊢
      obtain @⟨answer, _, _, hwritten⟩ := hput
      cases answer <;> exact .intro hwritten
  | get key =>
    simp only [serve]
    cases Percent.decode? key with
    | none => exact .intro h
    | some key =>
      have hget : Agree (Engine.Alike keys) (e.get now key) (f.get now key) :=
        h.within (h.cache.lookup now key)
      simp only
      generalize e.get now key = x at hget ⊢
      generalize f.get now key = y at hget ⊢
      obtain @⟨answer, _, _, hfound⟩ := hget
      cases answer with
      | error why => exact .intro hfound
      | ok value => cases value <;> exact .intro hfound
  | delete key =>
    simp only [serve]
    cases Percent.decode? key with
    | none => exact .intro h
    | some key =>
      have hremove : Agree (Engine.Alike keys) (e.invalidate key) (f.invalidate key) :=
        h.within (h.cache.remove key)
      simp only
      generalize e.invalidate key = x at hremove ⊢
      generalize f.invalidate key = y at hremove ⊢
      obtain @⟨answer, _, _, hremoved⟩ := hremove
      cases answer <;> exact .intro hremoved
  | commit =>
    have hcommit := h.commit now
    simp only [serve]
    generalize e.commit now = x at hcommit ⊢
    generalize f.commit now = y at hcommit ⊢
    obtain @⟨outcome, _, _, hcommitted⟩ := hcommit
    cases outcome <;> exact .intro hcommitted
  | clear =>
    have hclear : Agree (Engine.Alike keys) e.clear f.clear := h.within h.cache.clear
    simp only [serve]
    generalize e.clear = x at hclear ⊢
    generalize f.clear = y at hclear ⊢
    obtain ⟨hcleared⟩ := hclear
    exact .intro hcleared
  | stats => exact absurd rfl hstats
  | health =>
    simp only [serve, h.ready]
    exact .intro h

/-- Engines that are alike answer a request alike and stay alike. -/
theorem respond_alike (h : e.Alike keys f) (now : Timestamp) (r : Request) :
    (respond e now r).2.Alike keys (respond f now r).2 ∧
      Unnoticed r (respond e now r).1 (respond f now r).1 := by
  cases hresource : r.resource? with
  | none =>
    obtain ⟨answer, hall⟩ := respond_of_no_resource (σ := σ) hresource
    rw [hall e now, hall f now]
    exact ⟨h, .same⟩
  | some resource =>
    rw [respond_of_resource hresource, respond_of_resource hresource]
    by_cases hstats : resource = .stats
    · subst hstats
      obtain ⟨hanswer, hafter⟩ := serve_stats e now r
      obtain ⟨hanswer', hafter'⟩ := serve_stats f now r
      rw [hanswer, hanswer', hafter, hafter']
      refine ⟨h, .stats hresource h.cache.counters ?_ ?_⟩
      · exact congrArg Store.size h.cache.store
      · exact congrArg Store.total h.cache.store
    · have hserve := agree_serve h now r hstats
      refine ⟨hserve.snd, ?_⟩
      rw [hserve.fst_eq]
      exact .same

/-! ### Rejections -/

/-- The keys whose removal the fence remembers because a resource was asked for: the one that is to
be deleted, while the load runs. -/
def Resource.fencedKeys (e : Engine σ) : Resource → List String
  | .delete key => if e.cache.isLoading then (Percent.decode? key).toList else []
  | .set | .get _ | .commit | .clear | .stats | .health => []

/-- The keys whose removal the fence remembers because of a request. -/
def Request.fencedKeys (r : Request) (e : Engine σ) : List String :=
  match r.resource? with
  | some resource => resource.fencedKeys e
  | none => []

variable [BlobStore.Blameless σ] {now : Timestamp} {r : Request} {response : Response}

/-- What is left behind by a resource that rejects a request: a lookup that was made is counted, and
a removal that was asked for is remembered while the load runs. -/
theorem alike_of_serve {resource : Resource} (hanswer : (serve e now r resource).1 = .ok response)
    (hrejected : 400 ≤ response.status ∧ response.status < 500) :
    (serve e now r resource).2.Alike (resource.fencedKeys e) e ∧
      ∀ key ∈ resource.fencedKeys e, response.status = 404 ∧ e.cache.isLoading = true ∧
        e.cache.store.find? key = none := by
  have hself : e.Alike [] e := .refl e
  have hdone (v : Json.Value) (h : jsonResponse 200 v = response) : False := by
    subst h
    exact absurd hrejected.1 (show ¬ 400 ≤ 200 by decide)
  have hfailed (err : CacheError) (hstatus : 500 ≤ err.status) (h : errorResponse err = response) :
      False := by
    subst h
    exact absurd hrejected.2 (Nat.not_lt.mpr hstatus)
  cases resource with
  | set =>
    refine ⟨?_, by simp [Resource.fencedKeys]⟩
    simp only [serve] at hanswer ⊢
    cases hread : r.readSet with
    | error refused => exact hself
    | ok request =>
      simp only [hread] at hanswer
      cases hput : e.put now request.key request.value request.timeToLive with
      | mk answer written =>
        rw [hput] at hanswer
        cases answer with
        | error why => cases hanswer
        | ok _ => exact (hdone _ (Except.ok.inj hanswer)).elim
  | get key =>
    refine ⟨?_, by simp [Resource.fencedKeys]⟩
    simp only [serve] at hanswer ⊢
    cases hdecode : Percent.decode? key with
    | none => exact hself
    | some key =>
      have hlookup : (e.get now key).2.Alike [] e := hself.onCache (.of_lookup e.cache now key)
      cases hget : e.get now key with
      | mk answer found =>
        rw [hget] at hlookup
        simp only [hdecode, hget] at hanswer ⊢
        cases answer with
        | error why => cases hanswer
        | ok value => cases value <;> exact hlookup
  | delete key =>
    simp only [serve, Resource.fencedKeys] at hanswer ⊢
    cases hdecode : Percent.decode? key with
    | none => simpa using hself
    | some key =>
      cases hinvalidate : e.invalidate key with
      | mk removed next =>
        simp only [hdecode, hinvalidate] at hanswer ⊢
        cases removed with
        | true => exact (hdone _ (Except.ok.inj hanswer)).elim
        | false =>
          cases hanswer
          obtain ⟨hremoved, hfind⟩ := Cache.Alike.of_remove (congrArg Prod.fst hinvalidate)
          have hnext : (e.invalidate key).2.Alike (if e.cache.isLoading then [key] else []) e :=
            ⟨hremoved, rfl, rfl, rfl, rfl⟩
          rw [hinvalidate] at hnext
          refine ⟨hnext, fun other hother => ?_⟩
          split at hother
          · obtain rfl : other = key := by simpa using hother
            exact ⟨rfl, ‹_›, hfind⟩
          · cases hother
  | commit =>
    simp only [serve] at hanswer
    cases hcommit : e.commit now with
    | mk outcome committed =>
      rw [hcommit] at hanswer
      cases outcome with
      | done report => exact (hdone _ (Except.ok.inj hanswer)).elim
      | abandoned why =>
        exact (hfailed (.internal "task") (Nat.le_refl 500) (Except.ok.inj hanswer)).elim
      | failed err =>
        have hstatus : 500 ≤ err.status := Gateway.status_of_commit (congrArg Prod.fst hcommit)
        exact (hfailed err hstatus (Except.ok.inj hanswer)).elim
  | clear => exact (hdone _ (Except.ok.inj hanswer)).elim
  | stats =>
    refine ⟨?_, by simp [Resource.fencedKeys]⟩
    rw [(serve_stats e now r).2]
    exact hself
  | health => exact ⟨hself, by simp [Resource.fencedKeys]⟩

/-- What a rejected request leaves behind. -/
theorem alike_of_rejected (hanswer : (respond e now r).1 = some (.ok response))
    (hrejected : 400 ≤ response.status ∧ response.status < 500) :
    (respond e now r).2.Alike (r.fencedKeys e) e ∧
      ∀ key ∈ r.fencedKeys e, response.status = 404 ∧ e.cache.isLoading = true ∧
        e.cache.store.find? key = none := by
  unfold Request.fencedKeys
  cases hresource : r.resource? with
  | none =>
    obtain ⟨answer, hall⟩ := respond_of_no_resource (σ := σ) hresource
    rw [hall e now]
    exact ⟨.refl e, by simp⟩
  | some resource =>
    rw [respond_of_resource hresource] at hanswer ⊢
    cases hserve : (serve e now r resource).1 with
    | error why =>
      rw [hserve] at hanswer
      cases hanswer
    | ok served =>
      rw [hserve] at hanswer
      cases hanswer
      rw [(r.finish_parts served).1] at hrejected ⊢
      exact alike_of_serve hserve hrejected

/-! ### What comes later -/

/-- What happens to an engine: a request, another call, or a step of the load. -/
inductive Event : Type 1
  | request (now : Timestamp) (r : Request)
  | call (call : Call)
  | load (now : Timestamp)

/-- An engine and its load after one thing has happened. The load passes over the keys of a list. -/
def after (keys : List String) (l : Loading σ) : Event → Loading σ
  | .request now r => ⟨(respond l.engine now r).2, l.stage⟩
  | .call call => ⟨(l.engine.perform call).2, l.stage⟩
  | .load now => l.proceedPast keys now

/-- The answers to the requests among what happens. -/
def answers (keys : List String) (l : Loading σ) :
    List Event → List (Request × Option (Except Abort Response))
  | [] => []
  | .request now r :: rest =>
    (r, (respond l.engine now r).1) :: answers keys (after keys l (.request now r)) rest
  | event :: rest => answers keys (after keys l event) rest

omit [BlobStore.Blameless σ]

variable {l m : Loading σ}

/-- Loads that are alike stay so whatever happens, if the other one passes over the keys. -/
theorem after_alike (h : l.Alike keys m) (event : Event) :
    (after [] l event).Alike keys (after keys m event) := by
  cases event with
  | request now r =>
    refine ⟨(respond_alike h.engine now r).1, h.stage, ?_⟩
    show (respond l.engine now r).2.cache.isLoading = true ∨ _
    rw [isLoading_respond]
    exact h.fenced
  | call call =>
    refine ⟨(h.engine.perform call).snd, h.stage, ?_⟩
    have hloading : (l.engine.perform call).2.cache.isLoading = l.engine.cache.isLoading :=
      (l.engine.standing_run [call]).1
    show (l.engine.perform call).2.cache.isLoading = true ∨ _
    rw [hloading]
    exact h.fenced
  | load now =>
    show (l.proceedPast [] now).Alike keys _
    rw [Loading.proceedPast_nil]
    exact h.proceed now

/-- Every request is answered alike. -/
theorem answers_alike (h : l.Alike keys m) (events : List Event) :
    List.Forall₂ (fun a b => a.1 = b.1 ∧ Unnoticed a.1 a.2 b.2) (answers [] l events)
      (answers keys m events) := by
  induction events generalizing l m with
  | nil => exact .nil
  | cons event rest ih =>
    have hrest := ih (after_alike h event)
    cases event with
    | request now r => exact .cons ⟨rfl, (respond_alike h.engine now r).2⟩ hrest
    | call call => exact hrest
    | load now => exact hrest

/-- Loads that are alike stay so in a run. -/
theorem run_alike (h : l.Alike keys m) (events : List Event) :
    (events.foldl (after []) l).Alike keys (events.foldl (after keys) m) := by
  induction events generalizing l m with
  | nil => exact h
  | cons event rest ih => exact ih (after_alike h event)

/-- An engine that is started over one blob. -/
def overDisk : Engine MemoryBlobs :=
  { Engine.standard with
    blobs := ⟨(∅ : BlobMap).insert "a"
      "\x7b\"serializedValue\":\"disk\",\"timestamp\":5,\"timeToLive\":null\x7d"⟩ }

/-- A request to delete its key. -/
def deletion : Request := ⟨"DELETE", "/del/a", [], ""⟩

/-- Before the load has brought the key in, it is not found, and the fence remembers it. -/
theorem respond_deletion :
    (respond overDisk 9 deletion).1 =
        some (.ok (deletion.finish (errorResponse (.notFound "a")))) ∧
      deletion.fencedKeys overDisk = ["a"] := by
  have hresource : deletion.resource? = some (.delete "a") := by decide +kernel
  have hdecode : Percent.decode? "a" = some "a" := by decide +kernel
  constructor
  · rw [respond_of_resource hresource]
    simp only [serve, hdecode]
    rfl
  · simp only [Request.fencedKeys, hresource, Resource.fencedKeys, hdecode]
    rfl

/-- The steps of the load over one blob. -/
def loadSteps : List Event := List.replicate 5 (.load 9)

/-- A blob store in memory that blames its caller when it is flushed. -/
structure Blaming where
  blobs : BlobMap

instance : BlobStore Blaming where
  getAll s := (.done s.blobs, s)
  get key s := (.done (s.blobs.find? key), s)
  put key blob s := (.done (), ⟨s.blobs.insert key blob⟩)
  remove key s := (.done (), ⟨s.blobs.erase key⟩)
  flush s := (.failed (.notFound "blobs"), s)

/-- An engine over such a blob store, with one entry in memory. -/
def blamed : Engine Blaming :=
  (Engine.perform { Engine.standard with blobs := (⟨∅⟩ : Blaming) } (.put 5 "a" "x" none)).2

/-- A request to commit. -/
def committal : Request := ⟨"POST", "/commit", [], ""⟩

/-- The commit fails with the error of the blob store, and has written the entry. -/
theorem respond_committal :
    (respond blamed 9 committal).1 =
        some (.ok (committal.finish (errorResponse (.notFound "blobs")))) ∧
      (respond blamed 9 committal).2.blobs.blobs.find? "a" ≠ none := by
  have hresource : committal.resource? = some .commit := by decide +kernel
  have houtcome : (blamed.commit 9).1 = .failed (.notFound "blobs") := by decide +kernel
  have hblobs : (blamed.commit 9).2.blobs.blobs.find? "a" ≠ none := by decide +kernel
  rw [respond_of_resource hresource]
  simp only [serve]
  cases hcommit : blamed.commit 9 with
  | mk outcome committed =>
    rw [hcommit] at houtcome hblobs
    simp only at houtcome
    subst houtcome
    exact ⟨rfl, hblobs⟩

/-- No rejected request shows later but in the numbers of lookups. -/
def RejectionsUnnoticed (σ : Type) [BlobStore σ] : Prop :=
  ∀ (config : Config) (estimator : Estimator) (blobs : σ) (e : Engine σ),
    Engine.start config estimator blobs = .ok e →
    ∀ (earlier events : List Event) (now : Timestamp) (r : Request) (response : Response),
      let l := earlier.foldl (after []) ⟨e, .waiting⟩
      let sent := (Event.request now r :: events).foldl (after []) l
      let unsent := events.foldl (after []) l
      (respond l.engine now r).1 = some (.ok response) →
      400 ≤ response.status ∧ response.status < 500 →
      List.Forall₂ (fun a b => a.1 = b.1 ∧ Unnoticed a.1 a.2 b.2)
        (answers [] (after [] l (.request now r)) events) (answers [] l events) ∧
      sent.engine.cache.store = unsent.engine.cache.store ∧
      sent.engine.blobs = unsent.engine.blobs

end DurableCache.Http
