import DurableCache.Http.Server
import DurableCache.Proofs.Engine.Calls

/-!
# What a request comes to

A request either is served by a resource, whose path and one of whose methods it has, or it is
answered without a look at the engine.
-/

namespace DurableCache.Http

variable {σ : Type} [BlobStore σ] {e : Engine σ} {now : Timestamp} {r : Request}
variable {resource : Resource}

/-- A request with good headers for the method and the target. -/
structure Request.Asks (r : Request) (method target : String) : Prop where
  method : r.method = method
  target : r.target = target
  headers : (r.headers.all fun h => isHeader h.1 h.2) = true

/-- The resource that serves a request: the one at its path, if the request has one of its
methods. -/
def Request.resource? (r : Request) : Option Resource :=
  (r.path?.bind Resource.ofPath?).filter fun resource => resource.methods.contains r.method

/-- What the answer to a request becomes for a head request and for other origins. -/
def Request.finish (r : Request) (response : Response) : Response :=
  (if r.method = "HEAD" then { response with body := .empty } else response).forAnyOrigin

/-- The answer that is finished has the same status, and for no head request the same body. -/
theorem Request.finish_parts (r : Request) (response : Response) :
    (r.finish response).status = response.status ∧
      (r.method ≠ "HEAD" → (r.finish response).body = response.body) := by
  unfold Request.finish Response.forAnyOrigin
  split
  · rename_i hhead
    exact ⟨rfl, fun hother => absurd hhead hother⟩
  · exact ⟨rfl, fun _ => rfl⟩

/-- A request with one of the methods of the resource at its path is served by that resource. -/
theorem resource?_of_path (path : List Char) (hpath : r.path? = some path)
    (hresource : Resource.ofPath? path = some resource) (hmethod : r.method ∈ resource.methods) :
    r.resource? = some resource := by
  rw [Request.resource?, hpath, Option.bind_some, hresource, Option.filter_some, if_pos]
  simpa using hmethod

/-- A request is answered as its resource serves it. -/
theorem respond_of_resource (h : r.resource? = some resource) :
    respond e now r =
      (some ((serve e now r resource).1.map r.finish), (serve e now r resource).2) := by
  obtain ⟨hfound, hcontains⟩ := Option.filter_eq_some_iff.mp h
  obtain ⟨path, hpath, hresource⟩ := Option.bind_eq_some_iff.mp hfound
  have hoptions : r.method ≠ "OPTIONS" := by
    intro heq
    rw [heq] at hcontains
    cases resource <;> simp [Resource.methods] at hcontains
  simp only [respond, hpath, respondAt, hoptions, hresource, hcontains, if_false, Bool.not_true,
    Bool.false_eq_true]
  cases hserve : serve e now r resource with
  | mk answer next =>
    cases answer with
    | ok response => rfl
    | error why => rfl

/-- A request that no resource serves has the same answer from every engine, and no effect. -/
theorem respond_of_no_resource (h : r.resource? = none) :
    ∃ answer, ∀ (e : Engine σ) (now : Timestamp), respond e now r = (answer, e) := by
  cases hpath : r.path? with
  | none => exact ⟨none, fun e now => by simp only [respond, hpath]⟩
  | some path =>
    by_cases hoptions : r.method = "OPTIONS"
    · refine ⟨some (.ok (optionsResponse (Resource.ofPath? path)).forAnyOrigin), fun e now => ?_⟩
      simp only [respond, hpath, respondAt, hoptions, if_true]
      rfl
    · cases hresource : Resource.ofPath? path with
      | none =>
        refine ⟨some (.ok (Response.mk 404 [] .empty).forAnyOrigin), fun e now => ?_⟩
        simp only [respond, hpath, respondAt, hoptions, hresource, if_false]
        rfl
      | some resource =>
        have hcontains : resource.methods.contains r.method = false := by
          simpa [Request.resource?, hpath, hresource, Option.filter_some] using h
        refine ⟨some (.ok (Response.mk 405 [resource.allow] .empty).forAnyOrigin), fun e now => ?_⟩
        simp only [respond, hpath, respondAt, hoptions, hresource, hcontains, if_false,
          Bool.not_false, if_true]
        rfl

end DurableCache.Http
