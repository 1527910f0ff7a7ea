import DurableCache.Proofs.Load.Ending

/-!
# Histories of an engine

An engine lives through calls, loads with calls between their reading and their merge, and starts
over its blobs. Calls may be abandoned in between, by sizes that do not fit as well as by the host
or the clock. Whatever becomes of the index then, the sum of the sizes stays right
(`Becomes.tallied`).
-/

namespace DurableCache

namespace Engine

variable {σ : Type} [BlobStore σ] {e e₀ : Engine σ} {calls before : List Call}
variable {P allows : Engine σ → Call → Prop}

/-- Every call of a list meets a condition when it is made. -/
def Throughout (P : Engine σ → Call → Prop) (e : Engine σ) : List Call → Prop
  | [] => True
  | call :: rest => P e call ∧ (e.perform call).2.Throughout P rest

instance decidableThroughout (P : Engine σ → Call → Prop) [∀ e call, Decidable (P e call)]
    (e : Engine σ) : (calls : List Call) → Decidable (e.Throughout P calls)
  | [] => isTrue trivial
  | call :: rest =>
    have := decidableThroughout P (e.perform call).2 rest
    inferInstanceAs (Decidable (_ ∧ _))

/-- What every call of a run meets is met in a beginning of it. -/
theorem Throughout.earlier (h : e.Throughout P calls) (hpart : before <+: calls) :
    e.Throughout P before := by
  induction before generalizing e calls with
  | nil => trivial
  | cons call rest ih =>
    obtain ⟨later, rfl⟩ := hpart
    obtain ⟨hcall, hrest⟩ := h
    exact ⟨hcall, ih hrest (List.prefix_append rest later)⟩

/-- The engines that allowed calls, loads and starts over the blobs make of an engine. Allowed calls
may come between the reading of a load and its merge. -/
inductive Becomes (allows : Engine σ → Call → Prop) (e₀ : Engine σ) : Engine σ → Prop
  | refl : Becomes allows e₀ e₀
  | call {e : Engine σ} (call : Call) : Becomes allows e₀ e → allows e call →
      Becomes allows e₀ (e.perform call).2
  | load {e : Engine σ} (now : Timestamp) (during : List Call) : Becomes allows e₀ e →
      (e.readBlobs now).2.Throughout allows during →
      Becomes allows e₀ (e.runLoadAmid now during).2
  | restart {e restarted : Engine σ} (config : Config) (estimator : Estimator) :
      Becomes allows e₀ e → start config estimator e.blobs = .ok restarted →
      Becomes allows e₀ restarted

/-! ### Right sums -/

/-- The sum of the memory is right. -/
def Tallied (e : Engine σ) : Prop := e.cache.store.Tallied e.cache.rules.estimator

omit [BlobStore σ] in
/-- The sum is right when an engine is started. -/
theorem tallied_start {config : Config} {estimator : Estimator} {blobs : σ}
    (h : start config estimator blobs = .ok e) : e.Tallied := by
  unfold Tallied
  rw [(start_ok h).1]
  exact Store.tallied_empty

/-- A call keeps the sum right, even if it is abandoned. -/
theorem Tallied.perform (h : e.Tallied) (call : Call) : (e.perform call).2.Tallied := by
  have hmade := e.made_perform call
  unfold Tallied
  rw [hmade.store, hmade.rules]
  exact Change.tallied_after h _

/-- Calls keep the sum right. -/
theorem Tallied.run (h : e.Tallied) (calls : List Call) : (e.run calls).Tallied := by
  induction calls generalizing e with
  | nil => exact h
  | cons call rest ih => exact ih (h.perform call)

/-- A load keeps the sum right, wherever it comes to its end. -/
theorem Tallied.runLoadAmid (h : e.Tallied) (now : Timestamp) (during : List Call) :
    (e.runLoadAmid now during).2.Tallied := by
  have hread : (e.readBlobs now).2.Tallied := h
  unfold Engine.runLoadAmid
  cases hcase : e.readBlobs now with
  | mk answer read =>
    rw [hcase] at hread
    have hrun : (read.run during).Tallied := hread.run during
    cases answer with
    | error why => exact hrun
    | ok loaded =>
      obtain ⟨hrules, htaken⟩ := Cache.tallied_takeIn hrun loaded
      unfold Tallied
      rw [((read.run during).endLoad_snd loaded).1, hrules]
      exact htaken

/-- The sum is right throughout. -/
theorem Becomes.tallied (h : e₀.Becomes allows e) (htallied : e₀.Tallied) : e.Tallied := by
  induction h with
  | refl => exact htallied
  | call call _ _ ih => exact ih.perform call
  | load now during _ _ ih => exact ih.runLoadAmid now during
  | restart config estimator _ hstart _ => exact tallied_start hstart

end Engine

end DurableCache
