import DurableCache.Proofs.Engine.Populations
import DurableCache.Proofs.Json.Values

/-!
# Values that are put as JSON

A value that is put as JSON is delivered again by conversions from JSON, as long as its text is held
and fresh. The writer goes down to any depth and the reader does not, so what is nested too deeply
is put and never delivered.
-/

namespace DurableCache

open Json

namespace Counters

/-- Counts a hit, and that its conversion came to nothing if it did. -/
def delivered {α : Type} (c : Counters) : Option α → Counters
  | some _ => c.hit
  | none => c.hit.conversionFailure

/-- A conversion is counted by what it delivers. -/
theorem converted_eq_delivered {α : Type} (c : Counters) (result : Except ConversionFault α) :
    c.hit.converted (some result) = c.delivered result.toOption := by
  cases result <;> rfl

end Counters

/-- What conversions from JSON make of the text of a plain value. -/
theorem Converter.anyJson_render {v : Value} (h : v.Plain) :
    (anyJson v.render).toOption = if v.depth ≤ deepest then some v.sorted else none := by
  unfold anyJson json
  rw [decode_render deepest h]
  by_cases hfits : v.depth ≤ deepest
  · rw [if_pos hfits, if_pos hfits]
    rfl
  · rw [if_neg hfits, if_neg hfits]
    rfl

namespace Engine

variable {σ α : Type} {e e₀ : Engine σ} {key text : String} {now : Timestamp}
variable {timeToLive : Option UInt64} {converter : Converter α} {answer : Option α} {v : Value}
variable {size : Nat}

/-- Lookups and populations with a conversion deliver this for a key, or nothing. They fetch nothing
and leave everything as it was but the counters. -/
structure Delivers (e : Engine σ) (now : Timestamp) (key : String) (converter : Converter α)
    (answer : Option α) : Prop where
  lookup : e.getAs now converter key = (.ok answer, e.counting (e.cache.counters.delivered answer))
  population (returned : Timestamp) (timeToLive : Option UInt64) (fetch : Fetch) :
    e.populateAs now returned converter key timeToLive fetch =
      (⟨false, .ok answer⟩, e.counting (e.cache.counters.delivered answer))

/-- What a converter makes of a fresh text is delivered. -/
theorem delivers_of_fresh (hclock : now ≤ latestTime) (hfresh : e.cache.fresh? now key = some text)
    (hconvert : (converter text).toOption = answer) : e.Delivers now key converter answer := by
  subst hconvert
  constructor
  · have hlookup := Cache.lookupAs_eq_of_fresh (fun _ => hclock) hfresh converter
    rw [Counters.converted_eq_delivered] at hlookup
    exact onCache_eq_iff.mpr ⟨_, hlookup, rfl⟩
  · intro returned timeToLive fetch
    have hplain : e.cache.populate now returned key timeToLive fetch =
        (⟨false, .ok (some text)⟩, { e.cache with counters := e.cache.counters.hit }) :=
      Cache.populate_of_fresh (fun _ => hclock) hfresh
    have hpopulate := Cache.populateAs_of_populate hplain converter
    rw [Option.map_some, Counters.converted_eq_delivered] at hpopulate
    exact onCache_eq_iff.mpr ⟨_, hpopulate, rfl⟩

/-- A value is put as its text, if the clock can show the time and the sizes fit. -/
theorem putJson_done (hs : e.Sound) (hclock : now ≤ latestTime)
    (hfits : e.cache.FitsWrite key ⟨v.render, now, timeToLive⟩ size) :
    e.putJson now key (.ok v) timeToLive = (.done (), (e.put now key v.render timeToLive).2) := by
  have hwrite : (e.put now key v.render timeToLive).1 = .ok () :=
    Cache.write_answers hs hclock hfits
  unfold putJson
  cases hput : e.put now key v.render timeToLive with
  | mk result next =>
    rw [hput] at hwrite
    obtain rfl : result = .ok () := hwrite
    simp only [hput]

variable [BlobStore σ] {config : Config} {estimator : Estimator} {blobs : σ}

/-- Arrays inside one another, one more than the number. -/
def nested : Nat → Value
  | 0 => .array []
  | n + 1 => .array [nested n]

/-- Every such value is plain and in order, and as deep as it is built. -/
theorem nested_depth (n : Nat) :
    (nested n).Plain ∧ (nested n).Ordered ∧ (nested n).depth = n + 1 := by
  induction n with
  | zero =>
    refine ⟨.array fun v hv => ?_, .array fun v hv => ?_, rfl⟩
    · cases hv
    · cases hv
  | succ n ih =>
    obtain ⟨hplain, hordered, hdepth⟩ := ih
    refine ⟨.array (List.forall_mem_singleton.mpr hplain),
      .array (List.forall_mem_singleton.mpr hordered), ?_⟩
    simp [nested, Value.depth, Value.depthItems, hdepth]

/-- What is put into an engine with room for it is held and fresh. -/
theorem fresh?_roomFor (text : String) :
    ((roomFor 1).put 5 "k" text none).2.cache.fresh? 6 "k" = some text := rfl

/-- Putting a value as JSON and converting it back are inverse up to the limit of nesting. A value
is put at a time that the clock can show and if the sizes fit, to whatever depth it is nested. As
long as its text is held and fresh, lookups and populations with a conversion to any JSON deliver
the value with its members in the order of their names, which is the value itself if they were in
order, unless more than 127 arrays and objects are inside one another: then they deliver nothing and
count a conversion that failed. In either case nothing but the counters is changed. The same holds
of points and of lists of strings, which are not nested too deeply. -/
theorem putJson_inverse (hstart : start config estimator blobs = .ok e₀) (hreach : e₀.Reaches e)
    (hclock : now ≤ latestTime) (hsize : estimator.size? ⟨v.render, now, timeToLive⟩ = some size)
    (hsum : (e.cache.store.erase key).total + size < wordLimit) :
    e.putJson now key (.ok v) timeToLive = (.done (), (e.put now key v.render timeToLive).2) ∧
      ∀ (held : Engine σ) (later : Timestamp), later ≤ latestTime →
        held.cache.fresh? later key = some v.render →
        (v.Plain →
          held.Delivers later key .anyJson (if v.depth ≤ 127 then some v.sorted else none) ∧
          (v.Ordered →
            held.Delivers later key .anyJson (if v.depth ≤ 127 then some v else none))) ∧
        (∀ p : Point, v = p.toJson → held.Delivers later key (.json Point.shape.read) (some p)) ∧
        (∀ texts : List String, v = .array (texts.map .string) →
          held.Delivers later key (.json (readList readText)) (some texts)) := by
  have hs : e.Sound := hreach.sound (sound_start hstart)
  have hfits : e.cache.FitsWrite key ⟨v.render, now, timeToLive⟩ size := by
    refine ⟨?_, hsum⟩
    rw [hreach.rules_of_start hstart]
    exact hsize
  refine ⟨putJson_done hs hclock hfits, fun held later hlater hfresh => ⟨fun hplain => ?_, ?_, ?_⟩⟩
  · have hsorted := delivers_of_fresh hlater hfresh (Converter.anyJson_render hplain)
    refine ⟨hsorted, fun hordered => ?_⟩
    rwa [hordered.sorted_eq] at hsorted
  · rintro p rfl
    refine delivers_of_fresh hlater hfresh ?_
    rw [Converter.json, p.decode_render]
    rfl
  · rintro texts rfl
    refine delivers_of_fresh hlater hfresh ?_
    rw [Converter.json, decode_render_strings]
    rfl

/-- Arrays inside one another are put at every depth. Up to 127 of them are delivered again, and
more are not. -/
theorem putJson_inverse_nested :
    ((roomFor 1).putJson 5 "k" (.ok (nested 126)) none).1 = .done () ∧
      (((roomFor 1).put 5 "k" (nested 126).render none).2.getAs 6 .anyJson "k").1 =
        .ok (some (nested 126)) ∧
      ((roomFor 1).putJson 5 "k" (.ok (nested 127)) none).1 = .done () ∧
      (((roomFor 1).put 5 "k" (nested 127).render none).2.getAs 6 .anyJson "k").1 = .ok none := by
  have hstart : start { Config.standard with maxMemoryBytes := 1 } (.flat 1) (roomFor 1).blobs =
      .ok (roomFor 1) := rfl
  have hclock : (5 : Timestamp) ≤ latestTime := by decide
  have hinverse (n : Nat) : ((roomFor 1).putJson 5 "k" (.ok (nested n)) none).1 = .done () ∧
      (((roomFor 1).put 5 "k" (nested n).render none).2.getAs 6 .anyJson "k").1 =
        .ok (if n + 1 ≤ 127 then some (nested n) else none) := by
    obtain ⟨hplain, hordered, hdepth⟩ := nested_depth n
    have hsize : (Estimator.flat 1).size? ⟨(nested n).render, 5, none⟩ = some 1 := rfl
    have hsum : ((roomFor 1).cache.store.erase "k").total + 1 < wordLimit := by decide
    obtain ⟨hput, hdelivers⟩ := putJson_inverse hstart .start hclock hsize hsum
    obtain ⟨hany, -⟩ := hdelivers _ 6 (by decide) (fresh?_roomFor _)
    have hheld := ((hany hplain).2 hordered).lookup
    rw [hdepth] at hheld
    exact ⟨congrArg Prod.fst hput, congrArg Prod.fst hheld⟩
  exact ⟨(hinverse 126).1, (hinverse 126).2, (hinverse 127).1, (hinverse 127).2⟩

/-- An object whose first member has the name of a holder is put and not delivered, although it is
not nested deeply. Beyond the last time of the clock, and if a size does not fit, nothing is put. -/
theorem not_putJson_inverse :
    (let v : Value := .object [(holderName, .string "1"), ("a", .integer 0)]
      let next := ((roomFor 1).putJson 5 "k" (.ok v) none).2;
      ((roomFor 1).putJson 5 "k" (.ok v) none).1 = .done () ∧ v.Ordered ∧ v.depth = 1 ∧
        next.cache.fresh? 6 "k" = some v.render ∧ (next.getAs 6 .anyJson "k").1 = .ok none ∧
        (next.getAs 6 .anyJson "k").2.cache.counters.conversionFailures = 1) ∧
    ((roomFor 1).putJson (latestTime + 1) "k" (.ok .null) none).1 = .abandoned .clockOverrun ∧
    (weighty.putJson 5 "k" (.ok (.integer 12345678)) none).1 = .abandoned .sizeOverflow := by
  refine ⟨?_, rfl, by decide +kernel⟩
  intro v next
  have hordered : v.Ordered := by
    refine .object ?_ (List.forall_mem_cons.mpr ⟨.string "1", ?_⟩)
    · exact List.pairwise_pair.mpr (show compare holderName "a" = .lt by decide)
    · exact List.forall_mem_singleton.mpr (.integer 0)
  have hfresh : next.cache.fresh? 6 "k" = some v.render := fresh?_roomFor v.render
  have hnothing : (Converter.anyJson v.render).toOption = none := by
    have hnone : (Converter.anyJson v.render).toOption.isNone = true := by decide +kernel
    exact Option.isNone_iff_eq_none.mp hnone
  have hdelivers := delivers_of_fresh (by decide) hfresh hnothing
  refine ⟨rfl, hordered, rfl, hfresh, congrArg Prod.fst hdelivers.lookup, ?_⟩
  rw [hdelivers.lookup]
  rfl

end Engine

end DurableCache
