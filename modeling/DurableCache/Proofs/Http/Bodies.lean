import DurableCache.Http.Bodies
import DurableCache.Http.SetRequest
import DurableCache.Proofs.Json.Values

/-!
# Bodies of requests and responses

A request to write is read from every spelling of its key and value, and the body that answers a
value is read back as that key and value.
-/

namespace DurableCache.Http

open Json

variable {K V rest : List Char} {key value : String} {steps : Nat}

namespace SetRequest

variable {draft : Draft}

/-- The body of a request to write, with spellings of its key and value. The time to live may be
left out or be null. -/
def text (key value : List Char) (timeToLive : Option (Option UInt64)) : List Char :=
  '{' :: (writeString "key" ++ ':' :: '"' :: (key ++ '"' ::
    ',' :: (writeString "value" ++ ':' :: '"' :: (value ++ '"' ::
      match timeToLive with
      | none => ['}']
      | some t =>
        ',' :: (writeString "ttl_ms" ++ ':' ::
          ((Value.ofOption (fun t => .natural t.toNat) t).write ++ ['}']))))))

/-- The key is read as a member. -/
theorem readMember_key (h : Spells K key.toList) (hset : draft.key = none) :
    shape.readMember steps draft "key" (':' :: '"' :: (K ++ '"' :: rest)) =
      .ok ({ draft with key := some key }, rest) := by
  have hread : readText ('"' :: (K ++ '"' :: rest)) = .ok (key, rest) := readString_of_spells h rest
  refine Shape.readMember_of_field rfl (by simp [hset]) ?_
  simp only [hread, Except.map]

/-- The value is read as a member. -/
theorem readMember_value (h : Spells V value.toList) (hset : draft.value = none) :
    shape.readMember steps draft "value" (':' :: '"' :: (V ++ '"' :: rest)) =
      .ok ({ draft with value := some value }, rest) := by
  have hread : readText ('"' :: (V ++ '"' :: rest)) = .ok (value, rest) :=
    readString_of_spells h rest
  refine Shape.readMember_of_field rfl (by simp [hset]) ?_
  simp only [hread, Except.map]

/-- The time to live is read as a member. -/
theorem readMember_timeToLive (hset : draft.timeToLive = none) (t : Option UInt64)
    (hrest : EndsValue rest) :
    shape.readMember steps draft "ttl_ms"
        (':' :: ((Value.ofOption (fun t => .natural t.toNat) t).write ++ rest)) =
      .ok ({ draft with timeToLive := some t }, rest) := by
  refine Shape.readMember_of_field rfl (by simp [hset]) ?_
  simp only [readOptional_ofOption t hrest.endsNumber, Except.map]

/-- A request is read from every spelling of its key and value. -/
theorem read_text (hkey : Spells K key.toList) (hvalue : Spells V value.toList)
    (timeToLive : Option (Option UInt64)) (rest : List Char) :
    shape.read (text K V timeToLive ++ rest) = .ok (⟨key, value, timeToLive.join⟩, rest) := by
  cases timeToLive with
  | none =>
    simp only [text, List.cons_append, List.append_assoc, List.nil_append]
    refine Shape.read_of_foldMembers ⟨some key, some value, none⟩ 3 (fun room steps => ?_) ?_ rfl
    · rw [foldMembers_first (readMember_key hkey rfl),
        foldMembers_next (readMember_value hvalue rfl)]
      exact foldMembers_close
    · simp only [writeString, List.length_append, List.length_cons]
      omega
  | some t =>
    simp only [text, List.cons_append, List.append_assoc, List.nil_append]
    refine Shape.read_of_foldMembers ⟨some key, some value, some t⟩ 4 (fun room steps => ?_) ?_ rfl
    · rw [foldMembers_first (readMember_key hkey rfl),
        foldMembers_next (readMember_value hvalue rfl),
        foldMembers_next (readMember_timeToLive rfl t (endsValue_brace _))]
      exact foldMembers_close
    · simp only [writeString, List.length_append, List.length_cons]
      omega

end SetRequest

/-- The body of a value is read back as the key and the value. -/
theorem decode_valueBody (key value : String) :
    decode (readValue deepest) (valueBody key value).render = .ok (valueBody key value) := by
  have hplain : (valueBody key value).Plain := by
    refine .object (fun m hm => ?_) (List.forall_mem_cons.mpr ⟨.string key, ?_⟩)
    · cases hm
      exact show "key" ≠ holderName by decide
    · exact List.forall_mem_singleton.mpr (.string value)
  have hordered : (valueBody key value).Ordered := by
    refine .object ?_ (List.forall_mem_cons.mpr ⟨.string key, ?_⟩)
    · exact List.pairwise_pair.mpr (show compare "key" "value" = .lt by decide)
    · exact List.forall_mem_singleton.mpr (.string value)
  have hdepth : (valueBody key value).depth ≤ deepest := by
    simp [valueBody, Value.depth, Value.depthMembers, deepest]
  rw [decode_render deepest hplain, if_pos hdepth, hordered.sorted_eq]

end DurableCache.Http
