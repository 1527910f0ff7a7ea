import DurableCache.Proofs.Engine.FreshWrites
import DurableCache.Proofs.Http.Bodies
import DurableCache.Proofs.Http.Routing
import DurableCache.Proofs.Http.Segments

/-!
# Values over requests

A value that was written by a request comes back as it was, whatever characters it and its key have
and however they are spelled in the body and in the path. The key can then be deleted by the same
segment of a path, and is not found any more (`values_come_back`).
-/

namespace DurableCache

namespace Cache

variable {c next : Cache} {key value : String} {now : Timestamp} {timeToLive : Option UInt64}

/-- Behind a write that has answered, a key has the entry that was written or none. -/
theorem find?_of_write (h : c.write now key value timeToLive = (.ok (), next)) :
    now ≤ latestTime ∧ (next.store.find? key ≠ none →
      next.store.find? key = some ⟨value, now, timeToLive⟩) := by
  unfold write at h
  cases hread : readClock now with
  | error why =>
    rw [hread] at h
    cases h
  | ok read =>
    obtain ⟨hclock, rfl⟩ := readClock_eq_ok_iff.mp hread
    refine ⟨hclock, fun hheld => ?_⟩
    simp only [hread, insert] at h
    cases hput : c.store.put c.rules.estimator key ⟨value, now, timeToLive⟩ with
    | mk answer written =>
      cases answer with
      | error why => simp [hput] at h
      | ok previous =>
        simp only [hput, trim] at h
        cases htrim : written.trim c.rules.budget with
        | none => simp [htrim] at h
        | some kept =>
          obtain ⟨evicted, kept⟩ := kept
          simp only [htrim, Prod.mk.injEq, true_and] at h
          subst h
          have hfind : kept.find? key = if key ∈ evicted then none
              else some ⟨value, now, timeToLive⟩ := by
            rw [Store.trim_eq_eraseAll htrim, Store.find?_eraseAll, Store.find?_put_ok hput,
              if_pos rfl]
          show kept.find? key = _
          have hkept : kept.find? key ≠ none := hheld
          rw [hfind] at hkept ⊢
          split
          · rename_i hgone
            exact absurd (if_pos hgone) hkept
          · rfl

end Cache

namespace Http

open Json Percent

variable {σ : Type} [BlobStore σ] {e after : Engine σ} {now : Timestamp} {r : Request}
variable {key value : String} {segment : List Char} {entry : Entry}

/-- A request was answered with a status. -/
def Answered (answer : Option (Except Abort Response)) (status : Nat) : Prop :=
  ∃ response, answer = some (.ok response) ∧ response.status = status

/-- A request was answered with a status and with a text that holds a value. -/
def AnsweredWith (answer : Option (Except Abort Response)) (status : Nat) (value : Value) : Prop :=
  ∃ response sent, answer = some (.ok response) ∧ response.status = status ∧
    response.body = .json sent ∧ decode (readValue deepest) sent.render = .ok value

/-- The path that a request asks for. -/
theorem Request.Asks.path? {method target : String} (h : r.Asks method target)
    (hmethod : isToken method = true) : r.path? = targetPath? target := by
  simp only [Request.path?, h.method, hmethod, h.target, h.headers, Bool.and_self, if_true]

/-- The keys that a request may write. -/
def Acceptable (key : String) : Prop := key ≠ "" ∧ key.length ≤ SetRequest.longestKey

/-- A request for the value of a key is served under its segment. -/
theorem respond_get (hget : r.Asks "GET" ("/get/" ++ String.ofList segment))
    (h : Encodes segment (utf8 key.toList)) (hkey : Acceptable key) :
    respond e now r =
      (some ((serve e now r (.get (String.ofList segment))).1.map r.finish),
        (serve e now r (.get (String.ofList segment))).2) := by
  refine respond_of_resource
    (resource?_of_path ("/get/".toList ++ segment) ?_ (ofPath?_get h hkey.1) ?_)
  · rw [hget.path? (by decide)]
    exact targetPath?_of_encodes (by decide) (by decide) (by decide) hkey.2 h
  · rw [hget.method]
    exact List.mem_cons_self

/-- A request to delete a key is served under its segment. -/
theorem respond_delete (hdelete : r.Asks "DELETE" ("/del/" ++ String.ofList segment))
    (h : Encodes segment (utf8 key.toList)) (hkey : Acceptable key) :
    respond e now r =
      (some ((serve e now r (.delete (String.ofList segment))).1.map r.finish),
        (serve e now r (.delete (String.ofList segment))).2) := by
  refine respond_of_resource
    (resource?_of_path ("/del/".toList ++ segment) ?_ (ofPath?_delete h hkey.1) ?_)
  · rw [hdelete.path? (by decide)]
    exact targetPath?_of_encodes (by decide) (by decide) (by decide) hkey.2 h
  · rw [hdelete.method]
    exact List.mem_cons_self

/-- A request to write is served. -/
theorem respond_set (hset : r.Asks "PUT" "/set") :
    respond e now r = (some ((serve e now r .set).1.map r.finish), (serve e now r .set).2) := by
  refine respond_of_resource (resource?_of_path "/set".toList ?_ (by decide +kernel) ?_)
  · rw [hset.path? (by decide)]
    decide
  · rw [hset.method]
    exact List.mem_cons_self

/-- A value that is held under a key and was written now is answered. -/
theorem answeredWith_get (hget : r.Asks "GET" ("/get/" ++ String.ofList segment))
    (h : Encodes segment (utf8 key.toList)) (hkey : Acceptable key) (hclock : now ≤ latestTime)
    {timeToLive : Option UInt64}
    (hfind : e.cache.store.find? key = some ⟨value, now, timeToLive⟩) :
    AnsweredWith (respond e now r).1 200 (valueBody key value) ∧
      (respond e now r).2.cache.store = e.cache.store := by
  have hlookup : (e.get now key).1 = .ok (some value) := Cache.lookup_self hclock hfind
  have hkeep : (e.get now key).2.cache.store = e.cache.store :=
    (Cache.turns_lookup e.cache now key).parts.2.2
  rw [respond_get hget h hkey]
  simp only [serve, decode?_of_encodes h]
  cases hanswer : e.get now key with
  | mk answer next =>
    rw [hanswer] at hlookup hkeep
    simp only at hlookup hkeep
    subst hlookup
    have hbody :=
      (r.finish_parts (jsonResponse 200 (valueBody key value))).2 (by rw [hget.method]; decide)
    exact ⟨⟨_, _, rfl, (r.finish_parts _).1, hbody, decode_valueBody key value⟩, hkeep⟩

/-- A key without an entry is not found, whatever the clock shows. -/
theorem answered_get_absent (hget : r.Asks "GET" ("/get/" ++ String.ofList segment))
    (h : Encodes segment (utf8 key.toList)) (hkey : Acceptable key)
    (hfind : e.cache.store.find? key = none) : Answered (respond e now r).1 404 := by
  have hlookup : (e.get now key).1 = .ok none := Cache.lookup_absent hfind
  rw [respond_get hget h hkey]
  simp only [serve, decode?_of_encodes h]
  cases hanswer : e.get now key with
  | mk answer next =>
    rw [hanswer] at hlookup
    simp only at hlookup
    subst hlookup
    exact ⟨_, rfl, (r.finish_parts _).1⟩

/-- A key with an entry is deleted. -/
theorem answered_delete (now : Timestamp)
    (hdelete : r.Asks "DELETE" ("/del/" ++ String.ofList segment))
    (h : Encodes segment (utf8 key.toList)) (hkey : Acceptable key)
    (hfind : e.cache.store.find? key = some entry) :
    Answered (respond e now r).1 200 ∧ (respond e now r).2.cache.store.find? key = none := by
  have hanswer : (e.invalidate key).1 = true := congrArg Option.isSome hfind
  have hgone : (e.invalidate key).2.cache.store.find? key = none := by
    show (e.cache.store.erase key).find? key = none
    rw [Store.find?_erase, if_pos rfl]
  rw [respond_delete hdelete h hkey]
  simp only [serve, decode?_of_encodes h]
  cases hremoved : e.invalidate key with
  | mk answer next =>
    rw [hremoved] at hanswer hgone
    simp only at hanswer hgone
    subst hanswer
    exact ⟨⟨_, rfl, (r.finish_parts _).1⟩, hgone⟩

/-! ### Requests to write -/

/-- A body that is refused is refused with a status of its own. -/
theorem status_of_readSet {response : Response} (h : r.readSet = .error response) :
    response.status ∈ [400, 413, 415, 422] := by
  unfold Request.readSet at h
  split at h
  · cases h
    exact (show (415 : Nat) ∈ [400, 413, 415, 422] by decide)
  split at h
  · cases h
    exact (show (413 : Nat) ∈ [400, 413, 415, 422] by decide)
  split at h
  · rename_i why _
    cases h
    cases why with
    | unfinished | malformed => exact (show (400 : Nat) ∈ [400, 413, 415, 422] by decide)
    | mismatch => exact (show (422 : Nat) ∈ [400, 413, 415, 422] by decide)
  · split at h
    · cases h
      exact (show (400 : Nat) ∈ [400, 413, 415, 422] by decide)
    · cases h

/-- A request that was read is what its body holds, and its key is acceptable. -/
theorem acceptable_of_readSet {request : SetRequest} (h : r.readSet = .ok request) :
    decodePart SetRequest.shape.read r.body = .ok request ∧ Acceptable request.key := by
  unfold Request.readSet at h
  split at h
  · cases h
  split at h
  · cases h
  split at h
  · cases h
  · rename_i read hread
    split at h
    · cases h
    · rename_i hcomplaint
      cases h
      exact ⟨hread, SetRequest.complaint?_eq_none_iff.mp hcomplaint⟩

/-- A body of any spelling is read as a request with an acceptable key. -/
theorem readSet_of_text {K V rest : List Char} {timeToLive : Option (Option UInt64)}
    (htype : (r.header? "content-type").any MediaType.isJson = true)
    (hsize : r.body.utf8ByteSize ≤ longestBody) (hK : Spells K key.toList)
    (hV : Spells V value.toList) (hbody : r.body.toList = SetRequest.text K V timeToLive ++ rest)
    (hkey : Acceptable key) : r.readSet = .ok ⟨key, value, timeToLive.join⟩ := by
  have hread : decodePart SetRequest.shape.read r.body = .ok ⟨key, value, timeToLive.join⟩ := by
    rw [decodePart, hbody, SetRequest.read_text hK hV]
    rfl
  have hcomplaint : SetRequest.complaint? ⟨key, value, timeToLive.join⟩ = none :=
    SetRequest.complaint?_eq_none_iff.mpr hkey
  simp only [Request.readSet, htype, Nat.not_lt.mpr hsize, hread, hcomplaint, Bool.not_true,
    Bool.false_eq_true, if_false]

/-- A request to write that was answered as done was read and has written its value. -/
theorem put_of_respond (hset : r.Asks "PUT" "/set") {response : Response}
    (h : respond e now r = (some (.ok response), after)) (hstatus : response.status = 200) :
    ∃ request, r.readSet = .ok request ∧
      e.put now request.key request.value request.timeToLive = (.ok (), after) := by
  rw [respond_set hset] at h
  simp only [serve] at h
  cases hread : r.readSet with
  | error refused =>
    simp only [hread, Prod.mk.injEq, Option.some.injEq, Except.map, Except.ok.injEq] at h
    obtain ⟨rfl, -⟩ := h
    rw [(r.finish_parts refused).1] at hstatus
    have hrefused := status_of_readSet hread
    rw [hstatus] at hrefused
    exact absurd hrefused (by decide)
  | ok request =>
    simp only [hread] at h
    refine ⟨request, rfl, ?_⟩
    cases hput : e.put now request.key request.value request.timeToLive with
    | mk answer next =>
      cases answer with
      | error why => simp [hput, Except.map] at h
      | ok _ =>
        simp only [hput, Prod.mk.injEq] at h
        rw [h.2]

/-- A request to write that was read is answered as done if its write is. -/
theorem respond_of_put (hset : r.Asks "PUT" "/set") {request : SetRequest}
    (hread : r.readSet = .ok request)
    (hput : e.put now request.key request.value request.timeToLive = (.ok (), after)) :
    respond e now r =
      (some (.ok (r.finish (jsonResponse 200 (setBody request.key)))), after) := by
  rw [respond_set hset]
  simp only [serve, hread, hput]
  rfl

/-- A request to write that holds any spelling of an acceptable key and of a value is answered as
done if its write is. And what was answered as done comes back: if the entry is still held, a
request under any segment that encodes the key answers the key and the value, a request to delete it
under the same segment is answered as done, and then it is not found any more. -/
theorem values_come_back (e : Engine σ) (now : Timestamp) {set : Request}
    (hset : set.Asks "PUT" "/set") :
    (∀ key value timeToLive K V rest, Acceptable key → Spells K key.toList →
        Spells V value.toList → set.body.toList = SetRequest.text K V timeToLive ++ rest →
        (set.header? "content-type").any MediaType.isJson = true →
        set.body.utf8ByteSize ≤ longestBody →
        set.readSet = .ok ⟨key, value, timeToLive.join⟩ ∧
          ∀ after, e.put now key value timeToLive.join = (.ok (), after) →
            Answered (respond e now set).1 200 ∧ (respond e now set).2 = after) ∧
      ∀ response after, respond e now set = (some (.ok response), after) → response.status = 200 →
        ∃ request, decodePart SetRequest.shape.read set.body = .ok request ∧
          Acceptable request.key ∧ (∃ segment, Encodes segment (utf8 request.key.toList)) ∧
          (after.cache.store.find? request.key ≠ none →
            ∀ segment get delete, Encodes segment (utf8 request.key.toList) →
              get.Asks "GET" ("/get/" ++ String.ofList segment) →
              delete.Asks "DELETE" ("/del/" ++ String.ofList segment) →
              AnsweredWith (respond after now get).1 200 (valueBody request.key request.value) ∧
              ∀ between ∈ [after, (respond after now get).2],
                Answered (respond between now delete).1 200 ∧
                ∀ later, Answered (respond (respond between now delete).2 later get).1 404) := by
  constructor
  · intro key value timeToLive K V rest hkey hK hV hbody htype hsize
    have hread := readSet_of_text htype hsize hK hV hbody hkey
    refine ⟨hread, fun after hput => ?_⟩
    rw [respond_of_put hset hread hput]
    exact ⟨⟨_, rfl, (set.finish_parts _).1⟩, rfl⟩
  · intro response after hanswer hstatus
    obtain ⟨request, hread, hput⟩ := put_of_respond hset hanswer hstatus
    obtain ⟨hdecoded, hkey⟩ := acceptable_of_readSet hread
    refine ⟨request, hdecoded, hkey, ⟨_, encodes_escapeAll _⟩, ?_⟩
    intro hheld segment get delete hsegment hget hdelete
    have hwrite : e.cache.write now request.key request.value request.timeToLive =
        (.ok (), after.cache) := by
      have hcache := congrArg (fun answer => (answer.1, answer.2.cache)) hput
      exact hcache
    obtain ⟨hclock, hentry⟩ := Cache.find?_of_write hwrite
    have hfind := hentry hheld
    obtain ⟨hfound, hstore⟩ := answeredWith_get hget hsegment hkey hclock hfind
    refine ⟨hfound, fun between hbetween => ?_⟩
    have hbetweenStore : between.cache.store = after.cache.store := by
      simp only [List.mem_cons, List.not_mem_nil, or_false] at hbetween
      rcases hbetween with rfl | rfl
      · rfl
      · exact hstore
    rw [← hbetweenStore] at hfind
    obtain ⟨hdeleted, hgone⟩ := answered_delete now hdelete hsegment hkey hfind
    exact ⟨hdeleted, fun later => answered_get_absent hget hsegment hkey hgone⟩

/-- A request whose key has a slash, a percent sign, a letter with an accent and a quote, and whose
value is a pair of surrogates and a zero character. -/
def spelled : Request where
  method := "PUT"
  target := "/set"
  headers := [("content-type", "application/json")]
  body := "\x7b\"key\":\"\\u002f%é\\\"\",\"value\":\"\\ud83D\\uDE00\\u0000\"\x7d"

/-- A segment of a path that encodes that key. -/
def encoded : List Char := "%2f%25%c3%A9%22".toList

/-- A request without a body under that segment. -/
def under (method front : String) : Request := ⟨method, front ++ String.ofList encoded, [], ""⟩

/-- The value of that key comes back and can be deleted. -/
theorem values_come_back_spelled :
    spelled.Asks "PUT" "/set" ∧ Answered (respond (Engine.roomFor 1) 5 spelled).1 200 ∧
      AnsweredWith (respond (respond (Engine.roomFor 1) 5 spelled).2 5 (under "GET" "/get/")).1 200
        (valueBody "/%é\"" "😀\x00") ∧
      Answered
        (respond (respond (Engine.roomFor 1) 5 spelled).2 5 (under "DELETE" "/del/")).1 200 := by
  have hset : spelled.Asks "PUT" "/set" := ⟨rfl, rfl, by decide⟩
  have hget : (under "GET" "/get/").Asks "GET" ("/get/" ++ String.ofList encoded) :=
    ⟨rfl, rfl, by decide⟩
  have hdelete : (under "DELETE" "/del/").Asks "DELETE" ("/del/" ++ String.ofList encoded) :=
    ⟨rfl, rfl, by decide⟩
  have hsegment : Encodes encoded (utf8 "/%é\"".toList) := by
    have hbytes : utf8 "/%é\"".toList = [0x2f, 0x25, 0xc3, 0xa9, 0x22] := by decide
    have hdigit : ∀ pair ∈
        [('2', 2), ('f', 15), ('5', 5), ('c', 12), ('3', 3), ('A', 10), ('9', 9)],
        Text.IsHexDigit pair.1 pair.2 := by
      unfold Text.IsHexDigit
      decide
    rw [hbytes]
    refine .escape (hdigit ('2', 2) (by decide)) (hdigit ('f', 15) (by decide)) ?_
    refine .escape (hdigit ('2', 2) (by decide)) (hdigit ('5', 5) (by decide)) ?_
    refine .escape (hdigit ('c', 12) (by decide)) (hdigit ('3', 3) (by decide)) ?_
    refine .escape (hdigit ('A', 10) (by decide)) (hdigit ('9', 9) (by decide)) ?_
    exact .escape (hdigit ('2', 2) (by decide)) (hdigit ('2', 2) (by decide)) .nil
  have hkey : Spells "\\u002f%é\\\"".toList "/%é\"".toList := by
    refine .unit ⟨⟨by decide, by decide⟩, ⟨by decide, by decide⟩, ⟨by decide, by decide⟩,
      ⟨by decide, by decide⟩⟩ ?_
    refine .plain (by decide) (by decide) (by decide) ?_
    refine .plain (by decide) (by decide) (by decide) ?_
    exact .short (by decide) .nil
  have hvalue : Spells "\\ud83D\\uDE00\\u0000".toList "😀\x00".toList := by
    refine .pair (by decide)
      ⟨⟨by decide, by decide⟩, ⟨by decide, by decide⟩, ⟨by decide, by decide⟩,
      ⟨by decide, by decide⟩⟩ ⟨⟨by decide, by decide⟩, ⟨by decide, by decide⟩,
      ⟨by decide, by decide⟩, ⟨by decide, by decide⟩⟩ ?_
    exact .unit ⟨⟨by decide, by decide⟩, ⟨by decide, by decide⟩, ⟨by decide, by decide⟩,
      ⟨by decide, by decide⟩⟩ .nil
  have hbody : spelled.body.toList = SetRequest.text "\\u002f%é\\\"".toList
      "\\ud83D\\uDE00\\u0000".toList none ++ [] := by decide
  obtain ⟨hwrites, hback⟩ := values_come_back (Engine.roomFor 1) 5 hset
  obtain ⟨hread, hwritten⟩ := hwrites "/%é\"" "😀\x00" none _ _ _ ⟨by decide, by decide⟩ hkey hvalue
    hbody (by decide +kernel) (by decide)
  obtain ⟨⟨response, hanswer, hstatus⟩, hafter⟩ :=
    hwritten ((Engine.roomFor 1).put 5 "/%é\"" "😀\x00" none).2 (Prod.ext (by rfl) rfl)
  have hheld :
      ((Engine.roomFor 1).put 5 "/%é\"" "😀\x00" none).2.cache.store.find? "/%é\"" ≠ none := by
    decide
  rw [← hafter] at hheld
  obtain ⟨request, hrequest, -, -, hreads⟩ := hback response _ (Prod.ext hanswer rfl) hstatus
  obtain rfl : request = ⟨"/%é\"", "😀\x00", none⟩ := by
    rw [(acceptable_of_readSet hread).1] at hrequest
    exact (Except.ok.inj hrequest).symm
  obtain ⟨hfound, hdeleted⟩ := hreads hheld _ _ _ hsegment hget hdelete
  exact ⟨hset, ⟨response, hanswer, hstatus⟩, hfound, (hdeleted _ List.mem_cons_self).1⟩

end Http

end DurableCache
