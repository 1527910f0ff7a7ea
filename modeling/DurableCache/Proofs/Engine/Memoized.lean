import DurableCache.Proofs.Engine.Provenance

/-!
# Memoized operations

The key of an operation's output joins the operation and its parts with colons, so it is the list of
what stands between the colons that matters (`operationKey_eq_iff`). Calls that agree in these
pieces share one output. Calls that do not never do: what one of them has produced is not delivered
by the other (`memoize_shares_pieces`). Operations and parts without colons are pieces themselves.
-/

namespace DurableCache

namespace Engine

variable {operation other : String} {parts others : List String}

/-! ### Keys -/

/-- What stands between the colons of an operation and its parts. -/
def pieces (operation : String) (parts : List String) : List (List Char) :=
  (operation :: parts).flatMap fun name => name.toList.splitOn ':'

/-- An operation's key puts colons between the operation and its parts. -/
theorem operationKey_eq_intercalate (operation : String) (parts : List String) :
    operationKey operation parts = ":".intercalate (operation :: parts) := by
  cases parts with
  | nil => simp [operationKey]
  | cons part rest =>
    rw [String.intercalate_cons_cons]
    rfl

/-- The pieces of lists that are joined with a separator are the pieces of each list. -/
theorem splitOn_intercalate_flatMap (names : List (List Char)) (hnames : names ≠ []) :
    ([':'].intercalate names).splitOn ':' = names.flatMap (List.splitOn ':') := by
  induction names with
  | nil => exact absurd rfl hnames
  | cons name rest ih =>
    cases rest with
    | nil => simp [List.intercalate]
    | cons next rest =>
      have hjoin : [':'].intercalate (name :: next :: rest) =
          name ++ ':' :: [':'].intercalate (next :: rest) := by
        simp [List.intercalate, List.intersperse]
      rw [hjoin, List.splitOn_append_cons_self, ih (List.cons_ne_nil _ _)]
      rfl

/-- The pieces can be read off the key. -/
theorem splitOn_operationKey (operation : String) (parts : List String) :
    (operationKey operation parts).toList.splitOn ':' = pieces operation parts := by
  rw [operationKey_eq_intercalate, String.toList_intercalate, pieces]
  have hsplit := splitOn_intercalate_flatMap ((operation :: parts).map String.toList) (by simp)
  rw [List.flatMap_map] at hsplit
  exact hsplit

/-- Two keys are the same exactly if the pieces are. -/
theorem operationKey_eq_iff :
    operationKey operation parts = operationKey other others ↔
      pieces operation parts = pieces other others := by
  constructor
  · intro hkey
    rw [← splitOn_operationKey, ← splitOn_operationKey, hkey]
  · intro hpieces
    rw [← splitOn_operationKey, ← splitOn_operationKey] at hpieces
    have hlist := congrArg [':'].intercalate hpieces
    rw [List.intercalate_splitOn, List.intercalate_splitOn] at hlist
    exact String.ext hlist

/-- Names without colons are pieces themselves. -/
theorem pieces_of_colonless (h : ∀ name ∈ operation :: parts, ':' ∉ name.toList) :
    pieces operation parts = (operation :: parts).map String.toList := by
  unfold pieces
  rw [List.map_eq_flatMap]
  refine List.flatMap_congr fun name hname => ?_
  exact List.splitOn_eq_singleton (h name hname)

/-- An operation and parts without colons can be read off the key. -/
theorem eq_of_operationKey_eq (h : ∀ name ∈ operation :: parts, ':' ∉ name.toList)
    (hother : ∀ name ∈ other :: others, ':' ∉ name.toList)
    (hkey : operationKey operation parts = operationKey other others) :
    operation = other ∧ parts = others := by
  have hpieces := operationKey_eq_iff.mp hkey
  rw [pieces_of_colonless h, pieces_of_colonless hother] at hpieces
  have hnames := (List.map_inj_right fun _ _ hsame => String.ext hsame).mp hpieces
  exact List.cons.inj hnames

end Engine

/-! ### Deliveries -/

namespace Cache

variable {c : Cache} {now returned : Timestamp} {key text : String} {timeToLive : Option UInt64}
variable {fetch : Fetch}

/-- What a population delivers is held under the key, or the fetch has brought it. -/
theorem delivered_of_populate
    (h : (c.populate now returned key timeToLive fetch).1.result = .ok (some text)) :
    ((c.populate now returned key timeToLive fetch).1.fetched = false ∧
      ∃ entry, c.store.find? key = some entry ∧ entry.value = text) ∨
    ((c.populate now returned key timeToLive fetch).1.fetched = true ∧
      fetch key = .value text) := by
  have hanswer := c.beginPopulation_fst now key
  unfold populate at h ⊢
  cases hbegin : c.beginPopulation now key with
  | mk answer begun =>
    rw [hbegin] at hanswer
    match answer with
    | .error why => simp [hbegin] at h
    | .ok (some value) =>
      simp only [hbegin] at h ⊢
      rw [h] at hanswer
      obtain ⟨entry, hfind, hvalue, -⟩ := fresh_of_lookup hanswer.symm
      exact Or.inl ⟨trivial, entry, hfind, hvalue⟩
    | .ok none =>
      simp only [hbegin] at h ⊢
      refine Or.inr ⟨trivial, ?_⟩
      unfold finishPopulation at h
      cases hfetched : fetch key with
      | value fetched =>
        simp only [hfetched] at h
        split at h
        · cases h
          rfl
        · cases h
      | nothing => simp [hfetched] at h
      | failed => simp [hfetched] at h
      | broken => simp [hfetched] at h

end Cache

namespace Change

/-- A fetch for one key writes nothing under another one. -/
theorem written?_ofFetched_of_ne {now : Timestamp} {key other : String}
    {timeToLive : Option UInt64} {fetched : Fetched} (hne : key ≠ other) :
    (ofFetched now key timeToLive fetched).written? other = none := by
  cases fetched with
  | value text =>
    rw [ofFetched, writeAt]
    split
    · rw [written?, if_neg hne]
    · rfl
  | nothing => rfl
  | failed => rfl
  | broken => rfl

end Change

namespace Engine

variable {operation other : String} {parts others : List String}

/-- Memoized calls of one operation deliver nothing that calls of another have produced. Whenever a
call of the first one has produced an output that neither stands under the key of the second one nor
is written there, the second one delivers this output only if its own producer has made it. Calls,
the load and restarts over the blobs may lie in between. -/
def Unshared (σ : Type) [BlobStore σ] [LawfulBlobs σ] (operation : String) (parts : List String)
    (other : String) (others : List String) : Prop :=
  ∀ (e e' : Engine σ) (now returned : Timestamp) (timeToLive : Option UInt64) (output : String),
    e.Confines (fun entry => entry.value ≠ output) (operationKey other others) →
    (e.memoize now returned operation parts timeToLive (.output output)).2.Becomes
      (WritesOnly (fun entry => entry.value ≠ output) (operationKey other others)) e' →
    ∀ (later back : Timestamp) (ttl : Option UInt64) (produced : Produced),
      (e'.memoize later back other others ttl produced).1.result = .ok (some output) →
      (e'.memoize later back other others ttl produced).1.fetched = true ∧
        produced = .output output

variable {σ : Type} [BlobStore σ] [LawfulBlobs σ]

/-- Operations with different keys share nothing. -/
theorem unshared_of_keys (hkeys : operationKey operation parts ≠ operationKey other others) :
    Unshared σ operation parts other others := by
  intro e e' now returned timeToLive output hfree hbecomes later back ttl produced hresult
  have hunwritten : WritesOnly (fun entry => entry.value ≠ output) (operationKey other others) e
      (.memoize now returned operation parts timeToLive (.output output)) := by
    intro entry hwritten
    simp only [Cache.change, Cache.populationChange] at hwritten
    split at hwritten
    · rw [Change.written?_ofFetched_of_ne hkeys] at hwritten
      cases hwritten
    · cases hwritten
    · cases hwritten
  have hconfined := (hfree.perform hunwritten).of_becomes hbecomes
  have hdelivered : (e'.cache.populate later back (operationKey other others) ttl
      fun _ => produced.fetched).1.result = .ok (some output) := hresult
  rcases Cache.delivered_of_populate hdelivered with
    ⟨-, entry, hheld, hvalue⟩ | ⟨hfetched, hproduced⟩
  · exact absurd hvalue (hconfined.held entry hheld)
  · refine ⟨hfetched, ?_⟩
    cases produced with
    | output text => exact congrArg Produced.output (Fetched.value.inj hproduced)
    | failed => cases hproduced
    | broken => cases hproduced

/-- Two memoized calls have one key exactly if the operations and their parts have the same pieces
between colons, and without colons only if they are the same. Calls whose pieces differ share
nothing. -/
theorem memoize_shares_pieces (operation : String) (parts : List String) (other : String)
    (others : List String) :
    (operationKey operation parts = operationKey other others ↔
      pieces operation parts = pieces other others) ∧
    ((∀ name ∈ operation :: parts, ':' ∉ name.toList) →
      (∀ name ∈ other :: others, ':' ∉ name.toList) →
      operationKey operation parts = operationKey other others →
      operation = other ∧ parts = others) ∧
    (pieces operation parts ≠ pieces other others → Unshared σ operation parts other others) := by
  refine ⟨operationKey_eq_iff, eq_of_operationKey_eq, fun hpieces => ?_⟩
  apply unshared_of_keys
  intro hkeys
  exact hpieces (operationKey_eq_iff.mp hkeys)

/-- A fresh engine holds nothing under any key. -/
theorem confines_standard (Q : Entry → Prop) (key : String) : standard.Confines Q key where
  held entry hentry := by cases hentry
  persisted entry hentry := by
    obtain ⟨text, htext, -⟩ := hentry
    cases htext

/-- Two calls whose parts differ in no colon, of which the second one produces what it delivers. -/
theorem memoize_shares_pieces_apart :
    pieces "a" ["b"] ≠ pieces "a" ["c"] ∧
      (((standard.memoize 5 5 "a" ["b"] none (.output "x")).2.memoize 6 6 "a" ["c"] none
        (.output "x")).1.fetched = true) ∧ operationKey "a" ["b"] ≠ operationKey "a" ["c"] := by
  have hpieces : pieces "a" ["b"] ≠ pieces "a" ["c"] := by decide
  obtain ⟨hkeys, -, hunshared⟩ :=
    memoize_shares_pieces (σ := MemoryBlobs) "a" ["b"] "a" ["c"]
  obtain ⟨hfetched, -⟩ := hunshared hpieces standard _ 5 5 none "x" (confines_standard _ _) .refl
    6 6 none (.output "x") (by decide)
  exact ⟨hpieces, hfetched, fun hsame => hpieces (hkeys.mp hsame)⟩

/-- One part with a colon has the pieces of two, so the second call delivers what the first one has
produced. -/
theorem not_memoize_unshared :
    (¬ ∀ (operation other : String) (parts others : List String),
      operation ≠ other ∨ parts ≠ others →
        operationKey operation parts ≠ operationKey other others) ∧
    ¬ ∀ (operation other : String) (parts others : List String),
      operation ≠ other ∨ parts ≠ others →
        Unshared MemoryBlobs operation parts other others := by
  have hdiffer : "a" ≠ "a" ∨ ["b:c"] ≠ ["b", "c"] := by decide
  constructor
  · intro hinjective
    exact hinjective "a" "a" ["b:c"] ["b", "c"] hdiffer (by decide)
  · intro hunshared
    obtain ⟨hfetched, -⟩ := hunshared "a" "a" ["b:c"] ["b", "c"] hdiffer standard _ 5 5 none "x"
      (confines_standard _ _) .refl 6 6 none .failed (by decide)
    revert hfetched
    decide

end Engine

end DurableCache
