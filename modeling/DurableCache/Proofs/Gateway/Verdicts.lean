import DurableCache.Proofs.Blobs.Lawful
import DurableCache.Proofs.Gateway.Orders
import DurableCache.Proofs.Store.Runs

/-!
# What a load makes of each blob

A load judges each blob by itself (`judge`): it is corrupt, expired, stale or live. An expired blob
is deleted, and a live entry is stored unless the memory holds a newer one under its key; nothing
else changes (`load_effect`). The order of the blobs does not matter, and neither do the blobs of
other keys.
-/

namespace DurableCache.Gateway

open LawfulBlobs

variable {rules : LoadRules} {now : Timestamp} {entry : Entry}

/-! ### Judging a blob -/

/-- The milliseconds from the writing of an entry to `now`, below zero if it was written later. -/
def exactAge (entry : Entry) (now : Timestamp) : Int :=
  (now.toNat : Int) - entry.timestamp.toNat

/-- Whether an age exceeds an entry's own time to live or, if it has none, the default. Without
either no age does. -/
def TimedOut : (own default : Option UInt64) → (age : Int) → Prop
  | some limit, _, age => (limit.toNat : Int) < age
  | none, some limit, age => (limit.toNat : Int) < age
  | none, none, _ => False

instance (own default : Option UInt64) (age : Int) : Decidable (TimedOut own default age) := by
  unfold TimedOut
  split <;> infer_instance

/-- What a load makes of a blob. -/
inductive Verdict where
  /-- It cannot be read. -/
  | corrupt
  /-- Its entry is beyond the retention. -/
  | expired
  /-- Its entry is within the retention and stale. -/
  | stale
  /-- Its entry is within the retention and fresh. -/
  | live (entry : Entry)
  deriving DecidableEq

/-- The verdict on a blob. -/
def judge (rules : LoadRules) (now : Timestamp) (blob : String) : Verdict :=
  match Entry.ofBlob? blob with
  | .error _ => .corrupt
  | .ok entry =>
    if (rules.retentionDays : Int) * 86400000 < exactAge entry now then .expired
    else if TimedOut entry.timeToLive rules.defaultTtl (exactAge entry now) then .stale
    else .live entry

/-- Whether the entry that is held under a key is strictly newer than another one. -/
def isOutrun (entry : Entry) (held : Option Entry) : Bool :=
  held.any fun newer => entry.timestamp < newer.timestamp

/-- The entry under a key once the blob there is judged: a live one, unless that held is newer. -/
def Verdict.settle (held : Option Entry) : Verdict → Option Entry
  | .live entry => if isOutrun entry held then held else some entry
  | .corrupt | .expired | .stale => held

/-- Whether a verdict stores an entry under a key. -/
def Verdict.stores (held : Option Entry) : Verdict → Bool
  | .live entry => !isOutrun entry held
  | .corrupt | .expired | .stale => false

/-- What an entry is to a load is told by its exact age. -/
theorem outlived_iff : outlived rules.retentionDays now entry = true ↔
    (rules.retentionDays : Int) * 86400000 < exactAge entry now := by
  have hday : dayLength = 86400000 := rfl
  rw [outlived, decide_eq_true_eq, Entry.age, ageAt, exactAge, hday]
  omega

/-- Whether an entry is stale is told by its exact age. -/
theorem isStale_iff : entry.isStale rules.defaultTtl now = true ↔
    TimedOut entry.timeToLive rules.defaultTtl (exactAge entry now) := by
  unfold Entry.isStale isStale TimedOut exactAge ageAt
  cases entry.timeToLive with
  | some limit =>
    simp only [Option.some_or, decide_eq_true_eq]
    omega
  | none =>
    cases rules.defaultTtl with
    | none => simp
    | some limit =>
      simp only [Option.none_or, decide_eq_true_eq]
      omega

/-- A blob that can be read is judged by its entry. -/
theorem judge_of_read {blob : String} (hread : Entry.ofBlob? blob = .ok entry) :
    judge rules now blob =
      if outlived rules.retentionDays now entry then .expired
      else if entry.isStale rules.defaultTtl now then .stale else .live entry := by
  simp only [judge, hread, outlived_iff, isStale_iff]

/-- The age of an entry as a signed word. An age that does not fit is cut off. -/
def signedAge (entry : Entry) (now : Timestamp) : Int64 :=
  if entry.age now < wordLimit / 2 then Int64.ofNat (entry.age now) else Int64.maxValue

/-- Signed words decide on the retention as whole numbers do, for any number of days that is a word
of half the length. -/
theorem lt_signedAge_iff {days : Nat} (hdays : days < UInt32.size) :
    Int64.ofNat days * Int64.ofNat dayLength < signedAge entry now ↔
      (days : Int) * 86400000 < exactAge entry now := by
  have hday : dayLength = 86400000 := rfl
  have hsize : UInt32.size = 4294967296 := rfl
  have hhalf : wordLimit / 2 = 9223372036854775808 := rfl
  have hfits : days * 86400000 < 9223372036854775808 := by omega
  have hage : entry.age now = now.toNat - entry.timestamp.toNat := rfl
  rw [← Int64.ofNat_mul, Int64.lt_iff_toInt_lt, hday, Int64.toInt_ofNat_of_lt hfits, signedAge,
    exactAge, hhalf]
  by_cases hshort : entry.age now < 9223372036854775808
  · rw [if_pos hshort, Int64.toInt_ofNat_of_lt hshort]
    omega
  · rw [if_neg hshort, Int64.toInt_maxValue]
    omega

/-! ### Loading blobs -/

variable {σ : Type} [BlobStore σ] [LawfulBlobs σ] {s next : σ}
variable {report answer : LoadReport} {store staged : Store} {rows : List (String × String)}

/-- A report with one more verdict. -/
def countVerdict (report : LoadReport) (held : Option Entry) (verdict : Verdict) : LoadReport where
  loaded := report.loaded + if verdict.stores held then 1 else 0
  stale := report.stale + if verdict = .stale then 1 else 0
  expired := report.expired + if verdict = .expired then 1 else 0
  corrupt := report.corrupt + if verdict = .corrupt then 1 else 0

/-- How many blobs of a list there are of each kind. -/
def verdictCounts (rules : LoadRules) (now : Timestamp) (store : Store)
    (rows : List (String × String)) : LoadReport where
  loaded := rows.countP fun row => (judge rules now row.2).stores (store.find? row.1)
  stale := rows.countP fun row => judge rules now row.2 = .stale
  expired := rows.countP fun row => judge rules now row.2 = .expired
  corrupt := rows.countP fun row => judge rules now row.2 = .corrupt

/-- Two reports taken together. -/
def addReports (report other : LoadReport) : LoadReport where
  loaded := report.loaded + other.loaded
  stale := report.stale + other.stale
  expired := report.expired + other.expired
  corrupt := report.corrupt + other.corrupt

/-- The entry under a key once the blob there, if any, is judged. -/
def settledEntry (rules : LoadRules) (now : Timestamp) (blob : Option String)
    (held : Option Entry) : Option Entry :=
  match blob with
  | none => held
  | some blob => (judge rules now blob).settle held

/-- A live entry is stored unless the one under its key is newer. -/
theorem putIfNewer_settles {estimator : Estimator} {key : String} {stored : Bool}
    (h : store.putIfNewer estimator key entry = (.ok stored, staged)) :
    stored = (Verdict.live entry).stores (store.find? key) ∧
      ∀ other, staged.find? other =
        if other = key then (Verdict.live entry).settle (store.find? key)
        else store.find? other := by
  unfold Store.putIfNewer at h
  split at h
  · cases h
  · have hfind := Store.find?_insertIfNewer h
    have houtrun : isOutrun entry (store.find? key) = store.holdsNewer key entry := rfl
    rw [Verdict.stores, Verdict.settle, houtrun]
    rcases Store.insertIfNewer_ok h with ⟨hnewer, rfl, rfl⟩ | ⟨hnewer, rfl, -⟩
    · refine ⟨by rw [hnewer, Bool.not_true], fun other => ?_⟩
      rw [hnewer, if_pos rfl]
      split
      · rename_i hother
        rw [hother]
      · rfl
    · refine ⟨by rw [hnewer, Bool.not_false], fun other => ?_⟩
      rw [hfind, hnewer]
      simp

/-- Loading the first blob leaves the others to be loaded. -/
theorem judge_of_loadRows {key blob : String}
    (h : loadRows rules now ((key, blob) :: rows) report store s = (.done answer, staged, next)) :
    ∃ store' s', loadRows rules now rows
        (countVerdict report (store.find? key) (judge rules now blob)) store' s' =
          (.done answer, staged, next) ∧
      fault s' = fault s ∧
      (∀ other, (contents s').find? other =
        if other = key ∧ judge rules now blob = .expired ∧ fault s (.delete key) = none then none
        else (contents s).find? other) ∧
      (∀ other, store'.find? other =
        if other = key then (judge rules now blob).settle (store.find? key)
        else store.find? other) ∧
      (store.Sound rules.estimator → store'.Sound rules.estimator) := by
  -- A verdict that settles nothing leaves the store.
  have hsame (other : String) :
      store.find? other = if other = key then store.find? key else store.find? other := by
    split
    · rename_i hother
      rw [hother]
    · rfl
  unfold loadRows at h
  cases hread : Entry.ofBlob? blob with
  | error e =>
    have hverdict : judge rules now blob = .corrupt := by rw [judge, hread]
    simp only [hread] at h
    rw [hverdict]
    exact ⟨store, s, h, rfl, fun other => by simp, hsame, id⟩
  | ok entry =>
    simp only [hread] at h
    rw [judge_of_read hread]
    by_cases hexpired : outlived rules.retentionDays now entry = true
    · have hlookup := find?_contents_remove key s
      have hkeep := fault_remove key s
      rw [if_pos hexpired] at h ⊢
      simp only [true_and]
      cases hremove : BlobStore.remove key s with
      | mk outcome removed =>
        rw [hremove] at h hlookup hkeep
        cases outcome with
        | abandoned why => cases h
        | done _ => exact ⟨store, removed, h, hkeep, hlookup, hsame, id⟩
        | failed e => exact ⟨store, removed, h, hkeep, hlookup, hsame, id⟩
    · rw [if_neg hexpired] at h ⊢
      by_cases hstale : entry.isStale rules.defaultTtl now = true
      · rw [if_pos hstale] at h ⊢
        exact ⟨store, s, h, rfl, fun other => by simp, hsame, id⟩
      · rw [if_neg hstale] at h ⊢
        cases hput : store.putIfNewer rules.estimator key entry with
        | mk outcome written =>
          rw [hput] at h
          cases outcome with
          | error why => cases h
          | ok stored =>
            obtain ⟨hstored, hfind⟩ := putIfNewer_settles hput
            refine ⟨written, s, ?_, rfl, fun other => by simp, hfind, fun hs => hs.putIfNewer hput⟩
            rw [countVerdict, ← hstored]
            cases stored <;> exact h

/-- The blobs of a list are counted one by one. -/
theorem addReports_cons {key blob : String} {later : Store}
    (hlater : ∀ row ∈ rows, later.find? row.1 = store.find? row.1) :
    addReports (countVerdict report (store.find? key) (judge rules now blob))
        (verdictCounts rules now later rows) =
      addReports report (verdictCounts rules now store ((key, blob) :: rows)) := by
  have hloaded : rows.countP (fun row => (judge rules now row.2).stores (later.find? row.1)) =
      rows.countP fun row => (judge rules now row.2).stores (store.find? row.1) := by
    refine List.countP_congr fun row hrow => ?_
    rw [hlater row hrow]
  simp only [addReports, countVerdict, verdictCounts, List.countP_cons, hloaded, decide_eq_true_eq,
    Nat.add_assoc, Nat.add_comm]

/-- Loading blobs of different keys settles every key by the blob there, deletes the expired blobs
and counts the verdicts. -/
theorem loadRows_effect (hkeys : (rows.map Prod.fst).Nodup)
    (h : loadRows rules now rows report store s = (.done answer, staged, next)) :
    (∀ key, staged.find? key =
      settledEntry rules now (Rows.find? key rows) (store.find? key)) ∧
    (∀ key, (contents next).find? key =
      if (Rows.find? key rows).map (judge rules now) = some .expired ∧
          fault s (.delete key) = none then none
      else (contents s).find? key) ∧
    answer = addReports report (verdictCounts rules now store rows) ∧
    (store.Sound rules.estimator → staged.Sound rules.estimator) := by
  induction rows generalizing report store s with
  | nil =>
    cases h
    exact ⟨fun key => rfl, fun key => by simp [Rows.find?], rfl, id⟩
  | cons row rest ih =>
    obtain ⟨first, blob⟩ := row
    obtain ⟨hfirst, hrest⟩ := List.nodup_cons.mp hkeys
    have hnone := Rows.find?_eq_none_of_not_mem hfirst
    obtain ⟨store', s', hlater, hkeep, hlookup, hstore, hsound⟩ := judge_of_loadRows h
    obtain ⟨hstaged, hcontents, hanswer, hsounder⟩ := ih hrest hlater
    refine ⟨fun key => ?_, fun key => ?_, ?_, fun hs => hsounder (hsound hs)⟩
    · rw [hstaged, hstore]
      by_cases hkey : key = first
      · subst hkey
        rw [hnone, Rows.find?_cons_self, if_pos rfl]
        rfl
      · rw [Rows.find?_cons_of_ne hkey, if_neg hkey]
    · rw [hcontents, hkeep, hlookup]
      by_cases hkey : key = first
      · subst hkey
        simp [hnone, Rows.find?_cons_self]
      · rw [Rows.find?_cons_of_ne hkey]
        simp [hkey]
    · rw [hanswer]
      refine addReports_cons fun row hrow => ?_
      have hne : row.1 ≠ first := by
        intro heq
        exact hfirst (List.mem_map.mpr ⟨row, hrow, heq⟩)
      rw [hstore, if_neg hne]

/-- The order of the blobs does not matter to their counts. -/
theorem verdictCounts_perm {others : List (String × String)} (h : rows.Perm others) :
    verdictCounts rules now store rows = verdictCounts rules now store others := by
  simp only [verdictCounts, h.countP_eq]

/-- Over a memory without entries every blob is counted once. -/
theorem verdictCounts_total (hfree : ∀ key, store.find? key = none)
    (rows : List (String × String)) :
    (verdictCounts rules now store rows).loaded + (verdictCounts rules now store rows).stale +
      (verdictCounts rules now store rows).expired + (verdictCounts rules now store rows).corrupt =
        rows.length := by
  induction rows with
  | nil => rfl
  | cons row rest ih =>
    have hone (verdict : Verdict) : (if verdict.stores none then 1 else 0) +
        (if verdict = .stale then 1 else 0) + (if verdict = .expired then 1 else 0) +
        (if verdict = .corrupt then 1 else 0) = 1 := by
      cases verdict <;> simp [Verdict.stores, isOutrun]
    have hfirst := hone (judge rules now row.2)
    simp only [verdictCounts, hfree, List.countP_cons, List.length_cons, decide_eq_true_eq] at ih ⊢
    omega

/-! ### Loads -/

/-- What a load does that is done. -/
structure LoadEffect (rules : LoadRules) (now : Timestamp) (store staged : Store) (s next : σ)
    (report : LoadReport) : Prop where
  /-- A live blob leaves its entry in memory unless a newer one is there, and others leave
  nothing. -/
  settled : ∀ key, staged.find? key =
    settledEntry rules now ((contents s).find? key) (store.find? key)
  /-- The expired blobs vanish if their deletion has no fault, and no other ones. -/
  deleted : ∀ key, (contents next).find? key =
    if ((contents s).find? key).map (judge rules now) = some .expired ∧
        fault s (.delete key) = none then none
    else (contents s).find? key
  /-- The report counts the corrupt, expired and stale blobs and the entries that were stored. -/
  counted : report = verdictCounts rules now store (contents s).rows
  /-- Over an empty memory it counts every blob once. -/
  total : (∀ key, store.find? key = none) →
    report.loaded + report.stale + report.expired + report.corrupt = (contents s).size
  /-- The sum of the sizes and the ages stay right. -/
  sound : store.Sound rules.estimator → staged.Sound rules.estimator

/-- A load that is done has listed the blobs and loaded each of them. -/
theorem loadThrough_done {order : Visits String}
    (h : loadThrough order rules now store s = (.done report, staged, next)) :
    ∃ listed loaded : σ, contents listed = contents s ∧ fault listed = fault s ∧
      loadRows rules now (order.rows (contents s)) ⟨0, 0, 0, 0⟩ store listed =
        (.done report, staged, loaded) ∧
      contents next = contents loaded := by
  have hmeets := getAll_meets s
  have hcontents := contents_getAll s
  have hkeep := fault_getAll s
  unfold loadThrough at h
  split at h
  · cases h
  · cases h
  · rename_i persisted listed hlist
    rw [hlist] at hmeets hcontents hkeep
    have hfault := Outcome.fault_of_done hmeets
    rw [hfault] at hmeets
    cases hmeets
    split at h
    · cases h
    · rename_i read hclock
      obtain ⟨-, rfl⟩ := readClock_eq_ok_iff.mp hclock
      split at h
      · rename_i counted staged' loaded hrows
        split at h
        · cases h
          exact ⟨listed, next, hcontents, hkeep, hrows, rfl⟩
        · have hflush := contents_flush loaded
          split at h
          · rename_i hflushed
            rw [hflushed] at hflush
            cases h
            exact ⟨listed, loaded, hcontents, hkeep, hrows, hflush⟩
          · cases h
          · cases h
      · rename_i hunfinished
        exact absurd h (hunfinished report staged next)

/-- A load that is done settles every key by its blob, whatever the order of the blobs. -/
theorem effect_of_loadThrough {order : Visits String}
    (h : loadThrough order rules now store s = (.done report, staged, next)) :
    LoadEffect rules now store staged s next report := by
  obtain ⟨listed, loaded, hcontents, hkeep, hrows, hflushed⟩ := loadThrough_done h
  obtain ⟨hstaged, hdeleted, hanswer, hsound⟩ :=
    loadRows_effect (order.keys_nodup (contents s)) hrows
  have hreport : report = verdictCounts rules now store (contents s).rows := by
    rw [hanswer, verdictCounts_perm (order.perm (contents s))]
    simp [addReports]
  refine ⟨fun key => ?_, fun key => ?_, hreport, fun hfree => ?_, hsound⟩
  · rw [hstaged, order.find?_rows]
  · rw [hflushed, hdeleted, order.find?_rows, hkeep, hcontents]
  · rw [hreport]
    exact verdictCounts_total hfree (contents s).rows

/-- A load that is done judges each blob by itself. It stores the live entries unless newer ones are
there, deletes the expired blobs and counts all of them, in whatever order they come. What becomes
of a key depends on the blob and the entry under this key and on the fault of its deletion alone. It
does not matter that ages are compared as signed words. -/
theorem load_effect {order : Visits String}
    (h : loadThrough order rules now store s = (.done report, staged, next)) :
    LoadEffect rules now store staged s next report ∧
    (∀ (order' : Visits String) (store' staged' : Store) (s' next' : σ) (report' : LoadReport),
      loadThrough order' rules now store' s' = (.done report', staged', next') →
      ∀ key, (contents s').find? key = (contents s).find? key →
        store'.find? key = store.find? key → fault s' (.delete key) = fault s (.delete key) →
        staged'.find? key = staged.find? key ∧
          (contents next').find? key = (contents next).find? key) ∧
    (rules.retentionDays < UInt32.size → ∀ entry,
      (Int64.ofNat rules.retentionDays * Int64.ofNat dayLength < signedAge entry now ↔
        (rules.retentionDays : Int) * 86400000 < exactAge entry now)) := by
  have heffect := effect_of_loadThrough h
  refine ⟨heffect, ?_, fun hdays entry => lt_signedAge_iff hdays⟩
  intro order' store' staged' s' next' report' h' key hblob hheld hfault
  have hother := effect_of_loadThrough h'
  constructor
  · rw [hother.settled, heffect.settled, hblob, hheld]
  · rw [hother.deleted, heffect.deleted, hblob, hfault]

/-- A blob of each kind and one more that is expired, under a key whose deletion is refused. The
memory holds a newer entry under the key of another live blob. -/
def assorted : Watched MemoryBlobs :=
  .start
    ⟨Table.ofList
      [("garbled", "[]"), ("gone", "[\"a\",1000,null]"), ("refused", "[\"b\",1000,5]"),
        ("late", "[\"c\",86400000,null]"), ("live", "[\"d\",86402000,null]"),
        ("outrun", "[\"e\",86402000,9]")]⟩
    { Faults.none with remove := Table.ofList [("refused", .refuse)] }

/-- One day of retention and a second to live. -/
def assortedRules : LoadRules := ⟨.perUnit 0 1, some 1000, 1⟩

/-- A newer entry than one of the live blobs. -/
def ahead : Store :=
  (Store.empty.put (.perUnit 0 1) "outrun" ⟨"f", 86402001, none⟩).2

/-- Loaded from the greatest key down, each blob is what it is by itself. -/
theorem load_effect_assorted :
    ∃ staged next, loadThrough .descending assortedRules 86402001 ahead assorted =
        (.done ⟨1, 1, 2, 1⟩, staged, next) ∧
      staged.find? "live" = some ⟨"d", 86402000, none⟩ ∧
      staged.find? "outrun" = some ⟨"f", 86402001, none⟩ ∧
      (contents next).find? "gone" = none ∧
      (contents next).find? "refused" = some "[\"b\",1000,5]" := by
  have hdone : (loadThrough .descending assortedRules 86402001 ahead assorted).1 =
      .done ⟨1, 1, 2, 1⟩ := by decide +kernel
  cases hload : loadThrough .descending assortedRules 86402001 ahead assorted with
  | mk outcome left =>
    obtain ⟨staged, next⟩ := left
    rw [hload] at hdone
    cases hdone
    obtain ⟨heffect, -, -⟩ := load_effect hload
    refine ⟨staged, next, rfl, ?_, ?_, ?_, ?_⟩
    · rw [heffect.settled]
      decide +kernel
    · rw [heffect.settled]
      decide +kernel
    · rw [heffect.deleted]
      decide +kernel
    · rw [heffect.deleted]
      decide +kernel

end DurableCache.Gateway
