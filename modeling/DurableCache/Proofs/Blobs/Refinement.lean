import DurableCache.Proofs.Blobs.Durable
import Mathlib.Data.List.DropRight

/-!
# Blob files and blobs in memory

As long as no call fails, a blob file answers every call like a blob store in memory that holds the
same map. What its directory holds is the map of the last flush: that is what an opening brings
back after any calls, and a flush without changes has nothing to save (`answers_eq_memory`). In
which order a flush writes the members of the file makes no difference (`serves_eq_memory`).
-/

namespace DurableCache

/-- A call on a blob store. -/
inductive BlobCall where
  | getAll
  | get (key : String)
  | put (key blob : String)
  | remove (key : String)
  | flush
  deriving DecidableEq, Repr

/-- What a call on a blob store answers. -/
inductive BlobReply where
  | blobs (all : BlobMap)
  | blob (found : Option String)
  | done
  deriving DecidableEq

/-- An outcome with another result. -/
def Outcome.map {α β : Type} (f : α → β) : Outcome α → Outcome β
  | .done result => .done (f result)
  | .failed e => .failed e
  | .abandoned why => .abandoned why

/-- Whether a call has answered without an error. -/
def Outcome.isDone {α : Type} : Outcome α → Bool
  | .done _ => true
  | .failed _ | .abandoned _ => false

theorem Outcome.isDone_iff {α : Type} {outcome : Outcome α} :
    outcome.isDone = true ↔ ∃ result, outcome = .done result := by
  cases outcome <;> simp [isDone]

namespace BlobStore

variable {σ : Type} [BlobStore σ]

/-- Makes a call. -/
def perform (s : σ) : BlobCall → Outcome BlobReply × σ
  | .getAll => (getAll s).map (Outcome.map .blobs) id
  | .get key => (get key s).map (Outcome.map .blob) id
  | .put key blob => (put key blob s).map (Outcome.map fun _ => .done) id
  | .remove key => (remove key s).map (Outcome.map fun _ => .done) id
  | .flush => (flush s).map (Outcome.map fun _ => .done) id

/-- What a list of calls answers. -/
def answers (s : σ) : List BlobCall → List (Outcome BlobReply)
  | [] => []
  | call :: rest => (perform s call).1 :: answers (perform s call).2 rest

/-- The blob store after a list of calls. -/
def after (s : σ) (calls : List BlobCall) : σ := calls.foldl (fun s call => (perform s call).2) s

/-- No call of a list fails or breaks down. -/
def AllDone (s : σ) (calls : List BlobCall) : Prop :=
  ∀ outcome ∈ answers s calls, outcome.isDone = true

instance (s : σ) (calls : List BlobCall) : Decidable (AllDone s calls) :=
  inferInstanceAs (Decidable (∀ outcome ∈ answers s calls, outcome.isDone = true))

variable {s : σ} {call : BlobCall} {calls : List BlobCall}

theorem answers_append (s : σ) (before rest : List BlobCall) :
    answers s (before ++ rest) = answers s before ++ answers (after s before) rest := by
  induction before generalizing s with
  | nil => rfl
  | cons call before ih => rw [List.cons_append, answers, answers, ih, List.cons_append, after,
      after, List.foldl_cons]

theorem after_concat (s : σ) (calls : List BlobCall) (call : BlobCall) :
    after s (calls ++ [call]) = (perform (after s calls) call).2 := by
  rw [after, List.foldl_append]
  rfl

/-- If no call of a list fails, none of its beginning does, and neither does the last one. -/
theorem AllDone.of_concat (h : AllDone s (calls ++ [call])) :
    AllDone s calls ∧ ∃ reply, (perform (after s calls) call).1 = .done reply := by
  unfold AllDone at h ⊢
  rw [answers_append] at h
  refine ⟨fun outcome hmem => h outcome (List.mem_append_left _ hmem), ?_⟩
  exact Outcome.isDone_iff.mp (h _ (List.mem_append_right _ (List.mem_singleton_self _)))

/-- A beginning of calls that do not fail does not fail. -/
theorem AllDone.earlier {before : List BlobCall} (h : AllDone s calls)
    (hpart : before <+: calls) : AllDone s before := by
  obtain ⟨rest, rfl⟩ := hpart
  unfold AllDone at h ⊢
  rw [answers_append] at h
  exact fun outcome hmem => h outcome (List.mem_append_left _ hmem)

end BlobStore

/-- The calls up to the last flush, which are none if there is no flush. -/
def BlobCall.flushed (calls : List BlobCall) : List BlobCall := calls.rdropWhile (· ≠ .flush)

namespace FileBlobs

open BlobStore Directory

variable {s t : FileBlobs} {saved : BlobMap} {call : BlobCall} {calls : List BlobCall}

/-- An opened blob file whose directory holds a map. Without changes that is the map of the
blobs. -/
structure Holds (s : FileBlobs) (saved : BlobMap) : Prop where
  opened : s.Opened
  loads : load s.directory s.folder s.namespaceName = .ok saved
  clean : s.dirty = false → saved = s.blobs

/-- An opening has no changes yet: the directory holds what it answers. -/
theorem holds_of_openIn {d left : Directory} {folder name : String}
    (h : openIn d folder name = (.ok s, left)) : s.Holds s.blobs := by
  have hopened := opened_of_openIn h
  have hclean : s.dirty = false := by
    unfold openIn at h
    split at h
    · cases h
    · split at h
      · cases h
      · split at h
        · cases h
        · cases h
          rfl
  exact ⟨hopened, hopened.saved hclean, fun _ => rfl⟩

/-- An opening brings back what the directory holds. -/
theorem Holds.reopen (h : s.Holds saved) :
    s.reopen = .ok { s with blobs := saved, dirty := false } := by
  have hmake := h.opened.made s.directory (Directory.keeps_refl s.directory)
  unfold FileBlobs.reopen openIn
  rw [h.opened.named, hmake]
  simp only [h.loads, Bool.not_true, Bool.false_eq_true, if_false]

/-- A change of the blobs leaves the directory as it is. -/
theorem Holds.of_dirty (h : s.Holds saved) (blobs : BlobMap) :
    Holds { s with blobs, dirty := true } saved :=
  ⟨h.opened.of_dirty blobs, h.loads, fun hclean => by cases hclean⟩

/-- A flush that is done leaves the blobs in the directory, whether there were changes or not. -/
theorem Holds.flush (h : s.Holds saved) (hdone : (BlobStore.flush s).1 = .done ()) :
    (BlobStore.flush s).2.Holds s.blobs := by
  rw [flush_snd]
  split
  · rename_i hdirty
    have hsave := save_of_flush hdirty hdone
    obtain ⟨stem, hplaces⟩ := exists_places_of_save h.opened.named (Prod.ext hsave rfl)
    have hopened := h.opened.save hdirty
    rw [hplaces.save] at hopened ⊢
    exact ⟨hopened, hplaces.load, fun _ => rfl⟩
  · rename_i hdirty
    have hclean : s.dirty = false := by simpa using hdirty
    have hsame := h.clean hclean
    rw [hsame] at h
    exact h

/-- A call that is done answers like a blob store in memory and has the same effect on the map. The
directory changes at a flush only, and then it holds the map. -/
theorem Holds.perform (h : s.Holds saved) {reply : BlobReply}
    (hdone : (BlobStore.perform s call).1 = .done reply) :
    (BlobStore.perform s call).1 = (BlobStore.perform (MemoryBlobs.mk s.blobs) call).1 ∧
      (BlobStore.perform s call).2.blobs =
        (BlobStore.perform (MemoryBlobs.mk s.blobs) call).2.blobs ∧
      (BlobStore.perform s call).2.Holds (if call = .flush then s.blobs else saved) := by
  cases call with
  | getAll => exact ⟨rfl, rfl, h⟩
  | get key => exact ⟨rfl, rfl, h⟩
  | put key blob => exact ⟨rfl, rfl, h.of_dirty _⟩
  | remove key =>
    refine ⟨congrArg (Outcome.map fun _ => BlobReply.done) (remove_fst key s),
      blobs_remove key s, ?_⟩
    show (BlobStore.remove key s).2.Holds saved
    rw [remove_snd]
    split
    · exact h.of_dirty _
    · exact h
  | flush =>
    have hflush : (BlobStore.flush s).1 = .done () := by
      cases hanswer : (BlobStore.flush s).1 with
      | done _ => rfl
      | failed e => simp [BlobStore.perform, hanswer, Outcome.map] at hdone
      | abandoned why => simp [BlobStore.perform, hanswer, Outcome.map] at hdone
    refine ⟨congrArg (Outcome.map fun _ => BlobReply.done) hflush, ?_, h.flush hflush⟩
    exact LawfulBlobs.contents_flush s

/-- The map that a blob store in memory has at the last flush. -/
def flushedMap (start : BlobMap) (calls : List BlobCall) : BlobMap :=
  (after (MemoryBlobs.mk start) (BlobCall.flushed calls)).blobs

/-- One more call changes the flushed map if it is a flush. -/
theorem flushedMap_concat (start : BlobMap) (calls : List BlobCall) (call : BlobCall) :
    flushedMap start (calls ++ [call]) =
      if call = .flush then (after (MemoryBlobs.mk start) calls).blobs
      else flushedMap start calls := by
  unfold flushedMap BlobCall.flushed
  rw [List.rdropWhile_concat]
  by_cases hflush : call = .flush
  · subst hflush
    rw [if_neg (by simp), after_concat]
    rfl
  · simp [hflush]

/-- A directory that differs from that of a blob store in the order in which the members of the blob
file stand, and keeps the directories that are there. A flush that does not write the members in the
order of their keys leaves such a directory. -/
structure Rearranges (s : FileBlobs) (d : Directory) : Prop where
  keeps : s.directory.Keeps d
  file : ∃ saved rows, load s.directory s.folder s.namespaceName = .ok saved ∧
    rows.Perm saved.rows ∧ d.find? s.file = .ok (some (.file (some (arranged rows))))

/-- The order of the members in the file does not matter to what the directory holds. -/
theorem Holds.rearrange (h : s.Holds saved) {d : Directory} (hd : s.Rearranges d) :
    Holds { s with directory := d } saved := by
  obtain ⟨held, rows, hheld, hrows, hfile⟩ := hd.file
  have hsame : held = saved := Except.ok.inj (hheld.symm.trans h.loads)
  subst hsame
  have hload : load d s.folder s.namespaceName = .ok held := load_arranged hfile hrows
  refine ⟨⟨h.opened.named, fun later hlater => ?_, fun hclean => ?_⟩, hload, h.clean⟩
  · exact h.opened.made later (hd.keeps.trans hlater)
  · rw [← h.clean hclean]
    exact hload

/-- The directory with another text in the place of the blob file. -/
def withText (s : FileBlobs) (stem : Place) (text : String) : Directory :=
  ⟨s.directory.nodes.insert (pathOf (s.filePlace stem)) (.file (some text))⟩

/-- In its place the text is found. -/
theorem Places.find?_withText {stem : Place} (h : s.Places stem) (text : String) :
    (s.withText stem text).find? s.file = .ok (some (.file (some text))) := by
  have hkeeps : s.directory.Keeps (s.withText stem text) := keeps_insert h.file_free _
  have hnode : (s.withText stem text).nodeAt? (s.filePlace stem) = some (.file (some text)) :=
    Table.find?_insert_self _ _ _
  have hlocate : (s.withText stem text).locate s.file =
      .ok (s.filePlace stem, some (.file (some text))) := by
    rw [← hnode]
    exact (h.file.of_keeps hkeeps).locate h.file_path
  rw [Directory.find?, hlocate]

/-- The members of the blob file may be put into any order. -/
theorem Places.rearranges {stem : Place} (h : s.Places stem)
    (hload : FileBlobs.load s.directory s.folder s.namespaceName = .ok saved)
    {rows : List (String × String)} (hrows : rows.Perm saved.rows) :
    s.Rearranges (s.withText stem (arranged rows)) :=
  ⟨keeps_insert h.file_free _, saved, rows, hload, hrows, h.find?_withText (arranged rows)⟩

/-- What a blob store becomes by calls that are done, with the members of its file rearranged
anywhere in between. -/
inductive Serves (s : FileBlobs) : List BlobCall → FileBlobs → Prop
  | start : Serves s [] s
  | call {calls : List BlobCall} {t : FileBlobs} {reply : BlobReply} (call : BlobCall)
      (h : Serves s calls t) (hdone : (BlobStore.perform t call).1 = .done reply) :
      Serves s (calls ++ [call]) (BlobStore.perform t call).2
  | rearrange {calls : List BlobCall} {t : FileBlobs} {d : Directory} (h : Serves s calls t)
      (hd : t.Rearranges d) : Serves s calls { t with directory := d }

/-- Calls that are done are served without a rearrangement. -/
theorem serves_after (hdone : AllDone s calls) : s.Serves calls (BlobStore.after s calls) := by
  induction calls using List.reverseRecOn with
  | nil => exact .start
  | append_singleton calls call ih =>
    obtain ⟨hbefore, reply, hlast⟩ := hdone.of_concat
    rw [after_concat]
    exact .call call (ih hbefore) hlast

/-- After calls that are done the map is that of a blob store in memory, and the directory holds the
map of the last flush. -/
theorem Holds.serves (h : s.Holds s.blobs) (hserves : s.Serves calls t) :
    t.blobs = (BlobStore.after (MemoryBlobs.mk s.blobs) calls).blobs ∧
      t.Holds (flushedMap s.blobs calls) := by
  induction hserves with
  | start => exact ⟨rfl, h⟩
  | @call calls t reply call _ hdone ih =>
    obtain ⟨hsame, hholds⟩ := ih
    obtain ⟨-, hblobs, hnext⟩ := hholds.perform hdone
    have hmemory : MemoryBlobs.mk t.blobs = BlobStore.after (MemoryBlobs.mk s.blobs) calls := by
      rw [hsame]
    rw [after_concat, flushedMap_concat]
    rw [hsame] at hnext
    rw [hmemory] at hblobs
    exact ⟨hblobs, hnext⟩
  | rearrange _ hd ih => exact ⟨ih.1, ih.2.rearrange hd⟩

/-- A flush of changes may leave the members of the file in any order. -/
theorem Serves.flush (hserves : s.Serves calls t) (hopened : t.Opened) (hdirty : t.dirty = true)
    (hdone : (BlobStore.flush t).1 = .done ()) {rows : List (String × String)}
    (hrows : rows.Perm t.blobs.rows) :
    ∃ d, s.Serves (calls ++ [.flush]) { t with directory := d, dirty := false } ∧
      d.find? t.file = .ok (some (.file (some (arranged rows)))) := by
  obtain ⟨stem, hplaces⟩ :=
    exists_places_of_save hopened.named (Prod.ext (save_of_flush hdirty hdone) rfl)
  have hflushed : s.Serves (calls ++ [.flush]) (BlobStore.flush t).2 :=
    .call .flush hserves (congrArg (Outcome.map fun _ => BlobReply.done) hdone)
  rw [flush_snd, if_pos hdirty, hplaces.save] at hflushed
  have hrearranged := hflushed.rearrange (hplaces.of_save.rearranges hplaces.load hrows)
  exact ⟨_, hrearranged, hplaces.of_save.find?_withText (arranged rows)⟩

/-- The next call that is done answers what it answers in memory. -/
theorem Holds.next (h : s.Holds s.blobs) (hserves : s.Serves calls t) {reply : BlobReply}
    (hdone : (BlobStore.perform t call).1 = .done reply) :
    (BlobStore.perform t call).1 =
      (BlobStore.perform (BlobStore.after (MemoryBlobs.mk s.blobs) calls) call).1 := by
  obtain ⟨hsame, hholds⟩ := h.serves hserves
  obtain ⟨hanswer, -, -⟩ := hholds.perform hdone
  rw [hsame] at hanswer
  exact hanswer

/-- Calls that are done answer what they answer in memory. -/
theorem Holds.answers (h : s.Holds s.blobs) (hdone : AllDone s calls) :
    BlobStore.answers s calls = BlobStore.answers (MemoryBlobs.mk s.blobs) calls := by
  induction calls using List.reverseRecOn with
  | nil => rfl
  | append_singleton calls call ih =>
    obtain ⟨hbefore, reply, hlast⟩ := hdone.of_concat
    have hanswer := h.next (serves_after hbefore) hlast
    rw [answers_append, answers_append, ih hbefore]
    exact congrArg (fun last => _ ++ [last]) hanswer

/-- The order in which flushes write the members of the blob file is not seen: whatever it is, a
blob file that was opened has the map of a blob store in memory after calls that are done, answers
the next one like it, and an opening brings back the map of the last flush. -/
theorem serves_eq_memory {d left : Directory} {folder name : String}
    (hopen : openIn d folder name = (.ok s, left)) (hserves : s.Serves calls t) :
    t.blobs = (BlobStore.after (MemoryBlobs.mk s.blobs) calls).blobs ∧
      t.reopen = .ok { t with blobs := flushedMap s.blobs calls, dirty := false } ∧
      (t.dirty = false → flushedMap s.blobs calls = t.blobs) ∧
      ∀ call reply, (BlobStore.perform t call).1 = .done reply →
        (BlobStore.perform t call).1 =
          (BlobStore.perform (BlobStore.after (MemoryBlobs.mk s.blobs) calls) call).1 := by
  have hholds := holds_of_openIn hopen
  obtain ⟨hblobs, hlater⟩ := hholds.serves hserves
  exact ⟨hblobs, hlater.reopen, hlater.clean, fun call reply hdone => hholds.next hserves hdone⟩

/-- A blob file that was opened answers every call like a blob store in memory with the same blobs,
as long as no call fails. After any of these calls the map is the one in memory, an opening brings
back the map of the last flush, or that of the first opening if there was none, and a blob file
without changes has no write that the flush has not saved. -/
theorem answers_eq_memory {d left : Directory} {folder name : String}
    (hopen : openIn d folder name = (.ok s, left)) (hdone : AllDone s calls) :
    BlobStore.answers s calls = BlobStore.answers (MemoryBlobs.mk s.blobs) calls ∧
      ∀ before, before <+: calls →
        (BlobStore.after s before).blobs =
          (BlobStore.after (MemoryBlobs.mk s.blobs) before).blobs ∧
        (BlobStore.after s before).reopen =
          .ok { BlobStore.after s before with
            blobs := flushedMap s.blobs before
            dirty := false } ∧
        ((BlobStore.after s before).dirty = false →
          flushedMap s.blobs before = (BlobStore.after s before).blobs) := by
  have hholds := holds_of_openIn hopen
  refine ⟨hholds.answers hdone, fun before hpart => ?_⟩
  obtain ⟨hblobs, hlater⟩ := hholds.serves (serves_after (hdone.earlier hpart))
  exact ⟨hblobs, hlater.reopen, hlater.clean⟩

/-- A directory with a blob file that another program has written. -/
def seeded : Directory :=
  ⟨(Directory.empty.makePath "data").2.nodes.insert "data/cache.json"
    (.file (some " \x7b\"b\": \"old\", \"a\": \"\\u00e9\"\x7d"))⟩

/-- The blob file when it is opened. -/
def fromSeeded : FileBlobs where
  directory := seeded
  folder := "data"
  namespaceName := "cache"
  blobs := ((∅ : BlobMap).insert "a" "é").insert "b" "old"
  dirty := false

/-- Changes of which the last is not flushed. -/
def edits : List BlobCall :=
  [.flush, .put "c" "new", .remove "b", .remove "z", .flush, .put "a" "lost", .get "a", .getAll]

/-- The lookup sees the last change, and an opening brings back the map before it. -/
theorem answers_eq_memory_edits :
    openIn seeded "data" "cache" = (.ok fromSeeded, seeded) ∧ AllDone fromSeeded edits ∧
      Outcome.done (.blob (some "lost")) ∈ BlobStore.answers fromSeeded edits ∧
      ∃ reopened, (BlobStore.after fromSeeded edits).reopen = .ok reopened ∧
        reopened.blobs.rows = [("a", "é"), ("c", "new")] := by
  have hopen : openIn seeded "data" "cache" = (.ok fromSeeded, seeded) := by decide +kernel
  have hdone : AllDone fromSeeded edits := by decide +kernel
  obtain ⟨hanswers, hparts⟩ := answers_eq_memory hopen hdone
  obtain ⟨-, hreopen, -⟩ := hparts edits (List.prefix_refl edits)
  refine ⟨hopen, hdone, ?_, _, hreopen, ?_⟩
  · rw [hanswers]
    decide
  · decide

end FileBlobs

end DurableCache
