import DurableCache.Proofs.Blobs.Namespaces
import Mathlib.Data.Bool.Basic

/-!
# Two namespaces in one folder

Two blob files of different namespaces work in one directory, and their calls come in any order.
Neither changes a file of the other, and each answers as if it were alone (`namespaces_apart`).
-/

namespace DurableCache.FileBlobs

open Directory

variable {d middle last : Directory} {folder one other : String} {s t twin : FileBlobs}
variable {stem : Place} {keys : String → Prop} {side : Bool} {call : FileCall}

/-! ### One blob file alone -/

/-- What a list of calls answers. -/
def attempts (s : FileBlobs) : List FileCall → List FileReply
  | [] => []
  | call :: rest => (s.attempt call).1 :: attempts (s.attempt call).2 rest

/-- The blob file after a list of calls. -/
def afterwards (s : FileBlobs) (calls : List FileCall) : FileBlobs :=
  calls.foldl (fun s call => (s.attempt call).2) s

/-- An opening leaves the directory in which its folder was made. -/
theorem openIn_snd (d : Directory) (folder : String) {name : String}
    (h : isNamespace name = true) : (openIn d folder name).2 = (d.makePath folder).2 := by
  simp only [openIn, h, Bool.not_true, Bool.false_eq_true, if_false]
  split
  · rename_i hmake
    rw [hmake]
  · rename_i hmake
    rw [hmake]
    split <;> rfl

/-! ### Two blob files -/

/-- Two blob files in one directory, one on each side. -/
abbrev Pair := Bool → FileBlobs

namespace Pair

variable {p : Pair}

/-- The blob file of either side. -/
def of (s t : FileBlobs) : Pair := fun side => if side then t else s

/-- One side makes a call, and the other one stands in the directory that this leaves. -/
def turn (p : Pair) (side : Bool) (call : FileCall) : Pair := fun each =>
  if each = side then ((p side).attempt call).2
  else (p each).within ((p side).attempt call).2.directory

@[simp] theorem turn_self (p : Pair) (side : Bool) (call : FileCall) :
    p.turn side call side = ((p side).attempt call).2 := if_pos rfl

@[simp] theorem turn_other (p : Pair) (side : Bool) (call : FileCall) :
    p.turn side call (!side) = (p !side).within ((p side).attempt call).2.directory :=
  if_neg (Bool.not_ne_self side)

/-- What the calls of both sides answer. -/
def replies (p : Pair) : List (Bool × FileCall) → List (Bool × FileReply)
  | [] => []
  | (side, call) :: rest => (side, ((p side).attempt call).1) :: (p.turn side call).replies rest

/-- Both blob files after the calls of both sides. -/
def after (p : Pair) (turns : List (Bool × FileCall)) : Pair :=
  turns.foldl (fun p next => p.turn next.1 next.2) p

/-- What belongs to one side. -/
def ofSide {α : Type} (side : Bool) (turns : List (Bool × α)) : List α :=
  (turns.filter fun next => next.1 = side).map (·.2)

variable {α : Type}

theorem ofSide_own (side : Bool) (x : α) (rest : List (Bool × α)) :
    ofSide side ((side, x) :: rest) = x :: ofSide side rest := by
  simp [ofSide]

theorem ofSide_other (side : Bool) (x : α) (rest : List (Bool × α)) :
    ofSide side ((!side, x) :: rest) = ofSide side rest := by
  simp [ofSide]

/-- Two blob files of different namespaces in one folder of one directory. -/
structure Beside (p : Pair) (stem : Place) : Prop where
  seated : ∀ side, (p side).Seated stem
  apart : ∀ side, (p side).namespaceName ≠ (p !side).namespaceName
  shared : ∀ side, (p !side).directory = (p side).directory

/-- A call keeps the names of both. -/
theorem Beside.names_turn (h : p.Beside stem) (side : Bool) (call : FileCall) (each : Bool) :
    (p.turn side call each).folder = (p each).folder ∧
      (p.turn side call each).namespaceName = (p each).namespaceName := by
  obtain ⟨hfolder, hname, -⟩ := (h.seated side).frame call
  rcases Bool.eq_or_eq_not each side with rfl | rfl
  · rw [turn_self]
    exact ⟨hfolder, hname⟩
  · rw [turn_other]
    exact ⟨rfl, rfl⟩

/-- After a call both are still beside each other. -/
theorem Beside.turn (h : p.Beside stem) (side : Bool) (call : FileCall) :
    (p.turn side call).Beside stem where
  seated each := by
    rcases Bool.eq_or_eq_not each side with rfl | rfl
    · rw [turn_self]
      exact (h.seated each).attempt call
    · rw [turn_other]
      refine (h.seated _).within ?_
      rw [h.shared]
      exact ((h.seated side).frame call).2.2.keeps
  apart each := by
    rw [(h.names_turn side call each).2, (h.names_turn side call !each).2]
    exact h.apart each
  shared each := by
    rcases Bool.eq_or_eq_not each side with rfl | rfl
    · rw [turn_self, turn_other]
      rfl
    · rw [Bool.not_not, turn_self, turn_other]
      rfl

/-- After all calls both are still beside each other, under their names. -/
theorem Beside.after (h : p.Beside stem) (turns : List (Bool × FileCall)) :
    (p.after turns).Beside stem ∧ ∀ each, (p.after turns each).folder = (p each).folder ∧
      (p.after turns each).namespaceName = (p each).namespaceName := by
  induction turns generalizing p with
  | nil => exact ⟨h, fun each => ⟨rfl, rfl⟩⟩
  | cons next rest ih =>
    obtain ⟨hbeside, hnames⟩ := ih (h.turn next.1 next.2)
    refine ⟨hbeside, fun each => ?_⟩
    obtain ⟨hfolder, hname⟩ := h.names_turn next.1 next.2 each
    exact ⟨(hnames each).1.trans hfolder, (hnames each).2.trans hname⟩

/-- A call of one side changes files of its own namespace alone, and neither file of the other. -/
theorem Beside.untouched (h : p.Beside stem) (side : Bool) (call : FileCall) :
    (p side).directory.AgreeOff (OwnKey (p side).namespaceName stem)
        (p.turn side call side).directory ∧
      ∀ path ∈ [(p !side).file, (p !side).temporaryFile],
        (p.turn side call side).directory.find? path = (p side).directory.find? path := by
  have hframe := ((h.seated side).frame call).2.2
  have hother := h.seated !side
  have hapart := (h.apart side).symm
  rw [turn_self]
  refine ⟨hframe, fun path hpath => ?_⟩
  rw [← h.shared] at hframe ⊢
  rcases List.mem_pair.mp hpath with rfl | rfl
  · exact (hother.staysOff_file hapart).find? hframe
  · exact (hother.staysOff_temporaryFile hapart).find? hframe

/-- A blob file is what one side would be alone: the same but for the files of the other side. -/
structure Alone (p : Pair) (stem : Place) (side : Bool) (alone : FileBlobs) : Prop where
  seated : alone.Seated stem
  apart : alone.namespaceName ≠ (p !side).namespaceName
  twins : Twins (OwnKey (p !side).namespaceName stem) alone (p side)

variable {alone : FileBlobs}

/-- A call of its own side has the same answer alone, and the same effect. -/
theorem Alone.own (halone : p.Alone stem side alone) (call : FileCall) :
    ((p side).attempt call).1 = (alone.attempt call).1 ∧
      (p.turn side call).Alone stem side (alone.attempt call).2 := by
  obtain ⟨hseated, hapart, htwins⟩ := halone
  obtain ⟨hanswer, htwins'⟩ := htwins.attempt hseated (hseated.staysOff_file hapart)
    (hseated.staysOff_temporaryFile hapart) call
  have hother : (p.turn side call !side).namespaceName = (p !side).namespaceName := by
    rw [turn_other]
    rfl
  refine ⟨hanswer, hseated.attempt call, ?_, ?_⟩
  · rw [(hseated.frame call).2.1, hother]
    exact hapart
  · rw [hother, turn_self]
    exact htwins'

/-- A call of the other side has no effect that is seen alone. -/
theorem Alone.neighbour (h : p.Beside stem) (halone : p.Alone stem side alone) (call : FileCall) :
    (p.turn (!side) call).Alone stem side alone := by
  obtain ⟨hseated, hapart, htwins⟩ := halone
  have hname := (h.names_turn (!side) call !side).2
  have hframe := ((h.seated !side).frame call).2.2
  rw [h.shared] at hframe
  have hside : p.turn (!side) call side = (p side).within ((p !side).attempt call).2.directory := by
    have hturn := turn_other p (!side) call
    rwa [Bool.not_not] at hturn
  refine ⟨hseated, hname ▸ hapart, ?_⟩
  rw [hname, hside]
  generalize p side = seen at htwins hframe
  obtain ⟨hagree⟩ := htwins
  exact .within (hagree.trans hframe)

/-- In any order of calls each side answers what it would answer alone, and is then the same but for
the files of the other side. -/
theorem Alone.after (h : p.Beside stem) (halone : p.Alone stem side alone)
    (turns : List (Bool × FileCall)) :
    ofSide side (p.replies turns) = alone.attempts (ofSide side turns) ∧
      (p.after turns).Alone stem side (alone.afterwards (ofSide side turns)) := by
  induction turns generalizing p alone with
  | nil => exact ⟨rfl, halone⟩
  | cons next rest ih =>
    obtain ⟨each, call⟩ := next
    rcases Bool.eq_or_eq_not each side with rfl | rfl
    · obtain ⟨hanswer, hown⟩ := halone.own call
      obtain ⟨hreplies, hafter⟩ := ih (h.turn each call) hown
      rw [replies, ofSide_own, ofSide_own, attempts, hanswer, hreplies]
      exact ⟨rfl, hafter⟩
    · obtain ⟨hreplies, hafter⟩ := ih (h.turn (!side) call) (halone.neighbour h call)
      rw [replies, ofSide_other, ofSide_other]
      exact ⟨hreplies, hafter⟩

end Pair

/-- The paths of two namespaces in one folder are all different. -/
theorem paths_nodup (hfolder : s.folder = t.folder) (hne : s.namespaceName ≠ t.namespaceName) :
    [s.file, s.temporaryFile, t.file, t.temporaryFile].Nodup := by
  have hfile (s t : FileBlobs) (hfolder : s.folder = t.folder) : s.temporaryFile ≠ t.file := by
    unfold temporaryFile file
    rw [hfolder, Ne, join_inj]
    exact temporaryName_ne_fileName _ _
  have hfiles : s.file ≠ t.file := by
    unfold file
    rw [hfolder, Ne, join_inj, fileName_inj]
    exact hne
  have htemporaries : s.temporaryFile ≠ t.temporaryFile := by
    unfold temporaryFile
    rw [hfolder, Ne, join_inj, temporaryName_inj]
    exact hne
  simp [hfiles, htemporaries, hfile s t hfolder, (hfile s s rfl).symm, (hfile t t rfl).symm,
    (hfile t s hfolder.symm).symm]

/-- Two namespaces that were opened in one folder are beside each other. -/
theorem beside_of_openIn (hone : openIn d folder one = (.ok s, middle))
    (hother : openIn middle folder other = (.ok t, last)) (hne : one ≠ other) :
    ∃ stem, last.follow (partsOf folder) = .ok (stem, some .directory) ∧
      (Pair.of s t).Beside stem := by
  obtain ⟨rfl, rfl, rfl, stem, hs⟩ := Seated.of_openIn hone
  obtain ⟨rfl, hfolder, rfl, stem', ht⟩ := Seated.of_openIn hother
  have hshared : t.directory = s.directory := by
    have hmade := hs.made s.directory (keeps_refl _)
    have hleft := openIn_snd s.directory s.folder ht.named
    rwa [hother, hmade] at hleft
  have hleads := ht.leads
  rw [hfolder, hshared, hs.leads] at hleads
  obtain ⟨rfl, -⟩ := Prod.mk.inj (Except.ok.inj hleads)
  refine ⟨stem, ?_, ?_, ?_, ?_⟩
  · rw [hshared]
    exact hs.leads
  · rintro (_ | _)
    · exact hs
    · exact ht
  · rintro (_ | _)
    · exact hne
    · exact hne.symm
  · rintro (_ | _)
    · exact hshared
    · exact hshared.symm

/-- Two different namespaces that open in one folder are apart. Their files have different paths,
and all stand directly in the folder but for the temporary file of the dot. Whatever calls both
sides have made, the next call of one side changes files of its own alone, and neither file of the
other. Each side answers as it would without the calls of the other, and has the same blobs and
files. -/
theorem namespaces_apart (hone : openIn d folder one = (.ok s, middle))
    (hother : openIn middle folder other = (.ok t, last)) (hne : one ≠ other) :
    (∀ each ∈ [s, t], IsChild folder each.file ∧
        (IsChild folder each.temporaryFile ↔ each.namespaceName ≠ ".")) ∧
      [s.file, s.temporaryFile, t.file, t.temporaryFile].Nodup ∧
      ∃ stem, last.follow (partsOf folder) = .ok (stem, some .directory) ∧
        ∀ side turns, let start := Pair.of s t
          let now := start.after turns
          let alone := (start side).afterwards (Pair.ofSide side turns)
          (∀ call, (now side).directory.AgreeOff (OwnKey (start side).namespaceName stem)
              (now.turn side call side).directory ∧
            ∀ path ∈ [(start !side).file, (start !side).temporaryFile],
              (now.turn side call side).directory.find? path = (now side).directory.find? path) ∧
          Pair.ofSide side (start.replies turns) = (start side).attempts (Pair.ofSide side turns) ∧
          now side = alone.within (now side).directory ∧
          ∀ path ∈ [alone.file, alone.temporaryFile],
            (now side).directory.find? path = alone.directory.find? path := by
  obtain ⟨stem, hleads, hbeside⟩ := beside_of_openIn hone hother hne
  obtain ⟨-, hfolder, hname, -⟩ := Seated.of_openIn hone
  obtain ⟨-, hfolder', hname', -⟩ := Seated.of_openIn hother
  have hs := hbeside.seated false
  have ht := hbeside.seated true
  refine ⟨?_, ?_, stem, hleads, fun side turns => ?_⟩
  · intro each heach
    rcases List.mem_pair.mp heach with rfl | rfl
    · rw [← hfolder]
      exact ⟨isChild_file hs.named, isChild_temporaryFile_iff hs.named⟩
    · rw [← hfolder']
      exact ⟨isChild_file ht.named, isChild_temporaryFile_iff ht.named⟩
  · refine paths_nodup (hfolder.trans hfolder'.symm) ?_
    rw [hname, hname']
    exact hne
  · obtain ⟨hnow, hnames⟩ := hbeside.after turns
    have hstart : (Pair.of s t).Alone stem side (Pair.of s t side) :=
      ⟨hbeside.seated side, hbeside.apart side, .within (.refl _ _)⟩
    obtain ⟨hreplies, halone⟩ := hstart.after hbeside turns
    refine ⟨fun call => ?_, hreplies, ?_, ?_⟩
    · obtain ⟨hframe, hpaths⟩ := hnow.untouched side call
      rw [(hnames side).2] at hframe
      simp only [file, temporaryFile, (hnames !side).1, (hnames !side).2] at hpaths
      exact ⟨hframe, hpaths⟩
    · exact halone.twins.same.1
    · intro path hpath
      rcases List.mem_pair.mp hpath with rfl | rfl
      · exact (halone.seated.staysOff_file halone.apart).find? halone.twins.same.2
      · exact (halone.seated.staysOff_temporaryFile halone.apart).find? halone.twins.same.2

/-- A directory with an empty folder. -/
def withFolder : Directory := (Directory.empty.makePath "data").2

/-- A namespace of that folder that was opened before anything was written. -/
def fresh (name : String) : FileBlobs where
  directory := withFolder
  folder := "data"
  namespaceName := name
  blobs := ∅
  dirty := false

/-- Calls on a namespace and on one that is named like its file. -/
def exchange : List (Bool × FileCall) :=
  [(false, .call (.put "k" "v")), (true, .call (.put "k" "w")), (false, .call .flush),
    (true, .call .flush), (false, .call (.remove "k")), (true, .reopen), (false, .call .flush)]

/-- The namespace that is named like the file of the other one keeps its own blob. -/
theorem namespaces_apart_suffix :
    openIn .empty "data" "a" = (.ok (fresh "a"), withFolder) ∧
      openIn withFolder "data" "a.json" = (.ok (fresh "a.json"), withFolder) ∧ "a" ≠ "a.json" ∧
      (((Pair.of (fresh "a") (fresh "a.json")).after exchange true).directory.find?
          "data/a.json.json" =
        .ok (some (.file (some (encode ((∅ : BlobMap).insert "k" "w")))))) := by
  have hone : openIn .empty "data" "a" = (.ok (fresh "a"), withFolder) := by decide +kernel
  have hother : openIn withFolder "data" "a.json" = (.ok (fresh "a.json"), withFolder) := by
    decide +kernel
  have hne : "a" ≠ "a.json" := by decide
  obtain ⟨-, -, stem, -, hturns⟩ := namespaces_apart hone hother hne
  obtain ⟨-, -, -, hfiles⟩ := hturns true exchange
  refine ⟨hone, hother, hne, ?_⟩
  have hfile := hfiles "data/a.json.json" (by decide +kernel)
  rw [hfile]
  decide +kernel

/-- The temporary file of the dot does not stand in the folder, and the flush that would write it
fails. -/
theorem not_isChild_temporaryFile :
    openIn .empty "data" "." = (.ok (fresh "."), withFolder) ∧
      openIn withFolder "data" "a" = (.ok (fresh "a"), withFolder) ∧
      ¬ IsChild "data" (fresh ".").temporaryFile ∧
      BlobStore.answers (fresh ".") [.put "k" "v", .flush] = [.done .done, .failed unusable] := by
  refine ⟨by decide +kernel, by decide +kernel, ?_, by decide +kernel⟩
  rw [show "data" = (fresh ".").folder from rfl, isChild_temporaryFile_iff (by decide)]
  exact fun hdot => hdot rfl

end DurableCache.FileBlobs
