import DurableCache.Blobs.File
import DurableCache.Entry.Blob
import DurableCache.Proofs.Json.Objects
import DurableCache.Table.Lemmas

/-!
# Round trips through JSON text

A persisted entry is read back as the entry that it was, and so is the file of a blob map. The
members of the file are written in the order of their keys, and in any other order they are read
back as the same map (`decode_arranged`).
-/

namespace DurableCache

namespace Json

/-- A decoded text is what its reader makes of it, if nothing follows. -/
theorem decode_of_reader {α : Type} {reader : Reader α} {text : String} {a : α}
    (h : reader text.toList = .ok (a, [])) : decode reader text = .ok a := by
  rw [decode, h]
  rfl

/-- The characters of a rendered value. -/
theorem toList_render (v : Value) : v.render.toList = v.write := String.toList_ofList

/-- A member with the name of a field that is not yet set is read as that field. -/
theorem Shape.readMember_of_field {δ α : Type} {shape : Shape δ α} {field : Field δ}
    {steps : Nat} {draft next : δ} {name : String} {s rest : List Char}
    (hfield : shape.fields.find? (fun f => f.name == name) = some field)
    (hset : field.isSet draft = false) (hread : field.read draft s = .ok (next, rest)) :
    shape.readMember steps draft name (':' :: s) = .ok (next, rest) := by
  simp only [Shape.readMember, hfield, hset, readColon_cons, hread, Bool.false_eq_true, if_false]
  rfl

/-- A record is read of an object if a fold over its members comes to a draft of it. -/
theorem Shape.read_of_foldMembers {δ α : Type} {shape : Shape δ α} {record : α}
    {inside rest : List Char} (draft : δ) (count : Nat)
    (hfold : ∀ room steps, foldMembers (shape.readMember room) (steps + count) true shape.blank
      inside = .ok (draft, rest))
    (hlong : count ≤ inside.length) (hbuild : shape.build draft = .ok record) :
    shape.read ('{' :: inside) = .ok (record, rest) := by
  have hsteps : ('{' :: inside).length + 1 = (inside.length + 2 - count) + count := by
    rw [List.length_cons]
    omega
  simp only [Shape.read, skipSpace_cons (show isSpace '{' = false by decide), hsteps, hfold, bind,
    Except.bind, hbuild]

end Json

namespace Entry

open Json

variable (e : Entry)

/-- The members of a persisted entry as they are written. -/
theorem write_toJson :
    e.toJson.write = '{' :: (writeString "serializedValue" ++ ':' :: (writeString e.value ++
      ',' :: (writeString "timestamp" ++ ':' :: (writeInteger e.timestamp.toNat ++
      ',' :: (writeString "timeToLive" ++ ':' ::
        ((Value.ofOption (fun t => .natural t.toNat) e.timeToLive).write ++ ['}'])))))) := by
  simp [toJson, Value.write, Value.writeMembers, Value.natural]

variable {steps : Nat} {draft : Draft} {rest : List Char}

/-- The value is read as a member. -/
theorem readMember_value (h : draft.value = none) (text : String) :
    shape.readMember steps draft "serializedValue" (':' :: (writeString text ++ rest)) =
      .ok ({ draft with value := some text }, rest) := by
  refine Shape.readMember_of_field rfl (by simp [h]) ?_
  simp only [readText_writeString, Except.map]

/-- The time of writing is read as a member. -/
theorem readMember_timestamp (h : draft.timestamp = none) (t : Timestamp)
    (hrest : EndsValue rest) :
    shape.readMember steps draft "timestamp" (':' :: (writeInteger t.toNat ++ rest)) =
      .ok ({ draft with timestamp := some t }, rest) := by
  refine Shape.readMember_of_field rfl (by simp [h]) ?_
  simp only [readWord_writeInteger t hrest.endsNumber, Except.map]

/-- The time to live is read as a member. -/
theorem readMember_timeToLive (h : draft.timeToLive = none) (t : Option UInt64)
    (hrest : EndsValue rest) :
    shape.readMember steps draft "timeToLive"
        (':' :: ((Value.ofOption (fun t => .natural t.toNat) t).write ++ rest)) =
      .ok ({ draft with timeToLive := some t }, rest) := by
  refine Shape.readMember_of_field rfl (by simp [h]) ?_
  simp only [readOptional_ofOption t hrest.endsNumber, Except.map]

/-- A persisted entry is read back as the entry that it was. -/
theorem ofBlob?_toBlob : ofBlob? e.toBlob = .ok e := by
  refine decode_of_reader ?_
  rw [toBlob, toList_render, write_toJson]
  refine Shape.read_of_foldMembers ⟨some e.value, some e.timestamp, some e.timeToLive⟩ 4
    (fun room steps => ?_) ?_ rfl
  · rw [foldMembers_first (readMember_value rfl e.value),
      foldMembers_next (readMember_timestamp rfl e.timestamp (endsValue_comma _)),
      foldMembers_next (readMember_timeToLive rfl e.timeToLive (endsValue_brace _))]
    exact foldMembers_close
  · simp only [writeString, List.length_cons, List.length_append]
    omega

end Entry

namespace FileBlobs

open Json

/-- The members of a blob file. -/
def textMembers (rows : List (String × String)) : List (String × Value) :=
  rows.map fun row => (row.1, .string row.2)

/-- The text of a string. -/
def textOf : Value → String
  | .string text => text
  | _ => ""

/-- The text of a blob file whose members stand in a certain order. A flush writes them in the order
of their keys: `encode blobs` is `arranged blobs.rows`. -/
def arranged (rows : List (String × String)) : String :=
  (Value.object (textMembers rows)).render

/-- The characters of a blob file. -/
theorem toList_arranged (rows : List (String × String)) :
    (arranged rows).toList = '{' :: (Value.writeMembers (textMembers rows) ++ ['}']) :=
  toList_render _

/-- The members of a blob file are read back as the rows of the map that they make up. -/
theorem readMembers_textMembers (rows : List (String × String)) (rest : List Char) :
    readMembers readText (Value.writeMembers (textMembers rows) ++ '}' :: rest) =
      .ok ((Table.ofList rows).rows, rest) := by
  have hread (row : String × Value) (hrow : row ∈ textMembers rows) (tail : List Char)
      (_ : EndsNumber tail) :
      readText (row.2.write ++ tail) = .ok (textOf row.2, tail) := by
    obtain ⟨⟨name, text⟩, -, rfl⟩ := List.mem_map.mp hrow
    rw [textOf, Value.write, readText_writeString]
  have hfold : (textMembers rows).foldl (fun rows row => Rows.insert row.1 (textOf row.2) rows) [] =
      (Table.ofList rows).rows := by
    rw [textMembers, List.foldl_map, Table.ofList, Table.rows_foldl_insert]
    rfl
  rw [readMembers_of_forall hread, hfold]

/-- The text of a blob file is not blank. -/
theorem trim_toList_arranged (rows : List (String × String)) :
    (Text.trim (arranged rows).toList).isEmpty = false := by
  rw [toList_arranged, Text.trim, List.dropWhile_cons_of_neg (by decide)]
  rw [List.isEmpty_reverse, List.isEmpty_eq_false_iff]
  intro hnil
  have hany := congrArg (fun text => text.any fun c => !Text.isBlank c) hnil
  simp only [List.any_dropWhile, List.any_nil, Bool.not_eq_false', List.all_reverse,
    List.all_cons, Bool.and_eq_true] at hany
  exact absurd hany.1 (by decide)

/-- The text of a blob file is read back as the blobs that it was written for, in whatever order its
members stand. -/
theorem decode_arranged {blobs : BlobMap} {rows : List (String × String)}
    (h : rows.Perm blobs.rows) : decode (arranged rows) = .ok blobs := by
  have hblobs : Table.ofList rows = blobs := Table.ofList_perm h
  have hread : readMap readText (arranged rows).toList = .ok (blobs.rows, []) := by
    rw [toList_arranged, ← hblobs]
    exact readMembers_textMembers rows []
  rw [decode, trim_toList_arranged]
  simp only [Bool.false_eq_true, if_false, decode_of_reader hread, Except.map, Table.ofList_rows]

end FileBlobs

end DurableCache
