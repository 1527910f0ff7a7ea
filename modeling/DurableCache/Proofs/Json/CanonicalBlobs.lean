import DurableCache.Proofs.Json.RoundTrip

/-!
# Canonical blobs

Many texts are read as one entry: members may stand in another order, blanks and escapes are
free, and a time to live of none may be left out. Exactly one of these texts is the one that
the entry is written as, and writing again what was read leads to it.
-/

namespace DurableCache.Entry

open Json

/-- The text as it is written again after it was read. -/
def canonical? (blob : String) : Except ReadError String := (ofBlob? blob).map toBlob

/-- Distinct entries have distinct blobs. -/
theorem toBlob_injective : Function.Injective toBlob := by
  intro first second h
  have hread : (.ok first : Except ReadError Entry) = .ok second := by
    rw [← ofBlob?_toBlob first, h, ofBlob?_toBlob second]
  exact Except.ok.inj hread

/-- A text has a canonical form exactly if it is read as an entry, whose blob that form is. -/
theorem canonical?_eq_ok_iff {blob form : String} :
    canonical? blob = .ok form ↔ ∃ e, ofBlob? blob = .ok e ∧ e.toBlob = form := by
  rw [canonical?]
  cases ofBlob? blob with
  | error cause => simp [Except.map]
  | ok e => simp [Except.map]

/-- The blob of an entry is its own canonical form. -/
theorem canonical?_toBlob (e : Entry) : canonical? e.toBlob = .ok e.toBlob :=
  canonical?_eq_ok_iff.mpr ⟨e, ofBlob?_toBlob e, rfl⟩

/-- The canonical form of a text is read as what the text is read as. -/
theorem ofBlob?_of_canonical? {blob form : String} (h : canonical? blob = .ok form) :
    ofBlob? form = ofBlob? blob := by
  obtain ⟨e, hread, rfl⟩ := canonical?_eq_ok_iff.mp h
  rw [ofBlob?_toBlob, hread]

/-- Two texts have one canonical form exactly if they are read as one entry. -/
theorem canonical?_eq_canonical?_iff {first second : String} {e : Entry}
    (h : ofBlob? first = .ok e) :
    canonical? first = canonical? second ↔ ofBlob? second = .ok e := by
  constructor
  · intro heq
    have hform : canonical? second = .ok e.toBlob :=
      heq.symm.trans (canonical?_eq_ok_iff.mpr ⟨e, h, rfl⟩)
    rw [← ofBlob?_of_canonical? hform, ofBlob?_toBlob]
  · intro hsecond
    rw [canonical?, canonical?, h, hsecond]

/-- The blob of an entry whose time to live is left out. -/
def bareBlob (value : String) (timestamp : Timestamp) : String :=
  (Value.object [("serializedValue", .string value),
    ("timestamp", .natural timestamp.toNat)]).render

/-- The members of a blob whose time to live is left out. -/
theorem toList_bareBlob (value : String) (timestamp : Timestamp) :
    (bareBlob value timestamp).toList =
      '{' :: (writeString "serializedValue" ++ ':' :: (writeString value ++
        ',' :: (writeString "timestamp" ++ ':' :: (writeInteger timestamp.toNat ++ ['}'])))) := by
  rw [bareBlob, toList_render]
  simp [Value.write, Value.writeMembers, Value.natural]

/-- A time to live that is left out is none. -/
theorem ofBlob?_bareBlob (value : String) (timestamp : Timestamp) :
    ofBlob? (bareBlob value timestamp) = .ok ⟨value, timestamp, none⟩ := by
  refine decode_of_reader ?_
  rw [toList_bareBlob]
  refine Shape.read_of_foldMembers ⟨some value, some timestamp, none⟩ 3 (fun room steps => ?_) ?_
    rfl
  · rw [foldMembers_first (readMember_value rfl value),
      foldMembers_next (readMember_timestamp rfl timestamp (endsValue_brace _))]
    exact foldMembers_close
  · simp only [writeString, List.length_append, List.length_cons]
    omega

/-- Blobs are a lossless and canonical form of entries. Every entry is read back from its blob,
whatever its text, and no other entry has this blob: a JSON object of the three members in
their order, without blanks, with null for no time to live, which may also be left out. Every
text that is read as an entry has the blob of that entry for its canonical form: the form is
read as the same entry, is its own canonical form, and is shared by exactly the texts that are
read as this entry. -/
theorem toBlob_canonical :
    (∀ e : Entry,
      ofBlob? e.toBlob = .ok e ∧
      (∀ other : Entry, other.toBlob = e.toBlob → other = e) ∧
      e.toBlob.toList =
        '{' :: (writeString "serializedValue" ++ ':' :: (writeString e.value ++
          ',' :: (writeString "timestamp" ++ ':' :: (writeInteger e.timestamp.toNat ++
          ',' :: (writeString "timeToLive" ++ ':' ::
            ((match e.timeToLive with
              | some t => writeInteger t.toNat
              | none => ['n', 'u', 'l', 'l']) ++ ['}'])))))) ∧
      (e.timeToLive = none → ofBlob? (bareBlob e.value e.timestamp) = .ok e)) ∧
    (∀ (blob : String) (e : Entry), ofBlob? blob = .ok e →
      canonical? blob = .ok e.toBlob ∧
      ofBlob? e.toBlob = .ok e ∧
      canonical? e.toBlob = .ok e.toBlob ∧
      ∀ other, canonical? other = canonical? blob ↔ ofBlob? other = .ok e) := by
  constructor
  · intro e
    refine ⟨ofBlob?_toBlob e, fun other h => toBlob_injective h, ?_, ?_⟩
    · rw [toBlob, toList_render, write_toJson]
      cases e.timeToLive with
      | none => rfl
      | some t => rfl
    · intro hnone
      rw [ofBlob?_bareBlob, ← hnone]
  · intro blob e hread
    refine ⟨canonical?_eq_ok_iff.mpr ⟨e, hread, rfl⟩, ofBlob?_toBlob e, canonical?_toBlob e, ?_⟩
    intro other
    exact eq_comm.trans (canonical?_eq_canonical?_iff hread)

/-- A text in another order, with blanks, escapes of both kinds and a member that is passed over
is read as an entry; the blob of this entry is another text, and writing twice changes nothing.
A time to live of zero is not none. -/
theorem toBlob_canonical_escaped :
    let blob := "\x7b \"timeToLive\": 0, \"note\": [1, \x7b\x7d], \"timestamp\" : " ++
      "18446744073709551615,\n \"serializedValue\": \"\\u0000\\/\\ud83d\\uDE00\\n\\\"\" \x7d"
    let e : Entry := ⟨"\x00/😀\n\"", 18446744073709551615, some 0⟩
    ofBlob? blob = .ok e ∧
    e.toBlob = "\x7b\"serializedValue\":\"\\u0000/😀\\n\\\"\"," ++
      "\"timestamp\":18446744073709551615,\"timeToLive\":0\x7d" ∧
    canonical? blob = .ok e.toBlob ∧
    ofBlob? e.toBlob = .ok e ∧
    canonical? e.toBlob = .ok e.toBlob ∧
    ofBlob? (bareBlob "" 3) = .ok ⟨"", 3, none⟩ := by
  intro blob e
  have hsome : (ofBlob? blob).toOption = some e := by decide +kernel
  have hread : ofBlob? blob = .ok e := by
    cases hcase : ofBlob? blob with
    | error cause => rw [hcase] at hsome; cases hsome
    | ok found => rw [hcase] at hsome; rw [Option.some.inj hsome]
  have hblob : e.toBlob = "\x7b\"serializedValue\":\"\\u0000/😀\\n\\\"\"," ++
      "\"timestamp\":18446744073709551615,\"timeToLive\":0\x7d" := by decide +kernel
  have hcanonical := toBlob_canonical.2 blob e hread
  exact ⟨hread, hblob, hcanonical.1, hcanonical.2.1, hcanonical.2.2.1,
    (toBlob_canonical.1 ⟨"", 3, none⟩).2.2.2 rfl⟩

end DurableCache.Entry
