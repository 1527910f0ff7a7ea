import DurableCache.Proofs.Http.Bodies
import DurableCache.Proofs.Json.CanonicalBlobs
import DurableCache.Proofs.Json.Records

/-!
# Entries and requests by the names of their members

A persisted entry and a request to write are decoded from an object by the names of its members
alone: in any order, among any other members, with any blanks and escapes. The result is that of the
object with the known members in their order. An object in which a name comes twice, a required one
is missing or a number is no unsigned word is not accepted (`decoded_by_name`).
-/

namespace DurableCache

namespace Json

variable {α δ : Type} {members : List (String × Member)} {name : String} {v after : List Char}

/-! ### What stands under a name -/

/-- One value stands under a name, and denotes this. -/
def Given (Denotes : List Char → α → Prop) (name : String) (members : List (String × Member))
    (a : α) : Prop :=
  ∃ v, under name members = [v] ∧ Denotes v a

/-- No value stands under a name, or null, or one that denotes this. -/
def GivenOrNot (Denotes : List Char → α → Prop) (name : String) (members : List (String × Member))
    (a : Option α) : Prop :=
  (under name members = [] ∧ a = none) ∨ Given (OrNull Denotes) name members a

/-- A number with a sign, a fraction or an exponent, or of more than sixty-four bits. -/
def NoWord (v : List Char) : Prop :=
  ∃ negative n fraction exponent, IsFraction fraction ∧ IsExponent exponent ∧
    v = numeral negative n fraction exponent ∧
    (negative = true ∨ fraction ≠ [] ∨ exponent ≠ [] ∨ wordLimit ≤ n)

/-- What is wrong with the members for a record with these names, some of them those of words. -/
inductive Unacceptable (required optional words : List String) (members : List (String × Member)) :
    Prop
  | twice {name : String} (hname : name ∈ required ++ optional)
      (hlong : 2 ≤ (under name members).length)
  | missing {name : String} (hname : name ∈ required) (hnone : under name members = [])
  | noWord {name : String} {v : List Char} (hname : name ∈ words) (hvalue : v ∈ under name members)
      (hv : NoWord v)

/-- What is given for a field that may be left out is what its values come to. -/
theorem givenOrNot_iff {Denotes : List Char → α → Prop} {a : Option α} :
    GivenOrNot Denotes name members a ↔
      ∃ o, Held (OrNull Denotes) (under name members) o ∧ o.getD none = a := by
  constructor
  · rintro (⟨hnone, rfl⟩ | hgiven)
    · exact ⟨none, hnone, rfl⟩
    · exact ⟨some a, hgiven, rfl⟩
  · rintro ⟨o, hheld, rfl⟩
    cases o with
    | none => exact Or.inl ⟨hheld, rfl⟩
    | some a => exact Or.inr hheld

/-- A number that is no word is not the digits of one. -/
theorem NoWord.not_isWord (h : NoWord v) (a : UInt64) : ¬ IsWord v a := by
  intro hword
  obtain ⟨negative, n, fraction, exponent, hfraction, hexponent, rfl, hwrong⟩ := h
  have hread := readNumber_toDigits a.toNat_lt endsNumber_nil
  rw [← show numeral negative n fraction exponent = Nat.toDigits 10 a.toNat from hword] at hread
  obtain ⟨hnone, hpower, hlimit, hinteger, -⟩ :=
    readNumber_integer hfraction hexponent endsNumber_nil hread
  rcases hwrong with rfl | hpoint | hletter | hlong
  · unfold ofInteger at hinteger
    rw [if_pos rfl] at hinteger
    split at hinteger
    · rw [Number.integer.injEq] at hinteger
      omega
    · cases hinteger
  · exact hpoint hnone
  · exact hletter hpower
  · exact absurd hlimit (Nat.not_lt.mpr hlong)

/-- A number that is no word is neither null nor the digits of a word. -/
theorem NoWord.not_orNull (h : NoWord v) (a : Option UInt64) : ¬ OrNull IsWord v a := by
  rintro (⟨hnull, -⟩ | ⟨b, -, hword⟩)
  · obtain ⟨negative, n, fraction, exponent, -, -, rfl, -⟩ := h
    obtain ⟨c, tail, hcons, hc⟩ := numeral_eq_cons negative n fraction exponent
    rw [hcons] at hnull
    cases hnull
    exact absurd hc (by decide)
  · exact h.not_isWord b hword

/-- Null is no word. -/
theorem not_isWord_null (a : UInt64) : ¬ IsWord ['n', 'u', 'l', 'l'] a := by
  intro hword
  obtain ⟨c, digits, hdigits, hc⟩ := toDigits_eq_digit_cons a.toNat
  rw [IsWord, hdigits] at hword
  cases hword
  exact absurd hc (by decide)

/-- One value stands under the name of a field that is given. -/
theorem Given.length_under {Denotes : List Char → α → Prop} {a : α}
    (h : Given Denotes name members a) : (under name members).length = 1 := by
  obtain ⟨v, hone, -⟩ := h
  rw [hone, List.length_singleton]

/-- No more than one value stands under the name of a field that may be left out. -/
theorem GivenOrNot.length_under {Denotes : List Char → α → Prop} {a : Option α}
    (h : GivenOrNot Denotes name members a) : (under name members).length ≤ 1 := by
  rcases h with ⟨hnone, -⟩ | hgiven
  · rw [hnone, List.length_nil]
    omega
  · exact Nat.le_of_eq hgiven.length_under

/-- What is given for a word is no other number. -/
theorem Given.not_noWord {a : UInt64} (h : Given IsWord name members a)
    (hv : v ∈ under name members) : ¬ NoWord v := by
  obtain ⟨w, hone, hw⟩ := h
  rw [hone, List.mem_singleton] at hv
  subst hv
  exact fun hno => hno.not_isWord a hw

/-- What is given for a word that may be left out is no other number. -/
theorem GivenOrNot.not_noWord {a : Option UInt64} (h : GivenOrNot IsWord name members a)
    (hv : v ∈ under name members) : ¬ NoWord v := by
  rcases h with ⟨hnone, -⟩ | ⟨w, hone, hw⟩
  · rw [hnone] at hv
    cases hv
  · rw [hone, List.mem_singleton] at hv
    subst hv
    exact fun hno => hno.not_orNull a hw

/-- Members are acceptable if each required name stands once, an optional one at most once, and no
other number stands for a word. -/
theorem acceptable_of_counts {required optional words : List String}
    (hrequired : ∀ name ∈ required, (under name members).length = 1)
    (hoptional : ∀ name ∈ optional, (under name members).length ≤ 1)
    (hwords : ∀ name ∈ words, ∀ v ∈ under name members, ¬ NoWord v) :
    ¬ Unacceptable required optional words members := by
  rintro (⟨hname, hlong⟩ | ⟨hname, hnone⟩ | ⟨hname, hv, hno⟩)
  · rcases List.mem_append.mp hname with hname | hname
    · exact absurd hlong (by rw [hrequired _ hname]; decide)
    · exact absurd hlong (Nat.not_le.mpr (Nat.lt_succ_of_le (hoptional _ hname)))
  · have hone := hrequired _ hname
    rw [hnone] at hone
    cases hone
  · exact hwords _ hname _ hv hno

end Json

open Json

variable {members : List (String × Member)} {text : String} {after : List Char}

/-! ### Entries -/

namespace Entry

/-- The fields of an entry with what their values denote. -/
def slots : List (Json.Slot Draft) :=
  [.of "serializedValue" false readText IsText Draft.value
      fun v d => { d with value := some v },
    .of "timestamp" false readWord IsWord Draft.timestamp
      fun t d => { d with timestamp := some t },
    .of "timeToLive" true (readOptional readWord) (OrNull IsWord) Draft.timeToLive
      fun t d => { d with timeToLive := some t }]

/-- Each field of an entry is read by itself. -/
theorem slots_shape : Slots shape slots where
  fields := rfl
  lawful := by
    refine List.forall_mem_cons.mpr ⟨Slot.of_lawful readsExactly_readText fun a d => rfl,
      List.forall_mem_cons.mpr ⟨Slot.of_lawful readsExactly_readWord fun a d => rfl,
        List.forall_mem_singleton.mpr ?_⟩⟩
    exact Slot.of_lawful (readsExactly_readWord.optional not_isWord_null) fun a d => rfl
  nodup := by decide
  apart := by
    intro slot hslot other hother hname a d
    simp only [slots, List.mem_cons, List.not_mem_nil, or_false] at hslot hother
    rcases hslot with rfl | rfl | rfl <;> rcases hother with rfl | rfl | rfl
    all_goals first | rfl | exact absurd rfl hname
  ext := by
    rintro ⟨value, timestamp, timeToLive⟩ ⟨value', timestamp', timeToLive'⟩ hsame
    obtain ⟨hvalue, hsame⟩ := List.forall_mem_cons.mp hsame
    obtain ⟨htimestamp, hlive⟩ := List.forall_mem_cons.mp hsame
    cases hvalue
    cases htimestamp
    cases List.forall_mem_singleton.mp hlive
    rfl
  blank := by
    intro slot hslot
    simp only [slots, List.mem_cons, List.not_mem_nil, or_false] at hslot
    rcases hslot with rfl | rfl | rfl <;> rfl

/-- What the members of an object give for the fields of an entry. -/
structure GivenBy (members : List (String × Member)) (e : Entry) : Prop where
  value : Given IsText "serializedValue" members e.value
  timestamp : Given IsWord "timestamp" members e.timestamp
  timeToLive : GivenOrNot IsWord "timeToLive" members e.timeToLive

/-- Members that are unacceptable give no entry. -/
theorem GivenBy.not_unacceptable {e : Entry} (h : e.GivenBy members) :
    ¬ Unacceptable ["serializedValue", "timestamp"] ["timeToLive"] ["timestamp", "timeToLive"]
      members := by
  refine acceptable_of_counts (List.forall_mem_cons.mpr ⟨h.value.length_under, ?_⟩) ?_
    (List.forall_mem_cons.mpr ⟨fun v hv => h.timestamp.not_noWord hv, ?_⟩)
  · exact List.forall_mem_singleton.mpr h.timestamp.length_under
  · exact List.forall_mem_singleton.mpr h.timeToLive.length_under
  · exact List.forall_mem_singleton.mpr fun v hv => h.timeToLive.not_noWord hv

/-- An entry is built of the members of an object exactly if they give its fields. -/
theorem build_iff {e : Entry} :
    (∃ draft, (∀ slot ∈ slots, slot.Holds draft (under slot.field.name members)) ∧
      shape.build draft = .ok e) ↔ e.GivenBy members := by
  constructor
  · rintro ⟨⟨value, timestamp, timeToLive⟩, hholds, hbuild⟩
    obtain ⟨hvalue, hholds⟩ := List.forall_mem_cons.mp hholds
    obtain ⟨htimestamp, hholds⟩ := List.forall_mem_cons.mp hholds
    have hlive := List.forall_mem_singleton.mp hholds
    cases value with
    | none => cases hbuild
    | some value =>
      cases timestamp with
      | none => cases hbuild
      | some timestamp =>
        cases hbuild
        exact ⟨hvalue, htimestamp, givenOrNot_iff.mpr ⟨timeToLive, hlive, rfl⟩⟩
  · rintro ⟨hvalue, htimestamp, hlive⟩
    obtain ⟨timeToLive, hlive, hread⟩ := givenOrNot_iff.mp hlive
    refine ⟨⟨some e.value, some e.timestamp, timeToLive⟩, ?_, ?_⟩
    · exact List.forall_mem_cons.mpr ⟨hvalue,
        List.forall_mem_cons.mpr ⟨htimestamp, List.forall_mem_singleton.mpr hlive⟩⟩
    · show Except.ok (Entry.mk e.value e.timestamp (timeToLive.getD none)) = .ok e
      rw [hread]

/-- An entry is read of an object exactly if its members give it. -/
theorem ofBlob?_iff (hobject : ObjectText members text.toList after) (hafter : Blank after)
    {e : Entry} : ofBlob? text = .ok e ↔ e.GivenBy members :=
  (slots_shape.decode_iff hobject hafter e).trans build_iff

end Entry

/-! ### Requests to write -/

namespace Http.SetRequest

/-- The object of a request to write with its members in their order. -/
def toBody (r : SetRequest) : String :=
  (Value.object
    [("key", .string r.key),
     ("value", .string r.value),
     ("ttl_ms", .ofOption (fun t => .natural t.toNat) r.timeToLive)]).render

/-- The characters of the object of a request. -/
theorem toList_toBody (r : SetRequest) :
    r.toBody.toList = SetRequest.text (r.key.toList.flatMap escapeChar)
      (r.value.toList.flatMap escapeChar) (some r.timeToLive) := by
  rw [toBody, toList_render]
  simp [SetRequest.text, writeString, Value.write, Value.writeMembers]

/-- A request is read back from its object. -/
theorem read_toBody (r : SetRequest) : shape.read r.toBody.toList = .ok (r, []) := by
  have hread := read_text (spells_flatMap r.key.toList) (spells_flatMap r.value.toList)
    (some r.timeToLive) []
  rwa [List.append_nil, ← toList_toBody] at hread

/-- The fields of a request with what their values denote. -/
def slots : List (Json.Slot Draft) :=
  [.of "key" false readText IsText Draft.key
      fun k d => { d with key := some k },
    .of "value" false readText IsText Draft.value
      fun v d => { d with value := some v },
    .of "ttl_ms" true (readOptional readWord) (OrNull IsWord) Draft.timeToLive
      fun t d => { d with timeToLive := some t }]

/-- Each field of a request is read by itself. -/
theorem slots_shape : Slots shape slots where
  fields := rfl
  lawful := by
    refine List.forall_mem_cons.mpr ⟨Slot.of_lawful readsExactly_readText fun a d => rfl,
      List.forall_mem_cons.mpr ⟨Slot.of_lawful readsExactly_readText fun a d => rfl,
        List.forall_mem_singleton.mpr ?_⟩⟩
    exact Slot.of_lawful (readsExactly_readWord.optional not_isWord_null) fun a d => rfl
  nodup := by decide
  apart := by
    intro slot hslot other hother hname a d
    simp only [slots, List.mem_cons, List.not_mem_nil, or_false] at hslot hother
    rcases hslot with rfl | rfl | rfl <;> rcases hother with rfl | rfl | rfl
    all_goals first | rfl | exact absurd rfl hname
  ext := by
    rintro ⟨key, value, timeToLive⟩ ⟨key', value', timeToLive'⟩ hsame
    obtain ⟨hkey, hsame⟩ := List.forall_mem_cons.mp hsame
    obtain ⟨hvalue, hlive⟩ := List.forall_mem_cons.mp hsame
    cases hkey
    cases hvalue
    cases List.forall_mem_singleton.mp hlive
    rfl
  blank := by
    intro slot hslot
    simp only [slots, List.mem_cons, List.not_mem_nil, or_false] at hslot
    rcases hslot with rfl | rfl | rfl <;> rfl

/-- What the members of an object give for the fields of a request. -/
structure GivenBy (members : List (String × Member)) (r : SetRequest) : Prop where
  key : Given IsText "key" members r.key
  value : Given IsText "value" members r.value
  timeToLive : GivenOrNot IsWord "ttl_ms" members r.timeToLive

/-- Members that are unacceptable give no request. -/
theorem GivenBy.not_unacceptable {r : SetRequest} (h : r.GivenBy members) :
    ¬ Unacceptable ["key", "value"] ["ttl_ms"] ["ttl_ms"] members := by
  refine acceptable_of_counts (List.forall_mem_cons.mpr ⟨h.key.length_under, ?_⟩) ?_ ?_
  · exact List.forall_mem_singleton.mpr h.value.length_under
  · exact List.forall_mem_singleton.mpr h.timeToLive.length_under
  · exact List.forall_mem_singleton.mpr fun v hv => h.timeToLive.not_noWord hv

/-- A request is built of the members of an object exactly if they give its fields. -/
theorem build_iff {r : SetRequest} :
    (∃ draft, (∀ slot ∈ slots, slot.Holds draft (under slot.field.name members)) ∧
      shape.build draft = .ok r) ↔ r.GivenBy members := by
  constructor
  · rintro ⟨⟨key, value, timeToLive⟩, hholds, hbuild⟩
    obtain ⟨hkey, hholds⟩ := List.forall_mem_cons.mp hholds
    obtain ⟨hvalue, hholds⟩ := List.forall_mem_cons.mp hholds
    have hlive := List.forall_mem_singleton.mp hholds
    cases key with
    | none => cases hbuild
    | some key =>
      cases value with
      | none => cases hbuild
      | some value =>
        cases hbuild
        exact ⟨hkey, hvalue, givenOrNot_iff.mpr ⟨timeToLive, hlive, rfl⟩⟩
  · rintro ⟨hkey, hvalue, hlive⟩
    obtain ⟨timeToLive, hlive, hread⟩ := givenOrNot_iff.mp hlive
    refine ⟨⟨some r.key, some r.value, timeToLive⟩, ?_, ?_⟩
    · exact List.forall_mem_cons.mpr ⟨hkey,
        List.forall_mem_cons.mpr ⟨hvalue, List.forall_mem_singleton.mpr hlive⟩⟩
    · show Except.ok (SetRequest.mk r.key r.value (timeToLive.getD none)) = .ok r
      rw [hread]

end Http.SetRequest

open Http

/-! ### An object with everything mixed -/

/-- A member without blanks, with its name as it is written. -/
def compact (name : String) (v : List Char) : Member :=
  ⟨[], name.toList.flatMap escapeChar, [], ⟨[], v, []⟩⟩

/-- A member without blanks has its name. -/
theorem named_compact (name : String) {v : List Char} (hv : ValueText v) :
    (compact name v).Named name where
  spaced := by
    have hnil : Blank [] := fun c hc => by cases hc
    exact ⟨hnil, hnil, hnil, hnil⟩
  spells := spells_flatMap name.toList
  value := hv

/-- An object, a string that is no text and a number that is no double, as the items of an array. -/
def oddItems : List Element :=
  [⟨[' '], ['{', '}'], []⟩, ⟨[' '], ['"', '\\', 'u', 'd', '8', '0', '0', '"'], []⟩,
    ⟨[' '], ['-', '1', '.', '5', 'e', '+', '9', '9', '9'], [' ']⟩]

/-- The items keep to the grammar. -/
theorem valueText_oddItems : ∀ e ∈ oddItems, ValueText e.value := by
  have hobject : ValueText ['{', '}'] :=
    @ValueText.object [] [] (by decide) (by simp) (by simp) (by simp)
  have hhalf : Text.IsHexWord 'd' '8' '0' '0' 0xd800 :=
    ⟨⟨by decide, Or.inl rfl⟩, ⟨by decide, Or.inl rfl⟩, ⟨by decide, Or.inl rfl⟩,
      ⟨by decide, Or.inl rfl⟩⟩
  have hnumber : ValueText (numeral true 1 ['.', '5'] ('e' :: (['+'] ++ ['9', '9', '9']))) :=
    .number (.point ⟨by decide, List.all_eq_true.mp rfl⟩)
      (.power (Or.inl rfl) (Or.inr (Or.inl rfl)) ⟨by decide, List.all_eq_true.mp rfl⟩)
  exact List.forall_mem_cons.mpr ⟨hobject, List.forall_mem_cons.mpr
    ⟨.string (.unit hhalf .nil), List.forall_mem_singleton.mpr hnumber⟩⟩

/-- Members out of their order, one with blanks, one with an escape in its name and one unknown. -/
def mixedMembers : List (String × Member) :=
  [("note", ⟨[' '], "note".toList.flatMap escapeChar, ['\t'],
      ⟨['\n'], bracketed '[' ']' [] (oddItems.map Element.text), ['\r']⟩⟩),
    ("ttl_ms", compact "ttl_ms" ['n', 'u', 'l', 'l']),
    ("value", ⟨[], '\\' :: 'u' :: '0' :: '0' :: '7' :: '6' :: "alue".toList.flatMap escapeChar, [],
      ⟨[], writeString "v", []⟩⟩),
    ("timestamp", compact "timestamp" ['5']),
    ("serializedValue", compact "serializedValue" ['"', '\\', '/', '"']),
    ("key", compact "key" (writeString "k"))]

/-- A written string is the string of its text. -/
theorem isText_writeString (s : String) : IsText (writeString s) s :=
  ⟨s.toList.flatMap escapeChar, spells_flatMap s.toList, rfl⟩

/-- The digit five is a word. -/
theorem isWord_five : IsWord ['5'] 5 := by
  unfold IsWord
  decide +kernel

/-- A slash may stand behind a backslash. -/
theorem isText_slash : IsText ['"', '\\', '/', '"'] "/" :=
  ⟨['\\', '/'], .short (by decide) .nil, rfl⟩

/-- The members have the names that they are listed under. -/
theorem named_mixedMembers : ∀ m ∈ mixedMembers, m.2.Named m.1 := by
  have hletter : Text.IsHexWord '0' '0' '7' '6' 'v'.toNat :=
    ⟨⟨by decide, Or.inl rfl⟩, ⟨by decide, Or.inl rfl⟩, ⟨by decide, Or.inl rfl⟩,
      ⟨by decide, Or.inl rfl⟩⟩
  have hnote : ValueText (bracketed '[' ']' [] (oddItems.map Element.text)) :=
    .array (by decide) (by decide) valueText_oddItems
  refine List.forall_mem_cons.mpr ⟨⟨by decide, spells_flatMap "note".toList, hnote⟩, ?_⟩
  refine List.forall_mem_cons.mpr ⟨named_compact "ttl_ms" .nullWord, ?_⟩
  refine List.forall_mem_cons.mpr ⟨⟨by decide, ?_, (isText_writeString "v").valueText⟩, ?_⟩
  · have hname : "value".toList = 'v' :: "alue".toList := by decide
    show Spells _ "value".toList
    rw [hname]
    exact .unit hletter (spells_flatMap "alue".toList)
  refine List.forall_mem_cons.mpr ⟨named_compact "timestamp" isWord_five.valueText, ?_⟩
  refine List.forall_mem_cons.mpr ⟨named_compact "serializedValue" isText_slash.valueText, ?_⟩
  exact List.forall_mem_singleton.mpr (named_compact "key" (isText_writeString "k").valueText)

/-! ### Decoding by name -/

/-- Entries and requests are decoded from an object by the names of its members alone. Whatever the
order of the members, whatever else stands among them, and however they are spelled and spaced, an
entry is read exactly if each required name stands once with a value of its kind, and the optional
one at most once, with null or a value of its kind; and so for a request, decoded as a whole text or
as the beginning of one. The result is that of the object with the known members in their order.
Nothing is read of an object in which a name comes twice, a required one is missing, or a number has
a sign, a fraction, an exponent or more than sixty-four bits. -/
theorem decoded_by_name (hobject : ObjectText members text.toList after) (hafter : Blank after) :
    (∀ e : Entry, Entry.ofBlob? text = .ok e ↔ e.GivenBy members) ∧
    (∀ e : Entry, e.GivenBy members →
      Entry.ofBlob? text = .ok e ∧ Entry.ofBlob? text = Entry.ofBlob? e.toBlob) ∧
    (Unacceptable ["serializedValue", "timestamp"] ["timeToLive"] ["timestamp", "timeToLive"]
        members →
      ∀ e, Entry.ofBlob? text ≠ .ok e) ∧
    (∀ r : SetRequest,
      (decode SetRequest.shape.read text = .ok r ↔ r.GivenBy members) ∧
      (decodePart SetRequest.shape.read text = .ok r ↔ r.GivenBy members)) ∧
    (∀ r : SetRequest, r.GivenBy members →
      decode SetRequest.shape.read text = .ok r ∧
      decode SetRequest.shape.read text = decode SetRequest.shape.read r.toBody ∧
      decodePart SetRequest.shape.read text = .ok r ∧
      decodePart SetRequest.shape.read text = decodePart SetRequest.shape.read r.toBody) ∧
    (Unacceptable ["key", "value"] ["ttl_ms"] ["ttl_ms"] members →
      ∀ r, decode SetRequest.shape.read text ≠ .ok r ∧
        decodePart SetRequest.shape.read text ≠ .ok r) := by
  have hentry (e : Entry) := Entry.ofBlob?_iff (e := e) hobject hafter
  have hwhole (r : SetRequest) :=
    (SetRequest.slots_shape.decode_iff hobject hafter r).trans SetRequest.build_iff
  have hpart (r : SetRequest) :=
    (SetRequest.slots_shape.decodePart_iff hobject r).trans SetRequest.build_iff
  refine ⟨hentry, fun e he => ?_, fun hbad e he => ?_, fun r => ⟨hwhole r, hpart r⟩,
    fun r hr => ?_, fun hbad r => ⟨fun hread => ?_, fun hread => ?_⟩⟩
  · have hread := (hentry e).mpr he
    exact ⟨hread, hread.trans (Entry.ofBlob?_toBlob e).symm⟩
  · exact ((hentry e).mp he).not_unacceptable hbad
  · have hdecode := (hwhole r).mpr hr
    have hdecodePart := (hpart r).mpr hr
    have hbody := SetRequest.read_toBody r
    refine ⟨hdecode, hdecode.trans (decode_of_reader hbody).symm, hdecodePart, hdecodePart.trans ?_⟩
    rw [decodePart, hbody]
    rfl
  · exact ((hwhole r).mp hread).not_unacceptable hbad
  · exact ((hpart r).mp hread).not_unacceptable hbad

/-- A text with blanks, an escaped name, an unknown member and members out of their order is read as
an entry and as a request. One with a sign in front of a zero is no entry, and with a name twice it
is no request. -/
theorem decoded_by_name_mixed :
    (let text := " \x7b \"note\"\t:\n[ \x7b\x7d, \"\\ud800\", -1.5e+999 ]\r,\"ttl_ms\":null," ++
        "\"\\u0076alue\":\"v\",\"timestamp\":5,\"serializedValue\":\"\\/\",\"key\":\"k\"\x7d ";
      Entry.ofBlob? text = .ok ⟨"/", 5, none⟩ ∧
      decode SetRequest.shape.read text = .ok ⟨"k", "v", none⟩ ∧
      decodePart SetRequest.shape.read text = .ok ⟨"k", "v", none⟩) ∧
    (let text := "\x7b\"timestamp\":-0,\"serializedValue\":\"\",\"key\":\"\",\"key\":\"\"\x7d";
      (∀ e, Entry.ofBlob? text ≠ .ok e) ∧
      ∀ r, decode SetRequest.shape.read text ≠ .ok r ∧
        decodePart SetRequest.shape.read text ≠ .ok r) := by
  constructor
  · intro text
    have hobject : ObjectText mixedMembers text.toList [' '] :=
      ⟨named_mixedMembers, [' '], [], by decide, by decide, by decide +kernel⟩
    obtain ⟨-, hentry, -, -, hrequest, -⟩ := decoded_by_name hobject (by decide)
    have hgiven : Entry.GivenBy mixedMembers ⟨"/", 5, none⟩ :=
      ⟨⟨_, by decide +kernel, isText_slash⟩, ⟨_, by decide +kernel, isWord_five⟩,
        Or.inl ⟨by decide +kernel, rfl⟩⟩
    have hset : SetRequest.GivenBy mixedMembers ⟨"k", "v", none⟩ :=
      ⟨⟨_, by decide +kernel, isText_writeString "k"⟩,
        ⟨_, by decide +kernel, isText_writeString "v"⟩,
        Or.inr ⟨_, by decide +kernel, Or.inl ⟨rfl, rfl⟩⟩⟩
    obtain ⟨hdecode, -, hpart, -⟩ := hrequest _ hset
    exact ⟨(hentry _ hgiven).1, hdecode, hpart⟩
  · intro text
    let members := [("timestamp", compact "timestamp" (numeral true 0 [] [])),
      ("serializedValue", compact "serializedValue" (writeString "")),
      ("key", compact "key" (writeString "")), ("key", compact "key" (writeString ""))]
    have hempty := (isText_writeString "").valueText
    have hnamed : ∀ m ∈ members, m.2.Named m.1 :=
      List.forall_mem_cons.mpr ⟨named_compact _ (.number .none .none), List.forall_mem_cons.mpr
        ⟨named_compact _ hempty, List.forall_mem_cons.mpr
          ⟨named_compact _ hempty, List.forall_mem_singleton.mpr (named_compact _ hempty)⟩⟩⟩
    have hobject : ObjectText members text.toList [] :=
      ⟨hnamed, [], [], by decide, by decide, by decide +kernel⟩
    obtain ⟨-, -, hentry, -, -, hrequest⟩ := decoded_by_name hobject (by decide)
    have hsign : NoWord (numeral true 0 [] []) := ⟨true, 0, [], [], .none, .none, rfl, Or.inl rfl⟩
    exact ⟨hentry (.noWord List.mem_cons_self (by decide +kernel) hsign),
      hrequest (.twice List.mem_cons_self (by decide +kernel))⟩

end DurableCache
