import DurableCache.Proofs.Json.Grammar

/-!
# What values are read as

Of all the values of the grammar a reader takes exactly those that denote something of its shape: a
string the spellings of texts, an integer the plain digits of the numbers of its range
(`readsExactly_readText`, `readsExactly_readInteger`).
-/

namespace DurableCache.Json

open Text (IsHexWord)

variable {content acc rest left tail v : List Char}

/-! ### Strings -/

/-- What is read of a string is what is read behind its first escape, if that is read. -/
theorem readContent_of_escape {s : String}
    (h : readContent 0 acc ('\\' :: tail) = .ok (s, left)) :
    ∃ c width, readEscape tail = .ok (c, width) ∧
      readContent width (c :: acc) tail = .ok (s, left) := by
  simp only [readContent, Char.reduceEq, if_false, if_true] at h
  split at h
  · cases h
  · exact ⟨_, _, ‹_›, h⟩

/-- Two units that are read are the first and the second of a pair. -/
theorem pair_of_readUnicode {a b c d char : Char} {n width : Nat} (hunit : IsHexWord a b c d n)
    (hleading : isLeading n = true) (hcontent : StringContent content)
    (hread : readUnicode (a :: b :: c :: d :: (content ++ '"' :: rest)) = .ok (char, width)) :
    ∃ a' b' c' d' m more, content = '\\' :: 'u' :: a' :: b' :: c' :: d' :: more ∧
      IsHexWord a' b' c' d' m ∧ StringContent more ∧ isTrailing m = true ∧
      char = pairChar n m ∧ width = 10 := by
  have htrailing : isTrailing n = false := by
    simp only [isLeading, isTrailing, Bool.and_eq_true, decide_eq_true_eq, Bool.and_eq_false_iff,
      decide_eq_false_iff_not] at hleading ⊢
    omega
  simp only [readUnicode, fourHex_of_isHexWord hunit, htrailing, hleading, List.drop_succ_cons,
    List.drop_zero, Bool.false_eq_true, if_false, if_true] at hread
  split at hread
  case h_3 second heq =>
    cases hcontent with
    | nil => cases heq
    | plain hquote hslash hcontrol hrest => exact absurd (List.cons.inj heq).1 hslash
    | short hletter hrest =>
      simp only [List.cons_append, List.cons.injEq] at heq
      obtain ⟨-, rfl, -⟩ := heq
      exact absurd hletter (by simp [shortEscapes])
    | @unit a' b' c' d' m more hword hrest =>
      simp only [List.cons_append, List.cons.injEq, true_and] at heq
      rw [← heq, fourHex_of_isHexWord hword] at hread
      simp only at hread
      split at hread
      · rename_i hsecond
        rw [Except.ok.injEq, Prod.mk.injEq] at hread
        exact ⟨a', b', c', d', m, more, rfl, hword, hrest, hsecond, hread.1.symm, hread.2.symm⟩
      · cases hread
  all_goals cases hread

/-- A number that is that of a character is the number of its character. -/
theorem toNat_ofNat {n : Nat} (h : n.isValidChar) : (Char.ofNat n).toNat = n := by
  rw [Char.ofNat, dif_pos h]
  rfl

/-- The character of a pair is that of which the two units are the halves. -/
theorem toNat_pairChar {n m : Nat} (hleading : isLeading n = true)
    (htrailing : isTrailing m = true) :
    0x10000 ≤ (pairChar n m).toNat ∧ n = 0xd800 + ((pairChar n m).toNat - 0x10000) / 0x400 ∧
      m = 0xdc00 + ((pairChar n m).toNat - 0x10000) % 0x400 := by
  simp only [isLeading, isTrailing, Bool.and_eq_true, decide_eq_true_eq] at hleading htrailing
  have hvalid : (0x10000 + (n - 0xd800) * 0x400 + (m - 0xdc00)).isValidChar := by
    right
    omega
  have hvalue : (pairChar n m).toNat = 0x10000 + (n - 0xd800) * 0x400 + (m - 0xdc00) := by
    exact toNat_ofNat hvalid
  rw [hvalue]
  omega

/-- A unit that is read by itself is the number of its character. -/
theorem unit_of_readUnicode {a b c d char : Char} {n width : Nat} (hunit : IsHexWord a b c d n)
    (hleading : isLeading n = false)
    (hread : readUnicode (a :: b :: c :: d :: tail) = .ok (char, width)) :
    (Char.ofNat n).toNat = n ∧ char = Char.ofNat n ∧ width = 4 := by
  simp only [readUnicode, fourHex_of_isHexWord hunit, hleading, Bool.false_eq_true, if_false]
    at hread
  split at hread
  · cases hread
  · rename_i htrailing
    cases hread
    refine ⟨toNat_ofNat ?_, rfl, rfl⟩
    have hfirst := hunit.first.1
    simp only [isLeading, isTrailing, Bool.and_eq_true, decide_eq_true_eq, Bool.and_eq_false_iff,
      decide_eq_false_iff_not] at hleading htrailing
    show n < 0xd800 ∨ 0xdfff < n ∧ n < 0x110000
    omega

/-- The content of a string that is read spells the text that it is read as. -/
theorem StringContent.spells_of_readContent {s : String} (h : StringContent content)
    (hread : readContent 0 acc (content ++ '"' :: rest) = .ok (s, left)) :
    ∃ text, Spells content text ∧ s = String.ofList (acc.reverse ++ text) ∧ left = rest := by
  induction hlength : content.length using Nat.strongRecOn generalizing content acc with
  | ind length ih =>
    subst hlength
    have hstep (escape : List Char) {more : List Char} {c : Char} {width : Nat}
        (hshort : more.length < content.length) (hmore : StringContent more)
        (hwidth : width = escape.length)
        (hrest : readContent width (c :: acc) (escape ++ (more ++ '"' :: rest)) = .ok (s, left)) :
        ∃ text, Spells more text ∧ s = String.ofList (acc.reverse ++ c :: text) ∧ left = rest := by
      rw [hwidth, readContent_skip] at hrest
      obtain ⟨text, hspells, hs, hleft⟩ := ih _ hshort hmore hrest rfl
      refine ⟨text, hspells, ?_, hleft⟩
      rw [hs, List.reverse_cons, List.append_assoc]
      rfl
    cases h with
    | nil =>
      simp only [List.nil_append, readContent, if_true] at hread
      cases hread
      exact ⟨[], .nil, by simp, rfl⟩
    | @plain c content hquote hslash hcontrol hmore =>
      rw [List.cons_append] at hread
      simp only [readContent, hquote, hslash, Nat.not_lt.mpr hcontrol, if_false] at hread
      obtain ⟨text, hspells, hs, hleft⟩ := hstep [] (by simp) hmore rfl hread
      exact ⟨c :: text, .plain hquote hslash hcontrol hspells, hs, hleft⟩
    | @short letter c content hletter hmore =>
      simp only [List.cons_append] at hread
      obtain ⟨char, width, hescape, hrest⟩ := readContent_of_escape hread
      rw [readEscape_short hletter] at hescape
      cases hescape
      obtain ⟨text, hspells, hs, hleft⟩ :=
        hstep [letter] (by simp only [List.length_cons]; omega) hmore rfl hrest
      exact ⟨c :: text, .short hletter hspells, hs, hleft⟩
    | @unit a b c d n content hunit hmore =>
      simp only [List.cons_append] at hread
      obtain ⟨char, width, hescape, hrest⟩ := readContent_of_escape hread
      simp only [readEscape] at hescape
      cases hunicode : readUnicode (a :: b :: c :: d :: (content ++ '"' :: rest)) with
      | error e =>
        rw [hunicode] at hescape
        cases hescape
      | ok found =>
        obtain ⟨read, count⟩ := found
        rw [hunicode] at hescape
        cases hescape
        by_cases hleading : isLeading n = true
        · obtain ⟨a', b', c', d', m, more, rfl, hword, hmore, htrailing, hchar, hwidth⟩ :=
            pair_of_readUnicode hunit hleading hmore hunicode
          obtain ⟨hwide, hfirst, hsecond⟩ := toNat_pairChar hleading htrailing
          rw [← hchar] at hwide hfirst hsecond
          rw [hwidth] at hrest
          obtain ⟨text, hspells, hs, hleft⟩ := hstep
            ['u', a, b, c, d, '\\', 'u', a', b', c', d'] (by simp only [List.length_cons]; omega)
            hmore rfl hrest
          refine ⟨read :: text, .pair hwide ?_ ?_ hspells, hs, hleft⟩
          · rwa [← hfirst]
          · rwa [← hsecond]
        · obtain ⟨hnot, rfl, rfl⟩ := unit_of_readUnicode hunit (by simpa using hleading) hunicode
          obtain ⟨text, hspells, hs, hleft⟩ :=
            hstep ['u', a, b, c, d] (by simp only [List.length_cons]; omega) hmore rfl hrest
          exact ⟨Char.ofNat n :: text, .unit (by rwa [hnot]) hspells, hs, hleft⟩

/-- The content of a string is read exactly as a text that it spells. -/
theorem StringContent.readString_iff {s : String} (h : StringContent content) :
    readString (content ++ '"' :: rest) = .ok (s, left) ↔
      Spells content s.toList ∧ left = rest := by
  constructor
  · intro hread
    obtain ⟨text, hspells, rfl, hleft⟩ := h.spells_of_readContent hread
    refine ⟨?_, hleft⟩
    rwa [List.reverse_nil, List.nil_append, String.toList_ofList]
  · rintro ⟨hspells, rfl⟩
    exact readString_of_spells hspells left

/-! ### Numbers -/

/-- Digits of a number that is no word are taken up to one of them. -/
theorem takeDigits_of_long {digits : List Char} (value count : Nat) (tail : List Char)
    (hdigits : ∀ c ∈ digits, c.isDigit = true) (hvalue : value < wordLimit)
    (hlong : wordLimit ≤ Nat.ofDigitChars 10 digits value) :
    ∃ taken more c further, takeDigits value count (digits ++ tail) = (taken, more, c :: further) ∧
      c.isDigit = true := by
  induction digits generalizing value count with
  | nil => exact absurd hlong (Nat.not_le.mpr hvalue)
  | cons c digits ih =>
    obtain ⟨hc, hdigits⟩ := List.forall_mem_cons.mp hdigits
    rw [Nat.ofDigitChars_cons] at hlong
    rw [List.cons_append, takeDigits, if_pos hc]
    by_cases hnext : 10 * value + (c.toNat - '0'.toNat) < wordLimit
    · simp only [hnext, if_true]
      exact ih _ _ hdigits hnext hlong
    · simp only [hnext, if_false]
      exact ⟨_, _, _, _, rfl, hc⟩

/-- A double is no integer. -/
theorem float_ne_integer {x : Except ReadError (Float × List Char)} {m : Int} :
    (x.map fun (x, rest) => (Number.float x, rest)) ≠ .ok (.integer m, left) := by
  cases x with
  | error e => exact fun h => by cases h
  | ok x => exact fun h => by cases h

/-- A number that is no word is no integer. -/
theorem readMagnitude_of_long {negative : Bool} {n : Nat} {m : Int} (h : wordLimit ≤ n) :
    readMagnitude negative (Nat.toDigits 10 n ++ tail) ≠ .ok (.integer m, left) := by
  rcases toDigits_cases n with ⟨rfl, -⟩ | ⟨first, digits, hdigits, hfirst, hdigit, hall⟩
  · exact absurd h (by decide)
  · have hevery : ∀ c ∈ first :: digits, c.isDigit = true :=
      List.forall_mem_cons.mpr ⟨hdigit, hall⟩
    have hvalue : Nat.ofDigitChars 10 (first :: digits) 0 = n := by
      rw [← hdigits, Nat.ofDigitChars_ten_toDigits]
    obtain ⟨taken, more, c, further, htake, hc⟩ :=
      takeDigits_of_long 0 0 tail hevery (by decide) (by rwa [hvalue])
    rw [List.cons_append] at htake
    rw [hdigits, List.cons_append]
    simp only [readMagnitude, hdigit, htake, hc, if_true]
    exact float_ne_integer

/-- A fraction or an exponent makes a number a double. -/
theorem readTail_integer {negative : Bool} {n : Nat} {fraction exponent : List Char} {m : Int}
    (hfraction : IsFraction fraction) (hexponent : IsExponent exponent) (hrest : EndsNumber rest)
    (hread : readTail negative n (fraction ++ (exponent ++ rest)) = .ok (.integer m, left)) :
    fraction = [] ∧ exponent = [] ∧ ofInteger negative n = .integer m ∧ left = rest := by
  cases hfraction with
  | point _ => exact absurd hread float_ne_integer
  | none =>
    cases hexponent with
    | none =>
      rw [List.nil_append, List.nil_append, readTail_of_endsNumber hrest] at hread
      rw [Except.ok.injEq, Prod.mk.injEq] at hread
      exact ⟨rfl, rfl, hread.1, hread.2.symm⟩
    | power hletter _ _ =>
      rcases hletter with rfl | rfl
      · exact absurd hread float_ne_integer
      · exact absurd hread float_ne_integer

/-- The text of a number is read as an integer only if it has neither fraction nor exponent and its
digits are those of a word. -/
theorem readNumber_integer {negative : Bool} {n : Nat} {fraction exponent : List Char} {m : Int}
    (hfraction : IsFraction fraction) (hexponent : IsExponent exponent) (hrest : EndsNumber rest)
    (hread : readNumber (numeral negative n fraction exponent ++ rest) = .ok (.integer m, left)) :
    fraction = [] ∧ exponent = [] ∧ n < wordLimit ∧ ofInteger negative n = .integer m ∧
      left = rest := by
  have hmagnitude : readMagnitude negative (Nat.toDigits 10 n ++ (fraction ++ (exponent ++ rest))) =
      .ok (.integer m, left) := by
    cases negative with
    | true => simpa [numeral, readNumber] using hread
    | false =>
      rw [← readNumber_toDigits_append]
      simpa [numeral] using hread
  by_cases hlong : wordLimit ≤ n
  · exact absurd hmagnitude (readMagnitude_of_long hlong)
  · have hword : n < wordLimit := Nat.not_le.mp hlong
    rw [readMagnitude_toDigits hword negative fun c hc => hfraction.head hexponent hrest hc]
      at hmagnitude
    obtain ⟨hnone, hpower, hinteger, hleft⟩ := readTail_integer hfraction hexponent hrest hmagnitude
    exact ⟨hnone, hpower, hword, hinteger, hleft⟩

/-! ### Values by their first character -/

/-- A value that begins with a quote is a string. -/
theorem ValueText.string_of_cons (h : ValueText ('"' :: tail)) :
    ∃ content, StringContent content ∧ tail = content ++ ['"'] := by
  generalize hv : '"' :: tail = v at h
  cases h with
  | string hcontent => exact ⟨_, hcontent, (List.cons.inj hv).2⟩
  | number _ _ =>
    obtain ⟨c, rest, hcons, hc⟩ := numeral_eq_cons _ _ _ _
    rw [hcons] at hv
    cases hv
    exact absurd hc (by decide)
  | @array items _ _ _ _ => cases items <;> cases hv
  | @object members _ _ _ _ _ => cases members <;> cases hv
  | nullWord => cases hv
  | trueWord => cases hv
  | falseWord => cases hv

/-- A value that begins with the first letter of null is null. -/
theorem ValueText.null_of_cons (h : ValueText ('n' :: tail)) : tail = ['u', 'l', 'l'] := by
  generalize hv : 'n' :: tail = v at h
  cases h with
  | nullWord => exact (List.cons.inj hv).2
  | number _ _ =>
    obtain ⟨c, rest, hcons, hc⟩ := numeral_eq_cons _ _ _ _
    rw [hcons] at hv
    cases hv
    exact absurd hc (by decide)
  | @array items _ _ _ _ => cases items <;> cases hv
  | @object members _ _ _ _ _ => cases members <;> cases hv
  | string _ => cases hv
  | trueWord => cases hv
  | falseWord => cases hv

/-- A value that begins with a sign or a digit is a number. -/
theorem ValueText.number_of_cons {c : Char} (h : ValueText (c :: tail))
    (hc : (c = '-' || c.isDigit) = true) :
    ∃ negative n fraction exponent, IsFraction fraction ∧ IsExponent exponent ∧
      c :: tail = numeral negative n fraction exponent := by
  generalize hv : c :: tail = v at h
  cases h with
  | number hfraction hexponent => exact ⟨_, _, _, _, hfraction, hexponent, rfl⟩
  | @array items _ _ _ _ => cases items <;> cases hv <;> exact absurd hc (by decide)
  | @object members _ _ _ _ _ => cases members <;> cases hv <;> exact absurd hc (by decide)
  | string _ => cases hv; exact absurd hc (by decide)
  | nullWord => cases hv; exact absurd hc (by decide)
  | trueWord => cases hv; exact absurd hc (by decide)
  | falseWord => cases hv; exact absurd hc (by decide)

/-! ### Readers -/

variable {α : Type} {reader : Reader α} {Denotes : List Char → α → Prop}

/-- A reader takes exactly the values that denote something, up to their ends, for what they
denote. -/
def ReadsExactly (reader : Reader α) (Denotes : List Char → α → Prop) : Prop :=
  ∀ ⦃before v rest : List Char⦄ (a : α) (left : List Char), Blank before → ValueText v →
    EndsNumber rest →
    (reader (before ++ (v ++ rest)) = .ok (a, left) ↔ Denotes v a ∧ left = rest)

/-- A value is a string that spells a text. -/
def IsText (v : List Char) (s : String) : Prop :=
  ∃ spelling, Spells spelling s.toList ∧ v = '"' :: (spelling ++ ['"'])

/-- A value is the plain digits of an integer of a range, with its sign. -/
def IsInteger (range : IntegerRange) (v : List Char) (n : Int) : Prop :=
  v = writeInteger n ∧ range.least ≤ n ∧ n ≤ range.greatest

/-- A value is the plain digits of an unsigned word. -/
def IsWord (v : List Char) (n : UInt64) : Prop := v = Nat.toDigits 10 n.toNat

/-- A value is null, or denotes something. -/
def OrNull (Denotes : List Char → α → Prop) (v : List Char) (a : Option α) : Prop :=
  (v = ['n', 'u', 'l', 'l'] ∧ a = none) ∨ ∃ b, a = some b ∧ Denotes v b

/-- A string that spells a text is a value. -/
theorem IsText.valueText {s : String} (h : IsText v s) : ValueText v := by
  obtain ⟨spelling, hspells, rfl⟩ := h
  exact .string (.of_spells hspells)

/-- The digits of a word are a value. -/
theorem IsWord.valueText {n : UInt64} (h : IsWord v n) : ValueText v := by
  have hnumeral : v = numeral false n.toNat [] [] := by
    rw [h]
    simp [numeral]
  rw [hnumeral]
  exact .number .none .none

/-- Blanks in front of a value are passed over. -/
theorem ValueText.skipSpace {before : List Char} (h : ValueText v) (hbefore : Blank before)
    (rest : List Char) : skipSpace (before ++ (v ++ rest)) = v ++ rest := by
  obtain ⟨c, tail, rfl, hspace, -⟩ := h.eq_cons
  exact skipSpace_blank_cons hbefore hspace _

/-- Strings are read as the texts that they spell. -/
theorem readsExactly_readText : ReadsExactly readText IsText := by
  intro before v rest s left hbefore hv hrest
  obtain ⟨c, tail, rfl, -⟩ := hv.eq_cons
  simp only [readText, readTextAs, hv.skipSpace hbefore]
  rw [List.cons_append]
  by_cases hc : c = '"'
  · subst hc
    obtain ⟨content, hcontent, rfl⟩ := hv.string_of_cons
    rw [List.append_assoc]
    refine hcontent.readString_iff.trans (and_congr_left fun _ => ?_)
    constructor
    · exact fun hspells => ⟨content, hspells, rfl⟩
    · rintro ⟨spelling, hspells, heq⟩
      obtain rfl := List.append_cancel_right (List.cons.inj heq).2
      exact hspells
  · constructor
    · intro hread
      split at hread
      · rename_i heq
        exact absurd (List.cons.inj heq).1 hc
      · cases hread
    · rintro ⟨⟨spelling, -, heq⟩, -⟩
      exact absurd (List.cons.inj heq).1 hc

/-- An integer that is read of a number is the one that is written so. -/
theorem writeInteger_of_ofInteger {negative : Bool} {n : Nat} {m : Int}
    (h : ofInteger negative n = .integer m) : numeral negative n [] [] = writeInteger m := by
  unfold ofInteger at h
  split at h
  · rename_i hnegative
    split at h
    · rename_i hpos
      cases h
      simp [numeral, writeInteger, hnegative, Nat.ne_of_gt hpos.1]
    · cases h
  · rename_i hpositive
    cases h
    simp [numeral, writeInteger, hpositive]

/-- Integers are read from their plain digits, if they are in the range. -/
theorem readsExactly_readInteger {range : IntegerRange} (hfits : range.Fits) :
    ReadsExactly (readInteger range) (IsInteger range) := by
  intro before v rest n left hbefore hv hrest
  constructor
  · intro hread
    obtain ⟨c, tail, hcons, -⟩ := hv.eq_cons
    subst hcons
    simp only [readInteger, hv.skipSpace hbefore] at hread
    rw [List.cons_append] at hread
    simp only at hread
    split at hread
    · rename_i hc
      obtain ⟨negative, k, fraction, exponent, hfraction, hexponent, hnumeral⟩ :=
        hv.number_of_cons hc
      rw [← List.cons_append, hnumeral] at hread
      split at hread
      · cases hread
      · rename_i m more hnumber
        split at hread
        · rename_i hrange
          cases hread
          obtain ⟨rfl, rfl, -, hinteger, hleft⟩ :=
            readNumber_integer hfraction hexponent hrest hnumber
          exact ⟨⟨hnumeral.trans (writeInteger_of_ofInteger hinteger), hrange⟩, hleft⟩
        · cases hread
      · cases hread
    · cases hread
  · rintro ⟨⟨rfl, hleast, hgreatest⟩, rfl⟩
    have hread := readInteger_writeInteger hfits hleast hgreatest hrest
    obtain ⟨c, tail, hwrite, hc⟩ := writeInteger_eq_cons n
    have hspace : skipSpace (writeInteger n ++ left) = writeInteger n ++ left := by
      rw [hwrite]
      exact skipSpace_cons (isSpace_of_number hc) _
    rw [← hread]
    simp only [readInteger, hv.skipSpace hbefore, hspace]

/-- Unsigned words are read from their plain digits. -/
theorem readsExactly_readWord : ReadsExactly readWord IsWord := by
  intro before v rest n left hbefore hv hrest
  have hfits : IntegerRange.unsigned64.Fits := ⟨by decide, by decide⟩
  have hlt := n.toNat_lt
  have hgreatest : IntegerRange.unsigned64.greatest = 2 ^ 64 - 1 := rfl
  have hinteger (m : Int) := readsExactly_readInteger hfits m left hbefore hv hrest
  have hdigits : writeInteger n.toNat = Nat.toDigits 10 n.toNat := by simp [writeInteger]
  constructor
  · intro hread
    unfold readWord at hread
    cases hfound : readInteger .unsigned64 (before ++ (v ++ rest)) with
    | error e =>
      rw [hfound] at hread
      cases hread
    | ok found =>
      obtain ⟨m, more⟩ := found
      rw [hfound] at hread
      cases hread
      obtain ⟨⟨rfl, hleast, hmost⟩, hleft⟩ := (hinteger m).mp hfound
      have hleast : 0 ≤ m := hleast
      refine ⟨?_, hleft⟩
      rw [IsWord, UInt64.toNat_ofNat_of_lt' (by unfold UInt64.size; omega)]
      unfold writeInteger
      rw [if_neg (by omega)]
      congr 1
      omega
  · rintro ⟨hword, rfl⟩
    have hread := (hinteger n.toNat).mpr
      ⟨⟨hword.trans hdigits.symm, Int.natCast_nonneg _, by omega⟩, rfl⟩
    rw [readWord, hread]
    simp [Except.map]

/-- A value is read if it denotes something, and null is read as nothing. -/
theorem ReadsExactly.optional (h : ReadsExactly reader Denotes)
    (hnull : ∀ a, ¬ Denotes ['n', 'u', 'l', 'l'] a) :
    ReadsExactly (readOptional reader) (OrNull Denotes) := by
  intro before v rest a left hbefore hv hrest
  obtain ⟨c, tail, rfl, -⟩ := hv.eq_cons
  have hread (b : α) := h b left (show Blank [] from fun c hc => by cases hc) hv hrest
  simp only [readOptional, hv.skipSpace hbefore]
  simp only [List.nil_append] at hread
  by_cases hc : c = 'n'
  · subst hc
    obtain rfl := hv.null_of_cons
    have hskip : skipWord nullTail (['u', 'l', 'l'] ++ rest) = .ok rest := rfl
    simp only [List.cons_append] at hskip ⊢
    simp only [hskip, Except.map, Except.ok.injEq, Prod.mk.injEq, OrNull, true_and, hnull,
      and_false, exists_false, or_false]
    exact and_congr eq_comm eq_comm
  · rw [List.cons_append] at hread ⊢
    split
    · rename_i heq
      exact absurd (List.cons.inj heq).1 hc
    · constructor
      · intro hmap
        cases hfound : reader (c :: (tail ++ rest)) with
        | error e =>
          rw [hfound] at hmap
          cases hmap
        | ok found =>
          obtain ⟨b, more⟩ := found
          rw [hfound] at hmap
          cases hmap
          obtain ⟨hb, hleft⟩ := (hread b).mp hfound
          exact ⟨Or.inr ⟨b, rfl, hb⟩, hleft⟩
      · rintro ⟨⟨heq, -⟩ | ⟨b, rfl, hb⟩, hleft⟩
        · exact absurd (List.cons.inj heq).1 hc
        · rw [(hread b).mpr ⟨hb, hleft⟩]
          rfl

end DurableCache.Json
