import DurableCache.Json.Decode
import DurableCache.Json.Writer

/-!
# The spellings of a JSON string

A text can stand in a JSON string in many ways: most characters as they are, some behind a
backslash, and every one by the hexadecimal digits of its sixteen-bit units. All of these are read
as the text (`readString_of_spells`), among them the one that is written (`spells_flatMap`).
-/

namespace DurableCache

/-- A digit of either case that stands for a number below sixteen. -/
def Text.IsHexDigit (digit : Char) (n : Nat) : Prop :=
  n < 16 ∧ (digit = n.digitChar ∨ digit = n.digitChar.toUpper)

/-- Four digits that stand for a number of sixteen bits. -/
structure Text.IsHexWord (a b c d : Char) (n : Nat) : Prop where
  first : IsHexDigit a (n / 4096)
  second : IsHexDigit b (n / 256 % 16)
  third : IsHexDigit c (n / 16 % 16)
  fourth : IsHexDigit d (n % 16)

/-- What holds of the sixteen digits, small and great, holds of every digit. -/
@[elab_as_elim]
theorem Text.IsHexDigit.of_forall {motive : Char → Nat → Prop} {digit : Char} {n : Nat}
    (h : IsHexDigit digit n)
    (hall : ∀ m : Fin 16, motive (Nat.digitChar m) m ∧ motive (Nat.digitChar m).toUpper m) :
    motive digit n := by
  obtain ⟨hlt, rfl | rfl⟩ := h
  · exact (hall ⟨n, hlt⟩).1
  · exact (hall ⟨n, hlt⟩).2

namespace Json

open Text (IsHexDigit IsHexWord)

/-- The letters that stand for a character behind a backslash. -/
def shortEscapes : List (Char × Char) :=
  [('"', '"'), ('\\', '\\'), ('/', '/'), ('b', '\x08'), ('f', '\x0c'), ('n', '\n'), ('r', '\r'),
    ('t', '\t')]

/-- A spelling of a text between quotes. -/
inductive Spells : List Char → List Char → Prop
  | nil : Spells [] []
  | plain {c : Char} {spelling text : List Char} (hquote : c ≠ '"') (hslash : c ≠ '\\')
      (hcontrol : 0x20 ≤ c.toNat) (hrest : Spells spelling text) :
      Spells (c :: spelling) (c :: text)
  | short {letter c : Char} {spelling text : List Char} (hletter : (letter, c) ∈ shortEscapes)
      (hrest : Spells spelling text) : Spells ('\\' :: letter :: spelling) (c :: text)
  | unit {char a b c d : Char} {spelling text : List Char} (hunit : IsHexWord a b c d char.toNat)
      (hrest : Spells spelling text) :
      Spells ('\\' :: 'u' :: a :: b :: c :: d :: spelling) (char :: text)
  | pair {char a b c d a' b' c' d' : Char} {spelling text : List Char}
      (hwide : 0x10000 ≤ char.toNat)
      (hleading : IsHexWord a b c d (0xd800 + (char.toNat - 0x10000) / 0x400))
      (htrailing : IsHexWord a' b' c' d' (0xdc00 + (char.toNat - 0x10000) % 0x400))
      (hrest : Spells spelling text) :
      Spells ('\\' :: 'u' :: a :: b :: c :: d :: '\\' :: 'u' :: a' :: b' :: c' :: d' :: spelling)
        (char :: text)

variable {spelling text rest content : List Char} {n : Nat}

/-- A digit has the value that it stands for. -/
theorem hexDigit?_of_isHexDigit {digit : Char} (h : IsHexDigit digit n) :
    hexDigit? digit = some n :=
  h.of_forall (by decide)

/-- Four digits are read as the number that they stand for. -/
theorem fourHex_of_isHexWord {a b c d : Char} (h : IsHexWord a b c d n) (rest : List Char) :
    fourHex (a :: b :: c :: d :: rest) = .ok n := by
  simp only [fourHex, hexDigit?_of_isHexDigit h.first, hexDigit?_of_isHexDigit h.second,
    hexDigit?_of_isHexDigit h.third, hexDigit?_of_isHexDigit h.fourth, Except.ok.injEq]
  omega

/-- No character is a surrogate. -/
theorem toNat_not_surrogate (c : Char) :
    isLeading c.toNat = false ∧ isTrailing c.toNat = false := by
  have hvalid : c.toNat < 0xd800 ∨ 0xdfff < c.toNat ∧ c.toNat < 0x110000 := c.valid
  simp only [isLeading, isTrailing, Bool.and_eq_false_iff, decide_eq_false_iff_not]
  omega

/-- A numeric escape of one unit is read as its character. -/
theorem readUnicode_unit {char a b c d : Char} (h : IsHexWord a b c d char.toNat)
    (rest : List Char) : readUnicode (a :: b :: c :: d :: rest) = .ok (char, 4) := by
  obtain ⟨hleading, htrailing⟩ := toNat_not_surrogate char
  simp only [readUnicode, fourHex_of_isHexWord h, hleading, htrailing, Bool.false_eq_true, if_false,
    Char.ofNat_toNat]

/-- A numeric escape of two units is read as their character. -/
theorem readUnicode_pair {char a b c d a' b' c' d' : Char} (hwide : 0x10000 ≤ char.toNat)
    (hleading : IsHexWord a b c d (0xd800 + (char.toNat - 0x10000) / 0x400))
    (htrailing : IsHexWord a' b' c' d' (0xdc00 + (char.toNat - 0x10000) % 0x400))
    (rest : List Char) :
    readUnicode (a :: b :: c :: d :: '\\' :: 'u' :: a' :: b' :: c' :: d' :: rest) =
      .ok (char, 10) := by
  have hvalid : char.toNat < 0xd800 ∨ 0xdfff < char.toNat ∧ char.toNat < 0x110000 := char.valid
  have hfirst : isTrailing (0xd800 + (char.toNat - 0x10000) / 0x400) = false ∧
      isLeading (0xd800 + (char.toNat - 0x10000) / 0x400) = true := by
    simp only [isLeading, isTrailing, Bool.and_eq_false_iff, decide_eq_false_iff_not,
      Bool.and_eq_true, decide_eq_true_eq]
    omega
  have hsecond : isTrailing (0xdc00 + (char.toNat - 0x10000) % 0x400) = true := by
    simp only [isTrailing, Bool.and_eq_true, decide_eq_true_eq]
    omega
  have hchar : pairChar (0xd800 + (char.toNat - 0x10000) / 0x400)
      (0xdc00 + (char.toNat - 0x10000) % 0x400) = char := by
    have hsum : 0x10000 + (0xd800 + (char.toNat - 0x10000) / 0x400 - 0xd800) * 0x400 +
        (0xdc00 + (char.toNat - 0x10000) % 0x400 - 0xdc00) = char.toNat := by omega
    rw [pairChar, hsum, Char.ofNat_toNat]
  simp only [readUnicode, fourHex_of_isHexWord hleading, hfirst, Bool.false_eq_true, if_false,
    if_true, List.drop_succ_cons, List.drop_zero, fourHex_of_isHexWord htrailing, hsecond, hchar]

/-- Characters of an escape that was read are passed over. -/
theorem readContent_skip (skipped content rest : List Char) :
    readContent skipped.length content (skipped ++ rest) = readContent 0 content rest := by
  induction skipped with
  | nil => rfl
  | cons c skipped ih => exact ih

/-- An escape is read as its character. -/
theorem readContent_escape {char : Char} (escape rest : List Char) (content : List Char)
    (h : readEscape (escape ++ rest) = .ok (char, escape.length)) :
    readContent 0 content ('\\' :: (escape ++ rest)) = readContent 0 (char :: content) rest := by
  have hskip := readContent_skip escape (char :: content) rest
  simp only [readContent, h, hskip, Char.reduceEq, if_false, if_true]

/-- A letter behind a backslash is read as the character that it stands for. -/
theorem readEscape_short {letter c : Char} (h : (letter, c) ∈ shortEscapes) (rest : List Char) :
    readEscape (letter :: rest) = .ok (c, 1) := by
  simp only [shortEscapes, List.mem_cons, Prod.mk.injEq, List.not_mem_nil, or_false] at h
  rcases h with ⟨rfl, rfl⟩ | ⟨rfl, rfl⟩ | ⟨rfl, rfl⟩ | ⟨rfl, rfl⟩ | ⟨rfl, rfl⟩ | ⟨rfl, rfl⟩ |
    ⟨rfl, rfl⟩ | ⟨rfl, rfl⟩ <;> rfl

/-- A spelling is read as its text up to the closing quote. -/
theorem readContent_of_spells (h : Spells spelling text) (content rest : List Char) :
    readContent 0 content (spelling ++ '"' :: rest) =
      .ok (String.ofList (content.reverse ++ text), rest) := by
  induction h generalizing content with
  | nil => simp [readContent]
  | @plain c spelling text hquote hslash hcontrol hrest ih =>
    have hread : readContent 0 content (c :: (spelling ++ '"' :: rest)) =
        readContent 0 (c :: content) (spelling ++ '"' :: rest) := by
      simp only [readContent, hquote, hslash, Nat.not_lt.mpr hcontrol, if_false]
    rw [List.cons_append, hread, ih]
    simp
  | @short letter c spelling text hletter hrest ih =>
    have hread := readContent_escape [letter] _ content
      (readEscape_short hletter (spelling ++ '"' :: rest))
    exact (hread.trans (ih _)).trans (by simp)
  | @unit char a b c d spelling text hunit hrest ih =>
    have hescape : readEscape (['u', a, b, c, d] ++ (spelling ++ '"' :: rest)) = .ok (char, 5) := by
      simp only [List.cons_append, List.nil_append, readEscape, readUnicode_unit hunit, Except.map]
    have hread := readContent_escape ['u', a, b, c, d] _ content hescape
    exact (hread.trans (ih _)).trans (by simp)
  | @pair char a b c d a' b' c' d' spelling text hwide hleading htrailing hrest ih =>
    have hescape : readEscape (['u', a, b, c, d, '\\', 'u', a', b', c', d'] ++
        (spelling ++ '"' :: rest)) = .ok (char, 11) := by
      simp only [List.cons_append, List.nil_append, readEscape,
        readUnicode_pair hwide hleading htrailing, Except.map]
    have hread := readContent_escape ['u', a, b, c, d, '\\', 'u', a', b', c', d'] _ content hescape
    exact (hread.trans (ih _)).trans (by simp)

/-- A spelling behind an opening quote is read as its text. -/
theorem readString_of_spells {s : String} (h : Spells spelling s.toList) (rest : List Char) :
    readString (spelling ++ '"' :: rest) = .ok (s, rest) := by
  have hread := readContent_of_spells h [] rest
  rwa [List.reverse_nil, List.nil_append, String.ofList_toList] at hread

/-- A character as it is written is a spelling of it. -/
theorem Spells.escapeChar (c : Char) (h : Spells spelling text) :
    Spells (escapeChar c ++ spelling) (c :: text) := by
  unfold Json.escapeChar
  split
  · subst c
    exact .short (by decide) h
  split
  · subst c
    exact .short (by decide) h
  split
  · subst c
    exact .short (by decide) h
  split
  · subst c
    exact .short (by decide) h
  split
  · subst c
    exact .short (by decide) h
  split
  · subst c
    exact .short (by decide) h
  split
  · subst c
    exact .short (by decide) h
  split
  · rename_i hcontrol
    have hzero (m : Nat) (hm : m = 0) : IsHexDigit '0' m := by
      subst hm
      exact ⟨by decide, Or.inl rfl⟩
    exact .unit ⟨hzero _ (by omega), hzero _ (by omega),
      ⟨by omega, Or.inl (congrArg Nat.digitChar (by omega))⟩, ⟨by omega, Or.inl rfl⟩⟩ h
  · rename_i hquote hslash _ _ _ _ _ hcontrol
    exact .plain hquote hslash (Nat.not_lt.mp hcontrol) h

/-- A text as it is written is a spelling of it. -/
theorem spells_flatMap (text : List Char) : Spells (text.flatMap escapeChar) text := by
  induction text with
  | nil => exact .nil
  | cons c text ih => exact ih.escapeChar c

end Json

end DurableCache
