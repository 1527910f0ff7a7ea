import DurableCache.Proofs.Json.Spellings

/-!
# Scalars that are written are read back

Reading undoes writing for strings and for unsigned words, whatever text follows.
-/

namespace DurableCache.Json

/-! ### Strings -/

/-- A written string begins with its quote. -/
theorem writeString_append (s : String) (rest : List Char) :
    writeString s ++ rest = '"' :: (s.toList.flatMap escapeChar ++ '"' :: rest) := by
  simp [writeString]

/-- A string is read back behind its opening quote. -/
theorem readString_flatMap (s : String) (rest : List Char) :
    readString (s.toList.flatMap escapeChar ++ '"' :: rest) = .ok (s, rest) :=
  readString_of_spells (spells_flatMap s.toList) rest

/-- A written string is read back. -/
theorem readText_writeString (s : String) (rest : List Char) :
    readText (writeString s ++ rest) = .ok (s, rest) := by
  rw [writeString_append]
  exact readString_flatMap s rest

/-! ### Unsigned words -/

/-- A text that goes on with no digit, no point and no letter of an exponent. -/
def EndsNumber (rest : List Char) : Prop :=
  ∀ c, rest.head? = some c → c.isDigit = false ∧ c ≠ '.' ∧ c ≠ 'e' ∧ c ≠ 'E'

/-- A number may end with its text. -/
theorem endsNumber_nil : EndsNumber [] := fun c hc => by cases hc

/-- Further digits do not make a number smaller. -/
theorem le_ofDigitChars (digits : List Char) (value : Nat) :
    value ≤ Nat.ofDigitChars 10 digits value := by
  rw [Nat.ofDigitChars_eq_ofDigitChars_zero]
  have hpow : 0 < 10 ^ digits.length := Nat.pow_pos (by decide)
  have hmul : value ≤ 10 ^ digits.length * value := Nat.le_mul_of_pos_left value hpow
  omega

/-- Digits are taken as long as their value is a word. -/
theorem takeDigits_append {digits rest : List Char} (value count : Nat)
    (hdigits : ∀ c ∈ digits, c.isDigit = true)
    (hlimit : Nat.ofDigitChars 10 digits value < wordLimit)
    (hrest : ∀ c, rest.head? = some c → c.isDigit = false) :
    takeDigits value count (digits ++ rest) =
      (Nat.ofDigitChars 10 digits value, count + digits.length, rest) := by
  induction digits generalizing value count with
  | nil =>
    cases rest with
    | nil => rfl
    | cons c rest =>
      have hc := hrest c rfl
      simp [takeDigits, hc]
  | cons c digits ih =>
    have hc := hdigits c List.mem_cons_self
    have hlater (d : Char) (hd : d ∈ digits) : d.isDigit = true :=
      hdigits d (List.mem_cons_of_mem c hd)
    rw [Nat.ofDigitChars_cons] at hlimit ⊢
    have hnext : 10 * value + (c.toNat - '0'.toNat) < wordLimit :=
      Nat.lt_of_le_of_lt (le_ofDigitChars digits _) hlimit
    rw [List.cons_append, takeDigits, if_pos hc]
    simp only [hnext, if_true]
    rw [ih _ _ hlater hlimit, List.length_cons]
    congr 2
    omega

/-- The first digit of a positive number is not zero. -/
theorem toDigits_eq_cons {n : Nat} (h : 0 < n) :
    ∃ first digits, Nat.toDigits 10 n = Nat.digitChar first :: digits ∧ 0 < first ∧
      first < 10 := by
  induction n using Nat.strongRecOn with
  | ind n ih =>
    by_cases hsmall : n < 10
    · exact ⟨n, [], Nat.toDigits_of_lt_base hsmall, h, hsmall⟩
    · obtain ⟨first, digits, hdigits, hpos, hlt⟩ := ih (n / 10) (by omega) (by omega)
      refine ⟨first, digits ++ [Nat.digitChar (n % 10)], ?_, hpos, hlt⟩
      rw [Nat.toDigits_of_base_le (by decide) (by omega), hdigits, List.cons_append]

/-- The digits of a whole number, by the first one. -/
theorem toDigits_cases (n : Nat) :
    (n = 0 ∧ Nat.toDigits 10 n = ['0']) ∨
      ∃ first digits, Nat.toDigits 10 n = first :: digits ∧ first ≠ '0' ∧ first.isDigit = true ∧
        ∀ c ∈ digits, c.isDigit = true := by
  by_cases hzero : n = 0
  · subst hzero
    exact Or.inl ⟨rfl, rfl⟩
  · obtain ⟨first, digits, hdigits, hpos, hlt⟩ := toDigits_eq_cons (Nat.pos_of_ne_zero hzero)
    have hall (c : Char) (hc : c ∈ Nat.toDigits 10 n) : c.isDigit = true :=
      Nat.isDigit_of_mem_toDigits (by decide) (by decide) hc
    rw [hdigits] at hall
    obtain ⟨hfirst, hrest⟩ := List.forall_mem_cons.mp hall
    refine Or.inr ⟨_, digits, hdigits, ?_, hfirst, hrest⟩
    intro heq
    rw [Nat.digitChar_eq_zero] at heq
    omega

/-- A number is complete where its text ends. -/
theorem readTail_of_endsNumber {rest : List Char} (hrest : EndsNumber rest) (negative : Bool)
    (n : Nat) : readTail negative n rest = .ok (ofInteger negative n, rest) := by
  cases rest with
  | nil => rfl
  | cons c rest =>
    obtain ⟨-, hpoint, hlower, hupper⟩ := hrest c rfl
    simp [readTail, hpoint, hlower, hupper]

/-- The digits of a word are read, whatever the number goes on with. -/
theorem readMagnitude_toDigits {n : Nat} (h : n < wordLimit) (negative : Bool) {tail : List Char}
    (htail : ∀ c, tail.head? = some c → c.isDigit = false) :
    readMagnitude negative (Nat.toDigits 10 n ++ tail) = readTail negative n tail := by
  rcases toDigits_cases n with ⟨rfl, hdigits⟩ | ⟨first, digits, hdigits, hfirst, hdigit, hall⟩
  · rw [hdigits]
    cases tail with
    | nil => rfl
    | cons c tail =>
      have hc := htail c rfl
      simp [readMagnitude, hc]
  · have hevery : ∀ c ∈ first :: digits, c.isDigit = true :=
      List.forall_mem_cons.mpr ⟨hdigit, hall⟩
    have hvalue : Nat.ofDigitChars 10 (first :: digits) 0 = n := by
      rw [← hdigits, Nat.ofDigitChars_ten_toDigits]
    have htake := takeDigits_append 0 0 hevery (by rwa [hvalue]) htail
    rw [hvalue, List.cons_append] at htake
    rw [hdigits, List.cons_append]
    simp only [readMagnitude, hdigit, htake, if_true]
    cases tail with
    | nil => rfl
    | cons c tail =>
      have hc := htail c rfl
      simp [hc]

/-- The digits of a number do not begin with a minus sign. -/
theorem toDigits_append_ne_minus (n : Nat) (tail rest : List Char) :
    Nat.toDigits 10 n ++ tail ≠ '-' :: rest := by
  intro heq
  rcases toDigits_cases n with ⟨-, hdigits⟩ | ⟨first, digits, hdigits, -, hdigit, -⟩
  · rw [hdigits] at heq
    cases heq
  · rw [hdigits] at heq
    cases heq
    exact absurd hdigit (by decide)

/-- A number without a sign is its digits. -/
theorem readNumber_toDigits_append (n : Nat) (tail : List Char) :
    readNumber (Nat.toDigits 10 n ++ tail) = readMagnitude false (Nat.toDigits 10 n ++ tail) := by
  unfold readNumber
  split
  · rename_i heq
    exact absurd heq (toDigits_append_ne_minus n tail _)
  · rfl

/-- A written word is read back as a number. -/
theorem readNumber_toDigits {n : Nat} (h : n < wordLimit) {rest : List Char}
    (hrest : EndsNumber rest) :
    readNumber (Nat.toDigits 10 n ++ rest) = .ok (.integer n, rest) := by
  rw [readNumber_toDigits_append, readMagnitude_toDigits h false fun c hc => (hrest c hc).1,
    readTail_of_endsNumber hrest]
  rfl

/-- What begins with a character other than a blank is not passed over. -/
theorem skipSpace_cons {c : Char} (h : isSpace c = false) (rest : List Char) :
    skipSpace (c :: rest) = c :: rest := by
  rw [skipSpace, List.dropWhile_cons_of_neg (by simp [h])]

/-- No digit is a blank. -/
theorem isSpace_of_isDigit {c : Char} (h : c.isDigit = true) : isSpace c = false := by
  unfold isSpace
  simp only [Bool.or_eq_false_iff, beq_eq_false_iff_ne]
  refine ⟨⟨⟨?_, ?_⟩, ?_⟩, ?_⟩ <;> rintro rfl <;> revert h <;> decide

/-- No sign and no digit of a number is a blank. -/
theorem isSpace_of_number {c : Char} (h : (c = '-' || c.isDigit) = true) : isSpace c = false := by
  rw [Bool.or_eq_true, decide_eq_true_eq] at h
  rcases h with rfl | hdigit
  · decide
  · exact isSpace_of_isDigit hdigit

/-- A whole number is written with a digit at its beginning. -/
theorem toDigits_eq_digit_cons (n : Nat) :
    ∃ c digits, Nat.toDigits 10 n = c :: digits ∧ c.isDigit = true := by
  rcases toDigits_cases n with ⟨-, hdigits⟩ | ⟨c, digits, hdigits, -, hc, -⟩
  · exact ⟨'0', [], hdigits, by decide⟩
  · exact ⟨c, digits, hdigits, hc⟩

/-- A written integer begins with a minus sign or a digit. -/
theorem writeInteger_eq_cons (n : Int) :
    ∃ c tail, writeInteger n = c :: tail ∧ (c = '-' || c.isDigit) = true := by
  unfold writeInteger
  split
  · exact ⟨'-', _, rfl, rfl⟩
  · obtain ⟨c, digits, hdigits, hc⟩ := toDigits_eq_digit_cons n.natAbs
    exact ⟨c, digits, hdigits, by simp [hc]⟩

/-- A written integer of sixty-four bits, with a sign or without, is read back as a number. -/
theorem readNumber_writeInteger {n : Int} (hleast : -(wordLimit / 2 : Nat) ≤ n)
    (hgreatest : n < wordLimit) {rest : List Char} (hrest : EndsNumber rest) :
    readNumber (writeInteger n ++ rest) = .ok (.integer n, rest) := by
  unfold writeInteger
  split
  · rename_i hneg
    have hvalue : ofInteger true n.natAbs = .integer n := by
      rw [ofInteger, if_pos rfl, if_pos (by omega)]
      congr 1
      omega
    rw [List.cons_append, readNumber,
      readMagnitude_toDigits (by omega) true fun c hc => (hrest c hc).1,
      readTail_of_endsNumber hrest, hvalue]
  · rename_i hpos
    rw [readNumber_toDigits (by omega) hrest, Int.natAbs_of_nonneg (by omega)]

/-- A range of integers of sixty-four bits, with a sign or without. -/
def IntegerRange.Fits (range : IntegerRange) : Prop :=
  -(wordLimit / 2 : Nat) ≤ range.least ∧ range.greatest < wordLimit

/-- A written integer of a range is read back. -/
theorem readInteger_writeInteger {range : IntegerRange} (hfits : range.Fits) {n : Int}
    (hleast : range.least ≤ n) (hgreatest : n ≤ range.greatest) {rest : List Char}
    (hrest : EndsNumber rest) :
    readInteger range (writeInteger n ++ rest) = .ok (n, rest) := by
  obtain ⟨hlow, hhigh⟩ := hfits
  have hnumber := readNumber_writeInteger (n := n) (by omega) (by omega) hrest
  obtain ⟨c, tail, hwrite, hc⟩ := writeInteger_eq_cons n
  rw [hwrite, List.cons_append] at hnumber ⊢
  simp only [readInteger, skipSpace_cons (isSpace_of_number hc), hc, hnumber, hleast, hgreatest,
    and_self, if_true]

/-- A written unsigned word is read back. -/
theorem readWord_writeInteger (n : UInt64) {rest : List Char} (hrest : EndsNumber rest) :
    readWord (writeInteger n.toNat ++ rest) = .ok (n, rest) := by
  have hlt := n.toNat_lt
  have hgreatest : IntegerRange.unsigned64.greatest = 2 ^ 64 - 1 := rfl
  have hfits : IntegerRange.unsigned64.Fits := ⟨by decide, by decide⟩
  have hread := readInteger_writeInteger hfits (Int.natCast_nonneg n.toNat) (by omega) hrest
  rw [readWord, hread]
  simp [Except.map]

/-- What is written for a word or nothing is read back. -/
theorem readOptional_ofOption (n : Option UInt64) {rest : List Char} (hrest : EndsNumber rest) :
    readOptional readWord ((Value.ofOption (fun t => .natural t.toNat) n).write ++ rest) =
      .ok (n, rest) := by
  cases n with
  | none => rfl
  | some n =>
    have hword := readWord_writeInteger n hrest
    obtain ⟨c, digits, hwrite, hc⟩ := writeInteger_eq_cons n.toNat
    have hvalue : (Value.ofOption (fun t => .natural t.toNat) (some n)).write =
        writeInteger n.toNat := by simp [Value.ofOption, Value.natural, Value.write]
    rw [hvalue]
    rw [hwrite, List.cons_append] at hword ⊢
    have hn : c ≠ 'n' := by
      rintro rfl
      exact absurd hc (by decide)
    simp only [readOptional, skipSpace_cons (isSpace_of_number hc)]
    split
    · rename_i heq
      exact absurd (List.cons.inj heq).1 hn
    · rw [hword]
      rfl

end DurableCache.Json
