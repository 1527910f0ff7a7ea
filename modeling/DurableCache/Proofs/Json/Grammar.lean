import DurableCache.Proofs.Json.Objects

/-!
# The grammar of JSON texts

A value is written in many ways: with blanks between its tokens, with escapes in its strings, with
numbers of any size. The grammar is stated here by itself, and whatever keeps to it is passed over
to its very end, to whatever depth it is nested (`ValueText.skips`).
-/

namespace DurableCache.Json

open Text (IsHexWord)

/-! ### Tokens -/

/-- White space, which may stand between tokens. -/
def Blank (s : List Char) : Prop := ∀ c ∈ s, isSpace c = true

instance (s : List Char) : Decidable (Blank s) := List.decidableBAll (fun c => isSpace c = true) s

/-- Digits, of which there is one at least. -/
def IsDigits (s : List Char) : Prop := s ≠ [] ∧ ∀ c ∈ s, c.isDigit = true

/-- The fraction of a number, or none. -/
inductive IsFraction : List Char → Prop
  | none : IsFraction []
  | point {digits : List Char} (hdigits : IsDigits digits) : IsFraction ('.' :: digits)

/-- The exponent of a number, or none. -/
inductive IsExponent : List Char → Prop
  | none : IsExponent []
  | power {letter : Char} {sign digits : List Char} (hletter : letter = 'e' ∨ letter = 'E')
      (hsign : sign = [] ∨ sign = ['+'] ∨ sign = ['-']) (hdigits : IsDigits digits) :
      IsExponent (letter :: (sign ++ digits))

/-- The text of a number by its parts. -/
def numeral (negative : Bool) (n : Nat) (fraction exponent : List Char) : List Char :=
  (if negative then ['-'] else []) ++ (Nat.toDigits 10 n ++ (fraction ++ exponent))

/-- What may stand between the quotes of a string. A surrogate need not have its other half. -/
inductive StringContent : List Char → Prop
  | nil : StringContent []
  | plain {c : Char} {content : List Char} (hquote : c ≠ '"') (hslash : c ≠ '\\')
      (hcontrol : 0x20 ≤ c.toNat) (hrest : StringContent content) : StringContent (c :: content)
  | short {letter c : Char} {content : List Char} (hletter : (letter, c) ∈ shortEscapes)
      (hrest : StringContent content) : StringContent ('\\' :: letter :: content)
  | unit {a b c d : Char} {n : Nat} {content : List Char} (hunit : IsHexWord a b c d n)
      (hrest : StringContent content) : StringContent ('\\' :: 'u' :: a :: b :: c :: d :: content)

/-! ### Values -/

/-- A value with the blanks around it, as it stands in an array or behind a colon. -/
structure Element where
  before : List Char
  value : List Char
  after : List Char

/-- A member of an object with all its blanks. -/
structure Member where
  /-- The blanks in front of the name. -/
  lead : List Char
  /-- What stands between the quotes of the name. -/
  spelling : List Char
  /-- The blanks between the name and the colon. -/
  gap : List Char
  element : Element

namespace Element

def text (e : Element) : List Char := e.before ++ (e.value ++ e.after)

/-- What stands around the value is blank. -/
def Spaced (e : Element) : Prop := Blank e.before ∧ Blank e.after

instance (e : Element) : Decidable e.Spaced :=
  inferInstanceAs (Decidable (Blank e.before ∧ Blank e.after))

end Element

namespace Member

/-- The member behind the quote that opens its name. -/
def tail (m : Member) : List Char := m.spelling ++ '"' :: (m.gap ++ ':' :: m.element.text)

def text (m : Member) : List Char := m.lead ++ '"' :: m.tail

/-- What stands between the tokens is blank. -/
def Spaced (m : Member) : Prop := Blank m.lead ∧ Blank m.gap ∧ m.element.Spaced

instance (m : Member) : Decidable m.Spaced :=
  inferInstanceAs (Decidable (Blank m.lead ∧ Blank m.gap ∧ m.element.Spaced))

end Member

/-- Texts that each stand behind a comma. -/
def commas (parts : List (List Char)) : List Char := parts.flatMap fun part => ',' :: part

/-- Texts with commas between them, in brackets. Without texts there may be blanks. -/
def bracketed (opening closing : Char) (blank : List Char) : List (List Char) → List Char
  | [] => opening :: (blank ++ [closing])
  | first :: rest => opening :: (first ++ (commas rest ++ [closing]))

/-- A value by itself, without blanks around it. -/
inductive ValueText : List Char → Prop
  | nullWord : ValueText ['n', 'u', 'l', 'l']
  | trueWord : ValueText ['t', 'r', 'u', 'e']
  | falseWord : ValueText ['f', 'a', 'l', 's', 'e']
  | number {negative : Bool} {n : Nat} {fraction exponent : List Char}
      (hfraction : IsFraction fraction) (hexponent : IsExponent exponent) :
      ValueText (numeral negative n fraction exponent)
  | string {content : List Char} (hcontent : StringContent content) :
      ValueText ('"' :: (content ++ ['"']))
  | array {items : List Element} {blank : List Char} (hblank : Blank blank)
      (hspaced : ∀ e ∈ items, e.Spaced) (hvalues : ∀ e ∈ items, ValueText e.value) :
      ValueText (bracketed '[' ']' blank (items.map Element.text))
  | object {members : List Member} {blank : List Char} (hblank : Blank blank)
      (hspaced : ∀ m ∈ members, m.Spaced) (hnames : ∀ m ∈ members, StringContent m.spelling)
      (hvalues : ∀ m ∈ members, ValueText m.element.value) :
      ValueText (bracketed '{' '}' blank (members.map Member.text))

/-- A spelling of a text keeps to the grammar. -/
theorem StringContent.of_spells {spelling text : List Char} (h : Spells spelling text) :
    StringContent spelling := by
  induction h with
  | nil => exact .nil
  | plain hquote hslash hcontrol _ ih => exact .plain hquote hslash hcontrol ih
  | short hletter _ ih => exact .short hletter ih
  | unit hunit _ ih => exact .unit hunit ih
  | pair _ hleading htrailing _ ih => exact .unit hleading (.unit htrailing ih)

/-! ### What follows a token -/

variable {v s rest after : List Char} {steps : Nat}

/-- Blanks are passed over. -/
theorem skipSpace_blank (h : Blank s) (rest : List Char) : skipSpace (s ++ rest) = skipSpace rest :=
  List.dropWhile_append_of_pos h

/-- Blanks in front of a token are passed over. -/
theorem skipSpace_blank_cons (h : Blank s) {c : Char} (hc : isSpace c = false) (rest : List Char) :
    skipSpace (s ++ c :: rest) = c :: rest :=
  (skipSpace_blank h _).trans (skipSpace_cons hc rest)

/-- A colon is read behind blanks. -/
theorem readColon_blank (h : Blank s) (rest : List Char) :
    readColon (s ++ ':' :: rest) = .ok rest := by
  simp only [readColon, skipSpace_blank_cons h (show isSpace ':' = false by decide)]

/-- A number may end where a character follows that belongs to none. -/
theorem endsNumber_cons {c : Char} (hdigit : c.isDigit = false) (hpoint : c ≠ '.')
    (hlower : c ≠ 'e') (hupper : c ≠ 'E') (rest : List Char) : EndsNumber (c :: rest) := by
  intro d hd
  cases hd
  exact ⟨hdigit, hpoint, hlower, hupper⟩

/-- A number may end in front of blanks. -/
theorem endsNumber_blank (h : Blank s) (hrest : EndsNumber rest) : EndsNumber (s ++ rest) := by
  cases s with
  | nil => exact hrest
  | cons c s =>
    have hc := h c List.mem_cons_self
    simp only [isSpace, Bool.or_eq_true, beq_iff_eq] at hc
    apply endsNumber_cons
    all_goals rcases hc with ((rfl | rfl) | rfl) | rfl <;> decide

/-- Behind a value in an array or an object there is a comma or the bracket. -/
theorem endsNumber_commas {closing : Char} (h : closing = ']' ∨ closing = '}')
    (parts : List (List Char)) (rest : List Char) :
    EndsNumber (commas parts ++ closing :: rest) := by
  cases parts with
  | nil =>
    rcases h with rfl | rfl
    · exact endsNumber_cons (by decide) (by decide) (by decide) (by decide) rest
    · exact endsNumber_cons (by decide) (by decide) (by decide) (by decide) rest
  | cons part parts => exact endsNumber_cons (by decide) (by decide) (by decide) (by decide) _

theorem commas_cons (part : List Char) (parts : List (List Char)) :
    commas (part :: parts) = ',' :: (part ++ commas parts) := rfl

/-- Texts behind commas are no more than their characters, and none is longer than all. -/
theorem length_commas (parts : List (List Char)) :
    parts.length ≤ (commas parts).length ∧
      ∀ part ∈ parts, part.length ≤ (commas parts).length := by
  induction parts with
  | nil => exact ⟨Nat.le_refl 0, fun part hpart => by cases hpart⟩
  | cons first parts ih =>
    rw [commas_cons, List.length_cons, List.length_cons, List.length_append]
    refine ⟨by omega, fun part hpart => ?_⟩
    rcases List.mem_cons.mp hpart with rfl | hpart
    · omega
    · have hlater := ih.2 part hpart
      omega

/-- Texts in brackets are fewer than their characters, and none is longer than all. -/
theorem length_bracketed (opening closing : Char) (blank : List Char) (parts : List (List Char)) :
    parts.length < (bracketed opening closing blank parts).length ∧
      ∀ part ∈ parts, part.length ≤ (bracketed opening closing blank parts).length := by
  cases parts with
  | nil => exact ⟨Nat.succ_pos _, fun part hpart => by cases hpart⟩
  | cons first parts =>
    obtain ⟨hcount, hparts⟩ := length_commas parts
    simp only [bracketed, List.length_cons, List.length_append, List.length_nil]
    refine ⟨by omega, fun part hpart => ?_⟩
    rcases List.mem_cons.mp hpart with rfl | hpart
    · omega
    · have hlater := hparts part hpart
      omega

/-! ### Passing over strings and numbers -/

/-- Characters of an escape that has been seen are passed over. -/
theorem skipContent_skip (skipped rest : List Char) :
    skipContent skipped.length (skipped ++ rest) = skipContent 0 rest := by
  induction skipped with
  | nil => rfl
  | cons c skipped ih => exact ih

/-- An escape is passed over. -/
theorem skipContent_escape (escape rest : List Char)
    (h : escapeWidth (escape ++ rest) = .ok escape.length) :
    skipContent 0 ('\\' :: (escape ++ rest)) = skipContent 0 rest := by
  have hskip := skipContent_skip escape rest
  simp only [skipContent, h, hskip, Char.reduceEq, if_false, if_true]

/-- The content of a string is passed over up to the closing quote. -/
theorem StringContent.skips (h : StringContent s) (rest : List Char) :
    skipContent 0 (s ++ '"' :: rest) = .ok rest := by
  induction h with
  | nil => simp [skipContent]
  | @plain c content hquote hslash hcontrol _ ih =>
    rw [← ih, List.cons_append]
    simp only [skipContent, hquote, hslash, Nat.not_lt.mpr hcontrol, if_false]
  | @short letter c content hletter _ ih =>
    have hescape : escapeWidth ([letter] ++ (content ++ '"' :: rest)) = .ok 1 := by
      simp only [shortEscapes, List.mem_cons, Prod.mk.injEq, List.not_mem_nil, or_false] at hletter
      rcases hletter with ⟨rfl, rfl⟩ | ⟨rfl, rfl⟩ | ⟨rfl, rfl⟩ | ⟨rfl, rfl⟩ | ⟨rfl, rfl⟩ |
        ⟨rfl, rfl⟩ | ⟨rfl, rfl⟩ | ⟨rfl, rfl⟩ <;> rfl
    exact (skipContent_escape [letter] _ hescape).trans ih
  | @unit a b c d n content hunit _ ih =>
    have hescape : escapeWidth (['u', a, b, c, d] ++ (content ++ '"' :: rest)) = .ok 5 := by
      simp only [List.cons_append, List.nil_append, escapeWidth, fourHex_of_isHexWord hunit,
        Except.map]
    exact (skipContent_escape ['u', a, b, c, d] _ hescape).trans ih

/-- Digits are passed over up to what is no digit. -/
theorem dropWhile_digits (h : ∀ c ∈ s, c.isDigit = true)
    (hrest : ∀ c, rest.head? = some c → c.isDigit = false) :
    (s ++ rest).dropWhile Char.isDigit = rest := by
  rw [List.dropWhile_append_of_pos h]
  cases rest with
  | nil => rfl
  | cons c rest => exact List.dropWhile_cons_of_neg (by simp [hrest c rfl])

/-- What begins with an exponent, or with what follows a number, begins with no digit and no
point. -/
theorem IsExponent.head (h : IsExponent s) (hrest : EndsNumber rest) {c : Char}
    (hc : (s ++ rest).head? = some c) : c.isDigit = false ∧ c ≠ '.' := by
  cases h with
  | none =>
    obtain ⟨hdigit, hpoint, -⟩ := hrest c hc
    exact ⟨hdigit, hpoint⟩
  | power hletter _ _ =>
    cases hc
    rcases hletter with rfl | rfl <;> decide

/-- What begins with a fraction, or with what follows it, begins with no digit. -/
theorem IsFraction.head {exponent : List Char} (h : IsFraction s) (hexponent : IsExponent exponent)
    (hrest : EndsNumber rest) {c : Char} (hc : (s ++ (exponent ++ rest)).head? = some c) :
    c.isDigit = false := by
  cases h with
  | none => exact (hexponent.head hrest hc).1
  | point _ =>
    cases hc
    decide

/-- Behind the letter of an exponent its sign and its digits are passed over. -/
theorem skipExponent_digits {sign digits : List Char}
    (hsign : sign = [] ∨ sign = ['+'] ∨ sign = ['-']) (hdigits : IsDigits digits)
    (hrest : ∀ c, rest.head? = some c → c.isDigit = false) :
    skipExponent (sign ++ digits ++ rest) = .ok rest := by
  obtain ⟨hne, hall⟩ := hdigits
  obtain ⟨d, more, rfl⟩ := List.exists_cons_of_ne_nil hne
  obtain ⟨hd, hmore⟩ := List.forall_mem_cons.mp hall
  have hplus : d ≠ '+' := by
    rintro rfl
    exact absurd hd (by decide)
  have hminus : d ≠ '-' := by
    rintro rfl
    exact absurd hd (by decide)
  have hdrop := dropWhile_digits hmore hrest
  rcases hsign with rfl | rfl | rfl
  · simp [skipExponent, hplus, hminus, hd, hdrop]
  · simp [skipExponent, hd, hdrop]
  · simp [skipExponent, hd, hdrop]

/-- An exponent is passed over. -/
theorem IsExponent.skips (h : IsExponent s) (hrest : EndsNumber rest) :
    skipScale (s ++ rest) = .ok rest := by
  cases h with
  | none =>
    cases rest with
    | nil => rfl
    | cons c rest =>
      obtain ⟨-, -, hlower, hupper⟩ := hrest c rfl
      simp [skipScale, hlower, hupper]
  | @power letter sign digits hletter hsign hdigits =>
    have hskip := skipExponent_digits hsign hdigits fun c hc => (hrest c hc).1
    rcases hletter with rfl | rfl
    · exact hskip
    · exact hskip

/-- A fraction and an exponent are passed over. -/
theorem IsFraction.skips {exponent : List Char} (h : IsFraction s) (hexponent : IsExponent exponent)
    (hrest : EndsNumber rest) : skipTail (s ++ (exponent ++ rest)) = .ok rest := by
  have hscale := hexponent.skips hrest
  have hhead {c : Char} (hc : (exponent ++ rest).head? = some c) := hexponent.head hrest hc
  generalize exponent ++ rest = tail at hscale hhead ⊢
  cases h with
  | none =>
    cases tail with
    | nil => exact hscale
    | cons c tail =>
      have hpoint := (hhead rfl).2
      rw [← hscale]
      simp [skipTail, hpoint]
  | @point digits hdigits =>
    obtain ⟨hne, hall⟩ := hdigits
    obtain ⟨d, more, rfl⟩ := List.exists_cons_of_ne_nil hne
    obtain ⟨hd, hmore⟩ := List.forall_mem_cons.mp hall
    have hdrop := dropWhile_digits hmore fun c hc => (hhead hc).1
    simp [skipTail, hd, hdrop, hscale]

/-- A number behind its sign is passed over, whatever its size. -/
theorem skipMagnitude_toDigits {fraction exponent : List Char} (n : Nat)
    (hfraction : IsFraction fraction) (hexponent : IsExponent exponent) (hrest : EndsNumber rest) :
    skipMagnitude (Nat.toDigits 10 n ++ (fraction ++ (exponent ++ rest))) = .ok rest := by
  have htail := hfraction.skips hexponent hrest
  have hhead {c : Char} (hc : (fraction ++ (exponent ++ rest)).head? = some c) :=
    hfraction.head hexponent hrest hc
  generalize fraction ++ (exponent ++ rest) = tail at htail hhead ⊢
  rcases toDigits_cases n with ⟨-, hdigits⟩ | ⟨first, digits, hdigits, hfirst, hdigit, hall⟩
  · rw [hdigits]
    cases tail with
    | nil => exact htail
    | cons c tail =>
      have hc := hhead rfl
      simp [skipMagnitude, hc, htail]
  · have hdrop := dropWhile_digits hall fun c hc => hhead hc
    rw [hdigits]
    simp [skipMagnitude, hdigit, hdrop, htail]

/-- The text of a number begins with a minus sign or a digit. -/
theorem numeral_eq_cons (negative : Bool) (n : Nat) (fraction exponent : List Char) :
    ∃ c tail, numeral negative n fraction exponent = c :: tail ∧
      (c = '-' || c.isDigit) = true := by
  cases negative with
  | true => exact ⟨'-', _, rfl, rfl⟩
  | false =>
    obtain ⟨c, digits, hdigits, hc⟩ := toDigits_eq_digit_cons n
    exact ⟨c, digits ++ (fraction ++ exponent), by simp [numeral, hdigits], by simp [hc]⟩

/-- A number is passed over, whatever its size. -/
theorem skipNumber_numeral {fraction exponent : List Char} (negative : Bool) (n : Nat)
    (hfraction : IsFraction fraction) (hexponent : IsExponent exponent) (hrest : EndsNumber rest) :
    skipNumber (numeral negative n fraction exponent ++ rest) = .ok rest := by
  have hmagnitude := skipMagnitude_toDigits n hfraction hexponent hrest
  cases negative with
  | true => simpa [numeral, skipNumber] using hmagnitude
  | false =>
    have hnumber : numeral false n fraction exponent ++ rest =
        Nat.toDigits 10 n ++ (fraction ++ (exponent ++ rest)) := by simp [numeral]
    rw [hnumber, ← hmagnitude]
    unfold skipNumber
    split
    · rename_i heq
      exact absurd heq (toDigits_append_ne_minus n _ _)
    · rfl

/-! ### Passing over values -/

/-- A value begins with no blank, no comma and no bracket that closes. -/
theorem ValueText.eq_cons (h : ValueText v) :
    ∃ c tail, v = c :: tail ∧ isSpace c = false ∧ c ≠ ']' ∧ c ≠ '}' := by
  cases h with
  | nullWord => exact ⟨_, _, rfl, by decide⟩
  | trueWord => exact ⟨_, _, rfl, by decide⟩
  | falseWord => exact ⟨_, _, rfl, by decide⟩
  | @number negative n fraction exponent _ _ =>
    obtain ⟨c, tail, hcons, hc⟩ := numeral_eq_cons negative n fraction exponent
    refine ⟨c, tail, hcons, isSpace_of_number hc, ?_, ?_⟩
    · rintro rfl
      exact absurd hc (by decide)
    · rintro rfl
      exact absurd hc (by decide)
  | string _ => exact ⟨_, _, rfl, by decide⟩
  | @array items blank _ _ _ => cases items <;> exact ⟨'[', _, rfl, by decide⟩
  | @object members blank _ _ _ _ => cases members <;> exact ⟨'{', _, rfl, by decide⟩

/-- Blanks in front of a value are passed over. -/
theorem skipValue_blank (h : Blank s) (rest : List Char) :
    skipValue (steps + 1) (s ++ rest) = skipValue (steps + 1) rest := by
  rw [skipValue, skipValue, skipSpace_blank h]

/-- With steps for three times its length, a text is passed over up to what follows it. -/
def Skips (v : List Char) : Prop :=
  ∀ steps rest, 3 * v.length ≤ steps → EndsNumber rest → skipValue steps (v ++ rest) = .ok rest

/-- A value between blanks is passed over up to the blanks behind it. -/
theorem Skips.element {e : Element} (h : Skips e.value) (hv : ValueText e.value) (he : e.Spaced)
    (hsteps : 3 * e.value.length ≤ steps) (hrest : EndsNumber rest) :
    skipValue steps (e.text ++ rest) = .ok (e.after ++ rest) := by
  obtain ⟨c, tail, hcons, -⟩ := hv.eq_cons
  obtain ⟨more, rfl⟩ : ∃ more, steps = more + 1 := by
    refine ⟨steps - 1, ?_⟩
    rw [hcons, List.length_cons] at hsteps
    omega
  rw [Element.text, List.append_assoc, List.append_assoc, skipValue_blank he.1]
  exact h _ _ hsteps (endsNumber_blank he.2 hrest)

/-- The closing bracket ends an array. -/
theorem skipItems_close {first : Bool} (h : skipSpace s = ']' :: rest) :
    skipItems (steps + 1) first s = .ok rest := by
  simp only [skipItems, h]

/-- The first item is passed over. -/
theorem skipItems_first {c : Char} {tail : List Char} (h : skipSpace s = c :: tail) (hc : c ≠ ']')
    (hvalue : skipValue steps (c :: tail) = .ok rest) :
    skipItems (steps + 1) true s = skipItems steps false rest := by
  simp [skipItems, h, hvalue]

/-- An item behind a comma is passed over. -/
theorem skipItems_comma {tail : List Char} (h : skipSpace s = ',' :: tail)
    (hvalue : skipValue steps tail = .ok rest) :
    skipItems (steps + 1) false s = skipItems steps false rest := by
  simp [skipItems, h, hvalue]

/-- The items behind the first one are passed over, and the bracket behind them. -/
theorem skipItems_commas {items : List Element} (hspaced : ∀ e ∈ items, e.Spaced)
    (hvalues : ∀ e ∈ items, ValueText e.value) (hskips : ∀ e ∈ items, Skips e.value)
    (hafter : Blank after) (hsteps : 3 * (commas (items.map Element.text)).length < steps) :
    skipItems steps false (after ++ (commas (items.map Element.text) ++ ']' :: rest)) =
      .ok rest := by
  induction items generalizing steps after with
  | nil =>
    obtain ⟨more, rfl⟩ := exists_steps hsteps
    exact skipItems_close (skipSpace_blank_cons hafter (by decide) rest)
  | cons e items ih =>
    obtain ⟨more, rfl⟩ := exists_steps hsteps
    obtain ⟨he, hspaced⟩ := List.forall_mem_cons.mp hspaced
    obtain ⟨hv, hvalues⟩ := List.forall_mem_cons.mp hvalues
    obtain ⟨hskip, hskips⟩ := List.forall_mem_cons.mp hskips
    rw [List.map_cons, commas_cons] at hsteps ⊢
    simp only [List.length_cons, List.length_append, Element.text] at hsteps
    have hroom : 3 * e.value.length ≤ more := by omega
    have hvalue := hskip.element hv he hroom
      (endsNumber_commas (Or.inl rfl) (items.map Element.text) rest)
    rw [List.cons_append, List.append_assoc,
      skipItems_comma (skipSpace_blank_cons hafter (by decide) _) hvalue]
    exact ih hspaced hvalues hskips he.2 (by omega)

/-- An array is passed over if its items are. -/
theorem skips_array {items : List Element} {blank : List Char} (hblank : Blank blank)
    (hspaced : ∀ e ∈ items, e.Spaced) (hvalues : ∀ e ∈ items, ValueText e.value)
    (hskips : ∀ e ∈ items, Skips e.value) :
    Skips (bracketed '[' ']' blank (items.map Element.text)) := by
  intro steps rest hsteps hrest
  have hopen (more : Nat) (tail : List Char) :
      skipValue (more + 1) ('[' :: tail) = skipItems more true tail := by
    simp only [skipValue, skipSpace_cons (show isSpace '[' = false by decide)]
  cases items with
  | nil =>
    simp only [List.map_nil, bracketed, List.length_cons, List.length_append] at hsteps
    obtain ⟨more, rfl⟩ : ∃ more, steps = more + 2 := ⟨steps - 2, by omega⟩
    rw [List.map_nil, bracketed, List.cons_append, List.append_assoc, hopen]
    exact skipItems_close (skipSpace_blank_cons hblank (by decide) rest)
  | cons e items =>
    obtain ⟨he, hspaced⟩ := List.forall_mem_cons.mp hspaced
    obtain ⟨hv, hvalues⟩ := List.forall_mem_cons.mp hvalues
    obtain ⟨hskip, hskips⟩ := List.forall_mem_cons.mp hskips
    simp only [List.map_cons, bracketed, List.length_cons, List.length_append, Element.text]
      at hsteps
    obtain ⟨more, rfl⟩ : ∃ more, steps = more + 2 := ⟨steps - 2, by omega⟩
    obtain ⟨c, tail, hcons, hspace, hbracket, -⟩ := hv.eq_cons
    have hends : EndsNumber (e.after ++ (commas (items.map Element.text) ++ ']' :: rest)) :=
      endsNumber_blank he.2 (endsNumber_commas (Or.inl rfl) _ rest)
    have hvalue := hskip more _ (by omega) hends
    have hhead : skipSpace (e.text ++ (commas (items.map Element.text) ++ ']' :: rest)) =
        e.value ++ (e.after ++ (commas (items.map Element.text) ++ ']' :: rest)) := by
      rw [Element.text, List.append_assoc, List.append_assoc, skipSpace_blank he.1, hcons]
      exact skipSpace_cons hspace _
    rw [hcons, List.cons_append] at hvalue hhead
    rw [List.map_cons, bracketed, List.cons_append, List.append_assoc, List.append_assoc, hopen]
    rw [List.singleton_append, skipItems_first hhead hbracket hvalue]
    exact skipItems_commas hspaced hvalues hskips he.2 (by omega)

/-- The closing brace ends an object. -/
theorem skipMembers_close {first : Bool} (h : skipSpace s = '}' :: rest) :
    skipMembers (steps + 1) first s = .ok rest := by
  simp only [skipMembers, h]

/-- The first member is passed over. -/
theorem skipMembers_first {c : Char} {tail : List Char} (h : skipSpace s = c :: tail)
    (hc : c ≠ '}') : skipMembers (steps + 1) true s = skipMember steps (c :: tail) := by
  simp [skipMembers, h]

/-- A member behind a comma is passed over. -/
theorem skipMembers_comma {tail : List Char} (h : skipSpace s = ',' :: tail) :
    skipMembers (steps + 1) false s = skipMember steps tail := by
  simp [skipMembers, h]

/-- A member is passed over if its value is. -/
theorem Skips.member {m : Member} (h : Skips m.element.value) (hv : ValueText m.element.value)
    (hm : m.Spaced) (hname : StringContent m.spelling)
    (hsteps : 3 * m.element.value.length ≤ steps) (hrest : EndsNumber rest) :
    skipMember (steps + 1) (m.text ++ rest) =
      skipMembers steps false (m.element.after ++ rest) := by
  obtain ⟨hlead, hgap, helement⟩ := hm
  have hskip : skipName (m.text ++ rest) = .ok (m.element.text ++ rest) := by
    rw [Member.text, Member.tail, List.append_assoc, List.cons_append, List.append_assoc,
      List.cons_append, List.append_assoc, List.cons_append]
    simp only [skipName, skipSpace_blank_cons hlead (show isSpace '"' = false by decide),
      hname.skips, bind, Except.bind, readColon_blank hgap]
  rw [skipMember]
  simp only [hskip, h.element hv helement hsteps hrest]

/-- The members behind the first one are passed over, and the brace behind them. -/
theorem skipMembers_commas {members : List Member} (hspaced : ∀ m ∈ members, m.Spaced)
    (hnames : ∀ m ∈ members, StringContent m.spelling)
    (hvalues : ∀ m ∈ members, ValueText m.element.value)
    (hskips : ∀ m ∈ members, Skips m.element.value) (hafter : Blank after)
    (hsteps : 3 * (commas (members.map Member.text)).length < steps) :
    skipMembers steps false (after ++ (commas (members.map Member.text) ++ '}' :: rest)) =
      .ok rest := by
  induction members generalizing steps after with
  | nil =>
    obtain ⟨more, rfl⟩ := exists_steps hsteps
    exact skipMembers_close (skipSpace_blank_cons hafter (by decide) rest)
  | cons m members ih =>
    obtain ⟨hm, hspaced⟩ := List.forall_mem_cons.mp hspaced
    obtain ⟨hname, hnames⟩ := List.forall_mem_cons.mp hnames
    obtain ⟨hv, hvalues⟩ := List.forall_mem_cons.mp hvalues
    obtain ⟨hskip, hskips⟩ := List.forall_mem_cons.mp hskips
    rw [List.map_cons, commas_cons] at hsteps ⊢
    simp only [List.length_cons, List.length_append, Member.text, Member.tail, Element.text]
      at hsteps
    obtain ⟨more, rfl⟩ : ∃ more, steps = more + 2 := ⟨steps - 2, by omega⟩
    rw [List.cons_append, List.append_assoc,
      skipMembers_comma (skipSpace_blank_cons hafter (by decide) _),
      hskip.member hv hm hname (by omega) (endsNumber_commas (Or.inr rfl) _ rest)]
    exact ih hspaced hnames hvalues hskips hm.2.2.2 (by omega)

/-- An object is passed over if the values of its members are. -/
theorem skips_object {members : List Member} {blank : List Char} (hblank : Blank blank)
    (hspaced : ∀ m ∈ members, m.Spaced) (hnames : ∀ m ∈ members, StringContent m.spelling)
    (hvalues : ∀ m ∈ members, ValueText m.element.value)
    (hskips : ∀ m ∈ members, Skips m.element.value) :
    Skips (bracketed '{' '}' blank (members.map Member.text)) := by
  intro steps rest hsteps hrest
  have hopen (more : Nat) (tail : List Char) :
      skipValue (more + 1) ('{' :: tail) = skipMembers more true tail := by
    simp only [skipValue, skipSpace_cons (show isSpace '{' = false by decide)]
  cases members with
  | nil =>
    simp only [List.map_nil, bracketed, List.length_cons, List.length_append] at hsteps
    obtain ⟨more, rfl⟩ : ∃ more, steps = more + 2 := ⟨steps - 2, by omega⟩
    rw [List.map_nil, bracketed, List.cons_append, List.append_assoc, hopen]
    exact skipMembers_close (skipSpace_blank_cons hblank (by decide) rest)
  | cons m members =>
    obtain ⟨hm, hspaced⟩ := List.forall_mem_cons.mp hspaced
    obtain ⟨hname, hnames⟩ := List.forall_mem_cons.mp hnames
    obtain ⟨hv, hvalues⟩ := List.forall_mem_cons.mp hvalues
    obtain ⟨hskip, hskips⟩ := List.forall_mem_cons.mp hskips
    simp only [List.map_cons, bracketed, List.length_cons, List.length_append, Member.text,
      Member.tail, Element.text] at hsteps
    obtain ⟨more, rfl⟩ : ∃ more, steps = more + 3 := ⟨steps - 3, by omega⟩
    -- The blanks in front of the first name are passed over twice.
    let bare : Member := { m with lead := [] }
    have hbare : bare.Spaced := ⟨fun c hc => (List.not_mem_nil hc).elim, hm.2⟩
    have hhead (tail : List Char) : skipSpace (m.text ++ tail) = '"' :: (m.tail ++ tail) := by
      rw [Member.text, List.append_assoc]
      exact skipSpace_blank_cons hm.1 (by decide) _
    have hsmall : 3 * m.element.value.length ≤ more := by omega
    have hmember := Skips.member (m := bare) hskip hv hbare hname hsmall
      (endsNumber_commas (Or.inr rfl) (members.map Member.text) rest)
    rw [List.map_cons, bracketed, List.cons_append, List.append_assoc, List.append_assoc, hopen]
    rw [List.singleton_append, skipMembers_first (hhead _) (by decide)]
    refine hmember.trans ?_
    exact skipMembers_commas hspaced hnames hvalues hskips hm.2.2.2 (by omega)

/-- What begins like a number is passed over as one. -/
theorem skipValue_number {c : Char} (h : (c = '-' || c.isDigit) = true) (tail : List Char) :
    skipValue (steps + 1) (c :: tail) = skipNumber (c :: tail) := by
  unfold skipValue
  rw [skipSpace_cons (isSpace_of_number h)]
  split
  case h_8 =>
    rename_i heq
    cases heq
    rw [if_pos h]
  all_goals
    rename_i heq
    cases heq
  all_goals exact absurd h (by decide)

/-- Every value is passed over to its very end, however deeply it is nested. -/
theorem ValueText.skips (h : ValueText v) : Skips v := by
  induction h with
  | nullWord =>
    intro steps rest hsteps hrest
    obtain ⟨more, rfl⟩ := exists_steps hsteps
    rfl
  | trueWord =>
    intro steps rest hsteps hrest
    obtain ⟨more, rfl⟩ := exists_steps hsteps
    rfl
  | falseWord =>
    intro steps rest hsteps hrest
    obtain ⟨more, rfl⟩ := exists_steps hsteps
    rfl
  | @number negative n fraction exponent hfraction hexponent =>
    intro steps rest hsteps hrest
    have hskip := skipNumber_numeral negative n hfraction hexponent hrest
    obtain ⟨c, tail, hcons, hc⟩ := numeral_eq_cons negative n fraction exponent
    rw [hcons, List.length_cons] at hsteps
    obtain ⟨more, rfl⟩ : ∃ more, steps = more + 1 := ⟨steps - 1, by omega⟩
    rw [hcons, List.cons_append] at hskip ⊢
    rw [skipValue_number hc, hskip]
  | @string content hcontent =>
    intro steps rest hsteps hrest
    rw [List.length_cons] at hsteps
    obtain ⟨more, rfl⟩ : ∃ more, steps = more + 1 := ⟨steps - 1, by omega⟩
    rw [List.cons_append, List.append_assoc, skipValue, skipSpace_cons (by decide)]
    exact hcontent.skips rest
  | array hblank hspaced hvalues ih => exact skips_array hblank hspaced hvalues ih
  | object hblank hspaced hnames hvalues ih => exact skips_object hblank hspaced hnames hvalues ih

end DurableCache.Json
