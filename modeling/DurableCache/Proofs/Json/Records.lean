import DurableCache.Proofs.Json.Readings
import Mathlib.Data.List.Nodup

/-!
# Records by the names of their fields

A record is read from an object by the names of its members alone. Members of other names are passed
over, whatever they hold; a field takes the one value that stands under its name, and no other
(`Slots.read_iff`).
-/

namespace DurableCache.Json

variable {δ α β : Type} {members : List (String × Member)} {name : String}
variable {s after rest left : List Char}

/-! ### Objects by their members -/

/-- A member has this name once its escapes are undone, and otherwise keeps to the grammar. -/
structure Member.Named (m : Member) (name : String) : Prop where
  spaced : m.Spaced
  spells : Spells m.spelling name.toList
  value : ValueText m.element.value

/-- The value is a part of the member. -/
theorem Member.length_value_le (m : Member) : m.element.value.length ≤ m.text.length := by
  simp only [text, tail, Element.text, List.length_append, List.length_cons]
  omega

/-- A text of an object with these members, in their order, and the rest of the text behind it. -/
def ObjectText (members : List (String × Member)) (s rest : List Char) : Prop :=
  (∀ m ∈ members, m.2.Named m.1) ∧ ∃ before blank, Blank before ∧ Blank blank ∧
    s = before ++ (bracketed '{' '}' blank (members.map fun m => m.2.text) ++ rest)

/-- The texts of the values that stand under a name. -/
def under (name : String) (members : List (String × Member)) : List (List Char) :=
  (members.filter fun m => m.1 == name).map fun m => m.2.element.value

theorem under_cons_self (name : String) (m : Member) :
    under name ((name, m) :: members) = m.element.value :: under name members := by
  simp [under]

theorem under_cons_of_ne {other : String} (h : other ≠ name) (m : Member) :
    under name ((other, m) :: members) = under name members := by
  simp [under, h]

/-! ### Fields -/

/-- What the values for a field come to: nothing if there are none, and what the value denotes if
there is one. -/
def Held (Denotes : List Char → α → Prop) (values : List (List Char)) : Option α → Prop
  | none => values = []
  | some a => ∃ v, values = [v] ∧ Denotes v a

/-- A field of a record with its part of the draft and what its values denote. -/
structure Slot (δ : Type) where
  field : Field δ
  Content : Type
  get : δ → Option Content
  put : Content → δ → δ
  Denotes : List Char → Content → Prop

namespace Slot

/-- A field that is read by a reader of its own. -/
def of (name : String) (optional : Bool) (reader : Reader α) (Denotes : List Char → α → Prop)
    (get : δ → Option α) (put : α → δ → δ) : Slot δ where
  field :=
    { name, optional, isSet := fun d => (get d).isSome
      read := fun d s => (reader s).map fun (a, rest) => (put a d, rest) }
  Content := α
  get := get
  put := put
  Denotes := Denotes

/-- A field is set once it is read, and reads what its values denote. -/
structure Lawful (slot : Slot δ) : Prop where
  isSet : ∀ d, slot.field.isSet d = (slot.get d).isSome
  get_put : ∀ a d, slot.get (slot.put a d) = some a
  read : ∀ d, ReadsExactly (slot.field.read d) fun v next =>
    ∃ a, slot.Denotes v a ∧ next = slot.put a d

/-- A field with an exact reader is lawful. -/
theorem of_lawful {reader : Reader α} {Denotes : List Char → α → Prop} {get : δ → Option α}
    {put : α → δ → δ} {optional : Bool} (hreads : ReadsExactly reader Denotes)
    (hget : ∀ a d, get (put a d) = some a) :
    (Slot.of name optional reader Denotes get put).Lawful where
  isSet _ := rfl
  get_put := hget
  read d before v rest next left hbefore hv hrest := by
    have hreader (a : α) := hreads a left hbefore hv hrest
    show (reader (before ++ (v ++ rest))).map _ = _ ↔ _
    constructor
    · intro hmap
      cases hfound : reader (before ++ (v ++ rest)) with
      | error e =>
        rw [hfound] at hmap
        cases hmap
      | ok found =>
        obtain ⟨a, more⟩ := found
        rw [hfound] at hmap
        cases hmap
        obtain ⟨ha, hleft⟩ := (hreader a).mp hfound
        exact ⟨⟨a, ha, rfl⟩, hleft⟩
    · rintro ⟨⟨a, ha, rfl⟩, hleft⟩
      rw [(hreader a).mpr ⟨ha, hleft⟩]
      rfl

/-- From one draft to the next a field takes the one value that there is for it, if it is not yet
set, and stays as it is if there is none. -/
def Takes (slot : Slot δ) (d next : δ) (values : List (List Char)) : Prop :=
  (values = [] ∧ slot.get next = slot.get d) ∨
    ∃ v a, values = [v] ∧ slot.Denotes v a ∧ slot.get d = none ∧ slot.get next = some a

/-- A draft holds what the values for a field come to. -/
def Holds (slot : Slot δ) (d : δ) (values : List (List Char)) : Prop :=
  Held slot.Denotes values (slot.get d)

/-- What a field takes that is not yet set, it holds. -/
theorem takes_iff_holds {slot : Slot δ} {d next : δ} {values : List (List Char)}
    (hget : slot.get d = none) : slot.Takes d next values ↔ slot.Holds next values := by
  unfold Takes Holds
  cases slot.get next with
  | none => simp [Held, hget]
  | some a => simp [Held, hget]

end Slot

/-- The fields of a shape, each with its own part of the draft. -/
structure Slots (shape : Shape δ β) (slots : List (Slot δ)) : Prop where
  fields : shape.fields = slots.map Slot.field
  lawful : ∀ slot ∈ slots, slot.Lawful
  nodup : (slots.map fun slot => slot.field.name).Nodup
  apart : ∀ slot ∈ slots, ∀ other ∈ slots, slot.field.name ≠ other.field.name →
    ∀ a d, other.get (slot.put a d) = other.get d
  ext : ∀ d e, (∀ slot ∈ slots, slot.get d = slot.get e) → d = e
  blank : ∀ slot ∈ slots, slot.get shape.blank = none

namespace Slots

variable {shape : Shape δ β} {slots : List (Slot δ)} {slot : Slot δ} {d next : δ}
variable {steps room : Nat} {m : Member}

/-- No two fields have one name. -/
theorem names (h : Slots shape slots) (hslot : slot ∈ slots) {other : Slot δ}
    (hother : other ∈ slots) (hname : slot.field.name = other.field.name) : slot = other :=
  List.inj_on_of_nodup_map h.nodup hslot hother hname

/-- The field of a name is the field of its slot. -/
theorem find?_fields (h : Slots shape slots) (hslot : slot ∈ slots) :
    shape.fields.find? (fun f => f.name == slot.field.name) = some slot.field := by
  rw [h.fields, List.find?_map]
  cases hfound : slots.find? ((fun f => f.name == slot.field.name) ∘ Slot.field) with
  | none =>
    have hnone := List.find?_eq_none.mp hfound slot hslot
    simp at hnone
  | some other =>
    have hname := List.find?_some hfound
    simp only [Function.comp_apply, beq_iff_eq] at hname
    rw [h.names (List.mem_of_find?_eq_some hfound) hslot hname]
    rfl

/-- A member of another name than those of the fields is passed over. -/
theorem readMember_of_unknown (h : Slots shape slots)
    (hname : ∀ slot ∈ slots, slot.field.name ≠ name) (hm : m.Named name)
    (hroom : 3 * m.element.value.length ≤ room) (hrest : EndsNumber rest) :
    shape.readMember room d name (m.gap ++ ':' :: (m.element.text ++ rest)) =
      .ok (d, m.element.after ++ rest) := by
  have hnone : shape.fields.find? (fun f => f.name == name) = none := by
    rw [h.fields, List.find?_eq_none]
    intro field hfield
    obtain ⟨slot, hslot, rfl⟩ := List.mem_map.mp hfield
    simpa using hname slot hslot
  have hcolon := readColon_blank hm.spaced.2.1 (m.element.text ++ rest)
  have hskip := hm.value.skips.element hm.value hm.spaced.2.2 hroom hrest
  simp only [Shape.readMember, hnone, hcolon, bind, Except.bind, hskip, Except.map]

/-- A member of a field's name is read exactly if the field is not yet set and the value denotes
something. -/
theorem readMember_iff (h : Slots shape slots) (hslot : slot ∈ slots)
    (hm : m.Named slot.field.name) (hrest : EndsNumber rest) :
    shape.readMember room d slot.field.name (m.gap ++ ':' :: (m.element.text ++ rest)) =
        .ok (next, left) ↔
      slot.get d = none ∧ (∃ a, slot.Denotes m.element.value a ∧ next = slot.put a d) ∧
        left = m.element.after ++ rest := by
  have hcolon := readColon_blank hm.spaced.2.1 (m.element.text ++ rest)
  have hlawful := h.lawful slot hslot
  obtain ⟨hbefore, hafter⟩ := hm.spaced.2.2
  have hread := hlawful.read d next left hbefore hm.value
    (endsNumber_blank hafter hrest)
  have htext : m.element.text ++ rest =
      m.element.before ++ (m.element.value ++ (m.element.after ++ rest)) := by
    simp [Element.text]
  simp only [Shape.readMember, h.find?_fields hslot, hcolon, hlawful.isSet]
  cases hget : slot.get d with
  | some a => simp
  | none =>
    rw [← hread, ← htext]
    simp only [Option.isSome_none, Bool.false_eq_true, if_false, true_and]
    cases slot.field.read d (m.element.text ++ rest) with
    | error e => simp [Except.mapError]
    | ok found => simp [Except.mapError]

/-- One more member in front of others, of which the fields take what stands under their names. -/
theorem cons_iff (h : Slots shape slots) (hm : m.Named name)
    (hroom : 3 * m.element.value.length ≤ room) (hrest : EndsNumber rest)
    {further : δ → List Char → Except ReadError (δ × List Char)} {last : List Char}
    (ih : ∀ mid, further mid (m.element.after ++ rest) = .ok (next, left) ↔
      (∀ slot ∈ slots, slot.Takes mid next (under slot.field.name members)) ∧ left = last) :
    (∃ mid more, shape.readMember room d name (m.gap ++ ':' :: (m.element.text ++ rest)) =
        .ok (mid, more) ∧ further mid more = .ok (next, left)) ↔
      (∀ slot ∈ slots, slot.Takes d next (under slot.field.name ((name, m) :: members))) ∧
        left = last := by
  by_cases hknown : ∃ slot ∈ slots, slot.field.name = name
  · obtain ⟨slot, hslot, rfl⟩ := hknown
    have hlawful := h.lawful slot hslot
    constructor
    · rintro ⟨mid, more, hread, hfurther⟩
      obtain ⟨hget, ⟨a, ha, rfl⟩, rfl⟩ := (h.readMember_iff hslot hm hrest).mp hread
      obtain ⟨htakes, hleft⟩ := (ih _).mp hfurther
      refine ⟨fun other hother => ?_, hleft⟩
      have hlater := htakes other hother
      by_cases hname : slot.field.name = other.field.name
      · obtain rfl := h.names hslot hother hname
        rw [under_cons_self]
        rcases hlater with ⟨hnone, hsame⟩ | ⟨v, b, -, -, hunset, -⟩
        · rw [hlawful.get_put] at hsame
          exact Or.inr ⟨_, a, by rw [hnone], ha, hget, hsame⟩
        · rw [hlawful.get_put] at hunset
          cases hunset
      · rw [under_cons_of_ne hname]
        have hsame := h.apart slot hslot other hother hname a d
        unfold Slot.Takes at hlater ⊢
        rwa [hsame] at hlater
    · rintro ⟨htakes, hleft⟩
      have hown := htakes slot hslot
      rw [under_cons_self] at hown
      rcases hown with ⟨hnil, -⟩ | ⟨v, a, hone, ha, hget, hnext⟩
      · cases hnil
      · obtain ⟨rfl, hnone⟩ := List.cons.inj hone
        refine ⟨slot.put a d, _, (h.readMember_iff hslot hm hrest).mpr ⟨hget, ⟨a, ha, rfl⟩, rfl⟩,
          (ih _).mpr ⟨fun other hother => ?_, hleft⟩⟩
        by_cases hname : slot.field.name = other.field.name
        · obtain rfl := h.names hslot hother hname
          exact Or.inl ⟨hnone, hnext.trans (hlawful.get_put a d).symm⟩
        · have hlater := htakes other hother
          rw [under_cons_of_ne hname] at hlater
          have hsame := h.apart slot hslot other hother hname a d
          unfold Slot.Takes at hlater ⊢
          rwa [hsame]
  · have hname : ∀ slot ∈ slots, slot.field.name ≠ name := fun slot hslot heq =>
      hknown ⟨slot, hslot, heq⟩
    have hread := h.readMember_of_unknown (d := d) hname hm hroom hrest
    have hunder : ∀ slot ∈ slots, under slot.field.name ((name, m) :: members) =
        under slot.field.name members := fun slot hslot =>
      under_cons_of_ne (hname slot hslot).symm m
    constructor
    · rintro ⟨mid, more, hmid, hfurther⟩
      rw [hread] at hmid
      cases hmid
      obtain ⟨htakes, hleft⟩ := (ih d).mp hfurther
      refine ⟨fun slot hslot => ?_, hleft⟩
      rw [hunder slot hslot]
      exact htakes slot hslot
    · rintro ⟨htakes, hleft⟩
      refine ⟨d, _, hread, (ih d).mpr ⟨fun slot hslot => ?_, hleft⟩⟩
      rw [← hunder slot hslot]
      exact htakes slot hslot

/-- Without further members the fields stay as they are. -/
theorem nil_iff (h : Slots shape slots) :
    (.ok (d, rest) : Except ReadError (δ × List Char)) = .ok (next, left) ↔
      (∀ slot ∈ slots, slot.Takes d next (under slot.field.name [])) ∧ left = rest := by
  rw [Except.ok.injEq, Prod.mk.injEq]
  refine and_congr ?_ eq_comm
  constructor
  · rintro rfl slot -
    exact Or.inl ⟨rfl, rfl⟩
  · intro htakes
    refine h.ext d next fun slot hslot => ?_
    rcases htakes slot hslot with ⟨-, hsame⟩ | ⟨v, a, hone, -⟩
    · exact hsame.symm
    · cases hone

/-- A member is read behind the quote that opens its name, and then the further ones. -/
theorem foldMembers_iff_of_name {member : δ → String → Reader δ} {first : Bool} {text : List Char}
    (hspells : Spells m.spelling name.toList)
    (hname : nextName? first text = .ok (.inl (m.tail ++ rest))) :
    foldMembers member (steps + 1) first d text = .ok (next, left) ↔
      ∃ mid more, member d name (m.gap ++ ':' :: (m.element.text ++ rest)) = .ok (mid, more) ∧
        foldMembers member steps false mid more = .ok (next, left) := by
  have htail : m.tail ++ rest =
      m.spelling ++ '"' :: (m.gap ++ ':' :: (m.element.text ++ rest)) := by
    simp [Member.tail]
  rw [foldMembers, hname, htail]
  simp only [readString_of_spells hspells]
  cases member d name (m.gap ++ ':' :: (m.element.text ++ rest)) with
  | error e => simp
  | ok found =>
    obtain ⟨mid, more⟩ := found
    constructor
    · exact fun hlater => ⟨mid, more, rfl, hlater⟩
    · rintro ⟨_, _, heq, hlater⟩
      cases heq
      exact hlater

/-- The members behind the first one give the fields what stands under their names. -/
theorem commas_iff (h : Slots shape slots) (hnamed : ∀ m ∈ members, m.2.Named m.1)
    (hafter : Blank after) (hsteps : members.length < steps)
    (hroom : ∀ m ∈ members, 3 * m.2.element.value.length ≤ room) :
    foldMembers (shape.readMember room) steps false d
        (after ++ (commas (members.map fun m => m.2.text) ++ '}' :: rest)) = .ok (next, left) ↔
      (∀ slot ∈ slots, slot.Takes d next (under slot.field.name members)) ∧ left = rest := by
  induction members generalizing steps d after with
  | nil =>
    obtain ⟨more, rfl⟩ := exists_steps hsteps
    have hclose : nextName? false (after ++ '}' :: rest) = .ok (.inr rest) := by
      simp only [nextName?, skipSpace_blank_cons hafter (show isSpace '}' = false by decide)]
    simp only [List.map_nil, commas, List.flatMap_nil, List.nil_append, foldMembers, hclose]
    exact h.nil_iff
  | cons row members ih =>
    obtain ⟨name, m⟩ := row
    obtain ⟨more, rfl⟩ := exists_steps hsteps
    obtain ⟨hm, hnamed⟩ := List.forall_mem_cons.mp hnamed
    obtain ⟨hlong, hroom⟩ := List.forall_mem_cons.mp hroom
    have hnext : nextName? false (after ++
        ',' :: (m.text ++ (commas (members.map fun m => m.2.text) ++ '}' :: rest))) =
          .ok (.inl (m.tail ++ (commas (members.map fun m => m.2.text) ++ '}' :: rest))) := by
      have hlead : skipSpace (m.text ++ (commas (members.map fun m => m.2.text) ++ '}' :: rest)) =
          '"' :: (m.tail ++ (commas (members.map fun m => m.2.text) ++ '}' :: rest)) := by
        rw [Member.text, List.append_assoc]
        exact skipSpace_blank_cons hm.spaced.1 (by decide) _
      simp [nextName?, skipSpace_blank_cons hafter (show isSpace ',' = false by decide), hlead]
    rw [List.map_cons, commas_cons, List.cons_append, List.append_assoc,
      foldMembers_iff_of_name hm.spells hnext]
    exact h.cons_iff hm hlong (endsNumber_commas (Or.inr rfl) _ rest) fun mid =>
      ih hnamed hm.spaced.2.2.2 (Nat.lt_of_succ_lt_succ hsteps) hroom

/-- The members of an object give the fields what stands under their names. -/
theorem members_iff (h : Slots shape slots) (hnamed : ∀ m ∈ members, m.2.Named m.1)
    {blank inside : List Char} (hblank : Blank blank)
    (hinside : '{' :: inside = bracketed '{' '}' blank (members.map fun m => m.2.text) ++ rest)
    (hsteps : members.length < steps)
    (hroom : ∀ m ∈ members, 3 * m.2.element.value.length ≤ room) :
    foldMembers (shape.readMember room) steps true d inside = .ok (next, left) ↔
      (∀ slot ∈ slots, slot.Takes d next (under slot.field.name members)) ∧ left = rest := by
  obtain ⟨more, rfl⟩ := exists_steps hsteps
  cases members with
  | nil =>
    rw [List.map_nil, bracketed, List.cons_append, List.append_assoc, List.singleton_append]
      at hinside
    obtain rfl := (List.cons.inj hinside).2
    have hclose : nextName? true (blank ++ '}' :: rest) = .ok (.inr rest) := by
      simp only [nextName?, skipSpace_blank_cons hblank (show isSpace '}' = false by decide)]
    simp only [foldMembers, hclose]
    exact h.nil_iff
  | cons row members =>
    obtain ⟨name, m⟩ := row
    obtain ⟨hm, hnamed⟩ := List.forall_mem_cons.mp hnamed
    obtain ⟨hlong, hroom⟩ := List.forall_mem_cons.mp hroom
    rw [List.map_cons, bracketed, List.cons_append, List.append_assoc, List.append_assoc,
      List.singleton_append] at hinside
    obtain rfl := (List.cons.inj hinside).2
    have hfirst : nextName? true
        (m.text ++ (commas (members.map fun m => m.2.text) ++ '}' :: rest)) =
          .ok (.inl (m.tail ++ (commas (members.map fun m => m.2.text) ++ '}' :: rest))) := by
      have hlead : skipSpace (m.text ++ (commas (members.map fun m => m.2.text) ++ '}' :: rest)) =
          '"' :: (m.tail ++ (commas (members.map fun m => m.2.text) ++ '}' :: rest)) := by
        rw [Member.text, List.append_assoc]
        exact skipSpace_blank_cons hm.spaced.1 (by decide) _
      simp [nextName?, hlead]
    rw [foldMembers_iff_of_name hm.spells hfirst]
    exact h.cons_iff hm hlong (endsNumber_commas (Or.inr rfl) _ rest) fun mid =>
      h.commas_iff hnamed hm.spaced.2.2.2 (Nat.lt_of_succ_lt_succ hsteps) hroom

/-- A record is read of an object exactly if it is built of what the one value under the name of
each field denotes. -/
theorem read_iff (h : Slots shape slots) (hobject : ObjectText members s rest) (record : β)
    (left : List Char) :
    shape.read s = .ok (record, left) ↔
      (∃ draft, (∀ slot ∈ slots, slot.Holds draft (under slot.field.name members)) ∧
        shape.build draft = .ok record) ∧ left = rest := by
  obtain ⟨hnamed, before, blank, hbefore, hblank, rfl⟩ := hobject
  obtain ⟨inside, hinside⟩ : ∃ inside,
      '{' :: inside = bracketed '{' '}' blank (members.map fun m => m.2.text) ++ rest := by
    cases members <;> exact ⟨_, rfl⟩
  obtain ⟨hcount, hparts⟩ :=
    length_bracketed '{' '}' blank (members.map fun m => m.2.text)
  have hspace : skipSpace (before ++ (bracketed '{' '}' blank (members.map fun m => m.2.text) ++
      rest)) = '{' :: inside := by
    rw [← hinside]
    exact skipSpace_blank_cons hbefore (by decide) inside
  generalize hs : before ++ (bracketed '{' '}' blank (members.map fun m => m.2.text) ++ rest) = s
    at hspace ⊢
  have hlength : (bracketed '{' '}' blank (members.map fun m => m.2.text)).length ≤ s.length := by
    rw [← hs, List.length_append, List.length_append]
    omega
  have hroom : ∀ m ∈ members, 3 * m.2.element.value.length ≤ enoughSteps s := by
    intro m hm
    have hpart := hparts m.2.text (List.mem_map_of_mem hm)
    have hvalue := m.2.length_value_le
    unfold enoughSteps
    omega
  rw [List.length_map] at hcount
  have hfold (next : δ) (left : List Char) :
      foldMembers (shape.readMember (enoughSteps s)) (s.length + 1) true shape.blank inside =
          .ok (next, left) ↔
        (∀ slot ∈ slots, slot.Holds next (under slot.field.name members)) ∧ left = rest := by
    rw [h.members_iff hnamed hblank hinside (by omega) hroom]
    exact and_congr_left fun _ => forall₂_congr fun slot hslot =>
      Slot.takes_iff_holds (h.blank slot hslot)
  simp only [Shape.read, hspace]
  constructor
  · intro hread
    cases hfolded : foldMembers (shape.readMember (enoughSteps s)) (s.length + 1) true shape.blank
      inside with
    | error e =>
      rw [hfolded] at hread
      cases hread
    | ok found =>
      obtain ⟨draft, more⟩ := found
      obtain ⟨hholds, rfl⟩ := (hfold draft more).mp hfolded
      simp only [hfolded, bind, Except.bind] at hread
      split at hread
      · cases hread
      · rename_i hbuild
        cases hread
        exact ⟨⟨draft, hholds, hbuild⟩, rfl⟩
  · rintro ⟨⟨draft, hholds, hbuild⟩, rfl⟩
    simp only [(hfold draft left).mpr ⟨hholds, rfl⟩, bind, Except.bind, hbuild]

/-- A text that holds an object between blanks, and nothing else, is decoded as the record that is
built of its fields. -/
theorem decode_iff (h : Slots shape slots) {text : String}
    (hobject : ObjectText members text.toList after) (hafter : Blank after) (record : β) :
    decode shape.read text = .ok record ↔
      ∃ draft, (∀ slot ∈ slots, slot.Holds draft (under slot.field.name members)) ∧
        shape.build draft = .ok record := by
  have hread := h.read_iff hobject
  have hblank : skipSpace after = [] := by
    have hall := skipSpace_blank hafter []
    rwa [List.append_nil] at hall
  unfold decode
  constructor
  · intro hdecode
    cases hfound : shape.read text.toList with
    | error e =>
      rw [hfound] at hdecode
      cases hdecode
    | ok found =>
      obtain ⟨other, more⟩ := found
      obtain ⟨hdraft, rfl⟩ := (hread other more).mp hfound
      simp only [hfound, hblank, List.isEmpty_nil, if_true] at hdecode
      cases hdecode
      exact hdraft
  · intro hdraft
    simp only [(hread record after).mpr ⟨hdraft, rfl⟩, hblank, List.isEmpty_nil, if_true]

/-- Whatever stands behind an object, it is decoded by itself as the record that is built of its
fields. -/
theorem decodePart_iff (h : Slots shape slots) {text : String}
    (hobject : ObjectText members text.toList rest) (record : β) :
    decodePart shape.read text = .ok record ↔
      ∃ draft, (∀ slot ∈ slots, slot.Holds draft (under slot.field.name members)) ∧
        shape.build draft = .ok record := by
  have hread := h.read_iff hobject
  unfold decodePart
  constructor
  · intro hdecode
    cases hfound : shape.read text.toList with
    | error e =>
      rw [hfound] at hdecode
      cases hdecode
    | ok found =>
      obtain ⟨other, more⟩ := found
      rw [hfound] at hdecode
      cases hdecode
      exact ((hread other more).mp hfound).1
  · intro hdraft
    rw [(hread record rest).mpr ⟨hdraft, rfl⟩]
    rfl

end Slots

end DurableCache.Json
