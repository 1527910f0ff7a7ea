import DurableCache.Converter
import DurableCache.Proofs.Json.Grammar
import DurableCache.Proofs.Json.RoundTrip

/-!
# Values that are written are read back

A value without doubles is read back from its text, however its strings look and whatever its
integers are, with its members in the order of their names. The reader goes down no further than its
room, and refuses a value that is nested deeper (`readValueWith_write`). The writer has no such
limit.
-/

namespace DurableCache

namespace Json

/-! ### Values -/

namespace Value

mutual

/-- How many arrays and objects are inside one another. -/
def depth : Value → Nat
  | .null | .bool _ | .integer _ | .float _ | .string _ => 0
  | .array items => depthItems items + 1
  | .object members => depthMembers members + 1

/-- The depth of the deepest of the values. -/
def depthItems : List Value → Nat
  | [] => 0
  | item :: rest => max (depth item) (depthItems rest)

/-- The depth of the deepest of the values of members. -/
def depthMembers : List (String × Value) → Nat
  | [] => 0
  | (_, value) :: rest => max (depth value) (depthMembers rest)

end

mutual

/-- The value with the members of all objects in the order of their names. Of two members with one
name the later stays. -/
def sorted : Value → Value
  | .null => .null
  | .bool b => .bool b
  | .integer n => .integer n
  | .float x => .float x
  | .string s => .string s
  | .array items => .array (sortedItems items)
  | .object members =>
    .object ((sortedMembers members).foldl (fun rows row => Rows.insert row.1 row.2 rows) [])

/-- Each value with its members in order. -/
def sortedItems : List Value → List Value
  | [] => []
  | item :: rest => sorted item :: sortedItems rest

/-- Members with each value in order. -/
def sortedMembers : List (String × Value) → List (String × Value)
  | [] => []
  | (name, value) :: rest => (name, sorted value) :: sortedMembers rest

end

/-- A value without doubles and without integers beyond sixty-four bits, in which no object is a
holder. -/
inductive Plain : Value → Prop
  | null : Plain .null
  | bool (b : Bool) : Plain (.bool b)
  | integer {n : Int} (hleast : -(wordLimit / 2 : Nat) ≤ n) (hgreatest : n < wordLimit) :
      Plain (.integer n)
  | string (s : String) : Plain (.string s)
  | array {items : List Value} (hitems : ∀ v ∈ items, Plain v) : Plain (.array items)
  | object {members : List (String × Value)} (hfirst : ∀ m ∈ members.head?, m.1 ≠ holderName)
      (hvalues : ∀ m ∈ members, Plain m.2) : Plain (.object members)

/-- A value in which the members of every object are in the order of their names. -/
inductive Ordered : Value → Prop
  | null : Ordered .null
  | bool (b : Bool) : Ordered (.bool b)
  | integer (n : Int) : Ordered (.integer n)
  | float (x : Float) : Ordered (.float x)
  | string (s : String) : Ordered (.string s)
  | array {items : List Value} (hitems : ∀ v ∈ items, Ordered v) : Ordered (.array items)
  | object {members : List (String × Value)} (hnames : Rows.Ascending members)
      (hvalues : ∀ m ∈ members, Ordered m.2) : Ordered (.object members)

variable {v : Value} {n : Nat}

/-- Values are no deeper than a bound if none of them is. -/
theorem depthItems_le_iff (items : List Value) :
    depthItems items ≤ n ↔ ∀ v ∈ items, v.depth ≤ n := by
  induction items with
  | nil => simp [depthItems]
  | cons item items ih => rw [depthItems, Nat.max_le, ih, List.forall_mem_cons]

/-- Members are no deeper than a bound if none of their values is. -/
theorem depthMembers_le_iff (members : List (String × Value)) :
    depthMembers members ≤ n ↔ ∀ m ∈ members, m.2.depth ≤ n := by
  induction members with
  | nil => simp [depthMembers]
  | cons row members ih => rw [depthMembers, Nat.max_le, ih, List.forall_mem_cons]

theorem sortedItems_eq_map (items : List Value) : sortedItems items = items.map sorted := by
  induction items with
  | nil => rfl
  | cons item items ih => rw [sortedItems, ih, List.map_cons]

theorem sortedMembers_eq_map (members : List (String × Value)) :
    sortedMembers members = members.map fun m => (m.1, m.2.sorted) := by
  induction members with
  | nil => rfl
  | cons row members ih => rw [sortedMembers, ih, List.map_cons]

/-- A value whose members are in order stays as it is. -/
theorem Ordered.sorted_eq (h : v.Ordered) : v.sorted = v := by
  induction h with
  | null | bool _ | integer _ | float _ | string _ => rw [sorted]
  | @array items _ ih =>
    rw [sorted, sortedItems_eq_map, List.map_congr_left ih, List.map_id']
  | @object members hnames _ ih =>
    have hmembers : sortedMembers members = members := by
      rw [sortedMembers_eq_map]
      refine (List.map_congr_left fun m hm => ?_).trans (List.map_id' members)
      rw [ih m hm]
    have hfold := Rows.foldl_insert (show Rows.Ascending ([] ++ members) from hnames)
    rw [sorted, hmembers, hfold, List.nil_append]

/-! ### Texts of values -/

/-- Items are written as the first one and the further ones behind commas. -/
theorem writeItems_cons (item : Value) (rest : List Value) :
    writeItems (item :: rest) = item.write ++ commas (rest.map write) := by
  induction rest generalizing item with
  | nil => simp [writeItems, commas]
  | cons next rest ih =>
    have hwrite : writeItems (item :: next :: rest) =
        item.write ++ ',' :: writeItems (next :: rest) := by simp [writeItems]
    rw [hwrite, ih, List.map_cons, commas_cons]

/-- An array is written as its items in brackets. -/
theorem write_array (items : List Value) :
    (array items).write = bracketed '[' ']' [] (items.map write) := by
  cases items with
  | nil => rfl
  | cons item items => simp [write, writeItems_cons, bracketed]

end Value

/-! ### Items -/

/-- An item begins with no blank and no bracket that closes. -/
def BeginsItem (s : List Char) : Prop := ∃ c tail, s = c :: tail ∧ isSpace c = false ∧ c ≠ ']'

section Items

variable {α β σ : Type} {item : σ → Reader σ} {step : σ → α → σ} {write : α → List Char}
variable {Good : α → Prop} [DecidablePred Good] {fault : ReadError} {items : List α}
variable {steps : Nat} {state : σ} {rest : List Char}

/-- An item and the further ones are read if it is read and they are. -/
theorem foldItems_of_next {first : Bool} {text body tail : List Char} {next last : σ} {G L : Prop}
    [Decidable G] [Decidable L] (hnext : nextItem? first text = .ok (some body))
    (hitem : item state body = if G then .ok (next, tail) else .error fault)
    (hlater : foldItems item steps false next tail = if L then .ok (last, rest) else .error fault) :
    foldItems item (steps + 1) first state text =
      if G ∧ L then .ok (last, rest) else .error fault := by
  rw [foldItems, hnext]
  simp only [hitem]
  by_cases hG : G
  · simp only [hG, if_true, true_and, hlater]
  · simp only [hG, if_false, false_and]

/-- The further items of an array are read in order, or up to the first one that is not. -/
theorem foldItems_commas (hbegins : ∀ a ∈ items, BeginsItem (write a))
    (hitem : ∀ state a tail, a ∈ items → EndsNumber tail →
      item state (write a ++ tail) = if Good a then .ok (step state a, tail) else .error fault)
    (hsteps : items.length < steps) :
    foldItems item steps false state (commas (items.map write) ++ ']' :: rest) =
      if ∀ a ∈ items, Good a then .ok (items.foldl step state, rest) else .error fault := by
  induction items generalizing state steps with
  | nil =>
    obtain ⟨more, rfl⟩ := exists_steps hsteps
    rw [if_pos fun a ha => by cases ha]
    rfl
  | cons a items ih =>
    obtain ⟨more, rfl⟩ := exists_steps hsteps
    obtain ⟨⟨c, tail, hwrite, hspace, hclose⟩, hbegins⟩ := List.forall_mem_cons.mp hbegins
    have hnext (text : List Char) : nextItem? false (',' :: (write a ++ text)) =
        .ok (some (write a ++ text)) := by
      rw [hwrite, List.cons_append]
      simp [nextItem?, skipSpace_cons (show isSpace ',' = false by decide), skipSpace_cons hspace,
        hclose]
    have hfirst := hitem state a (commas (items.map write) ++ ']' :: rest) List.mem_cons_self
      (endsNumber_commas (Or.inl rfl) _ rest)
    rw [List.map_cons, commas_cons, List.cons_append, List.append_assoc]
    refine (foldItems_of_next (hnext _) hfirst
      (ih hbegins ?_ (Nat.lt_of_succ_lt_succ hsteps))).trans ?_
    · exact fun state a tail ha => hitem state a tail (List.mem_cons_of_mem _ ha)
    · simp only [List.forall_mem_cons, List.foldl_cons]

/-- All items of an array are read in order, or up to the first one that is not. -/
theorem foldItems_bracketed {inside : List Char} (hbegins : ∀ a ∈ items, BeginsItem (write a))
    (hitem : ∀ state a tail, a ∈ items → EndsNumber tail →
      item state (write a ++ tail) = if Good a then .ok (step state a, tail) else .error fault)
    (hsteps : items.length < steps)
    (hinside : '[' :: inside = bracketed '[' ']' [] (items.map write) ++ rest) :
    foldItems item steps true state inside =
      if ∀ a ∈ items, Good a then .ok (items.foldl step state, rest) else .error fault := by
  obtain ⟨more, rfl⟩ := exists_steps hsteps
  cases items with
  | nil =>
    obtain rfl : inside = ']' :: rest := (List.cons.inj hinside).2
    rw [if_pos fun a ha => by cases ha]
    rfl
  | cons a items =>
    rw [List.map_cons, bracketed, List.cons_append, List.append_assoc, List.append_assoc,
      List.singleton_append] at hinside
    obtain rfl := (List.cons.inj hinside).2
    obtain ⟨⟨c, tail, hwrite, hspace, hclose⟩, hbegins⟩ := List.forall_mem_cons.mp hbegins
    have hnext (text : List Char) :
        nextItem? true (write a ++ text) = .ok (some (write a ++ text)) := by
      rw [hwrite, List.cons_append]
      simp [nextItem?, skipSpace_cons hspace]
    have hfirst := hitem state a (commas (items.map write) ++ ']' :: rest) List.mem_cons_self
      (endsNumber_commas (Or.inl rfl) _ rest)
    have hlater : foldItems item more false (step state a)
        (commas (items.map write) ++ ']' :: rest) =
          if ∀ a ∈ items, Good a then .ok (items.foldl step (step state a), rest)
          else .error fault :=
      foldItems_commas hbegins
        (fun state a tail ha => hitem state a tail (List.mem_cons_of_mem _ ha))
        (Nat.lt_of_succ_lt_succ hsteps)
    rw [foldItems_of_next (hnext _) hfirst hlater]
    simp only [List.forall_mem_cons, List.foldl_cons]

/-- The items of an array are read, or up to the first one that is not. -/
theorem readItems_bracketed {reader : Reader β} {f : α → β} {inside : List Char}
    (hbegins : ∀ a ∈ items, BeginsItem (write a))
    (hread : ∀ a ∈ items, ∀ tail, EndsNumber tail →
      reader (write a ++ tail) = if Good a then .ok (f a, tail) else .error fault)
    (hinside : '[' :: inside = bracketed '[' ']' [] (items.map write) ++ rest) :
    readItems reader inside =
      if ∀ a ∈ items, Good a then .ok (items.map f, rest) else .error fault := by
  have hsteps : items.length < inside.length + 1 := by
    have hcount := (length_bracketed '[' ']' [] (items.map write)).1
    have hlength := congrArg List.length hinside
    rw [List.length_map] at hcount
    rw [List.length_cons, List.length_append] at hlength
    omega
  -- what is read is collected in front, and turned around at the end
  have hitem (read : List β) (a : α) (tail : List Char) (ha : a ∈ items) (htail : EndsNumber tail) :
      (reader (write a ++ tail)).map (Prod.map (· :: read) id) =
        if Good a then .ok (f a :: read, tail) else .error fault := by
    rw [hread a ha tail htail]
    by_cases hgood : Good a
    · rw [if_pos hgood, if_pos hgood]
      rfl
    · rw [if_neg hgood, if_neg hgood]
      rfl
  have hfold : foldItems (fun read s => (reader s).map (Prod.map (· :: read) id))
      (inside.length + 1) true [] inside =
        if ∀ a ∈ items, Good a then .ok (items.foldl (fun read a => f a :: read) [], rest)
        else .error fault :=
    foldItems_bracketed hbegins hitem hsteps hinside
  rw [List.foldl_flip_cons_eq_append, List.append_nil] at hfold
  refine (congrArg (Except.map (Prod.map List.reverse id)) hfold).trans ?_
  by_cases hall : ∀ a ∈ items, Good a
  · rw [if_pos hall, if_pos hall]
    exact congrArg (fun read => Except.ok (read, rest)) (List.reverse_reverse (items.map f))
  · rw [if_neg hall, if_neg hall]
    rfl

/-- If every item is read, so is the array. -/
theorem readItems_of_forall {reader : Reader β} {f : α → β} {inside : List Char}
    (hbegins : ∀ a ∈ items, BeginsItem (write a))
    (hread : ∀ a ∈ items, ∀ tail, EndsNumber tail → reader (write a ++ tail) = .ok (f a, tail))
    (hinside : '[' :: inside = bracketed '[' ']' [] (items.map write) ++ rest) :
    readItems reader inside = .ok (items.map f, rest) := by
  have hall : readItems reader inside =
      if ∀ a ∈ items, (fun _ => True) a then .ok (items.map f, rest)
      else .error (.unfinished .list) :=
    readItems_bracketed hbegins
      (fun a ha tail htail => (hread a ha tail htail).trans (if_pos trivial).symm) hinside
  exact hall.trans (if_pos fun a ha => trivial)

end Items

/-! ### Reading what was written -/

variable {v : Value} {rest : List Char} {room : Nat}

/-- A plain value begins as an item does. -/
theorem Value.Plain.begins (h : v.Plain) : BeginsItem v.write := by
  cases h with
  | null => exact ⟨'n', _, rfl, by decide, by decide⟩
  | bool b =>
    cases b with
    | true => exact ⟨'t', _, rfl, by decide, by decide⟩
    | false => exact ⟨'f', _, rfl, by decide, by decide⟩
  | @integer n _ _ =>
    obtain ⟨c, tail, hwrite, hc⟩ := writeInteger_eq_cons n
    refine ⟨c, tail, hwrite, isSpace_of_number hc, ?_⟩
    rintro rfl
    exact absurd hc (by decide)
  | string s => exact ⟨'"', _, rfl, by decide, by decide⟩
  | @array items _ => exact ⟨'[', _, by rw [Value.write], by decide, by decide⟩
  | @object members _ _ => exact ⟨'{', _, by rw [Value.write], by decide, by decide⟩

variable (held : String → Except ReadError Value) (room : Nat)

/-- What begins as a number is read as one. -/
theorem readValueWith_of_number {c : Char} (hc : (c = '-' || c.isDigit) = true) (rest : List Char) :
    readValueWith held room (c :: rest) = (readNumber (c :: rest)).map fun
      | (.integer n, rest) => (.integer n, rest)
      | (.float x, rest) => (.float x, rest) := by
  have hother {d : Char} (hd : (d = '-' || d.isDigit) = false) : c ≠ d := by
    rintro rfl
    rw [hc] at hd
    cases hd
  unfold readValueWith
  simp only [skipSpace_cons (isSpace_of_number hc)]
  split
  case h_1 heq => cases heq
  case h_2 heq => exact absurd (List.cons.inj heq).1 (hother (by decide))
  case h_3 heq => exact absurd (List.cons.inj heq).1 (hother (by decide))
  case h_4 heq => exact absurd (List.cons.inj heq).1 (hother (by decide))
  case h_5 heq => exact absurd (List.cons.inj heq).1 (hother (by decide))
  case h_6 heq => exact absurd (List.cons.inj heq).1 (hother (by decide))
  case h_7 heq => exact absurd (List.cons.inj heq).1 (hother (by decide))
  case h_8 heq =>
    obtain ⟨rfl, rfl⟩ := List.cons.inj heq
    exact if_pos hc

/-- An integer of sixty-four bits is read as a value. -/
theorem readValueWith_writeInteger {n : Int} (hleast : -(wordLimit / 2 : Nat) ≤ n)
    (hgreatest : n < wordLimit) (hrest : EndsNumber rest) :
    readValueWith held room (writeInteger n ++ rest) = .ok (.integer n, rest) := by
  have hread := readNumber_writeInteger hleast hgreatest hrest
  obtain ⟨c, tail, hwrite, hc⟩ := writeInteger_eq_cons n
  rw [hwrite, List.cons_append] at hread ⊢
  rw [readValueWith_of_number held room hc, hread]
  rfl

/-- An array is read by its items, one level down. -/
theorem readValueWith_array (items : List Value) (rest : List Char) :
    readValueWith held (room + 1) ((Value.array items).write ++ rest) =
      (readItems (readValueWith held room) (Value.writeItems items ++ ']' :: rest)).map
        fun (items, rest) => (.array items, rest) := by
  rw [Value.write, List.cons_append, List.append_assoc, List.singleton_append, readValueWith.eq_def]
  rfl

/-- The first name of an object that was written. -/
theorem afterHolderName?_writeMembers {members : List (String × Value)}
    (hfirst : ∀ m ∈ members.head?, m.1 ≠ holderName) (rest : List Char) :
    afterHolderName? (Value.writeMembers members ++ '}' :: rest) = none := by
  cases members with
  | nil => rfl
  | cons row members =>
    obtain ⟨name, value⟩ := row
    have hname (text : List Char) : nextName? true ('"' :: text) = .ok (.inl text) := rfl
    have hother : name ≠ holderName := hfirst (name, value) rfl
    rw [writeMembers_cons, List.append_assoc, writeString_append]
    simp only [afterHolderName?, hname, readString_flatMap, hother, if_false]

/-- An object that is no holder is read by its members, one level down. -/
theorem readValueWith_object {members : List (String × Value)}
    (hfirst : ∀ m ∈ members.head?, m.1 ≠ holderName) (rest : List Char) :
    readValueWith held (room + 1) ((Value.object members).write ++ rest) =
      (readMembers (readValueWith held room) (Value.writeMembers members ++ '}' :: rest)).map
        fun (members, rest) => (.object members, rest) := by
  have hholder := afterHolderName?_writeMembers hfirst rest
  rw [Value.write, List.cons_append, List.append_assoc, List.singleton_append, readValueWith.eq_def]
  simp only [skipSpace_cons (show isSpace '{' = false by decide), hholder]

/-- A plain value is read back with its members in order if it is nested no deeper than the reader
has room, and refused otherwise. -/
theorem readValueWith_write (h : v.Plain) (hrest : EndsNumber rest) :
    readValueWith held room (v.write ++ rest) =
      if v.depth ≤ room then .ok (v.sorted, rest) else .error (.malformed .nestedTooDeeply) := by
  induction h generalizing room rest with
  | null =>
    rw [Value.depth, if_pos (Nat.zero_le room), Value.write, Value.sorted, readValueWith.eq_def]
    rfl
  | bool b =>
    rw [Value.depth, if_pos (Nat.zero_le room), Value.sorted, readValueWith.eq_def]
    cases b <;> rfl
  | integer hleast hgreatest =>
    rw [Value.depth, if_pos (Nat.zero_le room), Value.write, Value.sorted]
    exact readValueWith_writeInteger held room hleast hgreatest hrest
  | string s =>
    rw [Value.depth, if_pos (Nat.zero_le room), Value.write, Value.sorted, writeString_append,
      readValueWith.eq_def]
    simp only [skipSpace_cons (show isSpace '"' = false by decide), readString_flatMap, Except.map]
  | @array items hitems ih =>
    rw [Value.depth, Value.sorted]
    cases room with
    | zero =>
      rw [if_neg (Nat.not_succ_le_zero _), Value.write, readValueWith.eq_def]
      rfl
    | succ room =>
      have hinside : '[' :: (Value.writeItems items ++ ']' :: rest) =
          bracketed '[' ']' [] (items.map Value.write) ++ rest := by
        rw [← Value.write_array, Value.write]
        simp
      have hdepth : Value.depthItems items + 1 ≤ room + 1 ↔ ∀ v ∈ items, v.depth ≤ room :=
        Nat.succ_le_succ_iff.trans (Value.depthItems_le_iff items)
      rw [readValueWith_array, readItems_bracketed (fun v hv => (hitems v hv).begins)
        (fun v hv tail htail => ih v hv room htail) hinside, Value.sortedItems_eq_map]
      by_cases hfits : ∀ v ∈ items, v.depth ≤ room
      · rw [if_pos hfits, if_pos (hdepth.mpr hfits)]
        rfl
      · rw [if_neg hfits, if_neg (mt hdepth.mp hfits)]
        rfl
  | @object members hfirst hvalues ih =>
    rw [Value.depth, Value.sorted]
    cases room with
    | zero =>
      rw [if_neg (Nat.not_succ_le_zero _), Value.write, readValueWith.eq_def]
      rfl
    | succ room =>
      have hdepth : Value.depthMembers members + 1 ≤ room + 1 ↔ ∀ m ∈ members, m.2.depth ≤ room :=
        Nat.succ_le_succ_iff.trans (Value.depthMembers_le_iff members)
      rw [readValueWith_object held room hfirst,
        readMembers_writeMembers (fun v => v.depth ≤ room)
          fun m hm tail htail => ih m hm room htail,
        Value.sortedMembers_eq_map, List.foldl_map]
      by_cases hfits : ∀ m ∈ members, m.2.depth ≤ room
      · rw [if_pos hfits, if_pos (hdepth.mpr hfits)]
        rfl
      · rw [if_neg hfits, if_neg (mt hdepth.mp hfits)]
        rfl

/-- The text of a plain value is decoded as the value with its members in order, unless it is nested
too deeply. -/
theorem decode_render (h : v.Plain) :
    decode (readValue room) v.render =
      if v.depth ≤ room then .ok v.sorted else .error (.malformed .nestedTooDeeply) := by
  have hread := readValueWith_write (heldValue v.write.length) room h endsNumber_nil
  rw [List.append_nil] at hread
  unfold decode readValue
  rw [toList_render, hread]
  by_cases hfits : v.depth ≤ room
  · simp only [if_pos hfits]
    rfl
  · simp only [if_neg hfits]

/-- The text of a list of strings is decoded as the list. -/
theorem decode_render_strings (texts : List String) :
    decode (readList readText) (Value.array (texts.map .string)).render = .ok texts := by
  have hwrite : (Value.array (texts.map .string)).write =
      bracketed '[' ']' [] (texts.map writeString) := by
    rw [Value.write_array, List.map_map]
    exact congrArg _ (List.map_congr_left fun text _ => by rw [Function.comp_apply, Value.write])
  obtain ⟨inside, hinside⟩ : ∃ inside,
      '[' :: inside = bracketed '[' ']' [] (texts.map writeString) := by
    cases texts <;> exact ⟨_, rfl⟩
  have hbegins (text : String) (_ : text ∈ texts) : BeginsItem (writeString text) :=
    ⟨'"', _, rfl, by decide, by decide⟩
  have hitems : readItems readText inside = .ok (texts.map id, []) :=
    readItems_of_forall hbegins (fun text _ tail _ => readText_writeString text tail)
      (by rw [hinside, List.append_nil])
  refine decode_of_reader ?_
  rw [toList_render, hwrite, ← hinside, readList]
  simp only [skipSpace_cons (show isSpace '[' = false by decide), hitems, List.map_id]

end Json

/-! ### Points -/

namespace Point

open Json

variable {draft : Draft} {steps : Nat} {rest : List Char}

/-- A coordinate is read back. -/
theorem readCoordinate_writeInteger (n : Int32) (hrest : EndsNumber rest) :
    readCoordinate (writeInteger n.toInt ++ rest) = .ok (n, rest) := by
  have hfits : IntegerRange.signed32.Fits := ⟨by decide, by decide⟩
  have hread := readInteger_writeInteger hfits n.minValue_le_toInt n.toInt_le hrest
  rw [readCoordinate, hread]
  simp [Except.map]

/-- The first coordinate is read as a member. -/
theorem readMember_x (hset : draft.x = none) (n : Int32) (hrest : EndsNumber rest) :
    shape.readMember steps draft "x" (':' :: (writeInteger n.toInt ++ rest)) =
      .ok ({ draft with x := some n }, rest) := by
  refine Shape.readMember_of_field rfl (by simp [hset]) ?_
  simp only [readCoordinate_writeInteger n hrest, Except.map]

/-- The second coordinate is read as a member. -/
theorem readMember_y (hset : draft.y = none) (n : Int32) (hrest : EndsNumber rest) :
    shape.readMember steps draft "y" (':' :: (writeInteger n.toInt ++ rest)) =
      .ok ({ draft with y := some n }, rest) := by
  refine Shape.readMember_of_field rfl (by simp [hset]) ?_
  simp only [readCoordinate_writeInteger n hrest, Except.map]

/-- The text of a point is decoded as the point. -/
theorem decode_render (p : Point) : decode shape.read p.toJson.render = .ok p := by
  refine decode_of_reader ?_
  have hwrite : p.toJson.write = '{' :: (writeString "x" ++ ':' :: (writeInteger p.x.toInt ++
      ',' :: (writeString "y" ++ ':' :: (writeInteger p.y.toInt ++ ['}'])))) := by
    simp [toJson, Value.write, Value.writeMembers]
  rw [toList_render, hwrite]
  refine Shape.read_of_foldMembers ⟨some p.x, some p.y⟩ 3 (fun room steps => ?_) ?_ rfl
  · rw [foldMembers_first (readMember_x rfl p.x (endsValue_comma _).endsNumber),
      foldMembers_next (readMember_y rfl p.y (endsValue_brace _).endsNumber)]
    exact foldMembers_close
  · simp only [writeString, List.length_append, List.length_cons]
    omega

end Point

end DurableCache
