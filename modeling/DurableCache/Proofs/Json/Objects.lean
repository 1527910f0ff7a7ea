import DurableCache.Proofs.Json.Scalars

/-!
# Objects that are written are read back

A written object is read member by member: the first one behind the opening brace, every other
one behind a comma, and then the closing brace.
-/

namespace DurableCache.Json

variable {δ : Type} {member : δ → String → Reader δ} {state next : δ} {steps : Nat}

/-- A text goes on behind a value with a comma or a closing brace. -/
def EndsValue (rest : List Char) : Prop := ∃ tail, rest = ',' :: tail ∨ rest = '}' :: tail

/-- A value may end where a number may end. -/
theorem EndsValue.endsNumber {rest : List Char} (h : EndsValue rest) : EndsNumber rest := by
  obtain ⟨tail, rfl | rfl⟩ := h
  · intro c hc
    cases hc
    decide
  · intro c hc
    cases hc
    decide

theorem endsValue_comma (tail : List Char) : EndsValue (',' :: tail) := ⟨tail, Or.inl rfl⟩

theorem endsValue_brace (tail : List Char) : EndsValue ('}' :: tail) := ⟨tail, Or.inr rfl⟩

/-- More steps than some number are one step and more. -/
theorem exists_steps {k : Nat} (h : k < steps) : ∃ more, steps = more + 1 := ⟨steps - 1, by omega⟩

/-- A member with its name and what follows its name. -/
theorem foldMembers_of_name {first : Bool} {text name : List Char} {title : String}
    {rest tail : List Char} (hname : nextName? first text = .ok (.inl name))
    (htitle : readString name = .ok (title, rest))
    (hmember : member state title rest = .ok (next, tail)) :
    foldMembers member (steps + 1) first state text =
      foldMembers member steps false next tail := by
  rw [foldMembers, hname]
  simp only [htitle, hmember]

/-- A member and the further ones are read if it is read and they are. -/
theorem foldMembers_of_next {first : Bool} {text name : List Char} {title : String}
    {rest tail left : List Char} {last : δ} {fault : ReadError} {G L : Prop} [Decidable G]
    [Decidable L]
    (hname : nextName? first text = .ok (.inl name)) (htitle : readString name = .ok (title, rest))
    (hmember : member state title rest = if G then .ok (next, tail) else .error fault)
    (hlater : foldMembers member steps false next tail =
      if L then .ok (last, left) else .error fault) :
    foldMembers member (steps + 1) first state text =
      if G ∧ L then .ok (last, left) else .error fault := by
  rw [foldMembers, hname]
  simp only [htitle, hmember]
  by_cases hG : G
  · simp only [hG, if_true, true_and, hlater]
  · simp only [hG, if_false, false_and]

/-- The first member stands behind the opening brace. -/
theorem foldMembers_first {name : String} {rest tail : List Char}
    (hmember : member state name rest = .ok (next, tail)) :
    foldMembers member (steps + 1) true state (writeString name ++ rest) =
      foldMembers member steps false next tail := by
  rw [writeString_append]
  exact foldMembers_of_name rfl (readString_flatMap name rest) hmember

/-- Every other member stands behind a comma. -/
theorem foldMembers_next {name : String} {rest tail : List Char}
    (hmember : member state name rest = .ok (next, tail)) :
    foldMembers member (steps + 1) false state (',' :: (writeString name ++ rest)) =
      foldMembers member steps false next tail := by
  rw [writeString_append]
  exact foldMembers_of_name rfl (readString_flatMap name rest) hmember

/-- The closing brace ends the object. -/
theorem foldMembers_close {first : Bool} {rest : List Char} :
    foldMembers member (steps + 1) first state ('}' :: rest) = .ok (state, rest) := rfl

/-- The members behind the first one, each with its comma. -/
def writeFurther : List (String × Value) → List Char
  | [] => []
  | (name, value) :: rest => ',' :: (writeString name ++ ':' :: (value.write ++ writeFurther rest))

/-- Members are written as the first one and the further ones. -/
theorem writeMembers_cons (name : String) (value : Value) (rest : List (String × Value)) :
    Value.writeMembers ((name, value) :: rest) =
      writeString name ++ ':' :: (value.write ++ writeFurther rest) := by
  induction rest generalizing name value with
  | nil => simp [Value.writeMembers, writeFurther]
  | cons row rest ih =>
    obtain ⟨other, held⟩ := row
    rw [Value.writeMembers, ih other held, writeFurther]
    simp

/-- Further members end a value in front of them, and so does the brace behind them. -/
theorem endsValue_writeFurther (members : List (String × Value)) (rest : List Char) :
    EndsValue (writeFurther members ++ '}' :: rest) := by
  cases members with
  | nil => exact endsValue_brace rest
  | cons row members => exact endsValue_comma _

/-- No member is written without a character. -/
theorem length_le_writeFurther (members : List (String × Value)) :
    members.length ≤ (writeFurther members).length := by
  induction members with
  | nil => exact Nat.le_refl 0
  | cons row members ih =>
    simp only [writeFurther, List.length_cons, List.length_append]
    omega

variable {step : δ → String × Value → δ} {Good : String × Value → Prop} [DecidablePred Good]
variable {fault : ReadError} {members : List (String × Value)} {rest : List Char}

/-- The further members of an object are read in order, or up to the first one that is not. -/
theorem foldMembers_writeFurther
    (hmember : ∀ state row tail, row ∈ members → EndsValue tail →
      member state row.1 (':' :: (row.2.write ++ tail)) =
        if Good row then .ok (step state row, tail) else .error fault)
    (hsteps : members.length < steps) :
    foldMembers member steps false state (writeFurther members ++ '}' :: rest) =
      if ∀ row ∈ members, Good row then .ok (members.foldl step state, rest) else .error fault := by
  induction members generalizing state steps with
  | nil =>
    obtain ⟨more, rfl⟩ := exists_steps hsteps
    rw [if_pos fun row hrow => by cases hrow]
    exact foldMembers_close
  | cons row members ih =>
    obtain ⟨more, rfl⟩ := exists_steps hsteps
    obtain ⟨name, value⟩ := row
    have hfirst := hmember state (name, value) (writeFurther members ++ '}' :: rest)
      List.mem_cons_self (endsValue_writeFurther members rest)
    have htext : writeFurther ((name, value) :: members) ++ '}' :: rest =
        ',' :: (writeString name ++
          ':' :: (value.write ++ (writeFurther members ++ '}' :: rest))) := by simp [writeFurther]
    rw [htext, writeString_append]
    refine (foldMembers_of_next rfl (readString_flatMap name _) hfirst
      (ih ?_ (Nat.lt_of_succ_lt_succ hsteps))).trans ?_
    · exact fun state row tail hrow => hmember state row tail (List.mem_cons_of_mem _ hrow)
    · simp only [List.forall_mem_cons, List.foldl_cons]

/-- All members of an object are read in order, or up to the first one that is not. -/
theorem foldMembers_writeMembers
    (hmember : ∀ state row tail, row ∈ members → EndsValue tail →
      member state row.1 (':' :: (row.2.write ++ tail)) =
        if Good row then .ok (step state row, tail) else .error fault)
    (hsteps : members.length < steps) :
    foldMembers member steps true state (Value.writeMembers members ++ '}' :: rest) =
      if ∀ row ∈ members, Good row then .ok (members.foldl step state, rest) else .error fault := by
  obtain ⟨more, rfl⟩ := exists_steps hsteps
  cases members with
  | nil =>
    rw [if_pos fun row hrow => by cases hrow]
    exact foldMembers_close
  | cons row members =>
    obtain ⟨name, value⟩ := row
    have hfirst := hmember state (name, value) (writeFurther members ++ '}' :: rest)
      List.mem_cons_self (endsValue_writeFurther members rest)
    have hlater : foldMembers member more false (step state (name, value))
        (writeFurther members ++ '}' :: rest) =
          if ∀ row ∈ members, Good row then
            .ok (members.foldl step (step state (name, value)), rest)
          else .error fault :=
      foldMembers_writeFurther
        (fun state row tail hrow => hmember state row tail (List.mem_cons_of_mem _ hrow))
        (Nat.lt_of_succ_lt_succ hsteps)
    rw [writeMembers_cons, List.append_assoc, List.cons_append, List.append_assoc,
      writeString_append, foldMembers_of_next rfl (readString_flatMap name _) hfirst hlater]
    simp only [List.forall_mem_cons, List.foldl_cons]

/-- The members of an object are fewer than their characters. -/
theorem length_lt_writeMembers (members : List (String × Value)) (rest : List Char) :
    members.length < (Value.writeMembers members ++ '}' :: rest).length + 1 := by
  cases members with
  | nil => simp
  | cons row members =>
    obtain ⟨name, value⟩ := row
    have hfurther := length_le_writeFurther members
    rw [writeMembers_cons]
    simp only [List.length_append, List.length_cons]
    omega

/-- A colon is read in front of a value. -/
theorem readColon_cons (rest : List Char) : readColon (':' :: rest) = .ok rest := rfl

variable {α : Type} {reader : Reader α} {f : Value → α}

/-- The values of an object are read under their names, or up to the first one that is not. -/
theorem readMembers_writeMembers (Fine : Value → Prop) [DecidablePred Fine]
    (hread : ∀ row ∈ members, ∀ tail, EndsNumber tail →
      reader (row.2.write ++ tail) = if Fine row.2 then .ok (f row.2, tail) else .error fault) :
    readMembers reader (Value.writeMembers members ++ '}' :: rest) =
      if ∀ row ∈ members, Fine row.2 then
        .ok (members.foldl (fun rows row => Rows.insert row.1 (f row.2) rows) [], rest)
      else .error fault := by
  refine foldMembers_writeMembers (fun rows row tail hrow htail => ?_)
    (length_lt_writeMembers members rest)
  have hvalue := hread row hrow tail htail.endsNumber
  simp only [readMember, readColon_cons, hvalue]
  by_cases hfine : Fine row.2
  · simp only [hfine, if_true, Except.map]
  · simp only [hfine, if_false, Except.map]

/-- If every value is read, the values of an object are read under their names. -/
theorem readMembers_of_forall
    (hread : ∀ row ∈ members, ∀ tail, EndsNumber tail →
      reader (row.2.write ++ tail) = .ok (f row.2, tail)) :
    readMembers reader (Value.writeMembers members ++ '}' :: rest) =
      .ok (members.foldl (fun rows row => Rows.insert row.1 (f row.2) rows) [], rest) := by
  have hall : readMembers reader (Value.writeMembers members ++ '}' :: rest) =
      if ∀ row ∈ members, True then
        .ok (members.foldl (fun rows row => Rows.insert row.1 (f row.2) rows) [], rest)
      else .error (.unfinished .object) :=
    readMembers_writeMembers (fun _ => True) fun row hrow tail htail =>
      (hread row hrow tail htail).trans (if_pos trivial).symm
  exact hall.trans (if_pos fun row hrow => trivial)

end DurableCache.Json
