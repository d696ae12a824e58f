import CrossAsm.Proofs.Line
import CrossAsm.Target.M6800

/-! Operands of the 6800 family as text: each form is read back with its mode and value. -/

namespace CrossAsm.M6800

open Text

variable (variant : Variant) {scope : Scope}

theorem opens_plain {ch : Char} (opens : Dialect.motorola.opens ch = true) :
    startsOperand ch = true ∧ ch ≠ '#' ∧ ch ≠ ',' ∧ ch ≠ '<' ∧ ch ≠ '>' := by
  have cases : ch.isDigit = true ∨ ch = '*' ∨ ch = '$' := by
    simpa [Dialect.opens, Dialect.locationSymbol, or_assoc] using opens
  rcases cases with digit | rfl | rfl
  · exact isDigit_induction (P := fun ch => startsOperand ch = true ∧ ch ≠ '#' ∧ ch ≠ ',' ∧
      ch ≠ '<' ∧ ch ≠ '>') (by decide) digit
  · decide
  · decide

/-- No index register follows. -/
theorem indexSuffix?_ended {rest : List Char} (ended : EndsOperand rest) (pos : Nat) :
    indexSuffix? ⟨pos, rest⟩ = none := by
  have unmoved : (⟨pos, rest⟩ : Cursor).skipSpaces = ⟨pos, rest⟩ :=
    Cursor.skipSpaces_stops ended.closes.stops_spaces
  rcases ended with rfl | ⟨ch, more, rfl, starts⟩
  · rfl
  · have spaces (p : Nat) : (⟨p, ch :: more⟩ : Cursor).skipSpaces = ⟨p, ch :: more⟩ :=
      Cursor.skipSpaces_stops (stops_cons.mpr (startsOperand_not_space starts))
    have word (p : Nat) : (⟨p, ch :: more⟩ : Cursor).eatWord? "X" = none := by
      rw [Cursor.eatWord?_eq _ (by simp [isIdentChar, Char.isAlphanum, Char.isAlpha, Char.isUpper])]
      apply if_neg
      intro same
      simp only [startsOperand, Bool.and_eq_true, bne_iff_ne, ne_eq] at starts
      cases ident : isIdentChar ch <;> simp [Cursor.run, ident, starts.2] at same
    simp [indexSuffix?, unmoved, spaces, word]

/-- The index register is read behind an expression. -/
theorem indexSuffix?_x {rest : List Char} (ended : EndsOperand rest) (pos : Nat) :
    indexSuffix? ⟨pos, ',' :: 'X' :: rest⟩ = some ⟨pos + 2, rest⟩ := by
  have comma : (⟨pos, ',' :: 'X' :: rest⟩ : Cursor).skipSpaces = ⟨pos, ',' :: 'X' :: rest⟩ :=
    Cursor.skipSpaces_stops (stops_cons.mpr rfl)
  have letter (p : Nat) : (⟨p, 'X' :: rest⟩ : Cursor).skipSpaces = ⟨p, 'X' :: rest⟩ :=
    Cursor.skipSpaces_stops (stops_cons.mpr rfl)
  have ident : ∀ ch ∈ ['X'], isIdentChar ch = true := by simp [isIdentChar, Char.isAlphanum, Char.isAlpha, Char.isUpper]
  have run (p : Nat) : (⟨p, 'X' :: rest⟩ : Cursor).run isIdentChar = ['X'] :=
    Cursor.run_append p ident ended.closes.stops_ident
  have after (p : Nat) : (⟨p, 'X' :: rest⟩ : Cursor).skipWhile isIdentChar = ⟨p + 1, rest⟩ :=
    Cursor.skipWhile_append p ident ended.closes.stops_ident
  have word (p : Nat) : (⟨p, 'X' :: rest⟩ : Cursor).eatWord? "X" = some ⟨p + 1, rest⟩ := by
    rw [Cursor.eatWord?_eq _ (by simpa using ident), run, after]
    rfl
  simp [indexSuffix?, comma, letter, word]
  rfl

theorem parses_immediate {text : List Char} {v : Int} (denotes : scope.Denotes text v) :
    (machine variant).ParsesAs scope ('#' :: text) { mode := .imm, value := v, column := 0 } where
  starts := rfl
  parsed pos rest ended := by
    have low := denotes.low
    have value := Operand.parseValue_evals ({ mode := .imm, column := pos } : Operand Mode Reg)
      denotes.evals (by omega) denotes.high (pos + '#'.utf8Size) ended.closes
    change parseOperand scope ⟨pos, '#' :: (text ++ rest)⟩ = _
    simp only [parseOperand, Cursor.eat?_cons, value, utf8Length, Nat.add_assoc]
  clean := rfl

/-- Text that begins as a number does not ask for a mode by its first character. -/
theorem parseOperand_opens (motorola : scope.dialect = .motorola) {text : List Char}
    (opens : text.head?.any scope.dialect.opens = true) (pos : Nat) (rest : List Char) :
    parseOperand scope ⟨pos, text ++ rest⟩ =
      match scope.eval ⟨pos, text ++ rest⟩ with
      | .error f =>
        (({ mode := .ext, column := pos } : Operand Mode Reg).failed f, ⟨pos, text ++ rest⟩)
      | .ok (v, after) =>
        match indexSuffix? after with
        | some after => (Operand.withValue { mode := .idx, reg := some .x, column := pos } v, after)
        | none => (addressOperand pos none v, after) := by
  cases text with
  | nil => simp at opens
  | cons ch text =>
    rw [motorola] at opens
    obtain ⟨-, hash, comma, less, greater⟩ := opens_plain (by simpa using opens)
    have other (c : Char) (differs : ch ≠ c) : (⟨pos, ch :: (text ++ rest)⟩ : Cursor).eat? c = none :=
      Cursor.eat?_ne (by simpa using differs)
    have first : (⟨pos, ch :: (text ++ rest)⟩ : Cursor).peek? ≠ some ',' := by
      simpa [Cursor.peek?] using comma
    simp only [List.cons_append, parseOperand, other _ hash, first, if_false, Force.read,
      other _ less, other _ greater] <;> rfl

theorem starts_of_opens (motorola : scope.dialect = .motorola) {text : List Char}
    (opens : text.head?.any scope.dialect.opens = true) :
    text.head?.any startsOperand = true := by
  cases text with
  | nil => simp at opens
  | cons ch text =>
    rw [motorola] at opens
    simpa using (opens_plain (by simpa using opens)).1

/-- An address is direct if it fits a byte. -/
theorem parses_address (motorola : scope.dialect = .motorola) {text : List Char} {v : Int}
    (denotes : scope.Denotes text v) :
    (machine variant).ParsesAs scope text
      { mode := if v < 0x100 then .dir else .ext, value := v, column := 0 } where
  starts := starts_of_opens motorola denotes.opens
  parsed pos rest ended := by
    have low := denotes.low
    have number := denotes.evals pos rest ended.closes
    have known := Scope.toInt_known (by omega) denotes.high
    have short : fitsUnsigned v 8 = decide (v < 0x100) := by
      rw [Bool.eq_iff_iff, fitsUnsigned_iff (by decide), decide_eq_true_eq]
      exact and_iff_right low
    change parseOperand scope ⟨pos, text ++ rest⟩ = _
    rw [parseOperand_opens motorola denotes.opens, number]
    simp only [indexSuffix?_ended ended, addressOperand, Operand.withValue, known, short]
    simp [Value.known]
  clean := rfl

theorem parses_extended {text : List Char} {v : Int}
    (denotes : scope.Denotes text v) :
    (machine variant).ParsesAs scope ('>' :: text)
      { mode := .ext, force := some .long, value := v, column := 0 } where
  starts := rfl
  parsed pos rest ended := by
    have low := denotes.low
    have number := denotes.evals (pos + '>'.utf8Size) rest ended.closes
    have known := Scope.toInt_known (by omega) denotes.high
    have other (c : Char) (differs : '>' ≠ c) : (⟨pos, '>' :: (text ++ rest)⟩ : Cursor).eat? c = none :=
      Cursor.eat?_ne (by simpa using differs)
    have first : (⟨pos, '>' :: (text ++ rest)⟩ : Cursor).peek? ≠ some ',' := by simp [Cursor.peek?]
    change parseOperand scope ⟨pos, '>' :: (text ++ rest)⟩ = _
    simp only [parseOperand, other '#' (by decide), first, if_false, Force.read,
      other '<' (by decide), Cursor.eat?_cons, number, indexSuffix?_ended ended, addressOperand,
      Operand.withValue, known]
    simp [Value.known, utf8Length, Nat.add_assoc]
  clean := rfl

theorem parses_indexed (motorola : scope.dialect = .motorola) {text : List Char} {v : Int}
    (denotes : scope.Denotes text v) :
    (machine variant).ParsesAs scope (text ++ [',', 'X'])
      { mode := .idx, reg := some .x, value := v, column := 0 } where
  starts := by
    have starts := starts_of_opens motorola denotes.opens
    cases text with
    | nil => simp at starts
    | cons ch text => simpa using starts
  parsed pos rest ended := by
    have low := denotes.low
    have closes : Closes (',' :: 'X' :: rest) := closes_cons.mpr rfl
    have number := denotes.evals pos (',' :: 'X' :: rest) closes
    have known := Scope.toInt_known (by omega) denotes.high
    change parseOperand scope ⟨pos, text ++ [',', 'X'] ++ rest⟩ = _
    rw [List.append_assoc]
    change parseOperand scope ⟨pos, text ++ ',' :: 'X' :: rest⟩ = _
    rw [parseOperand_opens motorola denotes.opens, number]
    simp only [indexSuffix?_x ended, Operand.withValue, known]
    simp [Value.known, utf8Length_append, utf8Length, Nat.add_assoc]
    rfl
  clean := rfl

end CrossAsm.M6800
