import CrossAsm.Proofs.Text.Word
import CrossAsm.Target.Z80

/-! Operands of the Z80 as text: each form is read back with its mode, register and value. -/

namespace CrossAsm.Z80

open Text

variable {scope : Scope}

theorem opens_plain {ch : Char} (opens : Dialect.intel.opens ch = true) :
    startsOperand ch = true ∧ ch.isAlpha = false ∧ ch ≠ '(' := by
  have cases : ch.isDigit = true ∨ ch = '$' := by
    simpa [Dialect.opens, Dialect.locationSymbol] using opens
  rcases cases with digit | rfl
  · exact isDigit_induction (P := fun ch => startsOperand ch = true ∧ ch.isAlpha = false ∧ ch ≠ '(')
      (by decide) digit
  · decide

theorem isWord_words : ∀ reg ∈ words, isWord reg.name = true := by decide

theorem find?_words : ∀ reg ∈ words, words.find? (·.name == reg.name) = some reg := by decide

theorem register?_names {reg : Reg} {text rest : List Char} (member : reg ∈ words)
    (names : Names text reg.name) (stops : Stops isIdentChar rest)
    (unquoted : rest.head? ≠ some '\x27') (pos : Nat) :
    register? ⟨pos, text ++ rest⟩ = some (reg, ⟨pos + utf8Length text, rest⟩) := by
  have word := Cursor.findSome?_names names stops isWord_words pos
  rw [find?_words reg member, Option.map_some] at word
  have plain : (⟨pos + utf8Length text, rest⟩ : Cursor).eat? '\x27' = none := Cursor.eat?_ne unquoted
  simp only [register?, word]
  by_cases af : reg = .af
  · subst af
    simp only [plain]
  · cases reg <;> simp_all

theorem register?_quoted {text : List Char} (names : Names text Reg.af.name) (rest : List Char)
    (pos : Nat) : register? ⟨pos, text ++ '\x27' :: rest⟩ =
      some (.afAlt, ⟨pos + utf8Length text + '\x27'.utf8Size, rest⟩) := by
  have stops : Stops isIdentChar ('\x27' :: rest) := stops_cons.mpr (by decide)
  have word := Cursor.findSome?_names names stops isWord_words pos
  rw [find?_words .af (by decide), Option.map_some] at word
  simp only [register?, word, Cursor.eat?_cons]

theorem register?_not_alpha {ch : Char} (other : ch.isAlpha = false) (rest : List Char) (pos : Nat) :
    register? ⟨pos, ch :: rest⟩ = none := by
  simp only [register?, Cursor.findSome?_not_alpha other isWord_words pos]

theorem not_quote_of_closes {rest : List Char} (closed : Closes rest) : rest.head? ≠ some '\x27' := by
  cases rest with
  | nil => exact nofun
  | cons ch rest =>
    intro same
    obtain rfl : ch = '\x27' := by simpa using same
    exact absurd (closes_cons.mp closed) (by decide)

theorem starts_words : ∀ reg ∈ words, reg.name.toList.head? ≠ some 'X' := by decide

/-- A register or a condition by its name. -/
theorem parses_register {reg : Reg} {text : List Char} (member : reg ∈ words)
    (names : Names text reg.name) :
    machine.ParsesAs scope text { mode := reg.mode, reg := some reg, column := 0 } where
  starts := names.starts (isWord_words reg member) (starts_words reg member)
  parsed pos rest ended := by
    have closed := ended.closes
    have found := register?_names member names closed.stops_ident (not_quote_of_closes closed) pos
    have bare := Cursor.eat?_names names (isWord_words reg member) '(' (by decide) pos rest
    change parseOperand scope ⟨pos, text ++ rest⟩ = _
    simp only [parseOperand, bare, found]
  clean := rfl

theorem parses_alternate {text : List Char} (names : Names text Reg.af.name) :
    machine.ParsesAs scope (text ++ ['\x27'])
      { mode := .afAlt, reg := some .afAlt, column := 0 } where
  starts := by
    have starts := names.starts (isWord_words .af (by decide)) (starts_words .af (by decide))
    cases text with
    | nil => simp at starts
    | cons ch text => simpa using starts
  parsed pos rest ended := by
    have found := register?_quoted names rest pos
    have bare := Cursor.eat?_names names (isWord_words .af (by decide)) '(' (by decide) pos
      ('\x27' :: rest)
    change parseOperand scope ⟨pos, text ++ ['\x27'] ++ rest⟩ = _
    rw [List.append_assoc, List.singleton_append, utf8Length_append]
    simp only [parseOperand, bare, found]
    rfl
  clean := rfl

/-- A register behind the opening parenthesis. -/
theorem parseIndirect_register {reg : Reg} {mode : Mode} {text rest : List Char}
    (member : reg ∈ words) (names : Names text reg.name) (found : indirect? reg = some mode)
    (stops : Stops isIdentChar rest) (unquoted : rest.head? ≠ some '\x27') (column pos : Nat) :
    parseIndirect scope column ⟨pos, text ++ rest⟩ =
      if mode = .indIx ∨ mode = .indIy then
        parseIndexed scope { mode, reg := some reg, column } ⟨pos + utf8Length text, rest⟩
      else Operand.close { mode, column } ')' ⟨pos + utf8Length text, rest⟩ := by
  have read := register?_names member names stops unquoted pos
  have unmoved := Cursor.skipSpaces_names names (isWord_words reg member) pos rest
  simp only [parseIndirect, unmoved, read, found]

theorem close_paren (op : Operand Mode Reg) (pos : Nat) (rest : List Char) :
    op.close ')' ⟨pos, ')' :: rest⟩ = (op, ⟨pos + ')'.utf8Size, rest⟩) :=
  op.close_cons rfl pos rest

theorem parses_memory {reg : Reg} {mode : Mode} {text : List Char} (member : reg ∈ words)
    (names : Names text reg.name) (found : indirect? reg = some mode)
    (plain : ¬(mode = .indIx ∨ mode = .indIy)) :
    machine.ParsesAs scope ('(' :: text ++ [')']) { mode, column := 0 } where
  starts := rfl
  parsed pos rest ended := by
    have stops : Stops isIdentChar (')' :: rest) := stops_cons.mpr (by decide)
    have inner := @parseIndirect_register scope _ _ _ (')' :: rest) member names found stops
      (by simp) pos (pos + '('.utf8Size)
    change parseOperand scope ⟨pos, '(' :: (text ++ [')'] ++ rest)⟩ = _
    rw [List.append_assoc, List.singleton_append]
    simp only [parseOperand, Cursor.eat?_cons, inner, plain, if_false, close_paren]
    simp [utf8Length, utf8Length_append, Nat.add_assoc]
  clean := rfl

/-- The text of a displacement behind an index register: nothing, or a number with its sign. -/
def Displaces (scope : Scope) (tail : List Char) (v : Int) : Prop :=
  tail = [] ∧ v = 0 ∨
    (tail.head? = some '+' ∨ tail.head? = some '-') ∧ scope.Evals tail v ∧ -0x80 ≤ v ∧ v < 0x80

theorem Displaces.stops {tail : List Char} {v : Int} (displaces : Displaces scope tail v)
    {p : Char → Bool} (paren : p ')' = false) (plus : p '+' = false) (minus : p '-' = false)
    (rest : List Char) : Stops p (tail ++ ')' :: rest) := by
  rcases displaces with ⟨rfl, -⟩ | ⟨sign, -⟩
  · exact stops_cons.mpr paren
  · cases tail with
    | nil => simp at sign
    | cons ch tail =>
      rcases (by simpa using sign : ch = '+' ∨ ch = '-') with rfl | rfl
      · exact stops_cons.mpr plus
      · exact stops_cons.mpr minus

theorem parseIndexed_displaces {tail : List Char} {v : Int} (displaces : Displaces scope tail v)
    (mode : Mode) (reg : Reg) (column pos : Nat) (rest : List Char) :
    parseIndexed scope { mode, reg := some reg, column } ⟨pos, tail ++ ')' :: rest⟩ =
      ({ mode, reg := some reg, value := v, column },
        ⟨pos + utf8Length tail + ')'.utf8Size, rest⟩) := by
  have unmoved : (⟨pos, tail ++ ')' :: rest⟩ : Cursor).skipSpaces = ⟨pos, tail ++ ')' :: rest⟩ :=
    Cursor.skipSpaces_stops (displaces.stops rfl rfl rfl rest)
  rcases displaces with ⟨rfl, rfl⟩ | ⟨sign, evals, low, high⟩
  · simp only [parseIndexed, unmoved]
    simp [Cursor.peek?, close_paren, utf8Length]
  · have signed : (⟨pos, tail ++ ')' :: rest⟩ : Cursor).peek? = some '+' ∨
        (⟨pos, tail ++ ')' :: rest⟩ : Cursor).peek? = some '-' := by
      cases tail with
      | nil => simp at sign
      | cons ch tail => simpa [Cursor.peek?] using sign
    have value := Operand.parseValue_evals
      ({ mode, reg := some reg, column } : Operand Mode Reg) evals (by omega) (by omega) pos
      (closes_cons.mpr rfl : Closes (')' :: rest))
    simp only [parseIndexed, unmoved, signed, if_true, value, close_paren]
    rfl

/-- Memory at an index register. -/
theorem parses_indexed {reg : Reg} {mode : Mode} {text tail : List Char} {v : Int}
    (member : reg ∈ words) (names : Names text reg.name) (found : indirect? reg = some mode)
    (index : mode = .indIx ∨ mode = .indIy) (displaces : Displaces scope tail v) :
    machine.ParsesAs scope ('(' :: text ++ tail ++ [')'])
      { mode, reg := some reg, value := v, column := 0 } where
  starts := rfl
  parsed pos rest ended := by
    have stops := displaces.stops (p := isIdentChar) (by decide) (by decide) (by decide) rest
    have unquoted := displaces.stops (p := (· == '\x27')) (by decide) (by decide) (by decide) rest
    have inner := @parseIndirect_register scope _ _ _ (tail ++ ')' :: rest) member names found stops
      (by intro same; simp [Stops, same] at unquoted) pos (pos + '('.utf8Size)
    change parseOperand scope ⟨pos, '(' :: (text ++ tail ++ [')'] ++ rest)⟩ = _
    rw [List.append_assoc, List.append_assoc, List.singleton_append]
    simp only [parseOperand, Cursor.eat?_cons, inner, index, if_true,
      parseIndexed_displaces displaces]
    simp [utf8Length, utf8Length_append, Nat.add_assoc]
  clean := rfl

theorem starts_of_opens (intel : scope.dialect = .intel) {text : List Char}
    (opens : text.head?.any scope.dialect.opens = true) :
    ∃ ch more, text = ch :: more ∧ startsOperand ch = true ∧ ch.isAlpha = false ∧ ch ≠ '(' := by
  cases text with
  | nil => simp at opens
  | cons ch text =>
    rw [intel] at opens
    exact ⟨ch, text, rfl, opens_plain (by simpa using opens)⟩

/-- A number as it stands. -/
theorem parses_number (intel : scope.dialect = .intel) {text : List Char} {v : Int}
    (denotes : scope.Denotes text v) :
    machine.ParsesAs scope text { mode := .imm, value := v, column := 0 } where
  starts := by
    obtain ⟨ch, more, rfl, starts, -⟩ := starts_of_opens intel denotes.opens
    simpa using starts
  parsed pos rest ended := by
    have low := denotes.low
    have value := Operand.parseValue_evals ({ mode := .imm, column := pos } : Operand Mode Reg)
      denotes.evals (by omega) denotes.high pos ended.closes
    obtain ⟨ch, more, rfl, -, other, differs⟩ := starts_of_opens intel denotes.opens
    have bare : (⟨pos, ch :: more ++ rest⟩ : Cursor).eat? '(' = none :=
      Cursor.eat?_ne (by simpa using differs)
    change parseOperand scope ⟨pos, ch :: more ++ rest⟩ = _
    have free := register?_not_alpha other (more ++ rest) pos
    rw [← List.cons_append] at free
    simp only [parseOperand, bare, free, value]
  clean := rfl

/-- Memory or a port at an address. -/
theorem parses_address (intel : scope.dialect = .intel) {text : List Char} {v : Int}
    (denotes : scope.Denotes text v) :
    machine.ParsesAs scope ('(' :: text ++ [')']) { mode := .indAbs, value := v, column := 0 } where
  starts := rfl
  parsed pos rest ended := by
    have low := denotes.low
    have value := Operand.parseValue_evals ({ mode := .indAbs, column := pos } : Operand Mode Reg)
      denotes.evals (by omega) denotes.high (pos + '('.utf8Size)
      (closes_cons.mpr rfl : Closes (')' :: rest))
    obtain ⟨ch, more, rfl, starts, other, -⟩ := starts_of_opens intel denotes.opens
    have free := register?_not_alpha other (more ++ ')' :: rest) (pos + '('.utf8Size)
    have unmoved : (⟨pos + '('.utf8Size, ch :: (more ++ ')' :: rest)⟩ : Cursor).skipSpaces =
        ⟨pos + '('.utf8Size, ch :: (more ++ ')' :: rest)⟩ :=
      Cursor.skipSpaces_stops (stops_cons.mpr (startsOperand_not_space starts))
    change parseOperand scope ⟨pos, '(' :: (ch :: more ++ [')'] ++ rest)⟩ = _
    rw [List.append_assoc, List.singleton_append]
    rw [List.cons_append] at value ⊢
    simp only [parseOperand, Cursor.eat?_cons, parseIndirect, unmoved, free, value, close_paren]
    simp [Operand.hardFault?, utf8Length, utf8Length_append, Nat.add_assoc]
  clean := rfl

end CrossAsm.Z80
