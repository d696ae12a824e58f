import CrossAsm.Proofs.Text.Word
import CrossAsm.Target.Ns32000

/-! Operands of the NS32000 as text: each form is read back with its mode, register, value and
index. -/

namespace CrossAsm.Ns32000

open Text

variable {scope : Scope}

/-! ### Registers -/

theorem isWord_name (reg : Reg) : isWord reg.name = true := by cases reg <;> decide

theorem register?_names {reg : Reg} {text rest : List Char} (names : Names text reg.name)
    (stops : Stops isIdentChar rest) (pos : Nat) :
    register? ⟨pos, text ++ rest⟩ = some (reg, ⟨pos + utf8Length text, rest⟩) := by
  have search : (general ++ spaces).find? (·.name == reg.name) = some reg := by
    cases reg <;> decide
  have word := @Cursor.findSome?_names _ (general ++ spaces) Reg.name _ _ _ names stops
    (fun reg _ => isWord_name reg) pos
  rwa [search, Option.map_some] at word

theorem register?_not_alpha {ch : Char} (other : ch.isAlpha = false) (rest : List Char)
    (pos : Nat) : register? ⟨pos, ch :: rest⟩ = none :=
  Cursor.findSome?_not_alpha other (fun reg _ => isWord_name reg) pos

theorem generalRegister_names {reg : Reg} {text rest : List Char} (names : Names text reg.name)
    (general : reg.isGeneral = true) (stops : Stops isIdentChar rest) (pos : Nat) :
    generalRegister ⟨pos, text ++ rest⟩ = (some reg, ⟨pos + utf8Length text, rest⟩) := by
  simp only [generalRegister, register?_names names stops pos, general, if_true]

/-! ### Register lists -/

/-- The list of some registers. -/
def listOf (regs : List Reg) : BitVec 8 :=
  regs.foldr (fun reg list => BitVec.ofNat 8 (twoPow reg.number) ||| list) 0

/-- The registers of a list in order. -/
def members (list : BitVec 8) : List Reg := general.filter fun reg => list.getLsbD reg.number

theorem listOf_members (list : BitVec 8) : listOf (members list) = list := by
  revert list
  decide +kernel

theorem getLsbD_single : ∀ a ∈ general, ∀ b ∈ general, a ≠ b →
    (BitVec.ofNat 8 (twoPow a.number)).getLsbD b.number = false := by decide

theorem isGeneral_of_mem {reg : Reg} (member : reg ∈ general) : reg.isGeneral = true := by
  simpa [Reg.isGeneral] using member

/-- Registers that differ are read up to the closing bracket and added to the list. -/
theorem parseRegisters_names {texts : List (List Char)} {regs : List Reg}
    (names : List.Forall₂ (fun text (reg : Reg) => Names text reg.name) texts regs)
    (nonempty : texts ≠ []) (among : ∀ reg ∈ regs, reg ∈ general) (apart : regs.Nodup)
    {op : Operand Mode Reg} (fresh : ∀ reg ∈ regs, op.list.getLsbD reg.number = false)
    {fuel : Nat} (enough : texts.length ≤ fuel) (pos : Nat) (rest : List Char) :
    parseRegisters op fuel ⟨pos, Machine.commaJoined texts ++ ']' :: rest⟩ =
      ({ op with list := op.list ||| listOf regs },
        ⟨pos + utf8Length (Machine.commaJoined texts) + 1, rest⟩) := by
  induction names generalizing op fuel pos with
  | nil => exact absurd rfl nonempty
  | @cons text reg texts regs first others ih =>
    obtain ⟨fuel, rfl⟩ : ∃ more, fuel = more + 1 := ⟨fuel - 1, by simp at enough; omega⟩
    have member := among reg (by simp)
    have own := fresh reg (by simp)
    have unmoved (tail : List Char) := Cursor.skipSpaces_names first (isWord_name reg) pos tail
    have found (tail : List Char) (stops : Stops isIdentChar tail) :=
      generalRegister_names first (isGeneral_of_mem member) stops pos
    have solid (p : Nat) (ch : Char) (tail : List Char) (bare : (ch == ' ' || ch == '\t') = false) :
        (⟨p, ch :: tail⟩ : Cursor).skipSpaces = ⟨p, ch :: tail⟩ :=
      Cursor.skipSpaces_stops (stops_cons.mpr bare)
    cases texts with
    | nil =>
      cases others
      simp only [Machine.commaJoined, parseRegisters, unmoved,
        found (']' :: rest) (stops_cons.mpr (by decide)), own, Bool.false_eq_true, if_false,
        solid _ ']' rest rfl, Cursor.eat?_cons]
      simp [listOf, Char.utf8Size]
    | cons next texts =>
      have later := @ih (by simp) (fun reg member => among reg (by simp [member]))
        (List.nodup_cons.mp apart).2
        { op with list := op.list ||| BitVec.ofNat 8 (twoPow reg.number) }
        (fun other member => by
          have differs : reg ≠ other := by
            rintro rfl
            exact (List.nodup_cons.mp apart).1 member
          simp [fresh other (by simp [member]),
            getLsbD_single reg (among reg (by simp)) other (among other (by simp [member])) differs])
        fuel (by simpa using enough) (pos + utf8Length text + ','.utf8Size)
      have open? (p : Nat) (tail : List Char) : (⟨p, ',' :: tail⟩ : Cursor).eat? ']' = none :=
        Cursor.eat?_ne (by simp)
      simp only [Machine.commaJoined, List.append_assoc, List.cons_append, parseRegisters, unmoved,
        found (',' :: _) (stops_cons.mpr (by decide)), own, Bool.false_eq_true, if_false,
        solid _ ',' _ rfl, Cursor.eat?_cons, open?, later]
      simp [listOf, BitVec.or_assoc, utf8Length, utf8Length_append, Nat.add_assoc]

/-- A register list is read back. -/
theorem parses_list {texts : List (List Char)} {list : BitVec 8}
    (names : List.Forall₂ (fun text (reg : Reg) => Names text reg.name) texts (members list)) :
    machine.ParsesAs scope ('[' :: Machine.commaJoined texts ++ [']'])
      { mode := .regList, list, column := 0 } where
  starts := rfl
  parsed pos rest _ := by
    change parseOperand scope ⟨pos, '[' :: (Machine.commaJoined texts ++ [']'] ++ rest)⟩ = _
    rw [List.append_assoc, List.singleton_append]
    simp only [parseOperand, Cursor.eat?_cons, parseList]
    have whole := listOf_members list
    cases texts with
    | nil =>
      have none : members list = [] := by
        cases shape : members list with
        | nil => rfl
        | cons reg regs => simp [shape] at names
      rw [none] at whole
      simp only [Machine.commaJoined, List.nil_append]
      rw [Cursor.skipSpaces_stops (stops_cons.mpr (by decide)), Cursor.eat?_cons, ← whole]
      rfl
    | cons text texts =>
      have count : (text :: texts).length ≤ 9 := by
        rw [names.length_eq]
        exact (List.length_filter_le _ _).trans (by decide)
      have read := @parseRegisters_names _ _ names (by simp)
        (fun reg member => List.mem_of_mem_filter member) (List.Nodup.filter _ (by decide))
        { mode := .regList, column := pos } (fun reg _ => by simp) 9 count (pos + '['.utf8Size) rest
      obtain ⟨reg, regs, shape⟩ : ∃ reg regs, members list = reg :: regs := by
        cases shape : members list with
        | nil => simp [shape] at names
        | cons reg regs => exact ⟨reg, regs, rfl⟩
      have first : Names text reg.name := by
        rw [shape] at names
        cases names with
        | cons first _ => exact first
      obtain ⟨tail, joined⟩ : ∃ tail, Machine.commaJoined (text :: texts) ++ ']' :: rest =
          text ++ tail := by
        cases texts with
        | nil => exact ⟨_, rfl⟩
        | cons next texts => exact ⟨_, List.append_assoc _ _ _⟩
      have open? : (⟨pos + '['.utf8Size, text ++ tail⟩ : Cursor).eat? ']' = none :=
        Cursor.eat?_names first (isWord_name reg) ']' (by decide) _ _
      rw [joined] at read
      rw [joined, Cursor.skipSpaces_names first (isWord_name reg), open?, read, whole]
      simp [utf8Length, utf8Length_append, Nat.add_assoc, Char.utf8Size]
  clean := rfl

theorem parses_formatList (r : Rendering) (list : BitVec 8) :
    machine.ParsesAs r.scope
      (formatOperand r { mode := .regList, list, column := 0 }).toList
      { mode := .regList, list, column := 0 } := by
  have names : List.Forall₂ (fun text (reg : Reg) => Names text reg.name)
      (((members list).map fun reg => r.case reg.name).map String.toList) (members list) := by
    rw [List.map_map, List.forall₂_map_left_iff, List.forall₂_same]
    exact fun reg _ => r.names_case (isWord_name reg)
  have text : (formatOperand r { mode := .regList, list, column := 0 }).toList = '[' ::
      Machine.commaJoined (((members list).map fun reg => r.case reg.name).map String.toList) ++
        [']'] := by
    simp only [formatOperand, formatList, String.toList_append, Machine.toList_intercalate_comma,
      members]
    rfl
  rw [text]
  exact parses_list names

/-! ### Operands without an index -/

/-- The operand ends here, or its index follows. -/
def EndsPlain (rest : List Char) : Prop := EndsOperand rest ∨ ∃ more, rest = '[' :: more

theorem EndsPlain.closes {rest : List Char} (ended : EndsPlain rest) : Closes rest := by
  rcases ended with ended | ⟨more, rfl⟩
  · exact ended.closes
  · exact closes_cons.mpr rfl

theorem EndsPlain.not_paren {rest : List Char} (ended : EndsPlain rest) : rest.head? ≠ some '(' := by
  rcases ended with (rfl | ⟨ch, more, rfl, -⟩) | ⟨more, rfl⟩ <;> simp

/-- The text is read as the operand where it ends or an index follows. -/
structure ParsesPlain (scope : Scope) (text : List Char) (op : Operand Mode Reg) : Prop where
  starts : text.head?.any startsOperand = true
  unlisted : text.head? ≠ some '['
  parsed : ∀ pos rest, EndsPlain rest → parsePlain scope ⟨pos, text ++ rest⟩ =
    ({ op with column := pos }, ⟨pos + utf8Length text, rest⟩)
  clean : op.fault = none

namespace ParsesPlain

variable {text : List Char} {op : Operand Mode Reg} (plain : ParsesPlain scope text op)

include plain

theorem exists_cons : ∃ ch more, text = ch :: more ∧ ch ≠ '[' := by
  have starts := plain.starts
  have unlisted := plain.unlisted
  cases text with
  | nil => simp at starts
  | cons ch more => exact ⟨ch, more, rfl, by simpa using unlisted⟩

theorem parseOperand_eq (pos : Nat) {rest : List Char} (ended : EndsPlain rest) :
    parseOperand scope ⟨pos, text ++ rest⟩ =
      match (⟨pos + utf8Length text, rest⟩ : Cursor).eat? '[' with
      | some after => parseScaled { op with column := pos } after
      | none => ({ op with column := pos }, ⟨pos + utf8Length text, rest⟩) := by
  obtain ⟨ch, more, shape, other⟩ := plain.exists_cons
  have bare : (⟨pos, text ++ rest⟩ : Cursor).eat? '[' = none :=
    Cursor.eat?_ne (by simpa [shape] using other)
  have unmoved : (⟨pos + utf8Length text, rest⟩ : Cursor).skipSpaces =
      ⟨pos + utf8Length text, rest⟩ := Cursor.skipSpaces_stops ended.closes.stops_spaces
  have soft : Operand.hardFault? { op with column := pos } = none := by
    simp [Operand.hardFault?, plain.clean]
  cases index : (⟨pos + utf8Length text, rest⟩ : Cursor).eat? '[' <;>
    simp only [parseOperand, bare, plain.parsed pos rest ended, soft, Option.isSome_none,
      Bool.false_eq_true, if_false, unmoved, index]

/-- Without an index the operand stands for itself. -/
theorem parses : machine.ParsesAs scope text op where
  starts := plain.starts
  parsed pos rest ended := by
    have bare : (⟨pos + utf8Length text, rest⟩ : Cursor).eat? '[' = none := by
      apply Cursor.eat?_ne
      rcases ended with rfl | ⟨ch, more, rfl, -⟩ <;> simp
    have whole := plain.parseOperand_eq pos (.inl ended)
    rwa [bare] at whole
  clean := plain.clean

theorem moved (column : Nat) : ParsesPlain scope text { op with column } :=
  ⟨plain.starts, plain.unlisted, plain.parsed, plain.clean⟩

end ParsesPlain

theorem isWord_scaleLetter (size : Size) : isWord (scaleLetter size) = true := by
  cases size <;> decide

theorem scale?_names {letter : List Char} {size : Size} {code : Nat}
    (known : scaleCode? size = some code) (names : Names letter (scaleLetter size)) :
    scale? (String.ofList letter) = some size := by
  have upper : Text.upper (String.ofList letter) = scaleLetter size := by
    rw [Text.upper, String.toList_ofList, names.upper, String.ofList_toList]
  rw [scale?, upper]
  cases size <;> first | rfl | simp [scaleCode?] at known

/-- An index behind the operand. -/
theorem ParsesPlain.parses_scaled {text name letter : List Char} {op : Operand Mode Reg}
    (parses : ParsesPlain scope text op) {index : Reg} {size : Size} {code : Nat}
    (general : index.isGeneral = true) (named : Names name index.name)
    (known : scaleCode? size = some code) (sized : Names letter (scaleLetter size)) :
    machine.ParsesAs scope (text ++ '[' :: name ++ ':' :: letter ++ [']'])
      { op with index := some index, indexSize := size } where
  starts := by
    obtain ⟨ch, more, rfl, -⟩ := parses.exists_cons
    simpa using parses.starts
  parsed pos rest _ := by
    have solid (p : Nat) (ch : Char) (tail : List Char) (bare : (ch == ' ' || ch == '\t') = false) :
        (⟨p, ch :: tail⟩ : Cursor).skipSpaces = ⟨p, ch :: tail⟩ :=
      Cursor.skipSpaces_stops (stops_cons.mpr bare)
    have ended : EndsPlain ('[' :: (name ++ ':' :: (letter ++ ']' :: rest))) := .inr ⟨_, rfl⟩
    have whole := parses.parseOperand_eq pos ended
    have unmoved (p : Nat) (tail : List Char) := Cursor.skipSpaces_names named (isWord_name index) p tail
    have colon (tail : List Char) : Stops isIdentChar (':' :: tail) := stops_cons.mpr (by decide)
    have bracket : Stops isIdentChar (']' :: rest) := stops_cons.mpr (by decide)
    have register (p : Nat) (tail : List Char) := generalRegister_names named general (colon tail) p
    have still (p : Nat) (tail : List Char) :=
      Cursor.skipSpaces_names sized (isWord_scaleLetter size) p tail
    have word (p : Nat) := Cursor.ident?_names sized (isWord_scaleLetter size) bracket p
    change parseOperand scope ⟨pos, text ++ '[' :: name ++ ':' :: letter ++ [']'] ++ rest⟩ = _
    simp only [List.append_assoc, List.cons_append, List.nil_append]
    rw [whole, Cursor.eat?_cons]
    simp only [parseScaled, unmoved, register, solid _ ':' _ rfl, Cursor.eat?_cons, still, word,
      scale?_names known sized, solid _ ']' _ rfl]
    simp [utf8Length, utf8Length_append, Nat.add_assoc]
  clean := parses.clean

/-- The top of the stack. -/
theorem parses_top {text : List Char} (names : Names text "TOS") :
    ParsesPlain scope text { mode := .tos, column := 0 } where
  starts := names.starts (by decide) (by decide)
  unlisted := by
    obtain ⟨ch, more, rfl, ident, -⟩ := names.exists_cons (by decide)
    rintro same
    obtain rfl : ch = '[' := by simpa using same
    exact absurd ident (by decide)
  parsed pos rest ended := by
    have top : isWord "TOS" = true := by decide
    have word := Cursor.eatWord?_names names ended.closes.stops_ident top pos
    simp only [parsePlain, word, beq_self_eq_true, if_true]
  clean := rfl

/-- A general register. -/
theorem parses_register {reg : Reg} {text : List Char} (general : reg.isGeneral = true)
    (names : Names text reg.name) :
    ParsesPlain scope text { mode := .reg, reg := some reg, column := 0 } where
  starts := names.starts (isWord_name reg) (by cases reg <;> decide)
  unlisted := by
    obtain ⟨ch, more, rfl, ident, -⟩ := names.exists_cons (isWord_name reg)
    rintro same
    obtain rfl : ch = '[' := by simpa using same
    exact absurd ident (by decide)
  parsed pos rest ended := by
    have stops := ended.closes.stops_ident
    have other : ("TOS" == reg.name) = false := by cases reg <;> decide
    have top : isWord "TOS" = true := by decide
    have word := Cursor.eatWord?_names names stops top pos
    rw [other, if_neg (by decide)] at word
    simp only [parsePlain, word, register?_names names stops, general, if_true]
  clean := rfl

/-! ### Operands that start with an expression -/

/-- A character that a number with its sign begins with. -/
def opensSigned (ch : Char) : Bool := ch.isDigit || ch == '*' || ch == '-'

theorem opensSigned_plain {ch : Char} (opens : opensSigned ch = true) :
    startsOperand ch = true ∧ ch.isAlpha = false ∧ ch ∉ ['[', '@', '<', '>'] := by
  have cases : ch.isDigit = true ∨ ch = '*' ∨ ch = '-' := by
    simpa [opensSigned, or_assoc] using opens
  rcases cases with digit | rfl | rfl
  · exact isDigit_induction
      (P := fun ch => startsOperand ch = true ∧ ch.isAlpha = false ∧ ch ∉ ['[', '@', '<', '>'])
      (by decide) digit
  · decide
  · decide

/-- The text stands for a number and begins as numbers with a sign do. -/
structure Signed (scope : Scope) (text : List Char) (v : Int) : Prop where
  evals : scope.Evals text v
  opens : text.head?.any opensSigned = true
  low : -0x80000000 ≤ v
  high : v < 0x100000000

theorem Signed.exists_cons {text : List Char} {v : Int} (signed : Signed scope text v) :
    ∃ ch more, text = ch :: more ∧ opensSigned ch = true := by
  have opens := signed.opens
  cases text with
  | nil => simp at opens
  | cons ch more => exact ⟨ch, more, rfl, by simpa using opens⟩

theorem signed_of_denotes (national : scope.dialect = .national) {text : List Char} {v : Int}
    (denotes : scope.Denotes text v) : Signed scope text v := by
  have low := denotes.low
  refine ⟨denotes.evals, ?_, by omega, denotes.high⟩
  have opens := denotes.opens
  cases text with
  | nil => simp at opens
  | cons ch more =>
    have cases : ch.isDigit = true ∨ ch = '*' := by
      simpa [national, Dialect.opens, Dialect.locationSymbol] using opens
    rcases cases with digit | rfl <;> simp_all [opensSigned]

theorem signed_num {r : Rendering} (national : r.config.dialect = .national) {v : Int}
    (low : -0x80000000 ≤ v) (high : v < 0x100000000) : Signed r.scope (r.num v).toList v := by
  by_cases negative : v < 0
  · refine ⟨r.evals_num low high, ?_, low, high⟩
    rw [Rendering.num, r.config.dialect.signed_neg negative]
    simp [opensSigned]
  · exact signed_of_denotes national (r.denotes_num (by omega) high)

theorem force_read_none {pos : Nat} {ch : Char} {rest : List Char} (short : ch ≠ '<')
    (long : ch ≠ '>') : Force.read ⟨pos, ch :: rest⟩ = (none, ⟨pos, ch :: rest⟩) := by
  have low : (⟨pos, ch :: rest⟩ : Cursor).eat? '<' = none := Cursor.eat?_ne (by simpa using short)
  have high : (⟨pos, ch :: rest⟩ : Cursor).eat? '>' = none := Cursor.eat?_ne (by simpa using long)
  simp only [Force.read, low, high]

theorem parsePlain_address {ch : Char} (other : ch.isAlpha = false) (rest : List Char) (pos : Nat) :
    parsePlain scope ⟨pos, ch :: rest⟩ = parseAddress scope pos ⟨pos, ch :: rest⟩ := by
  simp only [parsePlain, Cursor.eatWord?_not_alpha other (show isWord "TOS" = true by decide) pos,
    register?_not_alpha other rest pos]

/-- An expression at the beginning of an operand. -/
theorem parseAddress_signed {text : List Char} {v : Int} (signed : Signed scope text v)
    (column pos : Nat) {rest : List Char} (closed : Closes rest) :
    parseAddress scope column ⟨pos, text ++ rest⟩ =
      match (⟨pos + utf8Length text, rest⟩ : Cursor).eat? '(' with
      | some after =>
        parseBase { mode := .imm, column } (.known (Int64.ofInt v)) after
      | none => ({ mode := .imm, value := v, column }, ⟨pos + utf8Length text, rest⟩) := by
  have evals := signed.evals pos rest closed
  have known := Operand.withValue_known ({ mode := .imm, column } : Operand Mode Reg) signed.low
    signed.high
  have unmoved : (⟨pos + utf8Length text, rest⟩ : Cursor).skipSpaces =
      ⟨pos + utf8Length text, rest⟩ := Cursor.skipSpaces_stops closed.stops_spaces
  obtain ⟨ch, more, rfl, opens⟩ := signed.exists_cons
  obtain ⟨-, -, apart⟩ := opensSigned_plain opens
  simp only [List.mem_cons, List.not_mem_nil, or_false, not_or] at apart
  have relative : (⟨pos, ch :: (more ++ rest)⟩ : Cursor).eat? '@' = none :=
    Cursor.eat?_ne (by simpa using apart.2.1)
  have unforced : Force.read ⟨pos, ch :: (more ++ rest)⟩ = (none, ⟨pos, ch :: (more ++ rest)⟩) :=
    force_read_none apart.2.2.1 apart.2.2.2
  rw [List.cons_append] at evals ⊢
  cases based : (⟨pos + utf8Length (ch :: more), rest⟩ : Cursor).eat? '(' <;>
    simp only [parseAddress, relative, unforced, evals, Bool.false_eq_true, if_false, unmoved, known,
      based]

/-- A number as it stands. -/
theorem parses_number {text : List Char} {v : Int} (signed : Signed scope text v) :
    ParsesPlain scope text { mode := .imm, value := v, column := 0 } := by
  obtain ⟨ch, more, shape, opens⟩ := signed.exists_cons
  obtain ⟨starts, other, apart⟩ := opensSigned_plain opens
  refine ⟨by simpa [shape] using starts, ?_, fun pos rest ended => ?_, rfl⟩
  · simp only [List.mem_cons, not_or] at apart
    simpa [shape] using apart.1
  · have plain : (⟨pos + utf8Length text, rest⟩ : Cursor).eat? '(' = none :=
      Cursor.eat?_ne ended.not_paren
    have read := parseAddress_signed signed pos pos ended.closes
    rw [plain] at read
    rw [shape, List.cons_append] at read ⊢
    rw [parsePlain_address other, read]

/-- A displacement from a register. -/
theorem parses_based {text name : List Char} {v : Int} (signed : Signed scope text v) {reg : Reg}
    (names : Names name reg.name) :
    ParsesPlain scope (text ++ '(' :: name ++ [')'])
      { mode := if reg.isGeneral then .regRel else .space, value := v, reg := some reg,
        column := 0 } := by
  obtain ⟨ch, more, shape, opens⟩ := signed.exists_cons
  obtain ⟨starts, other, apart⟩ := opensSigned_plain opens
  refine ⟨by simpa [shape] using starts, ?_, fun pos rest ended => ?_, rfl⟩
  · simp only [List.mem_cons, not_or] at apart
    simpa [shape] using apart.1
  · have read := parseAddress_signed signed pos pos
      (closes_cons.mpr rfl : Closes ('(' :: (name ++ ')' :: rest)))
    have unmoved (p : Nat) := Cursor.skipSpaces_names names (isWord_name reg) p (')' :: rest)
    have paren : Stops isIdentChar (')' :: rest) := stops_cons.mpr (by decide)
    have found (p : Nat) := register?_names names paren p
    have closing (p : Nat) : (⟨p, ')' :: rest⟩ : Cursor).skipSpaces = ⟨p, ')' :: rest⟩ :=
      Cursor.skipSpaces_stops (stops_cons.mpr (by decide))
    have known := Operand.withValue_known
      ({ mode := if reg.isGeneral then .regRel else .space, reg := some reg, column := pos } :
        Operand Mode Reg) signed.low signed.high
    rw [Cursor.eat?_cons] at read
    simp only [parseBase, unmoved, found, closing, Cursor.eat?_cons, known] at read
    simp only [List.append_assoc, List.cons_append, List.nil_append]
    rw [shape, List.cons_append] at read ⊢
    rw [parsePlain_address other, read]
    simp [utf8Length, utf8Length_append, Nat.add_assoc]

/-- Memory at an address. -/
theorem parses_absolute {text : List Char} {v : Int} (signed : Signed scope text v) :
    ParsesPlain scope ('@' :: text) { mode := .abs, value := v, column := 0 } where
  starts := rfl
  unlisted := by simp
  parsed pos rest ended := by
    have evals := signed.evals (pos + '@'.utf8Size) rest ended.closes
    have known := Operand.withValue_known ({ mode := .abs, column := pos } : Operand Mode Reg)
      signed.low signed.high
    obtain ⟨ch, more, rfl, opens⟩ := signed.exists_cons
    obtain ⟨-, -, apart⟩ := opensSigned_plain opens
    simp only [List.mem_cons, List.not_mem_nil, or_false, not_or] at apart
    have unforced : Force.read ⟨pos + '@'.utf8Size, ch :: (more ++ rest)⟩ =
        (none, ⟨pos + '@'.utf8Size, ch :: (more ++ rest)⟩) :=
      force_read_none apart.2.2.1 apart.2.2.2
    rw [List.cons_append] at evals
    simp only [List.cons_append]
    rw [parsePlain_address (by decide)]
    simp only [parseAddress, Cursor.eat?_cons, unforced, evals, if_true, known]
    simp [utf8Length, Nat.add_assoc]
  clean := rfl

end CrossAsm.Ns32000
