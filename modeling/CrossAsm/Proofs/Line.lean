import CrossAsm.Machine.Decode
import CrossAsm.Machine.Encode
import CrossAsm.Proofs.Text.Expression

/-! The text of a decoded instruction as a line of source: it falls apart into the mnemonic and
the operands it was put together from. -/

namespace CrossAsm

open Text

/-- A character an operand can begin with. A register suffix behind a comma begins with `X`. -/
def Text.startsOperand (ch : Char) : Bool :=
  !isBlank ch && ch != ';' && ch != ',' && ch.toUpper != 'X'

/-- The line ends here, or another operand follows. -/
def Text.EndsOperand (rest : List Char) : Prop :=
  rest = [] ∨ ∃ ch more, rest = ',' :: ch :: more ∧ startsOperand ch = true

theorem Text.EndsOperand.closes {rest : List Char} (ended : EndsOperand rest) : Closes rest := by
  rcases ended with rfl | ⟨ch, more, rfl, -⟩
  · exact closes_nil
  · exact closes_cons.mpr (by decide)

theorem Text.startsOperand_not_blank {ch : Char} (starts : startsOperand ch = true) :
    isBlank ch = false := by
  simp only [startsOperand, Bool.and_eq_true, Bool.not_eq_true'] at starts
  exact starts.1.1.1

theorem Text.startsOperand_not_space {ch : Char} (starts : startsOperand ch = true) :
    (ch == ' ' || ch == '\t') = false := by
  have blank := startsOperand_not_blank starts
  have space : ch ≠ ' ' := by
    rintro rfl
    exact absurd blank (by decide)
  have tab : ch ≠ '\t' := by
    rintro rfl
    exact absurd blank (by decide)
  simp [space, tab]

/-- The same operand, perhaps in another column. -/
def Operand.Moved {Mode Reg : Type} (a b : Operand Mode Reg) : Prop := b = { a with column := b.column }

theorem Operand.moved_column {Mode Reg : Type} (a : Operand Mode Reg) (column : Nat) :
    a.Moved { a with column } := rfl

theorem Operand.withValue_known {Mode Reg : Type} (op : Operand Mode Reg) {v : Int}
    (low : -0x80000000 ≤ v) (high : v < 0x100000000) :
    op.withValue (.known (Int64.ofInt v)) = { op with value := v, undefined := false } := by
  simp only [withValue, Scope.toInt_known low high]
  simp [Value.known]

theorem Operand.parseValue_evals {Mode Reg : Type} (op : Operand Mode Reg) {scope : Scope}
    {text : List Char} {v : Int} (evals : scope.Evals text v) (low : -0x80000000 ≤ v)
    (high : v < 0x100000000) (pos : Nat) {rest : List Char} (closed : Closes rest) :
    op.parseValue scope ⟨pos, text ++ rest⟩ =
      ({ op with value := v, undefined := false }, ⟨pos + utf8Length text, rest⟩) := by
  simp only [parseValue, evals pos rest closed, op.withValue_known low high]

theorem Operand.close_cons {Mode Reg : Type} (op : Operand Mode Reg) {ch : Char}
    (solid : (ch == ' ' || ch == '\t') = false) (pos : Nat) (rest : List Char) :
    op.close ch ⟨pos, ch :: rest⟩ = (op, ⟨pos + ch.utf8Size, rest⟩) := by
  have unmoved : (⟨pos, ch :: rest⟩ : Cursor).skipSpaces = ⟨pos, ch :: rest⟩ :=
    Cursor.skipSpaces_stops (stops_cons.mpr solid)
  simp only [close, unmoved, Cursor.eat?_cons]

/-- Every item of the second list is related to one of the first. -/
theorem exists_left_of_forall₂ {α β : Type} {R : α → β → Prop} {xs : List α} {ys : List β}
    (related : List.Forall₂ R xs ys) {y : β} (member : y ∈ ys) : ∃ x ∈ xs, R x y := by
  induction related with
  | nil => simp at member
  | @cons a b xs ys first _ ih =>
    rcases List.mem_cons.mp member with rfl | later
    · exact ⟨a, by simp, first⟩
    · obtain ⟨x, present, holds⟩ := ih later
      exact ⟨x, by simp [present], holds⟩

theorem exists_right_of_forall₂ {α β : Type} {R : α → β → Prop} {xs : List α} {ys : List β}
    (related : List.Forall₂ R xs ys) {x : α} (member : x ∈ xs) : ∃ y ∈ ys, R x y :=
  exists_left_of_forall₂ related.flip member

theorem forall₂_mem {α β : Type} {R : α → β → Prop} {xs : List α} {ys : List β}
    (related : List.Forall₂ R xs ys) :
    List.Forall₂ (fun x y => x ∈ xs ∧ y ∈ ys ∧ R x y) xs ys := by
  induction related with
  | nil => exact .nil
  | cons first _ ih =>
    refine .cons ⟨by simp, by simp, first⟩ (ih.imp fun x y ⟨left, right, holds⟩ => ?_)
    exact ⟨by simp [left], by simp [right], holds⟩

theorem Operand.forall₂_moved {α Mode Reg : Type} {R : α → Operand Mode Reg → Prop}
    (stable : ∀ x q column, R x q → R x { q with column }) {xs : List α}
    {qs read : List (Operand Mode Reg)} (related : List.Forall₂ R xs qs)
    (moved : List.Forall₂ Moved qs read) : List.Forall₂ R xs read := by
  induction related generalizing read with
  | nil =>
    cases moved
    exact .nil
  | @cons x q _ _ first _ ih =>
    cases moved with
    | @cons _ q' _ _ same moved =>
      refine .cons ?_ (ih moved)
      rw [show q' = _ from same]
      exact stable x q q'.column first

theorem exists_forall₂ {α β : Type} {R : α → β → Prop} {xs : List α}
    (each : ∀ x ∈ xs, ∃ y, R x y) : ∃ ys, List.Forall₂ R xs ys := by
  induction xs with
  | nil => exact ⟨[], .nil⟩
  | cons x xs ih =>
    obtain ⟨y, first⟩ := each x (by simp)
    obtain ⟨ys, rest⟩ := ih fun x member => each x (by simp [member])
    exact ⟨y :: ys, .cons first rest⟩

theorem exists_append_of_forall₂ {α β : Type} {R : α → β → Prop} {xs more : List α} {zs : List β}
    (related : List.Forall₂ R (xs ++ more) zs) :
    ∃ ys others, zs = ys ++ others ∧ List.Forall₂ R xs ys ∧ List.Forall₂ R more others := by
  induction xs generalizing zs with
  | nil => exact ⟨[], zs, rfl, .nil, related⟩
  | cons x xs ih =>
    cases related with
    | @cons _ y _ _ first rest =>
      obtain ⟨ys, others, rfl, left, right⟩ := ih rest
      exact ⟨y :: ys, others, rfl, .cons first left, right⟩

theorem filterMap_of_forall₂ {α β : Type} {f : α → Option β} {xs : List α} {ys : List β}
    (related : List.Forall₂ (fun x y => f x = some y) xs ys) : xs.filterMap f = ys := by
  induction related with
  | nil => rfl
  | cons first _ ih => simp only [List.filterMap_cons, first, ih]

namespace Machine

variable {Mode Reg : Type} (m : Machine Mode Reg)

/-- The text is read as the operand where the line ends or another operand follows. -/
structure ParsesAs (scope : Scope) (text : List Char) (op : Operand Mode Reg) : Prop where
  starts : text.head?.any startsOperand = true
  parsed : ∀ pos rest, EndsOperand rest → m.parseOperand scope ⟨pos, text ++ rest⟩ =
    ({ op with column := pos }, ⟨pos + utf8Length text, rest⟩)
  clean : op.fault = none

/-- Texts with commas between them. -/
def commaJoined : List (List Char) → List Char
  | [] => []
  | [text] => text
  | text :: more => text ++ ',' :: commaJoined more

theorem toList_intercalate_comma (texts : List String) :
    (",".intercalate texts).toList = commaJoined (texts.map String.toList) := by
  induction texts with
  | nil => rfl
  | cons text more ih =>
    cases more with
    | nil => simp [commaJoined]
    | cons next more =>
      rw [String.intercalate_cons_cons]
      simp only [String.toList_append, ih, List.map_cons, commaJoined, List.append_assoc]
      rfl

theorem startsOperand_commaJoined {scope : Scope} {texts : List (List Char)}
    {ops : List (Operand Mode Reg)} (parses : List.Forall₂ (m.ParsesAs scope) texts ops)
    (nonempty : texts ≠ []) :
    ∃ ch more, commaJoined texts = ch :: more ∧ startsOperand ch = true := by
  cases parses with
  | nil => exact absurd rfl nonempty
  | @cons text op texts ops first _ =>
    have starts := first.starts
    cases text with
    | nil => simp at starts
    | cons ch text =>
      have head : startsOperand ch = true := by simpa using starts
      cases texts with
      | nil => exact ⟨ch, text, rfl, head⟩
      | cons next texts => exact ⟨ch, _, rfl, head⟩

/-- Operands with commas between them are read one by one. -/
theorem parseList_commaJoined {scope : Scope} {texts : List (List Char)}
    {ops : List (Operand Mode Reg)} (parses : List.Forall₂ (m.ParsesAs scope) texts ops)
    (nonempty : texts ≠ []) {fuel : Nat} (enough : texts.length ≤ fuel) (pos : Nat) :
    ∃ read, List.Forall₂ Operand.Moved ops read ∧
      m.parseList scope fuel ⟨pos, commaJoined texts⟩ =
        (read, ⟨pos + utf8Length (commaJoined texts), []⟩) := by
  induction parses generalizing fuel pos with
  | nil => exact absurd rfl nonempty
  | @cons text op texts ops first rest ih =>
    obtain ⟨fuel, rfl⟩ : ∃ more, fuel = more + 1 := ⟨fuel - 1, by simp at enough; omega⟩
    have unmoved (p : Nat) (tail : List Char) :
        (⟨p, text ++ tail⟩ : Cursor).skipSpaces = ⟨p, text ++ tail⟩ := by
      apply Cursor.skipSpaces_stops
      have starts := first.starts
      cases text with
      | nil => simp at starts
      | cons ch text => exact stops_cons.mpr (startsOperand_not_space (by simpa using starts))
    have soft : Operand.hardFault? { op with column := pos } = none := by
      simp [Operand.hardFault?, first.clean]
    cases texts with
    | nil =>
      cases rest
      have parsed := first.parsed pos [] (.inl rfl)
      have whole := unmoved pos []
      simp only [List.append_nil] at parsed whole
      refine ⟨[{ op with column := pos }], .cons (op.moved_column pos) .nil, ?_⟩
      simp only [commaJoined, parseList, whole, parsed, soft, Option.isSome_none]
      rfl
    | cons next texts =>
      obtain ⟨ch, tail, joined, starts⟩ := m.startsOperand_commaJoined rest (by simp)
      have ended : EndsOperand (',' :: commaJoined (next :: texts)) :=
        .inr ⟨ch, tail, by rw [joined], starts⟩
      have parsed := first.parsed pos _ ended
      obtain ⟨read, moved, more⟩ := ih (by simp) (by simpa using enough)
        (pos + utf8Length text + ','.utf8Size)
      have comma : (⟨pos + utf8Length text, ',' :: commaJoined (next :: texts)⟩ : Cursor).skipSpaces =
          ⟨pos + utf8Length text, ',' :: commaJoined (next :: texts)⟩ :=
        Cursor.skipSpaces_stops (stops_cons.mpr (by decide))
      have total : pos + utf8Length (commaJoined (text :: next :: texts)) =
          pos + utf8Length text + ','.utf8Size + utf8Length (commaJoined (next :: texts)) := by
        simp [commaJoined, utf8Length_append, utf8Length, Nat.add_assoc]
      refine ⟨{ op with column := pos } :: read, .cons (op.moved_column pos) moved, ?_⟩
      rw [total]
      simp only [commaJoined, parseList, unmoved, parsed, soft, Option.isSome_none, comma,
        Cursor.eat?_cons]
      simp [more]

/-- A mnemonic in upper case that is one in lower case too. -/
def isName (name : String) : Bool :=
  upper name == name && Cursor.isIdentifier name && Cursor.isIdentifier (lower name)

/-- One pass over a name decides whether it is one. -/
theorem isName_eq (name : String) : isName name = (name.toList.head?.any isIdentStart &&
    name.toList.all fun ch => isIdentChar ch && ch.toUpper == ch) := by
  have lowered : Cursor.isIdentifier (lower name) = Cursor.isIdentifier name := by
    simp [Cursor.isIdentifier, lower, Option.any_map, Function.comp_def, isIdentStart_toLower,
      isIdentChar_toLower]
  rw [Bool.eq_iff_iff, isName, lowered]
  simp only [Cursor.isIdentifier, Bool.and_eq_true, List.all_eq_true, beq_iff_eq, upper_eq_iff]
  grind

theorem isIdentifier_case {name : String} (proper : isName name = true) (r : Rendering) :
    Cursor.isIdentifier (r.case name) = true := by
  simp only [isName, Bool.and_eq_true, beq_iff_eq] at proper
  unfold Rendering.case
  split
  · exact proper.2
  · rw [proper.1.1]
    exact proper.1.2

theorem upper_case_of_isName {name : String} (proper : isName name = true) (r : Rendering) :
    upper (r.case name) = name := by
  simp only [isName, Bool.and_eq_true, beq_iff_eq] at proper
  rw [r.upper_case, proper.1.1]

/-- The mnemonic and the operands of an instruction as one line. -/
def lineOf (name : String) (texts : List String) : String :=
  if texts.isEmpty then name else name ++ " " ++ ",".intercalate texts

theorem text_eq_lineOf (d : Decoded) : d.text = lineOf d.mnemonic d.operands := rfl

theorem isBlank_of_isIdentChar {ch : Char} (ident : isIdentChar ch = true) :
    isBlank ch = false := by
  rw [isIdentChar_iff] at ident
  simp only [isBlank, Bool.or_eq_false_iff, Bool.and_eq_false_iff, decide_eq_false_iff_not,
    beq_eq_false_iff_ne]
  omega

theorem atEnd_cons {pos : Nat} {ch : Char} {rest : List Char} (solid : isBlank ch = false)
    (comment : ch ≠ ';') : (⟨pos, ch :: rest⟩ : Cursor).atEnd = false := by
  simp [Cursor.atEnd, solid, comment]

theorem exists_first {name : String} (identifier : Cursor.isIdentifier name = true) :
    ∃ first more, name.toList = first :: more ∧ isIdentStart first = true ∧ isBlank first = false := by
  simp only [Cursor.isIdentifier, Bool.and_eq_true, List.all_eq_true] at identifier
  cases shape : name.toList with
  | nil => simp [shape] at identifier
  | cons first more =>
    have solid := isBlank_of_isIdentChar (identifier.2 first (by simp [shape]))
    exact ⟨first, more, rfl, by simpa [shape] using identifier.1, solid⟩

/-- A line that begins with an identifier begins there. -/
theorem skipSpaces_identifier {name : String} (identifier : Cursor.isIdentifier name = true)
    (pos : Nat) (tail : List Char) :
    (⟨pos, name.toList ++ tail⟩ : Cursor).skipSpaces = ⟨pos, name.toList ++ tail⟩ := by
  obtain ⟨first, more, shape, -, solid⟩ := exists_first identifier
  apply Cursor.skipSpaces_stops
  rw [shape]
  exact (stops_cons.mpr solid).mono fun c space => by
    rcases (by simpa using space : c = ' ' ∨ c = '\t') with rfl | rfl <;> rfl

theorem eat?_identifier {name : String} (identifier : Cursor.isIdentifier name = true) {ch : Char}
    (outside : isIdentStart ch = false) (pos : Nat) (tail : List Char) :
    (⟨pos, name.toList ++ tail⟩ : Cursor).eat? ch = none := by
  obtain ⟨first, more, shape, start, -⟩ := exists_first identifier
  apply Cursor.eat?_ne
  rw [shape]
  rintro same
  obtain rfl : first = ch := by simpa using same
  exact absurd (start.symm.trans outside) (by decide)

theorem atEnd_identifier {name : String} (identifier : Cursor.isIdentifier name = true) (pos : Nat)
    (tail : List Char) : (⟨pos, name.toList ++ tail⟩ : Cursor).atEnd = false := by
  obtain ⟨first, more, shape, start, solid⟩ := exists_first identifier
  rw [shape]
  apply atEnd_cons solid
  rintro rfl
  exact absurd start (by decide)

theorem length_le_commaJoined (texts : List (List Char)) :
    texts.length ≤ (commaJoined texts).length + 1 := by
  induction texts with
  | nil => simp
  | cons text more ih =>
    cases more with
    | nil => simp
    | cons next more =>
      simp only [commaJoined, List.length_append, List.length_cons] at ih ⊢
      omega

/-- The operands of a line are read behind the blank that follows the mnemonic. -/
theorem parseOperands_commaJoined (symbols : Symbols) (address : UInt32)
    {texts : List (List Char)} {ops : List (Operand Mode Reg)}
    (parses : List.Forall₂ (m.ParsesAs ⟨m.config.dialect, symbols, address⟩) texts ops)
    (nonempty : texts ≠ []) (pos : Nat) :
    ∃ read, List.Forall₂ Operand.Moved ops read ∧
      m.parseOperands symbols address ⟨pos, ' ' :: commaJoined texts⟩ =
        (read, ⟨pos + 1 + utf8Length (commaJoined texts), []⟩) := by
  obtain ⟨ch, more, joined, starts⟩ := m.startsOperand_commaJoined parses nonempty
  have skipped : (⟨pos, ' ' :: commaJoined texts⟩ : Cursor).skipSpaces =
      ⟨pos + 1, commaJoined texts⟩ := by
    have moved := @Cursor.skipWhile_append (fun ch => ch == ' ' || ch == '\t') pos [' ']
      (commaJoined texts) (by simp)
      (by rw [joined]; exact stops_cons.mpr (startsOperand_not_space starts))
    exact moved
  have solid : (⟨pos + 1, commaJoined texts⟩ : Cursor).atEnd = false := by
    rw [joined]
    apply atEnd_cons (startsOperand_not_blank starts)
    rintro rfl
    exact absurd starts (by decide)
  obtain ⟨read, moved, parsed⟩ := m.parseList_commaJoined parses nonempty
    (length_le_commaJoined texts) (pos + 1)
  refine ⟨read, moved, ?_⟩
  simp only [parseOperands, skipped, solid, Bool.false_eq_true, if_false, parsed]

/-- A line put together from a mnemonic and operands is read as these. -/
theorem parseLine_lineOf (symbols : Symbols) (address : UInt32) {name : String}
    {texts : List String} {ops : List (Operand Mode Reg)} (mnemonic : Cursor.isIdentifier name = true)
    (parses : List.Forall₂ (m.ParsesAs ⟨m.config.dialect, symbols, address⟩)
      (texts.map String.toList) ops) :
    ∃ read, List.Forall₂ Operand.Moved ops read ∧
      ∀ page entry, m.findByName name read = .ok (page, entry) → m.check entry read = none →
        m.parseLine symbols (lineOf name texts) address = .ok (some (page, entry, read)) := by
  -- Both forms of the line are the mnemonic with a tail that holds the operands.
  have split : ∃ tail read pos, (lineOf name texts).toList = name.toList ++ tail ∧
      Stops isIdentChar tail ∧ List.Forall₂ Operand.Moved ops read ∧
      m.parseOperands symbols address ⟨utf8Length name.toList, tail⟩ = (read, ⟨pos, []⟩) := by
    cases texts with
    | nil =>
      cases parses
      exact ⟨[], [], _, by simp [lineOf], stops_nil _, .nil, rfl⟩
    | cons text texts =>
      obtain ⟨read, moved, parsed⟩ := m.parseOperands_commaJoined symbols address parses
        (by simp) (utf8Length name.toList)
      refine ⟨' ' :: commaJoined ((text :: texts).map String.toList), read, _, ?_,
        stops_cons.mpr (by decide), moved, parsed⟩
      rw [← toList_intercalate_comma]
      simp [lineOf]
  obtain ⟨tail, read, pos, line, stops, moved, parsed⟩ := split
  have word := Cursor.ident?_append mnemonic stops 0
  have faultless : ∀ op ∈ read, op.fault = none := by
    intro op member
    obtain ⟨source, present, same⟩ := exists_left_of_forall₂ moved member
    obtain ⟨text, -, reading⟩ := exists_left_of_forall₂ parses present
    rw [same]
    exact reading.clean
  refine ⟨read, moved, fun page entry found checked => ?_⟩
  have hard : read.findSome? (·.hardFault?) = none := by
    rw [List.findSome?_eq_none_iff]
    intro op member
    simp [Operand.hardFault?, faultless op member]
  have start : (Cursor.start (lineOf name texts)).skipSpaces = ⟨0, name.toList ++ tail⟩ := by
    rw [Cursor.start, line, skipSpaces_identifier mnemonic]
  have begun := atEnd_identifier mnemonic 0 tail
  have finished : (⟨pos, []⟩ : Cursor).atEnd = true := rfl
  rw [Nat.zero_add] at word
  simp only [parseLine, start, begun, Bool.false_eq_true, if_false, word, parsed, hard, finished,
    Bool.not_true, found, checked]

end Machine

end CrossAsm
