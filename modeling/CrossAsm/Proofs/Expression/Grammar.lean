import CrossAsm.Proofs.Expression.Arithmetic
import CrossAsm.Proofs.Text.Expression
import CrossAsm.Operand

/-! The grammar of expressions, and precedence climbing as a parser of it. A tree may be written in any
notation of the dialect, with brackets wherever operators would be grouped otherwise and with spaces and
tabs between the tokens. Climbing gives the value of the tree, and stops right behind the text. -/

namespace CrossAsm

open Text

/-! ### Trees and their text -/

inductive Expr where
  | number (n : Nat)
  | char (ch : Char)
  | symbol (name : String)
  | here
  | signed (sign : Sign) (operand : Expr)
  | binary (op : Operator) (left right : Expr)
deriving DecidableEq, Repr

/-- The value of an expression, unless a divisor in it is zero. -/
def Expr.value (s : Scope) : Expr → Option Int
  | number n => some n
  | char ch => some ch.toNat
  | symbol name => some ((s.symbols.value? name).getD 0).toNat
  | here => some s.location.toNat
  | signed sign operand => (operand.value s).map sign.result
  | binary op left right => (left.value s).bind fun a => (right.value s).bind fun b => op.result a b

/-- How tightly an operator binds. -/
def Operator.level : Operator → Nat
  | or => 1
  | xor => 2
  | and => 3
  | shiftLeft | shiftRight => 4
  | add | sub => 5
  | mul | div | rem => 6

/-- The blanks that separate tokens. -/
def Text.isSpace (ch : Char) : Bool := ch == ' ' || ch == '\t'

/-- The text stands for the expression in the scope, and all operators that bind no tighter than `least`
are inside brackets. -/
inductive Scope.Written (s : Scope) : Nat → Expr → List Char → Prop
  | number {least n : Nat} {text : List Char} (spelled : s.dialect.Spelled n text)
      (bound : n ≤ 2 ^ 32 - 1) : Written s least (.number n) text
  | char {least : Nat} (ch : Char) : Written s least (.char ch) ['\x27', ch, '\x27']
  | symbol {least : Nat} {name : String} (identifier : Cursor.isIdentifier name = true)
      (defined : (s.symbols.value? name).isSome = true) : Written s least (.symbol name) name.toList
  | here {least : Nat} : Written s least .here [s.dialect.locationSymbol]
  | signed {least : Nat} (sign : Sign) {operand : Expr} {text : List Char}
      (written : Written s 6 operand text) : Written s least (.signed sign operand) (sign.char :: text)
  | bracketed {least : Nat} {e : Expr} {text spaces : List Char} {opening closing : Char}
      (bracket : (opening, closing) ∈ [('(', ')'), ('[', ']')]) (written : Written s 0 e text)
      (blank : ∀ ch ∈ spaces, isSpace ch = true) :
      Written s least e (opening :: text ++ spaces ++ [closing])
  | spaced {least : Nat} {e : Expr} {text : List Char} {space : Char} (blank : isSpace space = true)
      (written : Written s least e text) : Written s least e (space :: text)
  | binary {least : Nat} {op : Operator} {left right : Expr} {text text' spaces : List Char}
      (tighter : least < op.level) (first : Written s (op.level - 1) left text)
      (blank : ∀ ch ∈ spaces, isSpace ch = true) (second : Written s op.level right text') :
      Written s least (.binary op left right) (text ++ spaces ++ op.text ++ text')

/-- What follows does not go on with a word, or with an operator that binds tighter than `level`. -/
structure Text.Breaks (level : Nat) (rest : List Char) : Prop where
  word : Stops isIdentChar rest
  operator : ∀ (op : Operator) (more : List Char), rest.dropWhile isSpace = op.text ++ more →
    op.level ≤ level

theorem Text.Breaks.mono {level higher : Nat} {rest : List Char} (breaks : Breaks level rest)
    (le : level ≤ higher) : Breaks higher rest :=
  ⟨breaks.word, fun op more found => Nat.le_trans (breaks.operator op more found) le⟩

namespace Operator

theorem precedence_eq (op : Operator) : op.precedence = op.level := by
  cases op <;> rfl

theorem level_le (op : Operator) : op.level ≤ 6 := by
  cases op <;> decide

theorem read?_text (op : Operator) (more : List Char) :
    read? (op.text ++ more) = some (op, op.text.length) := by
  cases op <;> rfl

theorem exists_of_read? {text : List Char} {op : Operator} {length : Nat}
    (read : read? text = some (op, length)) : ∃ more, text = op.text ++ more := by
  unfold read? at read
  split at read
  all_goals
    simp only [Option.some.injEq, Prod.mk.injEq, reduceCtorEq] at read
    try (obtain ⟨rfl, rfl⟩ := read; exact ⟨_, rfl⟩)

/-- No operator begins with another. -/
theorem text_inj {op other : Operator} {more rest : List Char}
    (same : op.text ++ more = other.text ++ rest) : op = other := by
  have read := op.read?_text more
  rw [same, other.read?_text] at read
  simpa using (congrArg (Option.map Prod.fst) read).symm

/-- Operators are neither words nor blanks. -/
theorem exists_text (op : Operator) : ∃ ch more, op.text = ch :: more ∧ isSpace ch = false ∧
    isIdentChar ch = false := by
  cases op <;> exact ⟨_, _, rfl, rfl, rfl⟩

end Operator

/-! ### Steps of the parser -/

theorem Cursor.skipSpaces_append (pos : Nat) {spaces rest : List Char}
    (blank : ∀ ch ∈ spaces, isSpace ch = true) (stops : Stops isSpace rest) :
    (⟨pos, spaces ++ rest⟩ : Cursor).skipSpaces = ⟨pos + utf8Length spaces, rest⟩ :=
  skipWhile_append pos blank stops

namespace Scope

variable {s : Scope}

/-- A blank in front of an operand does not count. -/
theorem unary_space (fuel pos : Nat) {space : Char} (blank : isSpace space = true) (rest : List Char) :
    s.unary (fuel + 1) ⟨pos, space :: rest⟩ = s.unary (fuel + 1) ⟨pos + space.utf8Size, rest⟩ := by
  have moved : (⟨pos, space :: rest⟩ : Cursor).skipSpaces =
      (⟨pos + space.utf8Size, rest⟩ : Cursor).skipSpaces := by
    change Cursor.skipWhile _ isSpace = Cursor.skipWhile _ isSpace
    simp [Cursor.skipWhile, blank, utf8Length, Nat.add_assoc]
  simp only [unary, moved]

theorem unary_bracket_eq (fuel pos : Nat) {opening closing : Char}
    (bracket : (opening, closing) ∈ [('(', ')'), ('[', ']')]) (rest : List Char) :
    s.unary (fuel + 1) ⟨pos, opening :: rest⟩ =
      match s.binary fuel 0 ⟨pos + opening.utf8Size, rest⟩ with
      | .ok (v, after) =>
        match after.skipSpaces.eat? closing with
        | some after => .ok (v, after)
        | none => .error (Cause.missingClosingParen.located after.skipSpaces.pos)
      | .error f => .error f := by
  have facts : isSpace opening = false ∧ sign? opening = none ∧ closing? opening = some closing := by
    simp only [List.mem_cons, Prod.mk.injEq, List.not_mem_nil, or_false] at bracket
    rcases bracket with ⟨rfl, rfl⟩ | ⟨rfl, rfl⟩ <;> exact ⟨rfl, rfl, rfl⟩
  obtain ⟨solid, unsigned, closes⟩ := facts
  have unmoved : (⟨pos, opening :: rest⟩ : Cursor).skipSpaces = ⟨pos, opening :: rest⟩ :=
    Cursor.skipSpaces_stops (stops_cons.mpr solid)
  rcases inner : s.binary fuel 0 ⟨pos + opening.utf8Size, rest⟩ with f | ⟨v, after⟩
  · simp only [unary, unmoved, Cursor.peek?, List.head?_cons, unsigned, closes, Cursor.advance_one,
      inner]
  · cases closed : after.skipSpaces.eat? closing <;>
      simp only [unary, unmoved, Cursor.peek?, List.head?_cons, unsigned, closes, Cursor.advance_one,
        inner, closed]

theorem unary_char (fuel pos : Nat) (ch : Char) (rest : List Char) :
    s.unary (fuel + 1) ⟨pos, '\x27' :: ch :: '\x27' :: rest⟩ =
      .ok (.known (Int64.ofNat ch.toNat), ⟨pos + utf8Length ['\x27', ch, '\x27'], rest⟩) := by
  have unmoved : (⟨pos, '\x27' :: ch :: '\x27' :: rest⟩ : Cursor).skipSpaces =
      ⟨pos, '\x27' :: ch :: '\x27' :: rest⟩ := Cursor.skipSpaces_stops (stops_cons.mpr rfl)
  simp only [unary, unmoved]
  simp [Cursor.peek?, sign?, closing?, quoted, Cursor.advance_one, utf8Length, Nat.add_assoc]

theorem unary_symbol (fuel pos : Nat) {name : String} (identifier : Cursor.isIdentifier name = true)
    {n : UInt32} (defined : s.symbols.value? name = some n) {rest : List Char}
    (stops : Stops isIdentChar rest) :
    s.unary (fuel + 1) ⟨pos, name.toList ++ rest⟩ =
      .ok (.known (Int64.ofNat n.toNat), ⟨pos + utf8Length name.toList, rest⟩) := by
  have word := Cursor.ident?_append identifier stops pos
  obtain ⟨ch, more, shape⟩ : ∃ ch more, name.toList = ch :: more := by
    cases shape : name.toList with
    | nil => simp [Cursor.isIdentifier, shape] at identifier
    | cons ch more => exact ⟨ch, more, rfl⟩
  have start : isIdentStart ch = true := by
    simp only [Cursor.isIdentifier, Bool.and_eq_true, shape, List.head?_cons, Option.any_some] at identifier
    exact identifier.1
  have other (c : Char) (outside : isIdentStart c = false) : ch ≠ c := by
    rintro rfl
    simp [start] at outside
  have plain : startsAtom ch = true := by
    simp [startsAtom, sign?, closing?, other ' ' rfl, other '\t' rfl, other '-' rfl, other '+' rfl,
      other '~' rfl, other '!' rfl, other '(' rfl, other '[' rfl, other '\x27' rfl]
  have digit : ch.isDigit = false := by
    simp only [isIdentStart, Bool.or_eq_true, isAlpha_iff, beq_iff_eq] at start
    rw [Bool.eq_false_iff, Ne, isDigit_iff]
    rcases start with alpha | rfl
    · omega
    · decide
  have unmarked : s.dialect.radixMark? (ch :: (more ++ rest)) = none := by
    have bare : s.dialect.sigil? ch = none := by
      cases s.dialect <;>
        simp [Dialect.sigil?, other '$' rfl, other '%' rfl, other '@' rfl, other '>' rfl]
    cases more ++ rest with
    | nil => rfl
    | cons b tail =>
      simp only [Dialect.radixMark?, bare, beq_eq_false_iff_ne.mpr (other '0' rfl), Bool.false_and,
        Bool.false_eq_true, if_false]
      split <;> rfl
  have elsewhere : (⟨pos, ch :: (more ++ rest)⟩ : Cursor).eat? s.dialect.locationSymbol = none := by
    apply Cursor.eat?_ne
    cases s.dialect <;> simp [Dialect.locationSymbol, other '$' rfl, other '*' rfl]
  rw [shape, List.cons_append] at word ⊢
  rw [s.unary_atom fuel pos plain]
  simp [atom, Literal.read?, unmarked, Cursor.peek?, digit, elsewhere, word, defined]

theorem reads_symbol {name : String} (identifier : Cursor.isIdentifier name = true) {n : UInt32}
    (defined : s.symbols.value? name = some n) : s.Reads name.toList n.toNat := by
  intro fuel pos rest stops
  rw [Int64.ofInt_eq_ofNat]
  exact unary_symbol (fuel + 1) pos identifier defined stops

theorem symbol_ne_nil {name : String} (identifier : Cursor.isIdentifier name = true) :
    name.toList ≠ [] := by
  intro empty
  simp [Cursor.isIdentifier, empty] at identifier

/-- An operator that binds tighter is applied to what follows. -/
theorem continued_operator (fuel pos : Nat) {floor : Nat} (left : Value) {spaces : List Char}
    (blank : ∀ ch ∈ spaces, isSpace ch = true) {op : Operator} (tighter : floor < op.level)
    (rest : List Char) :
    s.continued (fuel + 1) floor left ⟨pos, spaces ++ (op.text ++ rest)⟩ =
      match s.binary fuel op.level ⟨pos + utf8Length spaces + utf8Length op.text, rest⟩ with
      | .error f => .error f
      | .ok (right, after) =>
        match op.applied? left right with
        | some v => s.continued fuel floor v after
        | none => .error (Cause.divideByZero.located (pos + utf8Length spaces)) := by
  obtain ⟨ch, more, shape, solid, -⟩ := op.exists_text
  have stops : Stops isSpace (op.text ++ rest) := by
    rw [shape]
    exact stops_cons.mpr solid
  have moved := Cursor.skipSpaces_append pos blank stops
  have loose : ¬ op.level ≤ floor := Nat.not_le.mpr tighter
  rcases inner : s.binary fuel op.level ⟨pos + utf8Length spaces + utf8Length op.text, rest⟩ with
    f | ⟨right, after⟩
  · simp only [continued, moved, op.read?_text, op.precedence_eq, loose, if_false,
      Cursor.advance_append, inner]
  · cases applied : op.applied? left right <;>
      simp only [continued, moved, op.read?_text, op.precedence_eq, loose, if_false,
        Cursor.advance_append, inner, applied]

/-- The operand ends where no operator that binds tighter follows. -/
theorem continued_breaks (fuel pos : Nat) {floor level : Nat} (le : level ≤ floor) (left : Value)
    {rest : List Char} (breaks : Breaks level rest) :
    s.continued (fuel + 1) floor left ⟨pos, rest⟩ = .ok (left, ⟨pos, rest⟩) := by
  simp only [continued]
  cases read : Operator.read? (⟨pos, rest⟩ : Cursor).skipSpaces.rest with
  | none => rfl
  | some found =>
    obtain ⟨op, length⟩ := found
    obtain ⟨more, text⟩ := Operator.exists_of_read? read
    have loose : op.precedence ≤ floor := by
      rw [op.precedence_eq]
      exact Nat.le_trans (breaks.operator op more text) le
    simp only [loose, if_true]

/-! ### Precedence climbing -/

theorem breaks_append {level : Nat} {spaces : List Char} (blank : ∀ ch ∈ spaces, isSpace ch = true)
    {ch : Char} {rest : List Char} (solid : isSpace ch = false) (apart : isIdentChar ch = false)
    (operator : ∀ (op : Operator) (more : List Char), ch :: rest = op.text ++ more → op.level ≤ level) :
    Breaks level (spaces ++ ch :: rest) := by
  constructor
  · cases spaces with
    | nil => exact stops_cons.mpr apart
    | cons space spaces =>
      have space : space = ' ' ∨ space = '\t' := by simpa [isSpace] using blank space (by simp)
      rcases space with rfl | rfl <;> exact stops_cons.mpr rfl
  · intro op more found
    rw [dropWhile_append_stops blank (stops_cons.mpr solid)] at found
    exact operator op more found

theorem closing_of_bracket {opening closing : Char}
    (bracket : (opening, closing) ∈ [('(', ')'), ('[', ']')]) :
    isSpace closing = false ∧ isIdentChar closing = false ∧
      ∀ rest, Operator.read? (closing :: rest) = none := by
  simp only [List.mem_cons, Prod.mk.injEq, List.not_mem_nil, or_false] at bracket
  rcases bracket with ⟨-, rfl⟩ | ⟨-, rfl⟩ <;> exact ⟨rfl, rfl, fun _ => rfl⟩

/-- Nothing goes on at a closing bracket. -/
theorem breaks_closing {opening closing : Char}
    (bracket : (opening, closing) ∈ [('(', ')'), ('[', ']')]) {spaces : List Char}
    (blank : ∀ ch ∈ spaces, isSpace ch = true) (rest : List Char) :
    Breaks 0 (spaces ++ closing :: rest) := by
  obtain ⟨solid, apart, none⟩ := closing_of_bracket bracket
  refine breaks_append blank solid apart fun op more found => ?_
  have read := none rest
  rw [found, op.read?_text] at read
  simp at read

/-- At an operator only operands that bind tighter go on. -/
theorem breaks_operator {spaces : List Char} (blank : ∀ ch ∈ spaces, isSpace ch = true) (op : Operator)
    (rest : List Char) : Breaks op.level (spaces ++ (op.text ++ rest)) := by
  obtain ⟨ch, more, shape, solid, apart⟩ := op.exists_text
  rw [shape, List.cons_append]
  refine breaks_append blank solid apart fun other tail found => ?_
  rw [← List.cons_append, ← shape] at found
  rw [Operator.text_inj found]

/-- Climbing from an operand takes all of the text: it gives the value or reports a zero divisor. -/
def IsOperand (s : Scope) (e : Expr) (text : List Char) : Prop :=
  ∀ pos rest, Stops isIdentChar rest → ∀ fuel, 2 * (text ++ rest).length + 1 ≤ fuel →
    (e.value s = none ∧ ∃ place, s.unary fuel ⟨pos, text ++ rest⟩ =
      .error (Cause.divideByZero.located place)) ∨
    ∃ x, e.value s = some x.toInt ∧
      s.unary fuel ⟨pos, text ++ rest⟩ = .ok (.known x, ⟨pos + utf8Length text, rest⟩)

/-- Climbing from any floor that is no higher than `least` takes all of the text as left operand of what
follows it. -/
def IsTerm (s : Scope) (least : Nat) (e : Expr) (text : List Char) : Prop :=
  ∀ floor ≤ least, ∀ pos rest, Breaks (least + 1) rest → ∀ fuel, 2 * (text ++ rest).length + 2 ≤ fuel →
    (e.value s = none ∧ ∃ place, s.binary fuel floor ⟨pos, text ++ rest⟩ =
      .error (Cause.divideByZero.located place)) ∨
    ∃ x fuel', e.value s = some x.toInt ∧ 2 * rest.length + 1 ≤ fuel' ∧
      s.binary fuel floor ⟨pos, text ++ rest⟩ =
        s.continued fuel' floor (.known x) ⟨pos + utf8Length text, rest⟩

theorem IsOperand.isTerm {e : Expr} {text : List Char} (operand : s.IsOperand e text) (least : Nat) :
    s.IsTerm least e text := by
  intro floor _ pos rest breaks fuel enough
  obtain ⟨fuel, rfl⟩ : ∃ n, fuel = n + 1 := ⟨fuel - 1, by omega⟩
  rcases operand pos rest breaks.word fuel (by omega) with ⟨none, place, failed⟩ | ⟨x, value, read⟩
  · exact .inl ⟨none, place, by simp only [binary, failed]⟩
  · refine .inr ⟨x, fuel, value, ?_, by simp only [binary, read]⟩
    rw [List.length_append] at enough
    omega

theorem Reads.isOperand {e : Expr} {text : List Char} {value : Int} (reads : s.Reads text value)
    (nonempty : text ≠ []) (known : e.value s = some value) (low : 0 ≤ value)
    (high : value < 0x100000000) : s.IsOperand e text := by
  intro pos rest stops fuel enough
  have long := List.length_pos_iff.mpr nonempty
  rw [List.length_append] at enough
  obtain ⟨fuel, rfl⟩ : ∃ n, fuel = n + 2 := ⟨fuel - 2, by omega⟩
  have same : (Int64.ofInt value).toInt = value := toInt_known (by omega) high
  exact .inr ⟨Int64.ofInt value, by rw [same, known], reads fuel pos rest stops⟩

theorem isOperand_signed (sign : Sign) {e : Expr} {text : List Char} (operand : s.IsOperand e text) :
    s.IsOperand (.signed sign e) (sign.char :: text) := by
  intro pos rest stops fuel enough
  obtain ⟨fuel, rfl⟩ : ∃ n, fuel = n + 1 := ⟨fuel - 1, by omega⟩
  obtain ⟨act, signs, acts⟩ := sign.exists_sign?
  have solid : isSpace sign.char = false := by cases sign <;> rfl
  rw [List.cons_append, s.unary_sign_eq fuel pos signs solid]
  simp only [List.cons_append, List.length_cons] at enough
  rcases operand (pos + sign.char.utf8Size) rest stops fuel (by omega) with
    ⟨none, place, failed⟩ | ⟨x, value, read⟩
  · exact .inl ⟨by rw [Expr.value, none, Option.map_none], place, by rw [failed]⟩
  · refine .inr ⟨act x, by rw [Expr.value, value, Option.map_some, acts], ?_⟩
    rw [read]
    simp [Value.map, Value.known, utf8Length, Nat.add_assoc]

theorem isOperand_bracketed {e : Expr} {text spaces : List Char} {opening closing : Char}
    (bracket : (opening, closing) ∈ [('(', ')'), ('[', ']')]) (term : s.IsTerm 0 e text)
    (blank : ∀ ch ∈ spaces, isSpace ch = true) :
    s.IsOperand e (opening :: text ++ spaces ++ [closing]) := by
  intro pos rest stops fuel enough
  obtain ⟨fuel, rfl⟩ : ∃ n, fuel = n + 1 := ⟨fuel - 1, by omega⟩
  have ended : Breaks 0 (spaces ++ closing :: rest) := breaks_closing bracket blank rest
  have shape : opening :: text ++ spaces ++ [closing] ++ rest =
      opening :: (text ++ (spaces ++ closing :: rest)) := by simp
  have solid := (closing_of_bracket bracket).1
  rw [shape] at enough ⊢
  rw [unary_bracket_eq fuel pos bracket]
  rw [List.length_cons] at enough
  rcases term 0 (Nat.le_refl 0) (pos + opening.utf8Size) _ (ended.mono (Nat.zero_le 1)) fuel (by omega)
    with ⟨none, place, failed⟩ | ⟨x, spare, value, spared, climbed⟩
  · exact .inl ⟨none, place, by rw [failed]⟩
  · obtain ⟨spare, rfl⟩ : ∃ n, spare = n + 1 := ⟨spare - 1, by omega⟩
    refine .inr ⟨x, value, ?_⟩
    rw [climbed, continued_breaks spare _ (Nat.le_refl 0) _ ended]
    simp only [Cursor.skipSpaces_append _ blank (stops_cons.mpr solid), Cursor.eat?_cons]
    simp [utf8Length, utf8Length_append, Nat.add_assoc]

theorem isTerm_spaced {least : Nat} {e : Expr} {text : List Char} {space : Char}
    (blank : isSpace space = true) (term : s.IsTerm least e text) : s.IsTerm least e (space :: text) := by
  intro floor le pos rest breaks fuel enough
  obtain ⟨fuel, rfl⟩ : ∃ n, fuel = n + 2 := ⟨fuel - 2, by omega⟩
  have skipped : s.binary (fuel + 2) floor ⟨pos, space :: text ++ rest⟩ =
      s.binary (fuel + 2) floor ⟨pos + space.utf8Size, text ++ rest⟩ := by
    rw [binary, binary, List.cons_append, unary_space fuel pos blank]
  simp only [List.cons_append, List.length_cons] at enough
  have found := term floor le (pos + space.utf8Size) rest breaks (fuel + 2) (by omega)
  rwa [skipped, utf8Length, ← Nat.add_assoc]

theorem isOperand_spaced {e : Expr} {text : List Char} {space : Char} (blank : isSpace space = true)
    (operand : s.IsOperand e text) : s.IsOperand e (space :: text) := by
  intro pos rest stops fuel enough
  obtain ⟨fuel, rfl⟩ : ∃ n, fuel = n + 1 := ⟨fuel - 1, by omega⟩
  simp only [List.cons_append, List.length_cons] at enough
  have found := operand (pos + space.utf8Size) rest stops (fuel + 1) (by omega)
  rwa [List.cons_append, unary_space fuel pos blank, utf8Length, ← Nat.add_assoc]

/-- An operator and its operands. The left one is climbed from the same floor, the right one from the
operator's own level, which the operators behind it do not exceed. -/
theorem isTerm_binary {least : Nat} {op : Operator} {left right : Expr} {text text' spaces : List Char}
    (tighter : least < op.level) (first : s.IsTerm (op.level - 1) left text)
    (blank : ∀ ch ∈ spaces, isSpace ch = true) (second : s.IsTerm op.level right text') :
    s.IsTerm least (.binary op left right) (text ++ spaces ++ op.text ++ text') := by
  intro floor le pos rest breaks fuel enough
  have shape : text ++ spaces ++ op.text ++ text' ++ rest =
      text ++ (spaces ++ (op.text ++ (text' ++ rest))) := by simp
  have operator : Breaks (op.level - 1 + 1) (spaces ++ (op.text ++ (text' ++ rest))) :=
    (breaks_operator blank op (text' ++ rest)).mono (by omega)
  rw [shape] at enough ⊢
  rcases first floor (by omega) pos _ operator fuel enough with
    ⟨none, place, failed⟩ | ⟨x, spare, value, spared, climbed⟩
  · exact .inl ⟨by rw [Expr.value, none, Option.bind_none], place, failed⟩
  -- The operator follows, and binds tighter than the floor.
  obtain ⟨spare, rfl⟩ : ∃ n, spare = n + 1 := ⟨spare - 1, by omega⟩
  have long : 0 < op.text.length := by cases op <;> decide
  simp only [List.length_append] at spared
  rw [climbed, continued_operator spare _ _ blank (by omega)]
  rcases second op.level (Nat.le_refl _)
      (pos + utf8Length text + utf8Length spaces + utf8Length op.text) rest (breaks.mono (by omega)) spare
      (by rw [List.length_append]; omega) with
    ⟨none, place, failed⟩ | ⟨y, more, value', spared', climbed'⟩
  · exact .inl ⟨by simp [Expr.value, value, none], place, by rw [failed]⟩
  -- What follows the right operand does not bind tighter than the operator.
  obtain ⟨more, rfl⟩ : ∃ n, more = n + 1 := ⟨more - 1, by omega⟩
  rw [climbed', continued_breaks more _ (by omega : least + 1 ≤ op.level) _ breaks]
  have result : (Expr.binary op left right).value s = (op.compute x y).map Int64.toInt := by
    rw [op.map_compute, Expr.value, value, value', Option.bind_some, Option.bind_some]
  have total : pos + utf8Length text + utf8Length spaces + utf8Length op.text + utf8Length text' =
      pos + utf8Length (text ++ spaces ++ op.text ++ text') := by
    simp [utf8Length_append, Nat.add_assoc]
  cases computed : op.compute x y with
  | none =>
    refine .inl ⟨by rw [result, computed, Option.map_none], pos + utf8Length text + utf8Length spaces, ?_⟩
    simp [Operator.applied?, Value.known, computed]
  | some z =>
    refine .inr ⟨z, spare, by rw [result, computed, Option.map_some], by omega, ?_⟩
    simp only [Operator.applied?, Value.known, computed, Bool.or_self, total]

theorem Written.isTerm {least : Nat} {e : Expr} {text : List Char} (written : s.Written least e text) :
    s.IsTerm least e text ∧ (6 ≤ least → s.IsOperand e text) := by
  have both {least : Nat} {e : Expr} {text : List Char} (operand : s.IsOperand e text) :
      s.IsTerm least e text ∧ (6 ≤ least → s.IsOperand e text) :=
    ⟨operand.isTerm least, fun _ => operand⟩
  induction written with
  | number spelled bound =>
    apply both
    have reads : s.Reads _ _ := fun fuel pos _ stops => s.unary_spelled (fuel + 1) pos spelled bound stops
    exact reads.isOperand spelled.ne_nil rfl (by omega) (by omega)
  | char ch =>
    apply both
    have small : ch.toNat < 0x110000 := by
      have valid := ch.valid
      simp only [UInt32.isValidChar, Nat.isValidChar] at valid
      change ch.val.toNat < _
      omega
    have reads : s.Reads ['\x27', ch, '\x27'] ch.toNat := fun fuel pos rest _ => by
      rw [Int64.ofInt_eq_ofNat]
      exact unary_char (fuel + 1) pos ch rest
    exact reads.isOperand (by simp) rfl (by omega) (by omega)
  | @symbol least name identifier defined =>
    apply both
    obtain ⟨n, found⟩ := Option.isSome_iff_exists.mp defined
    have bound := n.toNat_lt
    exact (reads_symbol identifier found).isOperand (symbol_ne_nil identifier)
      (by rw [Expr.value, found, Option.getD_some]) (by omega) (by omega)
  | here =>
    have bound := s.location.toNat_lt
    exact both (s.reads_here.isOperand (by simp) rfl (by omega) (by omega))
  | signed sign _ ih => exact both (isOperand_signed sign (ih.2 (Nat.le_refl 6)))
  | bracketed bracket _ blank ih => exact both (isOperand_bracketed bracket ih.1 blank)
  | spaced blank _ ih => exact ⟨isTerm_spaced blank ih.1, fun tight => isOperand_spaced blank (ih.2 tight)⟩
  | @binary least op _ _ _ _ _ tighter _ blank _ first second =>
    refine ⟨isTerm_binary tighter first.1 blank second.1, fun tight => ?_⟩
    have loose := op.level_le
    omega

/-- An expression is evaluated as its grammar says. The text is taken as a whole, up to anything that does
not go on with it, and gives the value of the tree in wrapping 64-bit arithmetic; it is a fault if some
divisor is zero, or if the value does not fit 32 bits. After any fault the cursor stands where it was. -/
theorem eval_written {Mode Reg : Type} (s : Scope) {e : Expr} {text : List Char}
    (written : s.Written 0 e text) (pos : Nat) {rest : List Char} (breaks : Breaks 0 rest) :
    (match e.value s with
      | none => ∃ place, s.eval ⟨pos, text ++ rest⟩ = .error (Cause.divideByZero.located place)
      | some v =>
        if -2 ^ 31 ≤ v ∧ v ≤ 2 ^ 32 - 1 then
          ∃ result, s.eval ⟨pos, text ++ rest⟩ = .ok (result, ⟨pos + utf8Length text, rest⟩) ∧
            result.undefined = false ∧ result.toInt = v
        else s.eval ⟨pos, text ++ rest⟩ = .error (Cause.overflowRange.located pos)) ∧
    ∀ (op : Operand Mode Reg) c f, s.eval c = .error f → op.parseValue s c = (op.failed f, c) := by
  refine ⟨?_, fun op c f failed => by rw [Operand.parseValue, failed]⟩
  rcases written.isTerm.1 0 (Nat.le_refl 0) pos rest (breaks.mono (Nat.zero_le 1))
      (depth ⟨pos, text ++ rest⟩) (Nat.le_refl _) with
    ⟨none, place, failed⟩ | ⟨x, spare, value, spared, climbed⟩
  · rw [none]
    exact ⟨place, by rw [eval, failed]⟩
  · obtain ⟨spare, rfl⟩ : ∃ n, spare = n + 1 := ⟨spare - 1, by omega⟩
    rw [continued_breaks spare _ (Nat.le_refl 0) _ breaks] at climbed
    have ranged : (Value.known x).inRange = true ↔ -2 ^ 31 ≤ x.toInt ∧ x.toInt ≤ 2 ^ 32 - 1 := by
      rw [Value.inRange, Bool.decide_and, Bool.and_eq_true, decide_eq_true_eq, decide_eq_true_eq]
      change -0x80000000 ≤ x.toInt ∧ x.toInt < 0x100000000 ↔ _
      omega
    have finished : s.eval ⟨pos, text ++ rest⟩ = if (Value.known x).inRange then
        .ok (.known x, ⟨pos + utf8Length text, rest⟩) else .error (Cause.overflowRange.located pos) := by
      rw [eval, climbed]
      rfl
    rw [value]
    dsimp only
    rw [finished]
    simp only [ranged]
    split
    · exact ⟨.known x, rfl, rfl, rfl⟩
    · rfl

/-- The location counter, an operator and the mark of a number in one character each: `*` times binary 5,
and its remainder by a difference in brackets. -/
theorem eval_written_overloaded :
    let s : Scope := ⟨.motorola, ∅, 3⟩
    let e := Expr.binary .rem (.binary .mul .here (.number 5)) (.binary .sub (.number 7) .here)
    let text := ['*', '*', '%', '1', '0', '1', ' ', '%', '(', '7', '-', ' ', '*', ')']
    s.Written 0 e text ∧ e.value s = some 3 ∧
      ∃ result, s.eval ⟨0, text⟩ = .ok (result, ⟨14, []⟩) ∧ result.undefined = false ∧
        result.toInt = 3 := by
  intro s e text
  have binary : Spells 2 ['1', '0', '1'] 5 := ⟨by simp [isDigitOf, digit?], by decide, by simp [numeral, digit?]⟩
  have decimal : Spells 10 ['7'] 7 := spells_decimal 7
  have five : s.Written 6 (.number 5) (['%'] ++ ['1', '0', '1']) :=
    .number (.marked (show (['%'], 2) ∈ Dialect.motorola.marks by decide) binary) (by decide)
  have product : s.Written 5 (.binary .mul .here (.number 5))
      (['*'] ++ [] ++ Operator.mul.text ++ (['%'] ++ ['1', '0', '1'])) :=
    .binary (by decide) .here (by simp) five
  have difference : s.Written 0 (.binary .sub (.number 7) .here)
      (['7'] ++ [] ++ Operator.sub.text ++ [' ', '*']) :=
    .binary (by decide) (.number (.decimal decimal) (by decide)) (by simp) (.spaced rfl .here)
  have written : s.Written 0 e ((['*'] ++ [] ++ Operator.mul.text ++ (['%'] ++ ['1', '0', '1'])) ++ [' '] ++
      Operator.rem.text ++ ('(' :: (['7'] ++ [] ++ Operator.sub.text ++ [' ', '*']) ++ [] ++ [')'])) :=
    .binary (by decide) product (by simp [isSpace]) (.bracketed (by simp) difference (by simp))
  have value : e.value s = some 3 := by decide
  have breaks : Breaks 0 [] := ⟨rfl, fun op more found => by cases op <;> simp [Operator.text] at found⟩
  have found := @eval_written Unit Unit s e text written 0 [] breaks
  simp only [value, show -2 ^ 31 ≤ (3 : Int) ∧ (3 : Int) ≤ 2 ^ 32 - 1 by decide, and_self, if_true] at found
  exact ⟨written, value, found.1⟩

end Scope

end CrossAsm
