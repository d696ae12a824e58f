import CrossAsm.Proofs.Text.ByteCursor

/-! Expressions evaluated by bytes: each level of the grammar with a cursor that moves by numbers
of bytes and goes back to positions it has kept. No cut goes through a character, and the values,
the faults and the bytes the cursor is left at are those of the expressions. -/

namespace CrossAsm

open Text

namespace ByteCursor

/-- Takes so many characters, one after the other. -/
def bumps? (b : ByteCursor) : Nat → Option ByteCursor
  | 0 => some b
  | n + 1 => do
    let (_, after) ← b.bump?
    after.bumps? n

def literal? (b : ByteCursor) (d : Dialect) :
    Option (Option (Except Fault (Nat × ByteCursor))) := do
  let rest ← b.rest?
  match d.radixMark? rest.toList with
  | some (length, radix) =>
    let after ← b.bumps? length
    (after.digits? radix b.pos).map some
  | none =>
    if rest.toList.head?.any Char.isDigit then
      (if d = .intel then b.withSuffix? b.pos else b.digits? 10 b.pos).map some
    else some none

def quoted? (b : ByteCursor) : Option (Except Fault (Value × ByteCursor)) := do
  let (_, inside) ← b.bump?
  let (next, after) ← inside.bump?
  match next with
  | none => some (.error (Cause.missingClosingQuote.located b.pos))
  | some ch =>
    let (closed, behind) ← after.eat? '\x27'
    if closed then some (.ok (.known (Int64.ofNat ch.toNat), behind))
    else some (.error (Cause.missingClosingQuote.located after.pos))

def atom? (b : ByteCursor) (s : Scope) : Option (Except Fault (Value × ByteCursor)) := do
  match ← b.literal? s.dialect with
  | some (.ok (n, after)) => some (.ok (.known (Int64.ofNat n), after))
  | some (.error fault) => some (.error fault)
  | none =>
    let (here, after) ← b.eat? s.dialect.locationSymbol
    if here then some (.ok (.known (Int64.ofNat s.location.toNat), after))
    else
      let (name, after) ← b.ident?
      match name with
      | none => some (.error (Cause.unknownOperand.located b.pos))
      | some name =>
        match s.symbols.value? name with
        | some n => some (.ok (.known (Int64.ofNat n.toNat), after))
        | none => some (.ok (.unknown, after))

mutual

def unary? (s : Scope) : Nat → ByteCursor → Option (Except Fault (Value × ByteCursor))
  | 0, b => some (.error (Cause.internalError.located b.pos))
  | fuel + 1, b => do
    let b ← b.skipSpaces?
    match ← b.peek? with
    | none => some (.error (Cause.unknownOperand.located b.pos))
    | some ch =>
      match sign? ch with
      | some f =>
        let (_, inside) ← b.bump?
        match ← unary? s fuel inside with
        | .ok (v, after) => some (.ok (v.map f, after))
        | .error fault => some (.error fault)
      | none =>
        match closing? ch with
        | some close =>
          let (_, inside) ← b.bump?
          match ← binary? s fuel 0 inside with
          | .ok (v, after) =>
            let after ← after.skipSpaces?
            let (closed, behind) ← after.eat? close
            if closed then some (.ok (v, behind))
            else some (.error (Cause.missingClosingParen.located after.pos))
          | .error fault => some (.error fault)
        | none => if ch = '\x27' then b.quoted? else b.atom? s

def binary? (s : Scope) : Nat → Nat → ByteCursor → Option (Except Fault (Value × ByteCursor))
  | 0, _, b => some (.error (Cause.internalError.located b.pos))
  | fuel + 1, least, b => do
    match ← unary? s fuel b with
    | .ok (v, after) => continued? s fuel least v after
    | .error fault => some (.error fault)

/-- The operators behind a left operand. In front of anything else it goes back to the operand. -/
def continued? (s : Scope) :
    Nat → Nat → Value → ByteCursor → Option (Except Fault (Value × ByteCursor))
  | 0, _, _, b => some (.error (Cause.internalError.located b.pos))
  | fuel + 1, least, left, b => do
    let sign ← b.skipSpaces?
    let rest ← sign.rest?
    match Operator.read? rest.toList with
    | none => some (.ok (left, sign.seek b.pos))
    | some (op, length) =>
      let behind ← sign.bumps? length
      if op.precedence ≤ least then some (.ok (left, behind.seek b.pos))
      else
        match ← binary? s fuel op.precedence behind with
        | .error fault => some (.error fault)
        | .ok (right, after) =>
          match op.applied? left right with
          | some v => continued? s fuel least v after
          | none => some (.error (Cause.divideByZero.located sign.pos))

end

/-- Evaluates the expression at the cursor, and goes back to the front of it if it has no value. -/
def eval? (b : ByteCursor) (s : Scope) : Option (Except Fault Value × ByteCursor) := do
  let rest ← b.rest?
  match ← binary? s (2 * rest.toList.length + 2) 0 b with
  | .error fault => some (.error fault, b.seek b.pos)
  | .ok (v, after) =>
    if v.undefined || v.inRange then some (.ok v, after)
    else some (.error (Cause.overflowRange.located b.pos), after.seek b.pos)

end ByteCursor

namespace Cursor

theorem advance_advance (c : Cursor) (m n : Nat) : (c.advance m).advance n = c.advance (m + n) := by
  simp [advance, List.take_add, utf8Length_append, Nat.add_assoc]

namespace Within

variable {line : String} {c : Cursor} (within : Within line c)

include within

theorem bumps?_onBytes (n : Nat) :
    (c.onBytes line).bumps? n = some ((c.advance n).onBytes line) := by
  induction n generalizing c with
  | zero => simp [ByteCursor.bumps?, advance, utf8Length, onBytes]
  | succ n ih =>
    simp only [ByteCursor.bumps?, within.bump?_onBytes, Option.bind_eq_bind, Option.bind_some]
    rw [ih (within.of_reaches (c.reaches_advance 1)), advance_advance, Nat.add_comm]

/-- From anywhere in the line, the byte of a cursor that is in it can be returned to. -/
theorem seek_onBytes (d : Cursor) :
    (d.onBytes line).seek (c.onBytes line).pos = c.onBytes line := by
  have size := within.pos_add
  simp only [ByteCursor.seek, onBytes]
  rw [Nat.min_eq_left (by omega)]

theorem literal?_onBytes (d : Dialect) :
    (c.onBytes line).literal? d = some ((Literal.read? d c).map (landed line)) := by
  simp only [ByteCursor.literal?, within.rest?_onBytes, Option.bind_eq_bind, Option.bind_some,
    String.toList_ofList, Literal.read?]
  cases d.radixMark? c.rest with
  | some mark =>
    have later := within.of_reaches (c.reaches_advance mark.1)
    simp only [within.bumps?_onBytes, Option.bind_some, later.digits?_onBytes, Option.map_some]
    rfl
  | none =>
    by_cases digit : c.peek?.any Char.isDigit = true
    · simp only [if_pos digit, if_pos (show c.rest.head?.any Char.isDigit = true from digit),
        within.digits?_onBytes, within.withSuffix?_onBytes _ digit]
      split <;> rfl
    · simp only [if_neg digit, if_neg (show ¬c.rest.head?.any Char.isDigit = true from digit)]
      rfl

theorem quoted?_onBytes : (c.onBytes line).quoted? = some (landed line (Scope.quoted c)) := by
  have inside := within.of_reaches (c.reaches_advance 1)
  have after := inside.of_reaches (reaches_advance _ 1)
  simp only [ByteCursor.quoted?, within.bump?_onBytes, inside.bump?_onBytes, Option.bind_eq_bind,
    Option.bind_some, Scope.quoted]
  cases (c.advance 1).peek? with
  | none => rfl
  | some ch =>
    simp only [after.eat?_onBytes, Option.bind_some]
    cases ((c.advance 1).advance 1).eat? '\x27' <;> rfl

theorem atom?_onBytes (s : Scope) :
    (c.onBytes line).atom? s = some (landed line (s.atom c)) := by
  simp only [ByteCursor.atom?, within.literal?_onBytes, Option.bind_eq_bind, Option.bind_some,
    Scope.atom, within.eat?_onBytes, within.ident?_onBytes]
  cases Literal.read? s.dialect c with
  | some read => cases read <;> rfl
  | none =>
    cases c.eat? s.dialect.locationSymbol with
    | some after => rfl
    | none =>
      cases c.ident? with
      | none => rfl
      | some found => cases value : s.symbols.value? found.1 <;> simp [value, landed]

end Within

end Cursor

/-! ### Levels of the grammar -/

namespace Scope

/-- From every cursor in the line, the bytes give what the text does. -/
def InStep (line : String) (byBytes : ByteCursor → Option (Except Fault (Value × ByteCursor)))
    (byText : Cursor → Except Fault (Value × Cursor)) : Prop :=
  ∀ c : Cursor, c.Within line → byBytes (c.onBytes line) = some (Cursor.landed line (byText c))

variable {s : Scope} {line : String} {fuel : Nat}

theorem unary_inStep (ofUnary : InStep line (ByteCursor.unary? s fuel) (s.unary fuel))
    (ofBinary : InStep line (ByteCursor.binary? s fuel 0) (s.binary fuel 0)) :
    InStep line (ByteCursor.unary? s (fuel + 1)) (s.unary (fuel + 1)) := by
  intro c within
  have spaced := within.of_reaches c.reaches_skipSpaces
  have inside := spaced.of_reaches (Cursor.reaches_advance _ 1)
  simp only [ByteCursor.unary?, within.skipSpaces?_onBytes, spaced.peek?_onBytes,
    spaced.bump?_onBytes, Option.bind_eq_bind, Option.bind_some, ofUnary _ inside,
    ofBinary _ inside, spaced.quoted?_onBytes, spaced.atom?_onBytes, unary]
  cases c.skipSpaces.peek? with
  | none => rfl
  | some ch =>
    dsimp only
    cases sign? ch with
    | some f => cases s.unary fuel (c.skipSpaces.advance 1) <;> rfl
    | none =>
      dsimp only
      cases closing? ch with
      | none => dsimp only; split <;> rfl
      | some close =>
        cases read : s.binary fuel 0 (c.skipSpaces.advance 1) with
        | error fault => rfl
        | ok found =>
          -- What is between the brackets leaves the cursor in the line, for reading goes forward.
          have behind := inside.of_reaches ((s.reaches_levels fuel).2.1 _ _ _ _ read)
          have closed := behind.of_reaches found.2.reaches_skipSpaces
          simp only [Cursor.landed, behind.skipSpaces?_onBytes, closed.eat?_onBytes,
            Option.bind_some]
          cases found.2.skipSpaces.eat? close <;> rfl

theorem binary_inStep {least : Nat}
    (ofUnary : InStep line (ByteCursor.unary? s fuel) (s.unary fuel))
    (ofContinued : ∀ left,
      InStep line (ByteCursor.continued? s fuel least left) (s.continued fuel least left)) :
    InStep line (ByteCursor.binary? s (fuel + 1) least) (s.binary (fuel + 1) least) := by
  intro c within
  simp only [ByteCursor.binary?, ofUnary c within, Option.bind_eq_bind, Option.bind_some, binary]
  cases read : s.unary fuel c with
  | error fault => rfl
  | ok found => exact ofContinued _ _ (within.of_reaches ((s.reaches_levels fuel).1 _ _ _ read))

theorem continued_inStep {least : Nat} {left : Value}
    (ofBinary : ∀ least, InStep line (ByteCursor.binary? s fuel least) (s.binary fuel least))
    (ofContinued : ∀ left,
      InStep line (ByteCursor.continued? s fuel least left) (s.continued fuel least left)) :
    InStep line (ByteCursor.continued? s (fuel + 1) least left)
      (s.continued (fuel + 1) least left) := by
  intro c within
  have spaced := within.of_reaches c.reaches_skipSpaces
  simp only [ByteCursor.continued?, within.skipSpaces?_onBytes, spaced.rest?_onBytes,
    Option.bind_eq_bind, Option.bind_some, String.toList_ofList, within.seek_onBytes, continued]
  cases Operator.read? c.skipSpaces.rest with
  | none => rfl
  | some found =>
    obtain ⟨op, length⟩ := found
    have behind := spaced.of_reaches (Cursor.reaches_advance _ length)
    -- The operator has been taken when its precedence is looked at, so both ways to stop go back.
    simp only [spaced.bumps?_onBytes, Option.bind_some, within.seek_onBytes, ofBinary _ _ behind]
    split
    · rfl
    cases read : s.binary fuel op.precedence (c.skipSpaces.advance length) with
    | error fault => rfl
    | ok operand =>
      have after := behind.of_reaches ((s.reaches_levels fuel).2.1 _ _ _ _ read)
      simp only [Cursor.landed]
      cases op.applied? left operand.1 with
      | none => rfl
      | some v => exact ofContinued _ _ after

-- As in `reaches_levels`, each level calls the others with one unit of fuel less.
theorem levels_inStep (s : Scope) (line : String) (fuel : Nat) :
    InStep line (ByteCursor.unary? s fuel) (s.unary fuel) ∧
      (∀ least, InStep line (ByteCursor.binary? s fuel least) (s.binary fuel least)) ∧
      (∀ least left,
        InStep line (ByteCursor.continued? s fuel least left) (s.continued fuel least left)) := by
  induction fuel with
  | zero => exact ⟨fun _ _ => rfl, fun _ _ _ => rfl, fun _ _ _ _ => rfl⟩
  | succ fuel ih =>
    obtain ⟨ofUnary, ofBinary, ofContinued⟩ := ih
    exact ⟨unary_inStep ofUnary (ofBinary 0),
      fun least => binary_inStep ofUnary (ofContinued least),
      fun least left => continued_inStep ofBinary (ofContinued least)⟩

end Scope

/-- A value leaves the cursor behind its expression, and a fault leaves it where it was. -/
theorem Cursor.Within.eval?_onBytes {line : String} {c : Cursor} (within : c.Within line)
    (s : Scope) : (c.onBytes line).eval? s =
      some (match s.eval c with
        | .ok (v, after) => (.ok v, after.onBytes line)
        | .error fault => (.error fault, c.onBytes line)) := by
  simp only [ByteCursor.eval?, within.rest?_onBytes, Option.bind_eq_bind, Option.bind_some,
    String.toList_ofList, (s.levels_inStep line _).2.1 0 c within, within.seek_onBytes, Scope.eval,
    Scope.depth]
  cases s.binary (2 * c.rest.length + 2) 0 c with
  | error fault => rfl
  | ok found =>
    simp only [landed, within.seek_onBytes]
    split <;> rfl

end CrossAsm
