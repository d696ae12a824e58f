import CrossAsm.Proofs.Expression.Grammar
import CrossAsm.Proofs.Resolution.Expression
import CrossAsm.Proofs.Symbols

/-! The tree of an expression as it is read, apart from what its names stand for. Reading is the same
under every symbol table, so the names of an expression are known before their values are; evaluation
gives the value of the tree, and leaves it open exactly if one of the names has none. A table that
knows fewer names can therefore only leave open what a larger one settles. -/

namespace CrossAsm

open Text

/-! ### Reading trees -/

def Sign.ofChar? : Char → Option Sign
  | '-' => some minus
  | '+' => some plus
  | '~' => some complement
  | '!' => some negation
  | _ => none

namespace Dialect

variable (d : Dialect)

/-- The character between quotes. -/
def quotedTree? (c : Cursor) : Option (Expr × Cursor) :=
  (c.advance 1).peek?.bind fun ch =>
    (((c.advance 1).advance 1).eat? '\x27').map fun after => (.char ch, after)

/-- A literal, the location counter or a name. -/
def atomTree? (c : Cursor) : Option (Expr × Cursor) :=
  match Literal.read? d c with
  | some (.ok (n, after)) => some (.number n, after)
  | some (.error _) => none
  | none =>
    match c.eat? d.locationSymbol with
    | some after => some (.here, after)
    | none => c.ident?.map fun (name, after) => (.symbol name, after)

mutual

/-- An operand with its signs and brackets. -/
def unaryTree? : Nat → Cursor → Option (Expr × Cursor)
  | 0, _ => none
  | fuel + 1, c =>
    c.skipSpaces.peek?.bind fun ch =>
      match Sign.ofChar? ch with
      | some sign =>
        (unaryTree? fuel (c.skipSpaces.advance 1)).map fun (e, after) => (.signed sign e, after)
      | none =>
        match closing? ch with
        | some close =>
          (binaryTree? fuel 0 (c.skipSpaces.advance 1)).bind fun (e, after) =>
            (after.skipSpaces.eat? close).map fun after => (e, after)
        | none => if ch = '\x27' then quotedTree? c.skipSpaces else d.atomTree? c.skipSpaces

/-- Operands joined by operators that bind more tightly than `least`. -/
def binaryTree? : Nat → Nat → Cursor → Option (Expr × Cursor)
  | 0, _, _ => none
  | fuel + 1, least, c =>
    (unaryTree? fuel c).bind fun (e, after) => continuedTree? fuel least e after

/-- The operators and operands that follow a left operand. -/
def continuedTree? : Nat → Nat → Expr → Cursor → Option (Expr × Cursor)
  | 0, _, _, _ => none
  | fuel + 1, least, left, c =>
    match Operator.read? c.skipSpaces.rest with
    | none => some (left, c)
    | some (op, length) =>
      if op.precedence ≤ least then some (left, c)
      else
        (binaryTree? fuel op.precedence (c.skipSpaces.advance length)).bind fun (right, after) =>
          continuedTree? fuel least (.binary op left right) after

end

/-- The tree of the expression at the cursor, and the cursor behind it. -/
def tree? (c : Cursor) : Option (Expr × Cursor) := d.binaryTree? (Scope.depth c) 0 c

end Dialect

/-- The names in an expression. -/
def Expr.names : Expr → List String
  | symbol name => [name]
  | signed _ operand => operand.names
  | binary _ left right => left.names ++ right.names
  | _ => []

/-! ### Evaluation of trees -/

/-- What an expression gives: its value, which stays open as long as one of its names has none. -/
structure Scope.Gives (s : Scope) (e : Expr) (v : Value) : Prop where
  waits : v.undefined = true ↔ ∃ name ∈ e.names, s.symbols.value? name = none
  value : v.undefined = false → e.value s = some v.toInt

theorem Sign.ofChar?_of_some {ch : Char} {act : Int64 → Int64} (signs : sign? ch = some act) :
    ∃ sign, ofChar? ch = some sign ∧ ∀ x, (act x).toInt = sign.result x.toInt := by
  have known (sign : Sign) (here : ch = sign.char) : ∀ x, (act x).toInt = sign.result x.toInt := by
    obtain ⟨found, same, result⟩ := sign.exists_sign?
    rw [here, same] at signs
    exact Option.some.inj signs ▸ result
  unfold sign? at signs
  split at signs
  · exact ⟨.minus, rfl, known .minus rfl⟩
  · exact ⟨.plus, rfl, known .plus rfl⟩
  · exact ⟨.complement, rfl, known .complement rfl⟩
  · exact ⟨.negation, rfl, known .negation rfl⟩
  · simp at signs

theorem Sign.ofChar?_of_none {ch : Char} (unsigned : sign? ch = none) : ofChar? ch = none := by
  unfold sign? at unsigned
  split at unsigned <;> simp_all [ofChar?]

namespace Scope

variable {s : Scope}

theorem toInt_known_ofNat {n : Nat} (small : n < 0x100000000) :
    (Value.known (Int64.ofNat n)).toInt = n := by
  rw [← Int64.ofInt_eq_ofNat]
  exact toInt_known (by omega) (by omega)

/-- A number that is known whatever the names stand for. -/
theorem gives_known {e : Expr} {n : Nat} (bare : e.names = []) (value : e.value s = some (n : Int))
    (small : n < 0x100000000) : s.Gives e (.known (Int64.ofNat n)) :=
  ⟨by simp [Value.known, bare], fun _ => by rw [value, toInt_known_ofNat small]⟩

theorem Gives.signed {e : Expr} {v : Value} (gives : s.Gives e v) {sign : Sign}
    {act : Int64 → Int64} (acts : ∀ x, (act x).toInt = sign.result x.toInt) :
    s.Gives (.signed sign e) (v.map act) := by
  refine ⟨gives.waits, fun known => ?_⟩
  rw [Expr.value, gives.value known, Option.map_some]
  exact congrArg some (acts v.num).symm

/-- The result of an operator waits for both of its operands. -/
theorem Gives.binary {left right : Expr} {a b v : Value} {op : Operator} (first : s.Gives left a)
    (second : s.Gives right b) (applied : op.applied? a b = some v) :
    s.Gives (.binary op left right) v := by
  have joined : v.undefined = (a.undefined || b.undefined) := by
    unfold Operator.applied? at applied
    dsimp only at applied
    split at applied
    · exact (Option.some.inj applied) ▸ rfl
    · split at applied
      next waits => exact (Option.some.inj applied) ▸ waits.symm
      · simp at applied
  constructor
  · rw [joined, Bool.or_eq_true, first.waits, second.waits]
    simp only [Expr.names, List.mem_append, or_and_right, exists_or]
  · intro known
    rw [joined, Bool.or_eq_false_iff] at known
    obtain ⟨knownLeft, knownRight⟩ := known
    -- Both sides are known, so a divisor of zero would have been a fault.
    have computed : op.compute a.num b.num = some v.num := by
      unfold Operator.applied? at applied
      dsimp only at applied
      split at applied
      next computed => exact (Option.some.inj applied) ▸ computed
      · simp [knownLeft, knownRight] at applied
    rw [Expr.value, first.value knownLeft, second.value knownRight, Option.bind_some,
      Option.bind_some]
    exact (op.map_compute a.num b.num).symm.trans (congrArg (Option.map Int64.toInt) computed)

theorem exists_quotedTree {c after : Cursor} {v : Value} (read : quoted c = .ok (v, after)) :
    ∃ e, Dialect.quotedTree? c = some (e, after) ∧ s.Gives e v := by
  simp only [quoted] at read
  split at read
  · simp at read
  next ch ahead =>
    split at read
    · simp at read
    next closed =>
      cases read
      refine ⟨.char ch, by simp [Dialect.quotedTree?, ahead, closed], gives_known rfl rfl ?_⟩
      have valid := ch.valid
      simp only [UInt32.isValidChar, Nat.isValidChar] at valid
      change ch.val.toNat < _
      omega

/-- A literal is never larger than the words it may stand for. -/
theorem le_limit_of_accumulate {radix start n : Nat} {digits : List Char}
    (read : Literal.accumulate radix start digits = .ok n) (small : start ≤ Literal.limit) :
    n ≤ Literal.limit := by
  induction digits generalizing start with
  | nil => exact (Except.ok.inj read) ▸ small
  | cons ch digits ih =>
    rw [Literal.accumulate] at read
    split at read
    · simp at read
    · dsimp only at read
      split at read
      next below => exact ih read below
      · simp at read

theorem le_limit_of_read? {d : Dialect} {c after : Cursor} {n : Nat}
    (read : Literal.read? d c = some (.ok (n, after))) : n ≤ Literal.limit := by
  have plain {radix origin : Nat} {c : Cursor}
      (read : Literal.plain radix origin c = .ok (n, after)) : n ≤ Literal.limit := by
    simp only [Literal.plain] at read
    split at read
    · simp at read
    · split at read
      next accumulated =>
        cases read
        exact le_limit_of_accumulate accumulated (Nat.zero_le _)
      · simp at read
  have suffixed {origin : Nat} {c : Cursor}
      (read : Literal.withSuffix origin c = .ok (n, after)) : n ≤ Literal.limit := by
    simp only [Literal.withSuffix] at read
    split at read
    next accumulated =>
      cases read
      exact le_limit_of_accumulate accumulated (Nat.zero_le _)
    · simp at read
  unfold Literal.read? at read
  split at read
  · exact plain (Option.some.inj read)
  · split at read
    · split at read
      · exact suffixed (Option.some.inj read)
      · exact plain (Option.some.inj read)
    · simp at read

theorem exists_atomTree {c after : Cursor} {v : Value} (read : s.atom c = .ok (v, after)) :
    ∃ e, s.dialect.atomTree? c = some (e, after) ∧ s.Gives e v := by
  unfold atom at read
  unfold Dialect.atomTree?
  cases literal : Literal.read? s.dialect c with
  | some result =>
    rcases result with f | ⟨n, behind⟩
    · simp [literal] at read
    · simp only [literal, Except.ok.injEq, Prod.mk.injEq] at read
      obtain ⟨rfl, rfl⟩ := read
      have small := le_limit_of_read? literal
      simp only [Literal.limit] at small
      exact ⟨.number n, rfl, gives_known rfl rfl (by omega)⟩
  | none =>
    simp only [literal] at read ⊢
    cases here : c.eat? s.dialect.locationSymbol with
    | some behind =>
      simp only [here, Except.ok.injEq, Prod.mk.injEq] at read
      obtain ⟨rfl, rfl⟩ := read
      exact ⟨.here, rfl, gives_known rfl rfl s.location.toNat_lt⟩
    | none =>
      simp only [here] at read ⊢
      cases named : c.ident? with
      | none => simp [named] at read
      | some ident =>
        obtain ⟨name, behind⟩ := ident
        simp only [named] at read
        cases defined : s.symbols.value? name with
        | some n =>
          simp only [defined, Except.ok.injEq, Prod.mk.injEq] at read
          obtain ⟨rfl, rfl⟩ := read
          refine ⟨.symbol name, rfl, ⟨by simp [Value.known, Expr.names, defined], fun _ => ?_⟩⟩
          rw [Expr.value, defined, Option.getD_some, toInt_known_ofNat n.toNat_lt]
        | none =>
          -- The placeholder for the name is open, so nothing has to be said of its value.
          simp only [defined, Except.ok.injEq, Prod.mk.injEq] at read
          obtain ⟨rfl, rfl⟩ := read
          exact ⟨.symbol name, rfl, ⟨by simp [Value.unknown, Expr.names, defined],
            fun known => absurd known (by decide)⟩⟩

/-- What is read to a value is a tree that gives it. -/
def ReadsTree (s : Scope) (read : Cursor → Except Fault (Value × Cursor))
    (tree : Cursor → Option (Expr × Cursor)) : Prop :=
  ∀ c v after, read c = .ok (v, after) → ∃ e, tree c = some (e, after) ∧ s.Gives e v

variable {fuel least : Nat}

theorem unary_readsTree (ofUnary : s.ReadsTree (s.unary fuel) (s.dialect.unaryTree? fuel))
    (ofBinary : s.ReadsTree (s.binary fuel 0) (s.dialect.binaryTree? fuel 0)) :
    s.ReadsTree (s.unary (fuel + 1)) (s.dialect.unaryTree? (fuel + 1)) := by
  intro c v after read
  simp only [unary] at read
  simp only [Dialect.unaryTree?]
  cases look : c.skipSpaces.peek? with
  | none => simp [look] at read
  | some ch =>
    simp only [look, Option.bind_some] at read ⊢
    cases signs : sign? ch with
    | some act =>
      obtain ⟨sign, is, acts⟩ := Sign.ofChar?_of_some signs
      simp only [signs] at read
      split at read
      next operand behind inner =>
        cases read
        obtain ⟨e, tree, gives⟩ := ofUnary _ _ _ inner
        exact ⟨.signed sign e, by simp only [is, tree, Option.map_some], gives.signed acts⟩
      · simp at read
    | none =>
      simp only [signs] at read
      simp only [Sign.ofChar?_of_none signs]
      cases brackets : closing? ch with
      | some close =>
        simp only [brackets] at read ⊢
        split at read
        next inside behind inner =>
          split at read
          next closed =>
            cases read
            obtain ⟨e, tree, gives⟩ := ofBinary _ _ _ inner
            exact ⟨e, by simp only [tree, Option.bind_some, closed, Option.map_some], gives⟩
          · simp at read
        · simp at read
      | none =>
        simp only [brackets] at read ⊢
        split at read
        next quote =>
          rw [if_pos quote]
          exact exists_quotedTree read
        next plain =>
          rw [if_neg plain]
          exact exists_atomTree read

theorem binary_readsTree (ofUnary : s.ReadsTree (s.unary fuel) (s.dialect.unaryTree? fuel))
    (ofContinued : ∀ {left e}, s.Gives e left →
      s.ReadsTree (s.continued fuel least left) (s.dialect.continuedTree? fuel least e)) :
    s.ReadsTree (s.binary (fuel + 1) least) (s.dialect.binaryTree? (fuel + 1) least) := by
  intro c v after read
  simp only [binary] at read
  split at read
  next first behind operand =>
    obtain ⟨e, tree, gives⟩ := ofUnary _ _ _ operand
    simp only [Dialect.binaryTree?, tree, Option.bind_some]
    exact ofContinued gives _ _ _ read
  · simp at read

theorem continued_readsTree {left : Value} {e : Expr} (gives : s.Gives e left)
    (ofBinary : ∀ least, s.ReadsTree (s.binary fuel least) (s.dialect.binaryTree? fuel least))
    (ofContinued : ∀ {left e}, s.Gives e left →
      s.ReadsTree (s.continued fuel least left) (s.dialect.continuedTree? fuel least e)) :
    s.ReadsTree (s.continued (fuel + 1) least left)
      (s.dialect.continuedTree? (fuel + 1) least e) := by
  intro c v after read
  simp only [continued] at read
  simp only [Dialect.continuedTree?]
  cases operator : Operator.read? c.skipSpaces.rest with
  | none =>
    simp only [operator, Except.ok.injEq, Prod.mk.injEq] at read
    obtain ⟨rfl, rfl⟩ := read
    exact ⟨e, rfl, gives⟩
  | some found =>
    obtain ⟨op, length⟩ := found
    simp only [operator] at read ⊢
    split at read
    next loose =>
      simp only [Except.ok.injEq, Prod.mk.injEq] at read
      obtain ⟨rfl, rfl⟩ := read
      exact ⟨e, by rw [if_pos loose], gives⟩
    next tight =>
      rw [if_neg tight]
      split at read
      · simp at read
      next right behind operand =>
        obtain ⟨e', tree, second⟩ := ofBinary _ _ _ _ operand
        simp only [tree, Option.bind_some]
        split at read
        next result applied => exact ofContinued (gives.binary second applied) _ _ _ read
        · simp at read

-- One induction on the fuel for the three levels of the grammar, which call each other with less.
theorem levels_readTree (s : Scope) (fuel : Nat) :
    s.ReadsTree (s.unary fuel) (s.dialect.unaryTree? fuel) ∧
      (∀ least, s.ReadsTree (s.binary fuel least) (s.dialect.binaryTree? fuel least)) ∧
      (∀ least {left e}, s.Gives e left →
        s.ReadsTree (s.continued fuel least left) (s.dialect.continuedTree? fuel least e)) := by
  induction fuel with
  | zero => simp [ReadsTree, unary, binary, continued]
  | succ fuel ih =>
    obtain ⟨ofUnary, ofBinary, ofContinued⟩ := ih
    exact ⟨unary_readsTree ofUnary (ofBinary 0),
      fun least => binary_readsTree ofUnary (ofContinued least),
      fun least _ _ gives => continued_readsTree gives ofBinary (ofContinued least)⟩

/-- What is evaluated is a tree, which the dialect alone decides, and the result is what it gives. -/
theorem exists_tree_of_eval {c after : Cursor} {v : Value} (read : s.eval c = .ok (v, after)) :
    ∃ e, s.dialect.tree? c = some (e, after) ∧ s.Gives e v := by
  rw [eval] at read
  split at read
  · simp at read
  next whole =>
    split at read
    · cases read
      exact (levels_readTree s _).2.1 _ _ _ _ whole
    · simp at read

/-! ### Fewer symbols -/

/-- Under a table that knows less, the same text is read. Its value is left open exactly if the table
lacks one of the names in it, and otherwise it is the value under the larger table. -/
theorem eval_of_fewer_symbols (dialect : Dialect) (location : UInt32) {symbols known : Symbols}
    (within : symbols.Within known) {c after : Cursor} {v : Value}
    (read : eval ⟨dialect, known, location⟩ c = .ok (v, after)) :
    ∃ w e, eval ⟨dialect, symbols, location⟩ c = .ok (w, after) ∧ (w.undefined = false → w = v) ∧
      dialect.tree? c = some (e, after) ∧
      (w.undefined = true ↔ ∃ name ∈ e.names, symbols.value? name = none) := by
  have scopes : Within ⟨dialect, symbols, location⟩ ⟨dialect, known, location⟩ := ⟨rfl, rfl, within⟩
  obtain ⟨w, fewer, resolves⟩ := exists_eval scopes read
  obtain ⟨e, tree, gives⟩ := exists_tree_of_eval fewer
  exact ⟨w, e, fewer, fun final => (resolves final).symm, tree, gives.waits⟩

/-- A quotient whose divisor vanishes as long as its names have no values, with text behind it. -/
theorem eval_of_fewer_symbols_divisor :
    let symbols := Symbols.ofList [("SIZE", 48)]
    let known := Symbols.ofList [("SIZE", 48), ("TOP", 10), ("LOW", 4)]
    let c := Cursor.start "SIZE/(TOP-LOW) + $,A"
    let after : Cursor := ⟨18, [',', 'A']⟩
    symbols.Within known ∧ eval ⟨.intel, known, 0x100⟩ c = .ok (.known 0x108, after) ∧
      ∃ w e, eval ⟨.intel, symbols, 0x100⟩ c = .ok (w, after) ∧
        (w.undefined = false → w = .known 0x108) ∧ Dialect.intel.tree? c = some (e, after) ∧
        (w.undefined = true ↔ ∃ name ∈ e.names, symbols.value? name = none) := by
  intro symbols known c after
  have within : symbols.Within known := by
    intro name value defined
    obtain rfl : "SIZE" = name := by
      simpa using Symbols.exists_of_value?_ofList [("SIZE", 48)] name value defined
    have same : known.value? "SIZE" = symbols.value? "SIZE" := by decide
    exact same.trans defined
  have read : eval ⟨.intel, known, 0x100⟩ c = .ok (.known 0x108, after) := by decide
  exact ⟨within, read, eval_of_fewer_symbols .intel 0x100 within read⟩

end Scope

end CrossAsm
