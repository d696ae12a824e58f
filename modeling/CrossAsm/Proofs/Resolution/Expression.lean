import CrossAsm.Operand

/-! Expressions under two symbol tables of which one knows more. What the larger table makes sense of,
the smaller one does too: it reads the same text, and either gives the same number or leaves it open. -/

namespace CrossAsm

/-- Every definition of the table is one of the larger table. -/
def Symbols.Within (symbols known : Symbols) : Prop :=
  ∀ name value, symbols.value? name = some value → known.value? name = some value

theorem Symbols.empty_within (known : Symbols) : (∅ : Symbols).Within known :=
  fun _ _ defined => nomatch defined

/-- A value that does not wait for a symbol is final. -/
def Value.Resolves (v known : Value) : Prop := v.undefined = false → known = v

namespace Value.Resolves

theorem refl (v : Value) : v.Resolves v := fun _ => rfl

theorem map {v known : Value} (resolves : v.Resolves known) (f : Int64 → Int64) :
    (v.map f).Resolves (known.map f) := by
  intro final
  rw [resolves final]

end Value.Resolves

/-- An operator that has a result for two known values has one as long as they are not known. -/
theorem Operator.exists_applied {op : Operator} {a b a' b' result : Value} (left : a.Resolves a')
    (right : b.Resolves b') (applied : op.applied? a' b' = some result) :
    ∃ v, op.applied? a b = some v ∧ v.Resolves result := by
  cases waits : a.undefined || b.undefined with
  | false =>
    obtain ⟨finalLeft, finalRight⟩ := Bool.or_eq_false_iff.mp waits
    rw [left finalLeft, right finalRight] at applied
    exact ⟨result, applied, .refl result⟩
  | true =>
    cases computed : op.compute a.num b.num with
    | some num =>
      refine ⟨⟨num, true⟩, by simp only [applied?, computed, waits], fun final => ?_⟩
      simp at final
    | none =>
      refine ⟨⟨0, true⟩, by simp only [applied?, computed, waits, if_true], fun final => ?_⟩
      simp at final

namespace Scope

/-- Two scopes that differ in the symbols they know. -/
structure Within (s known : Scope) : Prop where
  dialect : known.dialect = s.dialect
  location : known.location = s.location
  symbols : s.symbols.Within known.symbols

variable {s known : Scope} (within : s.Within known)

include within

theorem exists_atom {c d : Cursor} {v : Value} (read : known.atom c = .ok (v, d)) :
    ∃ w, s.atom c = .ok (w, d) ∧ w.Resolves v := by
  rw [atom, within.dialect, within.location] at read
  rw [atom]
  cases literal : Literal.read? s.dialect c with
  | some result =>
    refine ⟨v, ?_, .refl v⟩
    cases result <;> simpa only [literal] using read
  | none =>
    simp only [literal] at read ⊢
    cases here : c.eat? s.dialect.locationSymbol with
    | some after => exact ⟨v, by simpa only [here] using read, .refl v⟩
    | none =>
      simp only [here] at read ⊢
      cases named : c.ident? with
      | none => simp [named] at read
      | some ident =>
        obtain ⟨name, after⟩ := ident
        simp only [named] at read ⊢
        cases defined : s.symbols.value? name with
        | some n =>
          rw [within.symbols name n defined] at read
          exact ⟨v, read, .refl v⟩
        | none =>
          -- The larger table may know the name, but both move over it.
          have moved : after = d := by
            cases found : known.symbols.value? name <;> simp_all
          exact ⟨.unknown, by rw [moved], fun final => nomatch final⟩

/-- What the second reads, the first reads just as far, to a value that is final or left open. -/
def ReadsOpen (first second : Cursor → Except Fault (Value × Cursor)) : Prop :=
  ∀ c v d, second c = .ok (v, d) → ∃ w, first c = .ok (w, d) ∧ w.Resolves v

variable {fuel least : Nat}

theorem unary_readsOpen (ofUnary : ReadsOpen (s.unary fuel) (known.unary fuel))
    (ofBinary : ReadsOpen (s.binary fuel 0) (known.binary fuel 0)) :
    ReadsOpen (s.unary (fuel + 1)) (known.unary (fuel + 1)) := by
  intro c v d read
  rw [unary] at read ⊢
  cases look : c.skipSpaces.peek? with
  | none => simp [look] at read
  | some ch =>
    simp only [look] at read ⊢
    cases signs : sign? ch with
    | some act =>
      simp only [signs] at read ⊢
      cases inner : known.unary fuel (c.skipSpaces.advance 1) with
      | error f => simp [inner] at read
      | ok found =>
        obtain ⟨w, same, resolves⟩ := ofUnary _ found.1 found.2 inner
        rw [inner] at read
        obtain ⟨rfl, rfl⟩ : found.1.map act = v ∧ found.2 = d := by simpa using read
        exact ⟨w.map act, by rw [same], resolves.map act⟩
    | none =>
      simp only [signs] at read ⊢
      cases brackets : closing? ch with
      | some close =>
        simp only [brackets] at read ⊢
        cases inner : known.binary fuel 0 (c.skipSpaces.advance 1) with
        | error f => simp [inner] at read
        | ok found =>
          obtain ⟨w, same, resolves⟩ := ofBinary _ found.1 found.2 inner
          simp only [inner] at read
          simp only [same]
          cases closed : found.2.skipSpaces.eat? close with
          | none => simp [closed] at read
          | some after =>
            obtain ⟨rfl, rfl⟩ : found.1 = v ∧ after = d := by simpa [closed] using read
            exact ⟨w, rfl, resolves⟩
      | none =>
        simp only [brackets] at read ⊢
        split at read
        next quote => exact ⟨v, by rw [if_pos quote, read], .refl v⟩
        next plain =>
          rw [if_neg plain]
          exact exists_atom within read

omit within in
theorem binary_readsOpen (ofUnary : ReadsOpen (s.unary fuel) (known.unary fuel))
    (ofContinued : ∀ {left left' : Value}, left.Resolves left' →
      ReadsOpen (s.continued fuel least left) (known.continued fuel least left')) :
    ReadsOpen (s.binary (fuel + 1) least) (known.binary (fuel + 1) least) := by
  intro c v d read
  rw [binary] at read ⊢
  cases first : known.unary fuel c with
  | error f => simp [first] at read
  | ok found =>
    obtain ⟨w, same, resolves⟩ := ofUnary c found.1 found.2 first
    simp only [first] at read
    simp only [same]
    exact ofContinued resolves _ v d read

omit within in
theorem continued_readsOpen {left left' : Value} (resolves : left.Resolves left')
    (ofBinary : ∀ least, ReadsOpen (s.binary fuel least) (known.binary fuel least))
    (ofContinued : ∀ {left left' : Value}, left.Resolves left' →
      ReadsOpen (s.continued fuel least left) (known.continued fuel least left')) :
    ReadsOpen (s.continued (fuel + 1) least left) (known.continued (fuel + 1) least left') := by
  intro c v d read
  rw [continued] at read ⊢
  cases operator : Operator.read? c.skipSpaces.rest with
  | none =>
    obtain ⟨rfl, rfl⟩ : left' = v ∧ c = d := by simpa [operator] using read
    exact ⟨left, rfl, resolves⟩
  | some sign =>
    obtain ⟨op, length⟩ := sign
    simp only [operator] at read ⊢
    split at read
    next loose =>
      obtain ⟨rfl, rfl⟩ : left' = v ∧ c = d := by simpa using read
      exact ⟨left, by rw [if_pos loose], resolves⟩
    next tight =>
      rw [if_neg tight]
      cases second : known.binary fuel op.precedence (c.skipSpaces.advance length) with
      | error f => simp [second] at read
      | ok found =>
        obtain ⟨w, same, right⟩ := ofBinary _ _ found.1 found.2 second
        simp only [second] at read
        simp only [same]
        cases applied : op.applied? left' found.1 with
        | none => simp [applied] at read
        | some result =>
          obtain ⟨r, both, final⟩ := Operator.exists_applied resolves right applied
          simp only [applied] at read
          simp only [both]
          exact ofContinued final _ v d read

-- One induction on the fuel for the three levels of the grammar, which call each other with less.
theorem levels_readOpen (fuel : Nat) : ReadsOpen (s.unary fuel) (known.unary fuel) ∧
    (∀ least, ReadsOpen (s.binary fuel least) (known.binary fuel least)) ∧
    (∀ least {left left' : Value}, left.Resolves left' →
      ReadsOpen (s.continued fuel least left) (known.continued fuel least left')) := by
  induction fuel with
  | zero => simp [ReadsOpen, unary, binary, continued]
  | succ fuel ih =>
    obtain ⟨ofUnary, ofBinary, ofContinued⟩ := ih
    exact ⟨unary_readsOpen within ofUnary (ofBinary 0),
      fun least => binary_readsOpen ofUnary (ofContinued least),
      fun least _ _ resolves => continued_readsOpen resolves ofBinary (ofContinued least)⟩

/-- What the larger scope evaluates, the smaller one reads just as far. -/
theorem exists_eval {c d : Cursor} {v : Value} (read : known.eval c = .ok (v, d)) :
    ∃ w, s.eval c = .ok (w, d) ∧ w.Resolves v := by
  rw [eval] at read ⊢
  cases whole : known.binary (depth c) 0 c with
  | error f => simp [whole] at read
  | ok found =>
    obtain ⟨value, after⟩ := found
    obtain ⟨w, same, resolves⟩ := (levels_readOpen within (depth c)).2.1 0 c value after whole
    simp only [whole] at read
    simp only [same]
    split at read
    next ranged =>
      obtain ⟨rfl, rfl⟩ : value = v ∧ after = d := by simpa using read
      refine ⟨w, ?_, resolves⟩
      cases waits : w.undefined with
      | true => rfl
      | false =>
        rw [resolves waits, waits] at ranged
        rw [if_pos ranged]
    · simp at read

end Scope

/-! ### Faults of expressions -/

namespace Scope

variable {s : Scope} {f : Fault}

theorem hard_of_quoted {c : Cursor} (failed : quoted c = .error f) : f.isSoft = false := by
  simp only [quoted] at failed
  split at failed
  · cases failed
    rfl
  · split at failed <;> cases failed
    rfl

end Scope

theorem Literal.hard_of_accumulate {radix value : Nat} {digits : List Char} {cause : Cause}
    (failed : accumulate radix value digits = .error cause) : cause ≠ .undefinedSymbol := by
  induction digits generalizing value with
  | nil => simp [accumulate] at failed
  | cons ch digits ih =>
    rw [accumulate] at failed
    split at failed
    · cases failed
      decide
    · dsimp only at failed
      split at failed
      · exact ih failed
      · cases failed
        decide

theorem Literal.hard_of_read? {dialect : Dialect} {c : Cursor} {f : Fault}
    (failed : read? dialect c = some (.error f)) : f.isSoft = false := by
  have located {cause : Cause} (origin : Nat) (hard : cause ≠ .undefinedSymbol) :
      (cause.located origin).isSoft = false := by
    simpa [Fault.isSoft, Cause.located] using hard
  have plain {radix origin : Nat} {c : Cursor} (failed : plain radix origin c = .error f) :
      f.isSoft = false := by
    simp only [Literal.plain] at failed
    split at failed
    · cases failed
      rfl
    · split at failed
      · cases failed
      next accumulated =>
        cases failed
        exact located origin (hard_of_accumulate accumulated)
  have suffixed {origin : Nat} {c : Cursor} (failed : withSuffix origin c = .error f) :
      f.isSoft = false := by
    simp only [withSuffix] at failed
    split at failed
    · cases failed
    next accumulated =>
      cases failed
      exact located origin (hard_of_accumulate accumulated)
  unfold read? at failed
  split at failed
  · exact plain (Option.some.inj failed)
  · split at failed
    · split at failed
      · exact suffixed (Option.some.inj failed)
      · exact plain (Option.some.inj failed)
    · simp at failed

namespace Scope

variable {s : Scope} {f : Fault}

theorem hard_of_atom {c : Cursor} (failed : s.atom c = .error f) : f.isSoft = false := by
  simp only [atom] at failed
  split at failed
  · cases failed
  next literal =>
    cases failed
    exact Literal.hard_of_read? literal
  · split at failed
    · cases failed
    · split at failed
      · split at failed <;> cases failed
      · cases failed
        rfl

-- As above, one induction on the fuel. Running out of it is a fault too, and not a soft one.
private theorem hard_levels (s : Scope) (f : Fault) (fuel : Nat) :
    (∀ c, s.unary fuel c = .error f → f.isSoft = false) ∧
      (∀ least c, s.binary fuel least c = .error f → f.isSoft = false) ∧
      (∀ least left c, s.continued fuel least left c = .error f → f.isSoft = false) := by
  induction fuel with
  | zero =>
    refine ⟨fun c failed => ?_, fun least c failed => ?_, fun least left c failed => ?_⟩
    all_goals
      cases failed
      rfl
  | succ fuel ih =>
    obtain ⟨ofUnary, ofBinary, ofContinued⟩ := ih
    refine ⟨?_, ?_, ?_⟩
    · intro c failed
      simp only [unary] at failed
      split at failed
      · cases failed
        rfl
      split at failed
      · split at failed
        · cases failed
        next inner =>
          cases failed
          exact ofUnary _ inner
      split at failed
      · split at failed
        · split at failed <;> cases failed
          rfl
        next inner =>
          cases failed
          exact ofBinary _ _ inner
      · split at failed
        · exact hard_of_quoted failed
        · exact hard_of_atom failed
    · intro least c failed
      simp only [binary] at failed
      split at failed
      · exact ofContinued _ _ _ failed
      next first =>
        cases failed
        exact ofUnary _ first
    · intro least left c failed
      simp only [continued] at failed
      split at failed
      · cases failed
      · split at failed
        · cases failed
        · split at failed
          next second =>
            cases failed
            exact ofBinary _ _ second
          · split at failed
            · exact ofContinued _ _ _ failed
            · cases failed
              rfl

/-- An expression that cannot be evaluated is never just waiting for a symbol. -/
theorem hard_of_eval {c : Cursor} (failed : s.eval c = .error f) : f.isSoft = false := by
  rw [eval] at failed
  split at failed
  next whole =>
    cases failed
    exact (hard_levels s f _).2.1 0 c whole
  · split at failed <;> cases failed
    rfl

end Scope

end CrossAsm
