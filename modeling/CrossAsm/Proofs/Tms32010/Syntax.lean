import CrossAsm.Proofs.Text.Word
import CrossAsm.Target.Tms32010

/-! Operands of the TMS32010 as text: each form is read back with its mode and value. -/

namespace CrossAsm.Tms32010

open Text

variable {scope : Scope}

/-- A character that a number with its sign begins with. -/
def opensNumber (ch : Char) : Bool := ch.isDigit || ch == '>' || ch == '-'

theorem opensNumber_plain {ch : Char} (opens : opensNumber ch = true) :
    startsOperand ch = true ∧ ch ≠ '*' ∧ isIdentStart ch = false := by
  have cases : ch.isDigit = true ∨ ch = '>' ∨ ch = '-' := by
    simpa [opensNumber, or_assoc] using opens
  rcases cases with digit | rfl | rfl
  · exact isDigit_induction (P := fun ch => startsOperand ch = true ∧ ch ≠ '*' ∧
      isIdentStart ch = false) (by decide) digit
  · decide
  · decide

theorem parses_number {text : List Char} {v : Int} (evals : scope.Evals text v)
    (low : -0x80000000 ≤ v) (high : v < 0x100000000)
    (opens : text.head?.any opensNumber = true) :
    machine.ParsesAs scope text { mode := .imm, value := v, column := 0 } := by
  obtain ⟨ch, text, rfl⟩ : ∃ ch more, text = ch :: more := by
    cases text with
    | nil => simp at opens
    | cons ch more => exact ⟨ch, more, rfl⟩
  obtain ⟨starts, star, word⟩ := @opensNumber_plain ch (by simpa using opens)
  refine ⟨by simpa using starts, ?_, rfl⟩
  intro pos rest ended
  have other : (⟨pos, ch :: text ++ rest⟩ : Cursor).eat? '*' = none :=
    Cursor.eat?_ne (by simpa using star)
  have nameless : (⟨pos, ch :: text ++ rest⟩ : Cursor).ident? = none := by
    simp [Cursor.ident?, Cursor.peekIdent?, Cursor.peek?, word]
  have value := Operand.parseValue_evals ({ mode := .imm, column := pos } : Operand Mode Reg)
    evals low high pos ended.closes
  change parseOperand scope ⟨pos, ch :: text ++ rest⟩ = _
  simp only [parseOperand, other, nameless, Option.bind_none, value]

/-- The steps of an indirect operand and how they are written. -/
def stepText (step : Int) : String :=
  if step % 3 = 0 then "*" else if step % 3 = 1 then "*+" else "*-"

theorem parses_indirect {step : Int} (small : 0 ≤ step ∧ step < 3) :
    machine.ParsesAs scope (stepText step).toList { mode := .ind, value := step, column := 0 } := by
  obtain rfl | rfl | rfl : step = 0 ∨ step = 1 ∨ step = 2 := by omega
  · refine ⟨by decide, ?_, rfl⟩
    intro pos rest ended
    have other (c : Char) (p : Nat) (differs : c ≠ ',') : (⟨p, rest⟩ : Cursor).eat? c = none := by
      apply Cursor.eat?_ne
      rcases ended with rfl | ⟨ch, more, rfl, -⟩
      · simp
      · simpa using fun same => differs same.symm
    change parseOperand scope ⟨pos, '*' :: rest⟩ = _
    simp only [parseOperand, Cursor.eat?_cons, other '+' _ (by decide), other '-' _ (by decide)]
    rfl
  · refine ⟨by decide, ?_, rfl⟩
    intro pos rest ended
    change parseOperand scope ⟨pos, '*' :: '+' :: rest⟩ = _
    simp only [parseOperand, Cursor.eat?_cons]
    rfl
  · refine ⟨by decide, ?_, rfl⟩
    intro pos rest ended
    have other (p : Nat) : (⟨p, '-' :: rest⟩ : Cursor).eat? '+' = none :=
      Cursor.eat?_ne (by simp)
    change parseOperand scope ⟨pos, '*' :: '-' :: rest⟩ = _
    simp only [parseOperand, Cursor.eat?_cons, other]
    rfl

theorem parses_register {text : List Char} {reg : Reg} (names : Names text reg.name) :
    machine.ParsesAs scope text { mode := .arReg, reg := some reg, column := 0 } := by
  have plain : isWord reg.name = true := by cases reg <;> decide
  refine ⟨names.starts plain (by cases reg <;> decide), ?_, rfl⟩
  intro pos rest ended
  have other : (⟨pos, text ++ rest⟩ : Cursor).eat? '*' = none :=
    Cursor.eat?_names names plain '*' (by decide) pos rest
  have word := Cursor.ident?_names names plain ended.closes.stops_ident pos
  have digits : registerDigits? (String.ofList text) =
      some (match reg with | .ar0 => ['0'] | .ar1 => ['1']) := by
    have upper : (Text.upper (String.ofList text)).toList = reg.name.toList := by
      simp [Text.upper, names.upper]
    rw [registerDigits?, upper]
    cases reg <;> rfl
  change parseOperand scope ⟨pos, text ++ rest⟩ = _
  simp only [parseOperand, other, word, Option.bind_some, digits, Option.map_some]
  cases reg <;> rfl

end CrossAsm.Tms32010
