import CrossAsm.Proofs.Recovery
import CrossAsm.Proofs.Resolution.Expression

/-! Lines under two symbol tables of which one knows more. Operands that the larger table makes sense
of are read from the same text under the smaller one, and look the same but for values that are still
open. -/

namespace CrossAsm

variable {Mode Reg : Type}

/-! ### Operands -/

/-- The operand as a smaller table leaves it, and as a larger table knows it. -/
structure Operand.Resolves (op known : Operand Mode Reg) : Prop where
  force : known.force = op.force
  reg : known.reg = op.reg
  index : known.index = op.index
  indexSize : known.indexSize = op.indexSize
  list : known.list = op.list
  column : known.column = op.column
  soft : op.hardFault? = none
  final : op.undefined = false → known = op

/-- The two operands have one mode as well. -/
structure Operand.Settles (op known : Operand Mode Reg) : Prop extends Operand.Resolves op known where
  mode : known.mode = op.mode

namespace Operand

variable {op known : Operand Mode Reg}

theorem hardFault?_of_clean (clean : op.fault = none) : op.hardFault? = none := by
  simp [hardFault?, clean]

theorem hardFault?_failed {f : Fault} (hard : f.isSoft = false) : (op.failed f).hardFault? = some f := by
  simp [hardFault?, failed, hard]

theorem hardFault?_withValue (clean : op.fault = none) (v : Value) :
    (op.withValue v).hardFault? = none := by
  unfold hardFault? withValue
  rw [clean]
  cases v.undefined <;> rfl

theorem Settles.refl (soft : op.hardFault? = none) : op.Settles op :=
  ⟨⟨rfl, rfl, rfl, rfl, rfl, rfl, soft, fun _ => rfl⟩, rfl⟩

theorem settles_withValue (clean : op.fault = none) {w v : Value} (resolves : w.Resolves v) :
    (op.withValue w).Settles (op.withValue v) where
  force := rfl
  reg := rfl
  index := rfl
  indexSize := rfl
  list := rfl
  column := rfl
  soft := hardFault?_withValue clean w
  final known := by rw [resolves known]
  mode := rfl

section Scopes

variable {s larger : Scope} (within : s.Within larger)

include within

theorem parseValue_settles (clean : op.fault = none) {c : Cursor}
    (soft : (op.parseValue larger c).1.hardFault? = none) :
    (op.parseValue s c).2 = (op.parseValue larger c).2 ∧
      (op.parseValue s c).1.Settles (op.parseValue larger c).1 := by
  cases read : larger.eval c with
  | error f =>
    simp [parseValue, read, hardFault?_failed (Scope.hard_of_eval read)] at soft
  | ok found =>
    obtain ⟨w, same, resolves⟩ := Scope.exists_eval within (v := found.1) (d := found.2) read
    simp only [parseValue, read, same]
    exact ⟨trivial, settles_withValue clean resolves⟩

end Scopes

/-- A closing character is there or not, whatever the operand in front of it. -/
theorem close_settles (settles : op.Settles known) {ch : Char} {c : Cursor}
    (soft : (known.close ch c).1.hardFault? = none) :
    (op.close ch c).2 = (known.close ch c).2 ∧ (op.close ch c).1.Settles (known.close ch c).1 := by
  simp only [close] at soft ⊢
  cases closed : c.skipSpaces.eat? ch with
  | none =>
    rw [closed] at soft
    simp [hardFault?_failed (show (Cause.missingClosingParen.located _).isSoft = false from rfl)] at soft
  | some after => exact ⟨rfl, settles⟩

/-- A value and the parenthesis behind it. -/
theorem parseClosed_settles (clean : op.fault = none)
    {s larger : Scope} (within : s.Within larger) {ch : Char} {c : Cursor}
    (soft : (if (op.parseValue larger c).1.hardFault?.isSome then op.parseValue larger c
      else (op.parseValue larger c).1.close ch (op.parseValue larger c).2).1.hardFault? = none) :
    (if (op.parseValue s c).1.hardFault?.isSome then op.parseValue s c
        else (op.parseValue s c).1.close ch (op.parseValue s c).2).2 =
      (if (op.parseValue larger c).1.hardFault?.isSome then op.parseValue larger c
        else (op.parseValue larger c).1.close ch (op.parseValue larger c).2).2 ∧
    (if (op.parseValue s c).1.hardFault?.isSome then op.parseValue s c
        else (op.parseValue s c).1.close ch (op.parseValue s c).2).1.Settles
      (if (op.parseValue larger c).1.hardFault?.isSome then op.parseValue larger c
        else (op.parseValue larger c).1.close ch (op.parseValue larger c).2).1 := by
  cases failed : (op.parseValue larger c).1.hardFault? with
  | some f => simp [failed] at soft
  | none =>
    obtain ⟨moved, settles⟩ := parseValue_settles within clean failed
    simp only [failed, settles.soft, Option.isSome_none, Bool.false_eq_true, if_false, moved] at soft ⊢
    exact close_settles settles soft

end Operand

/-! ### Lists of operands -/

namespace Machine

variable {m : Machine Mode Reg}

/-- Operands that the larger of two tables makes sense of are read as related ones under the
smaller. -/
def Resolving (m : Machine Mode Reg) (R : Operand Mode Reg → Operand Mode Reg → Prop) : Prop :=
  ∀ s larger : Scope, s.Within larger → ∀ c, (m.parseOperand larger c).1.hardFault? = none →
    (m.parseOperand s c).2 = (m.parseOperand larger c).2 ∧
      R (m.parseOperand s c).1 (m.parseOperand larger c).1

section Lists

variable {R : Operand Mode Reg → Operand Mode Reg → Prop} (resolving : m.Resolving R)
  (weakens : ∀ op known, R op known → op.Resolves known)

include resolving weakens

theorem parseList_resolves {s larger : Scope} (within : s.Within larger) {fuel : Nat} {c : Cursor}
    (soft : ∀ op ∈ (m.parseList larger fuel c).1, op.hardFault? = none) :
    (m.parseList s fuel c).2 = (m.parseList larger fuel c).2 ∧
      List.Forall₂ R (m.parseList s fuel c).1 (m.parseList larger fuel c).1 := by
  induction fuel generalizing c with
  | zero => exact ⟨rfl, .nil⟩
  | succ fuel ih =>
    -- The first operand has no hard fault whatever follows it.
    have first : (m.parseOperand larger c.skipSpaces).1.hardFault? = none := by
      apply soft
      simp only [parseList]
      split
      · simp
      · split <;> simp
    obtain ⟨moved, related⟩ := resolving s larger within c.skipSpaces first
    have clean := (weakens _ _ related).soft
    simp only [parseList, first, clean, moved, Option.isSome_none, Bool.false_eq_true,
      if_false] at soft ⊢
    cases comma : (m.parseOperand larger c.skipSpaces).2.skipSpaces.eat? ',' with
    | none => exact ⟨rfl, .cons related .nil⟩
    | some after =>
      simp only [comma] at soft ⊢
      obtain ⟨end_, others⟩ := @ih after fun op member => soft op (by simp [member])
      exact ⟨end_, .cons related others⟩

theorem parseOperands_resolves {symbols known : Symbols} (within : symbols.Within known)
    {address : UInt32} {c : Cursor}
    (soft : ∀ op ∈ (m.parseOperands known address c).1, op.hardFault? = none) :
    (m.parseOperands symbols address c).2 = (m.parseOperands known address c).2 ∧
      List.Forall₂ R (m.parseOperands symbols address c).1
        (m.parseOperands known address c).1 := by
  unfold parseOperands at soft ⊢
  dsimp only at soft ⊢
  split
  · exact ⟨rfl, .nil⟩
  next filled =>
    rw [if_neg filled] at soft
    have scopes : Scope.Within ⟨m.config.dialect, symbols, address⟩ ⟨m.config.dialect, known, address⟩ :=
      ⟨rfl, rfl, within⟩
    exact parseList_resolves resolving weakens scopes soft

end Lists

/-! ### Lines -/

/-- The operands of a line under a symbol table. -/
def operandsOf (m : Machine Mode Reg) (symbols : Symbols) (line : String) (address : UInt32) :
    List (Operand Mode Reg) :=
  match (Cursor.start line).skipSpaces.ident? with
  | some (_, after) => (m.parseOperands symbols address after).1
  | none => []

theorem findByName_congr {ops others : List (Operand Mode Reg)}
    (same : List.Forall₂ (fun op other => other.mode = op.mode) ops others) (name : String) :
    m.findByName name others = m.findByName name ops := by
  have admits (slots : List (Slot Mode)) : m.admits slots others = m.admits slots ops := by
    induction same generalizing slots with
    | nil => rfl
    | cons first _ ih =>
      cases slots with
      | nil => rfl
      | cons slot slots => simp only [Machine.admits, first, ih]
  simp only [findByName, admits]

end Machine

end CrossAsm
