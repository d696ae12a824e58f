import CrossAsm.Proofs.Resolution.Layout
import CrossAsm.Target

/-! How each target reads and encodes operands whose values are still open. -/

namespace CrossAsm

/-! ### Z80 -/

namespace Z80

theorem parseIndexed_settles {op : Operand Mode Reg} (clean : op.fault = none) {s larger : Scope}
    (within : s.Within larger) {c : Cursor}
    (soft : (parseIndexed larger op c).1.hardFault? = none) :
    (parseIndexed s op c).2 = (parseIndexed larger op c).2 ∧
      (parseIndexed s op c).1.Settles (parseIndexed larger op c).1 := by
  simp only [parseIndexed] at soft ⊢
  split
  next signed =>
    rw [if_pos signed] at soft
    exact Operand.parseClosed_settles clean within soft
  next bare =>
    rw [if_neg bare] at soft
    exact Operand.close_settles (.refl (Operand.hardFault?_of_clean clean)) soft

theorem parseIndirect_settles {s larger : Scope} (within : s.Within larger) {column : Nat}
    {c : Cursor} (soft : (parseIndirect larger column c).1.hardFault? = none) :
    (parseIndirect s column c).2 = (parseIndirect larger column c).2 ∧
      (parseIndirect s column c).1.Settles (parseIndirect larger column c).1 := by
  simp only [parseIndirect] at soft ⊢
  cases register : register? c.skipSpaces with
  | none =>
    simp only [register] at soft ⊢
    exact Operand.parseClosed_settles rfl within soft
  | some found =>
    obtain ⟨reg, after⟩ := found
    simp only [register] at soft ⊢
    cases memory : indirect? reg with
    | none =>
      simp only [memory] at soft
      simp [Operand.hardFault?_failed
        (show (Cause.registerNotAllowed.located _).isSoft = false from rfl)] at soft
    | some mode =>
      simp only [memory] at soft ⊢
      split
      next indexed =>
        rw [if_pos indexed] at soft
        exact parseIndexed_settles rfl within soft
      next plain =>
        rw [if_neg plain] at soft
        exact Operand.close_settles (.refl rfl) soft

theorem resolving : machine.Resolving Operand.Settles := by
  intro s larger within c soft
  change (parseOperand larger c).1.hardFault? = none at soft
  change (parseOperand s c).2 = (parseOperand larger c).2 ∧
    (parseOperand s c).1.Settles (parseOperand larger c).1
  simp only [parseOperand] at soft ⊢
  cases parenthesis : c.eat? '(' with
  | some after =>
    simp only [parenthesis] at soft ⊢
    exact parseIndirect_settles within soft
  | none =>
    simp only [parenthesis] at soft ⊢
    cases register : register? c with
    | some found => exact ⟨rfl, .refl rfl⟩
    | none =>
      simp only [register] at soft ⊢
      exact Operand.parseValue_settles within rfl soft

theorem registerResolves : machine.RegisterResolves := by
  intro mode op known settles
  change registerField mode known = registerField mode op
  simp only [registerField, settles.mode, settles.reg]

/-- An interrupt mode is taken by its placeholder. -/
def exposes (slot : Slot Mode) (op : Operand Mode Reg) : Bool :=
  op.undefined && slot.mode != .rst && (op.value < 0 || 2 < op.value)

theorem exists_customField {slot : Slot Mode} {op : Operand Mode Reg} (waits : op.undefined = true)
    (hidden : exposes slot op = false) : ∃ field, customField slot.mode op = .ok field := by
  unfold customField
  by_cases restart : slot.mode = .rst
  · exact ⟨op.value, by rw [if_pos restart, if_pos waits]⟩
  · simp only [exposes, waits, bne_iff_ne.mpr restart, Bool.true_and, Bool.or_eq_false_iff,
      decide_eq_false_iff_not] at hidden
    obtain small | small | small : op.value = 0 ∨ op.value = 1 ∨ op.value = 2 := by omega
    all_goals
      rw [if_neg restart, small]
      exact ⟨_, rfl⟩

theorem customResolves : machine.CustomResolves exposes := by
  intro entry slot op known d d' settles drafts
  change Machine.Outcome config _ (encodeCustom entry slot op d) (encodeCustom entry slot known d')
  constructor
  · unfold encodeCustom
    split <;> split
    · exact drafts.embed _ _ _ _
    · exact drafts.embed_left _ _ _
    · exact drafts.embed_right _ _ _
    · exact drafts
  · intro hidden clean
    cases waits : op.undefined with
    | true =>
      obtain ⟨field, found⟩ := exists_customField waits hidden
      simp only [encodeCustom, found]
    | false =>
      rw [settles.final waits] at clean
      unfold encodeCustom at clean ⊢
      split at clean
      · rfl
      · simp at clean

theorem fixes : machine.Fixes fun _ _ => true where
  ladder slot op relative ladder _ := by
    have never : shape slot.mode ≠ .ladder relative := by
      cases slot.mode <;> simp [shape]
    exact absurd ladder never
  custom entry slot op d _ _ rigid := by
    change (encodeCustom entry slot op d).1.Rigid
    unfold encodeCustom
    split
    · exact rigid.embed _ _ _
    · exact rigid

end Z80

/-! ### TMS32010 -/

namespace Tms32010

theorem resolving : machine.Resolving Operand.Settles := by
  intro s larger within c soft
  change (parseOperand larger c).1.hardFault? = none at soft
  change (parseOperand s c).2 = (parseOperand larger c).2 ∧
    (parseOperand s c).1.Settles (parseOperand larger c).1
  simp only [parseOperand] at soft ⊢
  cases star : c.eat? '*' with
  | some after =>
    simp only [star] at soft ⊢
    exact ⟨trivial, .refl soft⟩
  | none =>
    simp only [star] at soft ⊢
    cases word : c.ident? with
    | none =>
      simp only [word, Option.bind_none] at soft ⊢
      exact Operand.parseValue_settles within rfl soft
    | some read =>
      simp only [word, Option.bind_some] at soft ⊢
      cases digits : registerDigits? read.1 with
      | some ds =>
        simp only [digits, Option.map_some] at soft ⊢
        exact ⟨trivial, .refl soft⟩
      | none =>
        simp only [digits, Option.map_none] at soft ⊢
        exact Operand.parseValue_settles within rfl soft

theorem registerResolves : machine.RegisterResolves := by
  intro mode op known settles
  change registerField mode known = registerField mode op
  simp only [registerField, settles.reg]

/-- A next register and the shift of the high store are taken by their placeholders. -/
def exposes (slot : Slot Mode) (op : Operand Mode Reg) : Bool :=
  op.undefined &&
    match slot.mode with
    | .narp => !fitsUnsigned op.value 1
    | .sachShift => !storeShift op.value
    | _ => false

theorem customResolves : machine.CustomResolves exposes := by
  intro entry slot op known d d' settles drafts
  change Machine.Outcome config _ (encodeCustom entry slot op d) (encodeCustom entry slot known d')
  constructor
  · unfold encodeCustom
    split
    · split <;> split
      · exact (drafts.setOpcode_left _).setOpcode_right _
      · exact drafts.setOpcode_left _
      · exact drafts.setOpcode_right _
      · exact drafts
    · split <;> split
      · exact drafts.embed _ _ _ _
      · exact drafts.embed_left _ _ _
      · exact drafts.embed_right _ _ _
      · exact drafts
    · rw [settles.mode]
      split
      · exact drafts.embed _ _ _ _
      · split <;> split
        · exact drafts.embed _ _ _ _
        · exact drafts.embed_left _ _ _
        · exact drafts.embed_right _ _ _
        · exact drafts
  · intro hidden clean
    cases waits : op.undefined with
    | false =>
      rw [settles.final waits] at clean
      unfold encodeCustom at clean ⊢
      split at clean <;> repeat' split at clean
      all_goals simp_all
    | true =>
      unfold encodeCustom
      simp only [exposes, waits, Bool.true_and] at hidden
      split
      next next_ =>
        rw [next_] at hidden
        rw [if_pos (by simpa using hidden)]
      next store =>
        rw [store] at hidden
        rw [if_pos (by simpa using hidden)]
      · split
        · rfl
        · rw [waits, Bool.true_or, if_pos rfl]

theorem fixes : machine.Fixes fun _ _ => true where
  ladder slot op relative ladder _ := by
    have never : shape slot.mode ≠ .ladder relative := by
      cases slot.mode <;> simp [shape]
    exact absurd ladder never
  custom entry slot op d _ _ rigid := by
    change (encodeCustom entry slot op d).1.Rigid
    unfold encodeCustom
    repeat' split
    all_goals exact rigid

end Tms32010

/-! ### 6800 family -/

namespace M6800

/-- An address that is not known yet is read as extended, also where it turns out to be direct. -/
structure Reads (op known : Operand Mode Reg) : Prop extends Operand.Resolves op known where
  mode : known.mode = op.mode ∨
    op.undefined = true ∧ op.force = none ∧ op.mode = .ext ∧ known.mode = .dir

theorem Reads.of_settles {op known : Operand Mode Reg} (settles : op.Settles known) : Reads op known :=
  ⟨settles.toResolves, .inl settles.mode⟩

theorem mode_addressOperand (column : Nat) (force : Option Force) (v : Value) :
    (addressOperand column force v).mode =
      match force with
      | some .short => .dir
      | some .long => .ext
      | none => if !v.undefined && fitsUnsigned v.toInt 8 then .dir else .ext := by
  unfold addressOperand
  dsimp only
  split <;> rfl

theorem addressOperand_reads {column : Nat} {force : Option Force} {w v : Value}
    (resolves : w.Resolves v) (soft : (addressOperand column force v).hardFault? = none) :
    Reads (addressOperand column force w) (addressOperand column force v) := by
  cases waits : w.undefined with
  | false =>
    rw [resolves waits] at soft ⊢
    exact .of_settles (.refl soft)
  | true =>
    -- A known address that does not fit the byte it is forced into is a hard fault.
    have kept : addressOperand column force v = Operand.withValue
        { mode := (addressOperand column force v).mode, force, column } v := by
      unfold addressOperand at soft ⊢
      dsimp only at soft ⊢
      split
      next wide =>
        rw [if_pos wide] at soft
        simp [Operand.hardFault?_failed
          (show (Cause.overflowRange.located _).isSoft = false from rfl)] at soft
      · rfl
    have open_ : addressOperand column force w = Operand.withValue
        { mode := (addressOperand column force w).mode, force, column } w := by
      simp [addressOperand, waits, Operand.withValue]
    have mode : (addressOperand column force v).mode = (addressOperand column force w).mode ∨
        force = none ∧ (addressOperand column force w).mode = .ext ∧
          (addressOperand column force v).mode = .dir := by
      rw [mode_addressOperand, mode_addressOperand, waits]
      rcases force with _ | _ | _
      · dsimp only
        split
        · exact .inr ⟨rfl, rfl, rfl⟩
        · exact .inl rfl
      · exact .inl rfl
      · exact .inl rfl
    have undefined : (addressOperand column force w).undefined = true := by
      rw [open_]
      exact waits
    have forced : (addressOperand column force w).force = force := by rw [open_]; rfl
    refine ⟨⟨?_, ?_, ?_, ?_, ?_, ?_, ?_, ?_⟩, ?_⟩
    · rw [kept, open_]; rfl
    · rw [kept, open_]; rfl
    · rw [kept, open_]; rfl
    · rw [kept, open_]; rfl
    · rw [kept, open_]; rfl
    · rw [kept, open_]; rfl
    · rw [open_]
      exact Operand.hardFault?_withValue rfl w
    · intro final
      rw [undefined] at final
      simp at final
    · rcases mode with same | ⟨bare, ext, dir⟩
      · exact .inl same
      · exact .inr ⟨undefined, forced.trans bare, ext, dir⟩

theorem resolving (variant : Variant) : (machine variant).Resolving Reads := by
  intro s larger within c soft
  change (parseOperand larger c).1.hardFault? = none at soft
  change (parseOperand s c).2 = (parseOperand larger c).2 ∧
    Reads (parseOperand s c).1 (parseOperand larger c).1
  simp only [parseOperand] at soft ⊢
  cases hash : c.eat? '#' with
  | some after =>
    simp only [hash] at soft ⊢
    obtain ⟨moved, settles⟩ := Operand.parseValue_settles within rfl soft
    exact ⟨moved, .of_settles settles⟩
  | none =>
    simp only [hash] at soft ⊢
    cases bare : (if c.peek? = some ',' then indexSuffix? c else none) with
    | some after =>
      simp only [bare] at soft ⊢
      exact ⟨trivial, .of_settles (.refl soft)⟩
    | none =>
      simp only [bare] at soft ⊢
      cases read : larger.eval (Force.read c).2 with
      | error f =>
        simp only [read] at soft
        simp [Operand.hardFault?_failed (Scope.hard_of_eval read)] at soft
      | ok found =>
        obtain ⟨v, after⟩ := found
        obtain ⟨w, same, resolves⟩ := Scope.exists_eval within read
        simp only [read, same] at soft ⊢
        cases suffix : indexSuffix? after with
        | some behind =>
          simp only [suffix] at soft ⊢
          exact ⟨trivial, .of_settles (Operand.settles_withValue rfl resolves)⟩
        | none =>
          simp only [suffix] at soft ⊢
          exact ⟨trivial, addressOperand_reads resolves soft⟩

theorem registerResolves (variant : Variant) : (machine variant).RegisterResolves :=
  fun _ _ _ _ => rfl

theorem customResolves (variant : Variant) : (machine variant).CustomResolves fun _ _ => false := by
  intro entry slot op known d d' settles drafts
  change Machine.Outcome config _ (encodeCustom entry slot op d) (encodeCustom entry slot known d')
  constructor
  · unfold encodeCustom
    split <;> split <;> exact drafts.emit rfl _ _ _ _ _
  · intro _ clean
    cases waits : op.undefined with
    | false =>
      rw [settles.final waits] at clean
      unfold encodeCustom at clean ⊢
      split at clean <;> simp_all
    | true => simp [encodeCustom, waits]

theorem fixes (variant : Variant) : (machine variant).Fixes fun _ _ => true where
  ladder slot op relative ladder _ := by
    have never : shape slot.mode ≠ .ladder relative := by
      cases slot.mode <;> simp [shape]
    exact absurd ladder never
  custom entry slot op d _ _ rigid := by
    change (encodeCustom entry slot op d).1.Rigid
    unfold encodeCustom
    split <;> exact rigid.emit _ _ _ _

end M6800

/-! ### NS32000 -/

namespace Ns32000

theorem parseBase_settles {op : Operand Mode Reg} (clean : op.fault = none) {w v : Value}
    (resolves : w.Resolves v) {c : Cursor} (soft : (parseBase op v c).1.hardFault? = none) :
    (parseBase op w c).2 = (parseBase op v c).2 ∧ (parseBase op w c).1.Settles (parseBase op v c).1 := by
  simp only [parseBase] at soft ⊢
  cases register : register? c.skipSpaces with
  | none =>
    simp only [register] at soft
    simp [Operand.hardFault?_failed
      (show (Cause.unknownOperand.located _).isSoft = false from rfl)] at soft
  | some found =>
    obtain ⟨reg, after⟩ := found
    simp only [register] at soft ⊢
    cases closed : after.skipSpaces.eat? ')' with
    | none =>
      simp only [closed] at soft
      simp [Operand.hardFault?_failed
        (show (Cause.missingClosingParen.located _).isSoft = false from rfl)] at soft
    | some behind =>
      have based : ({ op with mode := if reg.isGeneral then .regRel else .space, reg := some reg } :
          Operand Mode Reg).fault = none := clean
      exact ⟨rfl, Operand.settles_withValue based resolves⟩

theorem parseAddress_settles {s larger : Scope} (within : s.Within larger) {column : Nat} {c : Cursor}
    (soft : (parseAddress larger column c).1.hardFault? = none) :
    (parseAddress s column c).2 = (parseAddress larger column c).2 ∧
      (parseAddress s column c).1.Settles (parseAddress larger column c).1 := by
  simp only [parseAddress] at soft ⊢
  have lost {op : Operand Mode Reg} {f : Fault} {c : Cursor} (read : larger.eval c = .error f) :
      (op.failed f).hardFault? ≠ none := by
    simp [Operand.hardFault?_failed (Scope.hard_of_eval read)]
  cases mark : c.eat? '@' with
  | some marked =>
    simp only [mark] at soft ⊢
    cases read : larger.eval (Force.read marked).2 with
    | error f =>
      simp only [read] at soft
      exact absurd soft (lost read)
    | ok found =>
      obtain ⟨w, same, resolves⟩ := Scope.exists_eval within (v := found.1) (d := found.2) read
      simp only [same, if_true]
      exact ⟨trivial, Operand.settles_withValue rfl resolves⟩
  | none =>
    simp only [mark] at soft ⊢
    cases read : larger.eval (Force.read c).2 with
    | error f =>
      simp only [read] at soft
      exact absurd soft (lost read)
    | ok found =>
      obtain ⟨w, same, resolves⟩ := Scope.exists_eval within (v := found.1) (d := found.2) read
      simp only [read, same, Bool.false_eq_true, if_false] at soft ⊢
      cases base : found.2.skipSpaces.eat? '(' with
      | some behind =>
        simp only [base] at soft ⊢
        exact parseBase_settles rfl resolves soft
      | none =>
        simp only [base] at soft ⊢
        exact ⟨trivial, Operand.settles_withValue rfl resolves⟩

theorem parsePlain_settles {s larger : Scope} (within : s.Within larger) {c : Cursor}
    (soft : (parsePlain larger c).1.hardFault? = none) :
    (parsePlain s c).2 = (parsePlain larger c).2 ∧
      (parsePlain s c).1.Settles (parsePlain larger c).1 := by
  simp only [parsePlain] at soft ⊢
  cases top : c.eatWord? "TOS" with
  | some after => exact ⟨rfl, .refl rfl⟩
  | none =>
    simp only [top] at soft ⊢
    cases register : register? c with
    | some found =>
      simp only [register] at soft ⊢
      exact ⟨trivial, .refl soft⟩
    | none =>
      simp only [register] at soft ⊢
      exact parseAddress_settles within soft

/-- A scaled index is read in the same way whatever the operand in front of it. -/
theorem parseScaled_settles {op known : Operand Mode Reg} (settles : op.Settles known) {c : Cursor}
    (soft : (parseScaled known c).1.hardFault? = none) :
    (parseScaled op c).2 = (parseScaled known c).2 ∧
      (parseScaled op c).1.Settles (parseScaled known c).1 := by
  have lost (op : Operand Mode Reg) {cause : Cause} (hard : cause ≠ .undefinedSymbol) (pos : Nat) :
      (op.failed (cause.located pos)).hardFault? ≠ none := by
    rw [Operand.hardFault?_failed (by simpa [Fault.isSoft, Cause.located] using hard)]
    simp
  simp only [parseScaled] at soft ⊢
  generalize generalRegister c.skipSpaces = found at soft ⊢
  obtain ⟨_ | reg, after⟩ := found
  · exact absurd soft (lost _ (show Cause.registerNotAllowed ≠ _ by decide) _)
  dsimp only at soft ⊢
  cases colon : after.skipSpaces.eat? ':' with
  | none =>
    simp only [colon] at soft
    exact absurd soft (lost _ (by decide) _)
  | some behind =>
    simp only [colon] at soft ⊢
    cases letter : behind.skipSpaces.ident? with
    | none =>
      simp only [letter] at soft
      exact absurd soft (lost _ (by decide) _)
    | some found =>
      obtain ⟨name, rest⟩ := found
      simp only [letter] at soft ⊢
      cases scale : scale? name with
      | none =>
        simp only [scale] at soft
        exact absurd soft (lost _ (by decide) _)
      | some size =>
        simp only [scale] at soft ⊢
        cases closed : rest.skipSpaces.eat? ']' with
        | none =>
          simp only [closed] at soft
          exact absurd soft (lost _ (by decide) _)
        | some final =>
          refine ⟨rfl, ⟨settles.force, settles.reg, rfl, rfl, settles.list, settles.column,
            settles.soft, fun waits => ?_⟩, settles.mode⟩
          dsimp only
          rw [settles.final waits]

theorem resolving : machine.Resolving Operand.Settles := by
  intro s larger within c soft
  change (parseOperand larger c).1.hardFault? = none at soft
  change (parseOperand s c).2 = (parseOperand larger c).2 ∧
    (parseOperand s c).1.Settles (parseOperand larger c).1
  simp only [parseOperand] at soft ⊢
  cases list : c.eat? '[' with
  | some after =>
    simp only [list] at soft ⊢
    exact ⟨trivial, .refl soft⟩
  | none =>
    simp only [list] at soft ⊢
    cases failed : (parsePlain larger c).1.hardFault? with
    | some f => simp [failed] at soft
    | none =>
      obtain ⟨moved, settles⟩ := parsePlain_settles within failed
      simp only [failed, settles.soft, Option.isSome_none, Bool.false_eq_true, if_false, moved]
        at soft ⊢
      cases scaled : (parsePlain larger c).2.skipSpaces.eat? '[' with
      | some after =>
        simp only [scaled] at soft ⊢
        exact parseScaled_settles settles soft
      | none => exact ⟨rfl, settles⟩

theorem registerResolves : machine.RegisterResolves := fun _ _ _ _ => rfl

section Encode

variable {op known : Operand Mode Reg} (settles : op.Settles known) {d d' : Draft}
  (drafts : Draft.Resolves config d d')

include settles drafts

theorem encodeDisp_resolves (relative : Bool) :
    Draft.Resolves config (encodeDisp op relative d) (encodeDisp known relative d') := by
  unfold encodeDisp
  rw [settles.force]
  refine drafts.extend rfl (.ladder fun waits => ?_) _ _
  rw [settles.final waits]
  exact ⟨rfl, waits⟩

/-- An immediate that is not known yet takes up the size of the entry. It gets a field also where the
value does not. -/
theorem encodeImmediate_resolves (entry : Entry Mode) (slot : Slot Mode) :
    Draft.Resolves config (encodeImmediate entry slot op d).1 (encodeImmediate entry slot known d').1 ∧
      ((encodeImmediate entry slot op d).2 = (encodeImmediate entry slot known d').2 ∨
        op.index = none ∧ ∃ cause, (encodeImmediate entry slot known d').2 = .error cause) := by
  simp only [encodeImmediate, settles.index]
  by_cases indexed : op.index.isSome = true
  · simp only [indexed, if_true]
    exact ⟨drafts, .inl trivial⟩
  · simp only [indexed, Bool.false_eq_true, if_false]
    cases Width.sized.bytes? entry.size with
    | none => exact ⟨drafts, .inl rfl⟩
    | some n =>
      dsimp only
      cases waits : op.undefined with
      | false =>
        rw [settles.final waits, waits]
        split
        · exact ⟨drafts.extend rfl (.number _ _ _ _ _) _ _, .inl rfl⟩
        · exact ⟨(drafts.emit rfl _ _ _ _ _).embed _ _ _ _, .inl rfl⟩
      | true =>
        simp only [Bool.true_or, if_true]
        split
        · exact ⟨drafts.extend rfl (.number _ _ _ _ _) _ _, .inl rfl⟩
        · refine ⟨(drafts.extend rfl (.number _ _ _ _ _) _ _).embed_right _ _ _, .inr ⟨?_, _, rfl⟩⟩
          simpa using indexed

theorem encodeBase_resolves (entry : Entry Mode) (slot : Slot Mode) :
    Draft.Resolves config (encodeBase entry slot op d).1 (encodeBase entry slot known d').1 ∧
      ((encodeBase entry slot op d).2 = (encodeBase entry slot known d').2 ∨
        op.index = none ∧ ∃ cause, (encodeBase entry slot known d').2 = .error cause) := by
  simp only [encodeBase, settles.mode, settles.reg]
  split
  · exact ⟨drafts, .inl rfl⟩
  · exact ⟨encodeDisp_resolves settles drafts false, .inl rfl⟩
  · exact ⟨encodeDisp_resolves settles drafts false, .inl rfl⟩
  · split
    · exact ⟨encodeDisp_resolves settles drafts true, .inl rfl⟩
    · exact encodeImmediate_resolves settles drafts entry slot
  · exact ⟨encodeDisp_resolves settles drafts false, .inl rfl⟩
  · exact ⟨drafts, .inl rfl⟩
  · exact ⟨drafts, .inl rfl⟩

theorem encodeGen_outcome (entry : Entry Mode) (slot : Slot Mode) :
    Machine.Outcome config false (encodeGen entry slot op d) (encodeGen entry slot known d') := by
  obtain ⟨form, results⟩ := encodeBase_resolves settles drafts entry slot
  unfold encodeGen
  generalize encodeBase entry slot op d = first at form results ⊢
  generalize encodeBase entry slot known d' = second at form results ⊢
  obtain ⟨e, result⟩ := first
  obtain ⟨e', result'⟩ := second
  rw [settles.index, settles.indexSize]
  rcases results with same | ⟨bare, cause, failed⟩
  · obtain rfl : result = result' := same
    cases result with
    | error cause => exact ⟨form, fun _ => id⟩
    | ok base =>
      dsimp only
      split
      · exact ⟨form.embed _ _ _ _, fun _ => id⟩
      · split
        · exact ⟨form, fun _ => id⟩
        · exact ⟨(form.emit rfl _ _ _ _ _).embed _ _ _ _, fun _ => id⟩
  -- The known value does not fit, so nothing is asked of its placeholder but its form.
  · obtain rfl : result' = .error cause := failed
    refine ⟨?_, fun _ wrong => by simp at wrong⟩
    cases result with
    | error cause => exact form
    | ok base =>
      simp only [bare]
      exact form.embed_left _ _ _

end Encode

theorem customResolves : machine.CustomResolves fun _ _ => false := by
  intro entry slot op known d d' settles drafts
  change Machine.Outcome config _ (encodeCustom entry slot op d) (encodeCustom entry slot known d')
  unfold encodeCustom
  split
  · exact ⟨drafts.emit rfl _ _ _ _ _, fun _ => id⟩
  · exact ⟨drafts.emit rfl _ _ _ _ _, fun _ => id⟩
  · exact encodeGen_outcome settles drafts entry slot

/-- Is the operand of this slot a displacement on the ladder? -/
def takesLadder (slot : Slot Mode) (op : Operand Mode Reg) : Bool :=
  slot.mode == .disp || slot.mode == .dispAbs ||
    isGen slot.mode && (op.mode == .regRel || op.mode == .space || op.mode == .abs ||
      slot.mode == .genA && op.mode == .imm)

/-- A displacement has the size that is asked for. -/
def hasSize (slot : Slot Mode) (op : Operand Mode Reg) : Bool := !takesLadder slot op || op.force.isSome

theorem encodeBase_rigid (entry : Entry Mode) {slot : Slot Mode} {op : Operand Mode Reg}
    (general : isGen slot.mode = true) (form : hasSize slot op = true) {d : Draft} (rigid : d.Rigid) :
    (encodeBase entry slot op d).1.Rigid := by
  have disp (relative : Bool) (taken : takesLadder slot op = true) :
      (encodeDisp op relative d).Rigid := by
    have forced : op.force.isSome = true := by simpa [hasSize, taken] using form
    exact rigid.extend forced
  unfold encodeBase
  dsimp only
  split
  · exact rigid
  next mode => exact disp false (by simp [takesLadder, general, mode])
  next mode => exact disp false (by simp [takesLadder, general, mode])
  next mode =>
    split
    next address => exact disp true (by simp [takesLadder, isGen, mode, address])
    · unfold encodeImmediate
      repeat' split
      · exact rigid
      · exact rigid
      · exact rigid.extend rfl
      · exact (rigid.emit _ _ _ _).embed _ _ _
  next mode => exact disp false (by simp [takesLadder, general, mode])
  · exact rigid
  · exact rigid

theorem fixes : machine.Fixes hasSize where
  ladder slot op relative ladder form := by
    change shape slot.mode = .ladder relative at ladder
    have taken : takesLadder slot op = true := by
      cases mode : slot.mode <;> simp [mode, shape] at ladder <;> simp [takesLadder, mode]
    simpa [hasSize, taken] using form
  custom entry slot op d own form rigid := by
    change shape slot.mode = .custom at own
    change (encodeCustom entry slot op d).1.Rigid
    unfold encodeCustom
    split
    · exact rigid.emit _ _ _ _
    · exact rigid.emit _ _ _ _
    next notList notReversed =>
      have general : isGen slot.mode = true := by
        cases mode : slot.mode <;> simp_all [shape, isGen]
      have base := encodeBase_rigid entry general form rigid
      unfold encodeGen
      split
      next failed =>
        rw [failed] at base
        exact base
      next found =>
        rw [found] at base
        split
        · exact base.embed _ _ _
        · split
          · exact base
          · exact (base.emit _ _ _ _).embed _ _ _

end Ns32000

end CrossAsm
