import CrossAsm.Proofs.Encoding
import CrossAsm.Proofs.Resolution.Line

/-! Encoding operands whose values are still open. An instruction has the form that it has once they
are known: the same extensions, at least those of fixed size in as many bytes, and no fault that is not
there then. -/

namespace CrossAsm

variable {Mode Reg : Type}

/-! ### Fields and drafts -/

/-- A field with a value that may still be open, and what it becomes. -/
inductive Field.Resolves : Field → Field → Prop
  | number (value known : Int) (bytes : Nat) (endian other : Endian) :
    Resolves (.number value bytes endian) (.number known bytes other)
  | relative {target known : Int} {bytes : Nat} {undefined still : Bool}
      (final : undefined = false → known = target ∧ still = false) :
    Resolves (.relative target bytes undefined) (.relative known bytes still)
  | ladder {value known : Int} {relative : Bool} {force : Option Force} {undefined still : Bool}
      (final : undefined = false → known = value ∧ still = false) :
    Resolves (.ladder value relative force undefined) (.ladder known relative force still)

structure Extension.Resolves (e known : Extension) : Prop where
  stage : known.stage = e.stage
  field : e.field.Resolves known.field

/-- Two drafts for one target that differ in the opcode and in values that were open. -/
structure Draft.Resolves (c : Config) (d known : Draft) : Prop where
  config : d.config = c
  same : known.config = c
  address : known.address = d.address
  lead : known.lead = d.lead
  gap : known.gap = d.gap
  opcodeCells : known.opcodeCells = d.opcodeCells
  extensions : List.Forall₂ Extension.Resolves d.extensions known.extensions

namespace Draft.Resolves

variable {c : Config} {d known : Draft} (drafts : Draft.Resolves c d known)

include drafts

theorem config_eq : known.config = d.config := drafts.same.trans drafts.config.symm

theorem embed_left (field : BitVec 32) (pos width : Nat) : Draft.Resolves c (d.embed field pos width) known :=
  ⟨drafts.config, drafts.same, drafts.address, drafts.lead, drafts.gap, drafts.opcodeCells,
    drafts.extensions⟩

theorem embed_right (field : BitVec 32) (pos width : Nat) : Draft.Resolves c d (known.embed field pos width) :=
  ⟨drafts.config, drafts.same, drafts.address, drafts.lead, drafts.gap, drafts.opcodeCells,
    drafts.extensions⟩

theorem setOpcode_left (opcode : BitVec 32) : Draft.Resolves c (d.setOpcode opcode) known :=
  ⟨drafts.config, drafts.same, drafts.address, drafts.lead, drafts.gap, drafts.opcodeCells,
    drafts.extensions⟩

theorem setOpcode_right (opcode : BitVec 32) : Draft.Resolves c d (known.setOpcode opcode) :=
  ⟨drafts.config, drafts.same, drafts.address, drafts.lead, drafts.gap, drafts.opcodeCells,
    drafts.extensions⟩

theorem embed (field other : BitVec 32) (pos width : Nat) :
    Draft.Resolves c (d.embed field pos width) (known.embed other pos width) :=
  (drafts.embed_left field pos width).embed_right other pos width

theorem extend {stage other : Stage} (same : other = stage) {field open_ : Field}
    (fields : open_.Resolves field) (column place : Nat) :
    Draft.Resolves c (d.extend stage open_ column) (known.extend other field place) where
  config := drafts.config
  same := drafts.same
  address := drafts.address
  lead := drafts.lead
  gap := drafts.gap
  opcodeCells := drafts.opcodeCells
  extensions := List.rel_append drafts.extensions (.cons ⟨same, fields⟩ .nil)

theorem emit {stage other : Stage} (same : other = stage) (value final : Int)
    (bytes column place : Nat) :
    Draft.Resolves c (d.emit stage value bytes column) (known.emit other final bytes place) :=
  drafts.extend same (.number value final bytes _ _) column place

theorem dispStage_eq : known.dispStage = d.dispStage := by
  have stages {exts others : List Extension} (same : List.Forall₂ Extension.Resolves exts others) :
      others.map (·.stage) = exts.map (·.stage) := by
    induction same with
    | nil => rfl
    | cons first _ ih => simp [first.stage, ih]
  have count (exts : List Extension) : (exts.filter (·.stage == .gap)).length =
      ((exts.map (·.stage)).filter (· == .gap)).length := by
    simp [List.filter_map, Function.comp_def]
  simp only [dispStage, count, stages drafts.extensions, drafts.gap]

end Draft.Resolves

/-! ### One operand -/

namespace Machine

variable {m : Machine Mode Reg}

/-- What encoding an open operand gives next to what it gives once the value is known. Unless the
placeholder is looked at, nothing is wrong with it that is not wrong with the value. -/
structure Outcome (c : Config) (exposed : Bool) (waiting known : Draft × Option Cause) : Prop where
  draft : Draft.Resolves c waiting.1 known.1
  cause : exposed = false → known.2 = none → waiting.2 = none

/-- The target's own encoding tells open values from known ones, but for these slots and operands. -/
def CustomResolves (m : Machine Mode Reg) (exposes : Slot Mode → Operand Mode Reg → Bool) : Prop :=
  ∀ entry slot op known d d', op.Settles known → Draft.Resolves m.config d d' →
    Outcome m.config (exposes slot op) (m.encodeCustom entry slot op d) (m.encodeCustom entry slot known d')

/-- A register does not depend on symbols. -/
def RegisterResolves (m : Machine Mode Reg) : Prop :=
  ∀ mode op known, op.Settles known → m.registerField mode known = m.registerField mode op

theorem Outcome.weaken {c : Config} {exposed : Bool} {waiting known : Draft × Option Cause}
    (outcome : Outcome c false waiting known) : Outcome c exposed waiting known :=
  ⟨outcome.draft, fun _ => outcome.cause rfl⟩

section Operand

variable {op known : Operand Mode Reg} (settles : op.Settles known) {d d' : Draft}
  (drafts : Draft.Resolves m.config d d')

include settles drafts

theorem encodeEmbedded_outcome (slot : Slot Mode) {fits fits' : Bool} {cause : Cause}
    (same : op.undefined = false → fits' = fits) :
    Outcome m.config false (encodeEmbedded slot op fits cause d) (encodeEmbedded slot known fits' cause d') := by
  cases waits : op.undefined with
  | true =>
    simp only [encodeEmbedded, waits, Bool.true_or, if_true]
    constructor
    · split
      · exact drafts.embed _ _ _ _
      · exact drafts.embed_left _ _ _
    · intro _ _
      rfl
  | false =>
    rw [settles.final waits, same waits]
    simp only [encodeEmbedded, waits, Bool.false_or]
    split
    · exact ⟨drafts.embed _ _ _ _, fun _ _ => rfl⟩
    · exact ⟨drafts, fun _ => id⟩

theorem encodeNumber_outcome {stage stage' : Stage} (staged : stage' = stage) (bytes : Nat)
    {fits fits' : Bool} (same : op.undefined = false → fits' = fits) :
    Outcome m.config false (encodeNumber stage op bytes fits d) (encodeNumber stage' known bytes fits' d') := by
  cases waits : op.undefined with
  | true =>
    simp only [encodeNumber, waits, Bool.true_or, if_true]
    constructor
    · split
      · exact drafts.emit staged _ _ _ _ _
      · exact drafts.emit staged _ _ _ _ _
    · intro _ _
      rfl
  | false =>
    rw [settles.final waits, same waits]
    simp only [encodeNumber, waits, Bool.false_or]
    split
    · exact ⟨drafts.emit staged _ _ _ _ _, fun _ _ => rfl⟩
    · exact ⟨drafts.emit staged _ _ _ _ _, fun _ => id⟩

variable (registers : m.RegisterResolves)

include registers

theorem encodeRegister_resolves (slot : Slot Mode) :
    Draft.Resolves m.config (m.encodeRegister slot op d).1 (m.encodeRegister slot known d').1 ∧
      (m.encodeRegister slot known d').2 = (m.encodeRegister slot op d).2 := by
  simp only [encodeRegister, registers slot.mode op known settles]
  split
  · exact ⟨drafts.embed _ _ _ _, rfl⟩
  · exact ⟨drafts, rfl⟩

variable {exposes : Slot Mode → Operand Mode Reg → Bool} (custom : m.CustomResolves exposes)

include custom

/-- One operand: the form of the instruction is that of the known value. -/
theorem encodeOperand_outcome (entry : Entry Mode) (slot : Slot Mode) :
    Outcome m.config (m.shape slot.mode == .custom && exposes slot op) (m.encodeOperand entry slot op d)
      (m.encodeOperand entry slot known d') := by
  have final := settles.final
  unfold encodeOperand
  cases shape : m.shape slot.mode with
  | implied => exact ⟨drafts, fun _ => id⟩
  | register =>
    obtain ⟨form, same⟩ := encodeRegister_resolves settles drafts registers slot
    exact ⟨form, fun _ clean => same ▸ clean⟩
  | embedded signed =>
    exact (encodeEmbedded_outcome settles drafts slot fun known => by rw [final known]).weaken
  | bit => exact (encodeEmbedded_outcome settles drafts slot fun known => by rw [final known]).weaken
  | immediate width =>
    dsimp only
    split
    · exact ⟨drafts, fun _ => id⟩
    · exact (encodeNumber_outcome settles drafts rfl _ fun known => by rw [final known]).weaken
  | absolute width =>
    dsimp only
    split
    · exact ⟨drafts, fun _ => id⟩
    next n _ =>
      have zeroed : ({ op with value := if op.undefined then 0 else op.value } : Operand Mode Reg).Settles
          { known with value := if known.undefined then 0 else known.value } := by
        refine ⟨⟨settles.force, settles.reg, settles.index, settles.indexSize, settles.list,
          settles.column, settles.soft, fun waits => ?_⟩, settles.mode⟩
        rw [final waits]
      exact (encodeNumber_outcome zeroed drafts rfl n fun waits => by
        rw [final waits, drafts.config_eq]).weaken
  | relative width =>
    dsimp only
    split
    · exact ⟨drafts, fun _ => id⟩
    · refine ⟨drafts.extend rfl (.relative fun waits => ?_) _ _, fun _ => id⟩
      rw [final waits]
      exact ⟨rfl, waits⟩
  | indexed disp signed =>
    dsimp only
    have register : Draft.Resolves m.config
          (if 0 < slot.width then m.encodeRegister slot op d else (d, none)).1
          (if 0 < slot.width then m.encodeRegister slot known d' else (d', none)).1 ∧
        (if 0 < slot.width then m.encodeRegister slot known d' else (d', none)).2 =
          (if 0 < slot.width then m.encodeRegister slot op d else (d, none)).2 := by
      split
      · exact encodeRegister_resolves settles drafts registers slot
      · exact ⟨drafts, rfl⟩
    generalize (if 0 < slot.width then m.encodeRegister slot op d else (d, none)) = first at register ⊢
    generalize (if 0 < slot.width then m.encodeRegister slot known d' else (d', none)) = second
      at register ⊢
    obtain ⟨e, rejected⟩ := first
    obtain ⟨e', again⟩ := second
    obtain ⟨form, rfl⟩ : Draft.Resolves m.config e e' ∧ again = rejected := register
    -- The register is rejected under both tables or under none.
    cases again with
    | some cause => exact ⟨form, fun _ => id⟩
    | none =>
      cases disp.bytes? entry.size with
      | none => exact ⟨form, fun _ => id⟩
      | some n =>
        exact (encodeNumber_outcome settles form form.dispStage_eq n fun known => by
          rw [final known]).weaken
  | ladder relative =>
    refine ⟨?_, fun _ => id⟩
    rw [settles.force]
    refine drafts.extend rfl (.ladder fun waits => ?_) _ _
    rw [final waits]
    exact ⟨rfl, waits⟩
  | custom =>
    rw [beq_self_eq_true, Bool.true_and]
    exact custom entry slot op known d d' settles drafts

end Operand

/-- All operands: nothing is wrong with them that is not wrong with the known values. -/
theorem encodeOperands_outcome (registers : m.RegisterResolves)
    {exposes : Slot Mode → Operand Mode Reg → Bool} (custom : m.CustomResolves exposes)
    (entry : Entry Mode) {ops knowns : List (Operand Mode Reg)}
    (paired : List.Forall₂ Operand.Settles ops knowns) (slots : List (Slot Mode)) {d d' : Draft}
    (drafts : Draft.Resolves m.config d d') :
    Draft.Resolves m.config (m.encodeOperands entry slots ops d).1
        (m.encodeOperands entry slots knowns d').1 ∧
      ((∀ w ∈ slots.zip ops, (m.shape w.1.mode == .custom && exposes w.1 w.2) = false) →
        (m.encodeOperands entry slots knowns d').2 = none →
          (m.encodeOperands entry slots ops d).2 = none) := by
  induction paired generalizing slots d d' with
  | nil => cases slots <;> exact ⟨drafts, fun _ => id⟩
  | @cons op known ops knowns first _ ih =>
    cases slots with
    | nil => exact ⟨drafts, fun _ => id⟩
    | cons slot slots =>
      have step := encodeOperand_outcome first drafts registers custom entry slot
      obtain ⟨form, quiet⟩ := ih slots step.draft
      refine ⟨form, fun hidden clean => ?_⟩
      simp only [encodeOperands, Option.or_eq_none_iff, Option.map_eq_none_iff] at clean ⊢
      constructor
      · exact step.cause (hidden (slot, op) (by simp)) clean.1
      · exact quiet (fun w member => hidden w (by simp [member])) clean.2

end Machine

/-! ### The finished instruction -/

/-- On the ladder, the rung for a value that is not known yet holds the zero that stands for it. -/
def Config.holdsZero (c : Config) : Bool :=
  c.ladder.isEmpty || [none, some .short, some .long].all fun force =>
    (c.ladder.find? (·.bytes == Ladder.size c.ladder 0 force true)).any (·.holds 0)

namespace Ladder

theorem size_undefined (ladder : List Rung) (v : Int) (force : Option Force) :
    size ladder v force true = size ladder 0 force true := by
  rcases force with _ | _ | _ <;> rfl

theorem size_forced (ladder : List Rung) (v w : Int) {force : Option Force} (forced : force.isSome)
    (undefined still : Bool) : size ladder v force undefined = size ladder w force still := by
  rcases force with _ | _ | _
  · simp at forced
  · rfl
  · rfl

end Ladder

namespace Extension.Resolves

variable {e known : Extension} (resolves : e.Resolves known)

include resolves

theorem initialSize_eq_of_flat : known.initialSize [] = e.initialSize [] := by
  obtain ⟨stage, field, column⟩ := e
  obtain ⟨_, field', column'⟩ := known
  obtain ⟨-, fields⟩ := resolves
  cases fields with
  | number => rfl
  | relative => rfl
  | @ladder value known relative force undefined still final =>
    have nothing (v : Int) (undefined : Bool) : Ladder.size [] v force undefined = 0 := by
      rcases force with _ | _ | _ <;> cases undefined <;> rfl
    cases relative <;> simp only [initialSize, nothing]

/-- What is in order with the known value is in order with its placeholder. -/
theorem laid_clean {config : Config} (zero : config.holdsZero = true) {base : Int}
    (clean : (known.laid config base).2 = none) : (e.laid config base).2 = none := by
  obtain ⟨stage, field, column⟩ := e
  obtain ⟨_, field', column'⟩ := known
  obtain ⟨-, fields⟩ := resolves
  cases fields with
  | number => rfl
  | @relative target known bytes undefined still final =>
    cases undefined with
    | false =>
      obtain ⟨rfl, rfl⟩ := final rfl
      exact clean
    | true =>
      have fits : fitsSigned 0 (8 * bytes) = true := by
        have positive := twoPow_pos (8 * bytes - 1)
        simp only [fitsSigned, decide_eq_true_eq]
        omega
      simp [laid, render, fits]
  | @ladder value known relative force undefined still final =>
    cases undefined with
    | false =>
      obtain ⟨rfl, rfl⟩ := final rfl
      exact clean
    | true =>
      have settled : settled config.ladder base ⟨stage, .ladder value relative force true, column⟩ =
          Ladder.size config.ladder 0 force true := by
        cases relative with
        | false => exact Ladder.size_undefined _ _ _
        | true =>
          simp only [Extension.settled, grownSize, initialSize, Ladder.size_undefined _ (value - base)]
          exact Nat.max_self _
      have listed : config.ladder.isEmpty = false := by
        by_contra none
        have empty : config.ladder = [] := by simpa using none
        simp [laid, render, empty] at clean
      have rung := zero
      simp only [Config.holdsZero, listed, Bool.false_or, List.all_eq_true] at rung
      have holds := rung force (by rcases force with _ | _ | _ <;> simp)
      rw [laid, settled, render]
      cases found : config.ladder.find? (·.bytes == Ladder.size config.ladder 0 force true) with
      | none => simp [found] at holds
      | some rung =>
        have inside : rung.holds 0 = true := by simpa [found] using holds
        simp [inside]

end Extension.Resolves

namespace Draft.Resolves

variable {c : Config} {d known : Draft} (drafts : Draft.Resolves c d known) (steady : c.steady = true)

include drafts steady

/-- Displacements are measured from the same place. -/
theorem finalBase_eq : known.finalBase = d.finalBase := by
  have fixed := steady
  simp only [Config.steady, Bool.or_eq_true, decide_eq_true_eq, List.isEmpty_iff] at fixed
  rcases fixed with start | flat
  · simp only [Draft.finalBase, Draft.base, drafts.same, drafts.config, start, drafts.address]
  · have sizes {exts others : List Extension} (same : List.Forall₂ Extension.Resolves exts others) :
        others.map (Extension.initialSize []) = exts.map (Extension.initialSize []) := by
      induction same with
      | nil => rfl
      | cons first _ ih => simp [first.initialSize_eq_of_flat, ih]
    have settled (base : Int) : Extension.settled [] base = Extension.initialSize [] := by
      funext e
      exact Extension.grownSize_no_ladder base e _
    have same : known.sizes = d.sizes := by
      rw [d.sizes_eq (by rwa [drafts.config]), known.sizes_eq (by rwa [drafts.same]), drafts.config,
        drafts.same, flat, settled, settled, sizes drafts.extensions]
    simp only [Draft.finalBase, Draft.base, Draft.length, Draft.opcodeBytes, same, drafts.config,
      drafts.same, drafts.address, drafts.lead, drafts.opcodeCells]

theorem fault?_eq_none (zero : c.holdsZero = true) (clean : known.fault? = none) :
    d.fault? = none := by
  apply d.fault?_eq_none (by rwa [drafts.config])
  intro e member
  obtain ⟨e', present, resolves⟩ := exists_right_of_forall₂ drafts.extensions member
  apply resolves.laid_clean (by rwa [drafts.config])
  have laid : (e'.laid known.config known.finalBase).2 = none := by
    rw [Draft.fault?, known.chunks_eq (by rwa [drafts.same]), List.findSome?_eq_none_iff] at clean
    simpa using clean _ (List.mem_map_of_mem present)
  rwa [drafts.config_eq, drafts.finalBase_eq steady] at laid

end Draft.Resolves

/-! ### Length -/

/-- Is the size of the extension independent of its value? -/
def Extension.rigid (e : Extension) : Bool :=
  match e.field with
  | .ladder _ _ force _ => force.isSome
  | _ => true

/-- All extensions so far have a size that no value changes. -/
def Draft.Rigid (d : Draft) : Prop := ∀ e ∈ d.extensions, e.rigid = true

namespace Draft.Rigid

variable {d : Draft} (rigid : d.Rigid)

include rigid

theorem embed (field : BitVec 32) (pos width : Nat) : (d.embed field pos width).Rigid := rigid

theorem extend {stage : Stage} {field : Field} {column : Nat}
    (fixed : Extension.rigid ⟨stage, field, column⟩ = true) : (d.extend stage field column).Rigid := by
  intro e member
  rcases List.mem_append.mp member with before | new
  · exact rigid e before
  · rw [List.mem_singleton.mp new]
    exact fixed

theorem emit (stage : Stage) (value : Int) (bytes column : Nat) :
    (d.emit stage value bytes column).Rigid :=
  rigid.extend rfl

end Draft.Rigid

theorem Extension.Resolves.length_laid {e known : Extension} (resolves : e.Resolves known)
    (rigid : e.rigid = true) (config : Config) (base base' : Int) :
    (known.laid config base').1.length = (e.laid config base).1.length := by
  obtain ⟨stage, field, column⟩ := e
  obtain ⟨_, field', column'⟩ := known
  obtain ⟨-, fields⟩ := resolves
  cases fields with
  | number value known bytes endian other => simp [laid_number]
  | relative => simp [laid, render]
  | @ladder value known relative force undefined still final =>
    have forced : force.isSome = true := rigid
    have settled (v : Int) (undefined : Bool) (base : Int) (stage : Stage) (column : Nat) :
        settled config.ladder base ⟨stage, .ladder v relative force undefined, column⟩ =
          Ladder.size config.ladder 0 force true := by
      cases relative with
      | false => exact Ladder.size_forced _ _ _ forced _ _
      | true =>
        simp only [Extension.settled, grownSize, initialSize,
          Ladder.size_forced config.ladder (v - base) 0 forced undefined true,
          Ladder.size_forced config.ladder 0 0 forced undefined true]
        exact Nat.max_self _
    simp only [laid, settled, render]
    -- Both stand on the same rung, which is as long for one number as for another.
    cases config.ladder.find? (·.bytes == Ladder.size config.ladder 0 force true) with
    | none => rfl
    | some rung =>
      have encoded (v : Int) (cause : Option Cause) :
          (if rung.holds v then (rung.encode v, none) else (rung.encode 0, cause)).1.length =
            min rung.bytes 4 := by
        split <;> simp [Rung.encode]
      simp only [encoded]

theorem Draft.Resolves.length_bytes {c : Config} {d known : Draft} (drafts : Draft.Resolves c d known)
    (steady : c.steady = true) (rigid : d.Rigid) : known.bytes.length = d.bytes.length := by
  have lengths {exts others : List Extension} (same : List.Forall₂ Extension.Resolves exts others)
      (rigid : ∀ e ∈ exts, e.rigid = true) (base base' : Int) :
      (others.map fun e => (e.laid c base').1.length) =
        exts.map fun e => (e.laid c base).1.length := by
    induction same with
    | nil => rfl
    | @cons e known _ _ first _ ih =>
      rw [List.map_cons, List.map_cons, ih fun e member => rigid e (by simp [member]),
        first.length_laid (rigid e (by simp)) c base base']
  have total (d : Draft) (base : Int) : (d.bytesAt base).length = d.lead.length +
      (d.config.endian.put d.opcodeBytes d.opcode.toNat).length +
        (d.extensions.map fun e => (e.laid d.config base).1.length).foldr (· + ·) 0 := by
    rw [← Extension.length_stages]
    simp only [bytesAt, List.length_append]
    omega
  rw [d.bytes_eq (by rwa [drafts.config]), known.bytes_eq (by rwa [drafts.same]), total, total,
    drafts.lead, Endian.length_put, Endian.length_put, drafts.config, drafts.same,
    lengths drafts.extensions rigid d.finalBase known.finalBase]
  simp only [opcodeBytes, drafts.opcodeCells, drafts.config, drafts.same]

namespace Machine

variable {m : Machine Mode Reg}

/-- Slots and operands of this kind take up a size that no value changes. -/
structure Fixes (m : Machine Mode Reg) (fixed : Slot Mode → Operand Mode Reg → Bool) : Prop where
  ladder : ∀ slot op relative, m.shape slot.mode = .ladder relative → fixed slot op = true →
    op.force.isSome = true
  custom : ∀ entry slot op d, m.shape slot.mode = .custom → fixed slot op = true → Draft.Rigid d →
    (m.encodeCustom entry slot op d).1.Rigid

section Fixes

variable {fixed : Slot Mode → Operand Mode Reg → Bool} (fixes : m.Fixes fixed)

include fixes

theorem encodeOperand_rigid (entry : Entry Mode) {slot : Slot Mode} {op : Operand Mode Reg}
    (form : fixed slot op = true) {d : Draft} (rigid : d.Rigid) :
    (m.encodeOperand entry slot op d).1.Rigid := by
  have register {d : Draft} (rigid : d.Rigid) : (m.encodeRegister slot op d).1.Rigid := by
    unfold encodeRegister
    split
    · exact rigid.embed _ _ _
    · exact rigid
  have embedded (fits : Bool) (cause : Cause) : (encodeEmbedded slot op fits cause d).1.Rigid := by
    unfold encodeEmbedded
    split
    · exact rigid.embed _ _ _
    · exact rigid
  have number (op : Operand Mode Reg) (stage : Stage) (bytes : Nat) (fits : Bool) {d : Draft}
      (rigid : d.Rigid) : (encodeNumber stage op bytes fits d).1.Rigid := by
    unfold encodeNumber
    split <;> exact rigid.emit _ _ _ _
  -- Of the generic shapes only a ladder has no width of its own.
  unfold encodeOperand
  cases shape : m.shape slot.mode with
  | implied => exact rigid
  | register => exact register rigid
  | embedded signed => exact embedded _ _
  | bit => exact embedded _ _
  | immediate width =>
    dsimp only
    split
    · exact rigid
    · exact number _ _ _ _ rigid
  | absolute width =>
    dsimp only
    split
    · exact rigid
    · exact number _ _ _ _ rigid
  | relative width =>
    dsimp only
    split
    · exact rigid
    · exact rigid.extend rfl
  | indexed disp signed =>
    dsimp only
    have first : (if 0 < slot.width then m.encodeRegister slot op d else (d, none)).1.Rigid := by
      split
      · exact register rigid
      · exact rigid
    split
    · exact first
    · exact first
    · exact number _ _ _ _ first
  | ladder relative => exact rigid.extend (fixes.ladder slot op relative shape form)
  | custom => exact fixes.custom entry slot op d shape form rigid

theorem encodeOperands_rigid (entry : Entry Mode) (slots : List (Slot Mode))
    (ops : List (Operand Mode Reg)) (forms : ∀ w ∈ slots.zip ops, fixed w.1 w.2 = true) {d : Draft}
    (rigid : d.Rigid) : (m.encodeOperands entry slots ops d).1.Rigid := by
  induction slots generalizing ops d with
  | nil => exact rigid
  | cons slot slots ih =>
    cases ops with
    | nil => exact rigid
    | cons op ops =>
      exact ih ops (fun w member => forms w (by simp [member]))
        (encodeOperand_rigid fixes entry (forms (slot, op) (by simp)) rigid)

end Fixes

/-! ### Instructions -/

theorem draft_resolves (page : Page Mode) (entry : Entry Mode) (address : UInt32) :
    Draft.Resolves m.config (m.draft page entry address) (m.draft page entry address) :=
  ⟨rfl, rfl, rfl, rfl, rfl, rfl, .nil⟩

section Encode

variable (registers : m.RegisterResolves) {exposes : Slot Mode → Operand Mode Reg → Bool}
  (custom : m.CustomResolves exposes) (steady : m.config.steady = true) (page : Page Mode)
  {entry : Entry Mode} {ops knowns : List (Operand Mode Reg)}
  (paired : List.Forall₂ Operand.Settles ops knowns) (address : UInt32)

include registers custom steady paired

/-- An instruction that is in order once its values are known has no fault before that but that they
are open, where none of the placeholders is looked at. -/
theorem fault_encode (zero : m.config.holdsZero = true)
    (hidden : ∀ w ∈ entry.slots.zip ops, (m.shape w.1.mode == .custom && exposes w.1 w.2) = false)
    (clean : (m.encode page entry knowns address).fault = none) :
    (m.encode page entry ops address).fault = ops.findSome? (·.fault) := by
  obtain ⟨drafts, quiet⟩ := encodeOperands_outcome registers custom entry paired entry.slots
    (m.draft_resolves page entry address)
  simp only [encode, Option.or_eq_none_iff] at clean ⊢
  rw [quiet hidden clean.1.1, drafts.fault?_eq_none steady zero clean.1.2]
  rfl

/-- An instruction of fixed form is as long before its values are known as it is then. -/
theorem length_encode {fixed : Slot Mode → Operand Mode Reg → Bool} (fixes : m.Fixes fixed)
    (forms : ∀ w ∈ entry.slots.zip ops, fixed w.1 w.2 = true) :
    (m.encode page entry knowns address).bytes.length =
      (m.encode page entry ops address).bytes.length := by
  obtain ⟨drafts, -⟩ := encodeOperands_outcome registers custom entry paired entry.slots
    (m.draft_resolves page entry address)
  exact drafts.length_bytes steady (encodeOperands_rigid fixes entry entry.slots ops forms nofun)

end Encode

end Machine

end CrossAsm
