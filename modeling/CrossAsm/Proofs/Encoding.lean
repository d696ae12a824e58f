import CrossAsm.Machine.Encode
import CrossAsm.Proofs.Layout

/-! Encoding operand by operand. Each operand adds a piece to the instruction: a field of the
opcode, and extensions before or behind it. An instruction is its entry with the pieces of its
operands, whatever faults they report. -/

namespace CrossAsm

/-- What an operand adds to an instruction. -/
structure Piece where
  field : BitVec 32 := 0#32
  extensions : List Extension := []

namespace Piece

/-- The bytes a piece has in a stage. -/
def bytes (p : Piece) (config : Config) (base : Int) (stage : Stage) : List UInt8 :=
  Extension.stageOf config base stage p.extensions

/-- How many extensions of the piece stand in the gap. -/
def gaps (p : Piece) : Nat := (p.extensions.filter (·.stage == .gap)).length

end Piece

variable {Mode Reg : Type}

namespace Draft

/-- How many displacements the gap still takes. -/
def room (d : Draft) : Nat := d.gap - (d.extensions.filter (·.stage == .gap)).length

theorem dispStage_eq (d : Draft) : d.dispStage = if 0 < d.room then .gap else .payload := by
  simp only [dispStage, room, Nat.sub_pos_iff_lt]

theorem room_lay (d : Draft) (slot : Slot Mode) (p : Piece) :
    (d.lay slot p.field p.extensions).room = d.room - p.gaps := by
  simp [room, Piece.gaps, Nat.sub_sub]

/-- The draft with the pieces of operands, each for its slot. -/
def layAll (d : Draft) (pieces : List (Slot Mode × Piece)) : Draft :=
  pieces.foldl (fun d p => d.lay p.1 p.2.field p.2.extensions) d

theorem layAll_eq (d : Draft) (pieces : List (Slot Mode × Piece)) :
    d.layAll pieces =
      { d with
        opcode := d.opcode ||| placeAll (pieces.map fun p => (p.1, p.2.field))
        extensions := d.extensions ++ pieces.flatMap (·.2.extensions) } := by
  induction pieces generalizing d with
  | nil => simp [layAll, placeAll]
  | cons p pieces ih =>
    change (d.lay p.1 p.2.field p.2.extensions).layAll pieces = _
    rw [ih]
    simp [lay, placeAll, BitVec.or_assoc]

@[simp] theorem layAll_config (d : Draft) (pieces : List (Slot Mode × Piece)) :
    (d.layAll pieces).config = d.config := by
  rw [layAll_eq]

end Draft

theorem Extension.shown_flatMap {α : Type} (config : Config) (base : Int) (size : Extension → Nat)
    (stage : Stage) (extensions : α → List Extension) (items : List α) :
    shown config base size stage (items.flatMap extensions) =
      items.flatMap fun item => shown config base size stage (extensions item) := by
  induction items with
  | nil => rfl
  | cons item items ih => simp [ih]

theorem Extension.stageOf_flatMap {α : Type} (config : Config) (base : Int) (stage : Stage)
    (extensions : α → List Extension) (items : List α) :
    stageOf config base stage (items.flatMap extensions) =
      items.flatMap fun item => stageOf config base stage (extensions item) :=
  shown_flatMap config base _ stage extensions items

namespace Machine

variable (m : Machine Mode Reg)

/-- The operand becomes this piece where the gap has so much room, and reports this cause. -/
def Lays (entry : Entry Mode) (slot : Slot Mode) (op : Operand Mode Reg) (room : Nat)
    (piece : Piece) (cause : Option Cause) : Prop :=
  ∀ d : Draft, d.config = m.config → d.room = room →
    m.encodeOperand entry slot op d = (d.lay slot piece.field piece.extensions, cause)

end Machine

/-- Operands that become pieces one after the other, each as the relation asks where the gap still
has so much room, and the first fault among them. -/
inductive Pieces
    (R : Slot Mode → Operand Mode Reg → Nat → Piece → Option Cause → Prop) :
    List (Slot Mode) → List (Operand Mode Reg) → Nat → List (Slot Mode × Piece) → Option Fault → Prop
  | nil (room : Nat) : Pieces R [] [] room [] none
  | cons {slot : Slot Mode} {op : Operand Mode Reg} {room : Nat} {piece : Piece}
      {cause : Option Cause} {slots : List (Slot Mode)} {ops : List (Operand Mode Reg)}
      {pieces : List (Slot Mode × Piece)} {later : Option Fault}
      (first : R slot op room piece cause)
      (rest : Pieces R slots ops (room - piece.gaps) pieces later) :
      Pieces R (slot :: slots) (op :: ops) room ((slot, piece) :: pieces)
        ((cause.map (·.located op.column)).or later)

namespace Pieces

variable {R S : Slot Mode → Operand Mode Reg → Nat → Piece → Option Cause → Prop}
  {slots : List (Slot Mode)} {ops : List (Operand Mode Reg)} {room : Nat}
  {pieces : List (Slot Mode × Piece)} {fault : Option Fault}

theorem slots_eq (laid : Pieces R slots ops room pieces fault) : pieces.map (·.1) = slots := by
  induction laid with
  | nil => rfl
  | cons _ _ ih => simp [ih]

theorem cons_clean {slot : Slot Mode} {op : Operand Mode Reg} {piece : Piece}
    (first : R slot op room piece none) (rest : Pieces R slots ops (room - piece.gaps) pieces none) :
    Pieces R (slot :: slots) (op :: ops) room ((slot, piece) :: pieces) none :=
  .cons first rest

theorem imp (weaker : ∀ slot op room piece cause, R slot op room piece cause →
    S slot op room piece cause) (laid : Pieces R slots ops room pieces fault) :
    Pieces S slots ops room pieces fault := by
  induction laid with
  | nil room => exact .nil room
  | cons first _ ih => exact .cons (weaker _ _ _ _ _ first) ih

theorem forall_mem {P : Slot Mode × Piece → Prop}
    (each : ∀ slot op room piece cause, R slot op room piece cause → P (slot, piece))
    (laid : Pieces R slots ops room pieces fault) : ∀ p ∈ pieces, P p := by
  induction laid with
  | nil => simp
  | cons first _ ih => exact List.forall_mem_cons.mpr ⟨each _ _ _ _ _ first, ih⟩

/-- Every piece is among the pieces, and has no cause where nothing is reported. -/
theorem mem (laid : Pieces R slots ops room pieces fault) :
    Pieces (fun slot op room piece cause => (slot, piece) ∈ pieces ∧ (fault = none → cause = none) ∧
      R slot op room piece cause) slots ops room pieces fault := by
  induction laid with
  | nil room => exact .nil room
  | cons first rest ih =>
    refine .cons ⟨by simp, by simp +contextual, first⟩ (ih.imp ?_)
    rintro slot op room piece cause ⟨present, quiet, related⟩
    exact ⟨by simp [present], fun none => quiet (by simp_all), related⟩

/-- Operands whose pieces are known, wherever they stand, make up these pieces. -/
theorem of_forall₂ {piece : Slot Mode → Piece}
    (each : List.Forall₂ (fun slot op => ∀ room, R slot op room (piece slot) none) slots ops)
    (room : Nat) : Pieces R slots ops room (slots.map fun slot => (slot, piece slot)) none := by
  induction each generalizing room with
  | nil => exact .nil room
  | cons first _ ih => exact Pieces.cons (first room) (ih _)

/-- Operands that each have a piece have pieces one after the other. -/
theorem exists_of_each {Q : Slot Mode → Operand Mode Reg → Prop}
    (each : ∀ slot op, Q slot op → ∀ room, ∃ piece cause, R slot op room piece cause)
    (paired : List.Forall₂ Q slots ops) (room : Nat) :
    ∃ pieces fault, Pieces (fun slot op room piece cause => Q slot op ∧ R slot op room piece cause)
      slots ops room pieces fault := by
  induction paired generalizing room with
  | nil => exact ⟨[], none, .nil room⟩
  | @cons slot op slots ops first _ ih =>
    obtain ⟨piece, cause, related⟩ := each slot op first room
    obtain ⟨pieces, fault, more⟩ := ih (room - piece.gaps)
    exact ⟨_, _, .cons ⟨first, related⟩ more⟩

theorem exists_cons {slot : Slot Mode} (laid : Pieces R (slot :: slots) ops room pieces fault) :
    ∃ op others piece more cause, ops = op :: others ∧ pieces = (slot, piece) :: more ∧
      R slot op room piece cause ∧ (fault = none → cause = none) := by
  cases laid with
  | @cons _ op _ piece cause _ others more later first rest =>
    exact ⟨op, others, piece, more, cause, rfl, rfl, first, by simp +contextual⟩

/-- Every operand has its piece, without a cause where nothing is reported. -/
theorem forall₂ (laid : Pieces R slots ops room pieces fault) :
    List.Forall₂ (fun slot op => ∃ room piece cause, R slot op room piece cause ∧
      (slot, piece) ∈ pieces ∧ (fault = none → cause = none)) slots ops := by
  induction laid with
  | nil => exact .nil
  | @cons slot op room piece cause slots ops pieces later first rest ih =>
    refine .cons ⟨room, piece, cause, first, by simp, by simp +contextual⟩ (ih.imp ?_)
    rintro slot' op' ⟨room', piece', cause', related, present, quiet⟩
    exact ⟨room', piece', cause', related, by simp [present], fun none => quiet (by simp_all)⟩

end Pieces

namespace Machine

variable {m : Machine Mode Reg}

theorem encodeOperands_eq {entry : Entry Mode} {slots : List (Slot Mode)}
    {ops : List (Operand Mode Reg)} {room : Nat} {pieces : List (Slot Mode × Piece)}
    {fault : Option Fault} (lays : Pieces (m.Lays entry) slots ops room pieces fault) (d : Draft)
    (config : d.config = m.config) (roomy : d.room = room) :
    m.encodeOperands entry slots ops d = (d.layAll pieces, fault) := by
  induction lays generalizing d with
  | nil => rfl
  | @cons slot op room piece cause slots ops pieces later first rest ih =>
    have more := ih (d.lay slot piece.field piece.extensions) config
      (by rw [Draft.room_lay, roomy])
    simp only [encodeOperands, first d config roomy, more]
    rfl

theorem encodeOperands_append {entry : Entry Mode} {slots more : List (Slot Mode)}
    {ops others : List (Operand Mode Reg)} (same : slots.length = ops.length) (d : Draft) :
    m.encodeOperands entry (slots ++ more) (ops ++ others) d =
      let (d, early) := m.encodeOperands entry slots ops d
      let (d, late) := m.encodeOperands entry more others d
      (d, early.or late) := by
  induction slots generalizing ops d with
  | nil =>
    obtain rfl : ops = [] := List.length_eq_zero_iff.mp same.symm
    simp [encodeOperands]
  | cons slot slots ih =>
    cases ops with
    | nil => simp at same
    | cons op ops =>
      simp only [List.cons_append, encodeOperands, ih (by simpa using same), Option.or_assoc]

/-- The bytes of an entry with these pieces, when displacements are measured from `base`. -/
def layout (m : Machine Mode Reg) (page : Page Mode) (entry : Entry Mode)
    (pieces : List (Slot Mode × Piece)) (base : Int) : List UInt8 :=
  page.lead ++ pieces.flatMap (·.2.bytes m.config base .gap) ++
    m.config.endian.put (page.opcodeCells * m.config.cell.bytes)
      (entry.opcode ||| placeAll (pieces.map fun p => (p.1, p.2.field))).toNat ++
    pieces.flatMap (·.2.bytes m.config base .index) ++
    pieces.flatMap (·.2.bytes m.config base .payload)

theorem bytesAt_draft_layAll (page : Page Mode) (entry : Entry Mode) (address : UInt32)
    (pieces : List (Slot Mode × Piece)) (base : Int) :
    ((m.draft page entry address).layAll pieces).bytesAt base = m.layout page entry pieces base := by
  simp only [Draft.layAll_eq, Draft.bytesAt, draft, layout, List.nil_append,
    Extension.stageOf_flatMap, Draft.opcodeBytes]
  rfl

theorem extensions_draft_layAll (page : Page Mode) (entry : Entry Mode) (address : UInt32)
    (pieces : List (Slot Mode × Piece)) :
    ((m.draft page entry address).layAll pieces).extensions = pieces.flatMap (·.2.extensions) := by
  rw [Draft.layAll_eq]
  exact List.nil_append _

/-- An instruction is its entry with the pieces of its operands. -/
theorem encode_eq {page : Page Mode} {entry : Entry Mode} {ops : List (Operand Mode Reg)}
    {pieces : List (Slot Mode × Piece)} {early : Option Fault} (address : UInt32)
    (steady : m.config.steady = true)
    (lays : Pieces (m.Lays entry) entry.slots ops page.gap pieces early) :
    ∃ base late, m.encode page entry ops address =
      { address
        bytes := m.layout page entry pieces base
        fault := (early.or late).or (ops.findSome? (·.fault)) } := by
  have room : (m.draft page entry address).room = page.gap := rfl
  have run := encodeOperands_eq lays (m.draft page entry address) rfl room
  have config : ((m.draft page entry address).layAll pieces).config = m.config :=
    Draft.layAll_config _ pieces
  refine ⟨((m.draft page entry address).layAll pieces).finalBase,
    ((m.draft page entry address).layAll pieces).fault?, ?_⟩
  rw [← bytesAt_draft_layAll, ← Draft.bytes_eq _ (config ▸ steady)]
  simp only [encode, run]

/-- An instruction is its entry with the pieces of its operands, and reports what is wrong with
them. Displacements are measured from the base that its own length leads to. -/
theorem encode_eq_of_fixed {page : Page Mode} {entry : Entry Mode} {ops : List (Operand Mode Reg)}
    {pieces : List (Slot Mode × Piece)} {early : Option Fault} {address : UInt32} {base : Int}
    (steady : m.config.steady = true) (short : page.opcodeCells * m.config.cell.bytes ≤ 4)
    (lays : Pieces (m.Lays entry) entry.slots ops page.gap pieces early)
    (narrow : ∀ p ∈ pieces, ∀ e ∈ p.2.extensions, e.narrow = true)
    (fixed : (m.draft page entry address).base (m.layout page entry pieces base).length = base)
    (known : ∀ op ∈ ops, op.fault = none) :
    m.encode page entry ops address =
      { address
        bytes := m.layout page entry pieces base
        fault := early.or (Extension.faultOf m.config base (pieces.flatMap (·.2.extensions))) } := by
  have room : (m.draft page entry address).room = page.gap := rfl
  have run := encodeOperands_eq lays (m.draft page entry address) rfl room
  have config : ((m.draft page entry address).layAll pieces).config = m.config :=
    Draft.layAll_config _ pieces
  have extensions := extensions_draft_layAll (m := m) page entry address pieces
  have settled : ((m.draft page entry address).layAll pieces).finalBase = base := by
    apply Draft.finalBase_eq (config ▸ steady)
    · intro e member
      rw [extensions, List.mem_flatMap] at member
      obtain ⟨p, present, member⟩ := member
      exact narrow p present e member
    · rw [Draft.layAll_eq]
      exact short
    · rw [bytesAt_draft_layAll, Draft.layAll_eq]
      exact fixed
  have bytes : ((m.draft page entry address).layAll pieces).bytes =
      m.layout page entry pieces base := by
    rw [Draft.bytes_eq _ (config ▸ steady), settled, bytesAt_draft_layAll]
  have late := Draft.fault?_eq ((m.draft page entry address).layAll pieces) (config ▸ steady)
  rw [settled, config, extensions] at late
  have silent : ops.findSome? (·.fault) = none := by
    rw [List.findSome?_eq_none_iff]
    exact known
  simp only [encode, run, bytes, late, silent, Option.or_none]

/-- An instruction whose pieces are in order reports nothing. -/
theorem encode_eq_of_clean {page : Page Mode} {entry : Entry Mode} {ops : List (Operand Mode Reg)}
    {pieces : List (Slot Mode × Piece)} {address : UInt32} {base : Int}
    (steady : m.config.steady = true) (short : page.opcodeCells * m.config.cell.bytes ≤ 4)
    (lays : Pieces (m.Lays entry) entry.slots ops page.gap pieces none)
    (narrow : ∀ p ∈ pieces, ∀ e ∈ p.2.extensions, e.narrow = true)
    (clean : ∀ p ∈ pieces, ∀ e ∈ p.2.extensions, (e.laid m.config base).2 = none)
    (fixed : (m.draft page entry address).base (m.layout page entry pieces base).length = base)
    (known : ∀ op ∈ ops, op.fault = none) :
    m.encode page entry ops address = ⟨address, m.layout page entry pieces base, none⟩ := by
  have faultless : Extension.faultOf m.config base (pieces.flatMap (·.2.extensions)) = none := by
    apply Extension.faultOf_eq_none
    intro e member
    obtain ⟨p, present, inside⟩ := List.mem_flatMap.mp member
    exact clean p present e inside
  rw [encode_eq_of_fixed steady short lays narrow fixed known, faultless]
  rfl

end Machine

end CrossAsm
