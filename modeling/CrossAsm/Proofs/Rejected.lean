import CrossAsm.Proofs.Inverse
import CrossAsm.Proofs.Recovery

/-! The length of an instruction whose operands are rejected. An operand that does not fit leaves
zeros of its full width, so the instruction keeps its length. The exception is an indexed operand
whose register is refused: it is given up before its displacement is laid down. -/

namespace CrossAsm

variable {Mode Reg : Type} {m : Machine Mode Reg} {entry : Entry Mode} {slot : Slot Mode}
  {op : Operand Mode Reg}

/-- A field of a fixed width takes up this width, whatever it holds. -/
theorem Extension.length_render_of_rigid {config : Config} {base : Int} {e : Extension} (size : Nat)
    (rigid : e.flexible = false) (narrow : e.narrow = true) :
    (e.render config base size).1.length = e.initialSize config.ladder := by
  obtain ⟨stage, field, column⟩ := e
  cases field with
  | number value bytes endian =>
    have short : bytes ≤ 4 := by simpa [Extension.narrow] using narrow
    simp [render, initialSize, short]
  | relative target bytes undefined =>
    have short : bytes ≤ 4 := by simpa [Extension.narrow] using narrow
    simp [render, initialSize, short]
  | ladder value relative force undefined => simp [flexible] at rigid

/-- Without displacements on the ladder an instruction is as long as its parts, in order or not. -/
theorem Draft.length_bytes_of_rigid {d : Draft} (rigid : ∀ e ∈ d.extensions, e.flexible = false)
    (narrow : ∀ e ∈ d.extensions, e.narrow = true) :
    d.bytes.length = d.lead.length + min d.opcodeBytes 4 +
      (d.extensions.map (Extension.initialSize d.config.ladder)).sum := by
  obtain ⟨size, sizes, -⟩ := d.exists_sizes
  have each : d.extensions.map (Extension.initialSize d.config.ladder) =
      d.extensions.map fun e => (e.render d.config d.finalBase (size e)).1.length := by
    apply List.map_congr_left
    intro e member
    exact (Extension.length_render_of_rigid _ (rigid e member) (narrow e member)).symm
  have stages := Extension.length_shown d.config d.finalBase size d.extensions
  rw [each, List.sum, ← stages, Draft.bytes_of_sizes sizes]
  simp only [List.length_append, Endian.length_put]
  omega

namespace Machine

/-- Is the operand of the slot laid down in a field of a fixed and legal width? -/
def isFixed (m : Machine Mode Reg) (entry : Entry Mode) (slot : Slot Mode) : Bool :=
  match m.shape slot.mode with
  | .implied | .register | .embedded _ | .bit => true
  | .immediate width | .absolute width | .relative width | .indexed width _ =>
    (width.bytes? entry.size).isSome
  | .ladder _ | .custom => false

/-- Is the operand given up for its register, before its displacement is laid down? -/
def givesUp (m : Machine Mode Reg) (slot : Slot Mode) (op : Operand Mode Reg) : Bool :=
  match m.shape slot.mode with
  | .indexed .. => decide (0 < slot.width) && !(m.registerField slot.mode op).toBool
  | _ => false

/-- Bytes that the operand of a slot takes outside the opcode. -/
def fixedSpan (m : Machine Mode Reg) (entry : Entry Mode) (slot : Slot Mode) : Nat :=
  m.span (fun _ => 0) entry slot

/-- Bytes missing from an instruction with these operands. -/
def missing (m : Machine Mode Reg) (entry : Entry Mode) (slots : List (Slot Mode))
    (ops : List (Operand Mode Reg)) : Nat :=
  ((slots.zip ops).map fun w => if m.givesUp w.1 w.2 then m.fixedSpan entry w.1 else 0).sum

/-- Length of an instruction with nothing missing. An opcode has four bytes at most. -/
def fullLength (m : Machine Mode Reg) (page : Page Mode) (entry : Entry Mode) : Nat :=
  page.lead.length + min (m.opcodeLength page) 4 + (entry.slots.map (m.fixedSpan entry)).sum

/-! ### One operand -/

/-- The operand becomes this piece, which has the width of the slot unless it is given up. -/
structure Fills (m : Machine Mode Reg) (entry : Entry Mode) (slot : Slot Mode)
    (op : Operand Mode Reg) (room : Nat) (piece : Piece) (cause : Option Cause) : Prop where
  lays : m.Lays entry slot op room piece cause
  rigid : ∀ e ∈ piece.extensions, e.flexible = false
  narrow : ∀ e ∈ piece.extensions, e.narrow = true
  long : (piece.extensions.map (Extension.initialSize m.config.ladder)).sum +
    (if m.givesUp slot op then m.fixedSpan entry slot else 0) = m.fixedSpan entry slot

/-- An operand that has nothing outside the opcode. -/
theorem fills_field {room : Nat} {field : BitVec 32} {cause : Option Cause}
    (lays : m.Lays entry slot op room { field } cause)
    (bare : m.givesUp slot op = true ∨ m.fixedSpan entry slot = 0) :
    m.Fills entry slot op room { field } cause where
  lays := lays
  rigid := by simp
  narrow := by simp
  long := by
    rcases bare with up | bare
    · simp [up]
    · simp [bare]

/-- An operand that has one field outside the opcode. -/
theorem fills_extension {room n : Nat} {field : BitVec 32} {e : Extension} {cause : Option Cause}
    (lays : m.Lays entry slot op room { field, extensions := [e] } cause)
    (rigid : e.flexible = false) (size : e.initialSize m.config.ladder = n)
    (narrow : e.narrow = true) (kept : m.givesUp slot op = false)
    (span : m.fixedSpan entry slot = n) :
    m.Fills entry slot op room { field, extensions := [e] } cause where
  lays := lays
  rigid := by simpa using rigid
  narrow := by simpa using narrow
  long := by simp [size, kept, span]

theorem exists_fills_inside (room : Nat) (inside : m.extended slot = false) :
    ∃ piece cause, m.Fills entry slot op room piece cause := by
  -- Whatever becomes of the operand, it adds a field to the opcode or nothing.
  obtain ⟨field, cause, lays⟩ : ∃ field cause, ∀ d : Draft,
      m.encodeOperand entry slot op d = (d.lay slot field [], cause) := by
    cases shape : m.shape slot.mode with
    | implied =>
      refine ⟨0#32, none, fun d => ?_⟩
      simp only [encodeOperand, shape, ← d.eq_lay]
    | register =>
      cases register : m.registerField slot.mode op with
      | ok n =>
        refine ⟨BitVec.ofNat 32 n, none, fun d => ?_⟩
        simp only [encodeOperand, shape, encodeRegister, register, d.embed_eq_lay]
      | error cause =>
        refine ⟨0#32, some cause, fun d => ?_⟩
        simp only [encodeOperand, shape, encodeRegister, register, ← d.eq_lay]
    | embedded signed => simpa only [encodeOperand, shape] using encodeEmbedded_eq slot op _ _
    | bit => simpa only [encodeOperand, shape] using encodeEmbedded_eq slot op _ _
    | _ => simp [extended, shape] at inside
  refine ⟨{ field }, cause, fills_field (fun d _ _ => lays d) (.inr ?_)⟩
  cases shape : m.shape slot.mode <;> simp_all [extended, fixedSpan, span]

theorem exists_fills_number (room : Nat) {width : Width} {n : Nat}
    (shape : m.shape slot.mode = .immediate width ∨ m.shape slot.mode = .absolute width)
    (sized : width.bytes? entry.size = some n) :
    ∃ piece cause, m.Fills entry slot op room piece cause := by
  obtain ⟨value, cause, lays⟩ : ∃ value cause, ∀ d : Draft, d.config = m.config →
      m.encodeOperand entry slot op d = (d.emit .payload value n op.column, cause) := by
    rcases shape with shape | shape
    · obtain ⟨value, cause, -, number⟩ := encodeNumber_eq .payload op n
        (fitsSigned op.value (8 * n) || fitsUnsigned op.value (8 * n))
      exact ⟨value, cause, fun d _ => by simp only [encodeOperand, shape, sized, number]⟩
    · obtain ⟨value, cause, -, number⟩ := encodeNumber_eq .payload
        { op with value := if op.undefined then 0 else op.value } n
        (fitsUnsigned op.value (min (8 * n) m.config.addressBits))
      exact ⟨value, cause, fun d config => by
        simp only [encodeOperand, shape, sized, config, number]⟩
  refine ⟨{ extensions := [⟨.payload, .number value n m.config.endian, op.column⟩] }, cause,
    fills_extension (n := n) ?_ rfl rfl ?_ ?_ ?_⟩
  · intro d config _
    rw [lays d config, Draft.emit, config, d.extend_eq_lay slot]
  · simpa [Extension.narrow] using Width.bytes?_le sized
  · rcases shape with shape | shape <;> simp [givesUp, shape]
  · rcases shape with shape | shape <;> simp [fixedSpan, span, shape, sized]

theorem exists_fills_relative (room : Nat) {width : Width} {n : Nat}
    (shape : m.shape slot.mode = .relative width) (sized : width.bytes? entry.size = some n) :
    ∃ piece cause, m.Fills entry slot op room piece cause := by
  refine ⟨{ extensions := [⟨.payload, .relative op.value n op.undefined, op.column⟩] }, none,
    fills_extension (n := n) ?_ rfl rfl ?_ ?_ ?_⟩
  · intro d _ _
    simp only [encodeOperand, shape, sized, d.extend_eq_lay slot]
  · simpa [Extension.narrow] using Width.bytes?_le sized
  · simp [givesUp, shape]
  · simp [fixedSpan, span, shape, sized]

/-- An indexed operand has its displacement unless its register is refused. -/
theorem exists_fills_indexed (room : Nat) {width : Width} {signed : Bool} {n : Nat}
    (shape : m.shape slot.mode = .indexed width signed)
    (sized : width.bytes? entry.size = some n) :
    ∃ piece cause, m.Fills entry slot op room piece cause := by
  have long : m.fixedSpan entry slot = n := by simp [fixedSpan, span, shape, sized]
  -- The displacement, once the register has its field in the opcode.
  have displaced (field : BitVec 32) (kept : m.givesUp slot op = false)
      (named : ∀ d : Draft,
        (if 0 < slot.width then m.encodeRegister slot op d else (d, none)) =
          (d.lay slot field [], none)) :
      ∃ piece cause, m.Fills entry slot op room piece cause := by
    obtain ⟨value, cause, -, number⟩ := encodeNumber_eq (if 0 < room then .gap else .payload) op n
      (if signed then fitsSigned op.value (8 * n) else fitsUnsigned op.value (8 * n))
    refine ⟨{ field, extensions := [⟨if 0 < room then .gap else .payload,
      .number value n m.config.endian, op.column⟩] }, cause,
      fills_extension (n := n) ?_ rfl rfl ?_ kept long⟩
    · intro d config roomy
      have same : (d.lay slot field []).room = room := by
        simpa [Piece.gaps, roomy] using d.room_lay slot { field }
      simp only [encodeOperand, shape, named, sized, Draft.dispStage_eq, same, number]
      simp [Draft.emit, Draft.extend, Draft.lay, config]
    · simpa [Extension.narrow] using Width.bytes?_le sized
  by_cases wide : 0 < slot.width
  · cases register : m.registerField slot.mode op with
    | ok field =>
      refine displaced (BitVec.ofNat 32 field) (by simp [givesUp, shape, register, Except.toBool]) fun d => ?_
      simp only [if_pos wide, encodeRegister, register, d.embed_eq_lay]
    | error cause =>
      refine ⟨{}, some cause, fills_field ?_ (.inl ?_)⟩
      · intro d _ _
        simp only [encodeOperand, shape, if_pos wide, encodeRegister, register, ← d.eq_lay]
      · simp [givesUp, shape, wide, register, Except.toBool]
  · refine displaced 0#32 (by simp [givesUp, shape, wide]) fun d => ?_
    rw [if_neg wide, ← d.eq_lay]

/-- Every operand of a fixed width leaves that width, unless it is given up. -/
theorem exists_fills (fixed : m.isFixed entry slot = true) (room : Nat) :
    ∃ piece cause, m.Fills entry slot op room piece cause := by
  cases shape : m.shape slot.mode with
  | implied | register | embedded _ | bit =>
    exact exists_fills_inside room (by simp [extended, shape])
  | immediate width =>
    obtain ⟨n, sized⟩ := Option.isSome_iff_exists.mp (by simpa [isFixed, shape] using fixed)
    exact exists_fills_number room (.inl shape) sized
  | absolute width =>
    obtain ⟨n, sized⟩ := Option.isSome_iff_exists.mp (by simpa [isFixed, shape] using fixed)
    exact exists_fills_number room (.inr shape) sized
  | relative width =>
    obtain ⟨n, sized⟩ := Option.isSome_iff_exists.mp (by simpa [isFixed, shape] using fixed)
    exact exists_fills_relative room shape sized
  | indexed width signed =>
    obtain ⟨n, sized⟩ := Option.isSome_iff_exists.mp (by simpa [isFixed, shape] using fixed)
    exact exists_fills_indexed room shape sized
  | ladder relative => simp [isFixed, shape] at fixed
  | custom => simp [isFixed, shape] at fixed

/-! ### The operands one after the other -/

section Run

variable {slots : List (Slot Mode)} {ops : List (Operand Mode Reg)} {room : Nat}
  {pieces : List (Slot Mode × Piece)} {fault : Option Fault}

/-- Pieces take up the widths of their slots, less what is missing. -/
theorem sum_fills (fills : Pieces (m.Fills entry) slots ops room pieces fault) :
    ((pieces.flatMap (·.2.extensions)).map (Extension.initialSize m.config.ladder)).sum +
      m.missing entry slots ops = (slots.map (m.fixedSpan entry)).sum := by
  induction fills with
  | nil => rfl
  | cons first _ ih =>
    have step := first.long
    simp only [missing, List.flatMap_cons, List.map_append, List.sum_append, List.zip_cons_cons,
      List.map_cons, List.sum_cons] at ih ⊢
    omega

/-- Nothing is missing exactly if no operand is given up. -/
theorem missing_eq_zero_iff (fixed : ∀ s ∈ slots, m.isFixed entry s = true) :
    m.missing entry slots ops = 0 ↔ ∀ w ∈ slots.zip ops, m.givesUp w.1 w.2 = false := by
  have wide {s : Slot Mode} {q : Operand Mode Reg} (legal : m.isFixed entry s = true)
      (up : m.givesUp s q = true) : m.fixedSpan entry s ≠ 0 := by
    cases shape : m.shape s.mode with
    | indexed width signed =>
      obtain ⟨n, sized⟩ := Option.isSome_iff_exists.mp (by simpa [isFixed, shape] using legal)
      have positive := Width.bytes?_pos sized
      simp only [fixedSpan, span, shape, sized, Option.getD_some]
      omega
    | _ => simp [givesUp, shape] at up
  rw [missing, List.sum_eq_zero_iff]
  constructor
  · intro none w member
    have zero := none _ (List.mem_map_of_mem member)
    by_contra up
    rw [Bool.not_eq_false] at up
    rw [if_pos up] at zero
    exact wide (fixed _ (List.of_mem_zip member).1) up zero
  · intro kept n member
    obtain ⟨w, present, rfl⟩ := List.mem_map.mp member
    simp [kept w present]

end Run

/-- An instruction has its full length, less what is missing. -/
theorem length_encode_add_missing (page : Page Mode) {ops : List (Operand Mode Reg)}
    (fixed : ∀ s ∈ entry.slots, m.isFixed entry s = true)
    (admitted : m.admits entry.slots ops = true) (address : UInt32) :
    (m.encode page entry ops address).bytes.length + m.missing entry entry.slots ops =
      m.fullLength page entry := by
  obtain ⟨pieces, fault, each⟩ := Pieces.exists_of_each (R := m.Fills entry)
    (fun slot _ own room => exists_fills (fixed slot own.1) room)
    (forall₂_mem (forall₂_of_admits admitted)) page.gap
  have fills := each.imp fun _ _ _ _ _ related => related.2
  have run := encodeOperands_eq (fills.imp fun _ _ _ _ _ related => related.lays)
    (m.draft page entry address) rfl rfl
  have extensions := extensions_draft_layAll (m := m) page entry address pieces
  have every {P : Extension → Prop} (piecewise : ∀ p ∈ pieces, ∀ e ∈ p.2.extensions, P e) :
      ∀ e ∈ ((m.draft page entry address).layAll pieces).extensions, P e := by
    intro e member
    rw [extensions, List.mem_flatMap] at member
    obtain ⟨p, present, member⟩ := member
    exact piecewise p present e member
  have long := Draft.length_bytes_of_rigid
    (every (fills.forall_mem fun _ _ _ _ _ related => related.rigid))
    (every (fills.forall_mem fun _ _ _ _ _ related => related.narrow))
  have total := sum_fills fills
  simp only [encode, run]
  rw [long, extensions, Draft.layAll_eq, fullLength, ← total]
  exact Nat.add_assoc _ _ _

/-- An instruction with rejected operands keeps its length exactly as far as none of them is given
up for its register: what is missing are the displacements of these, and nothing else. -/
theorem length_encode_eq_iff_missing (page : Page Mode) {ops others : List (Operand Mode Reg)}
    (fixed : ∀ s ∈ entry.slots, m.isFixed entry s = true)
    (admitted : m.admits entry.slots ops = true) (admits : m.admits entry.slots others = true)
    (address place : UInt32) :
    (m.encode page entry ops address).bytes.length + m.missing entry entry.slots ops =
        m.fullLength page entry ∧
      (m.missing entry entry.slots ops = 0 ↔
        ∀ w ∈ entry.slots.zip ops, m.givesUp w.1 w.2 = false) ∧
      ((m.encode page entry ops address).bytes.length =
          (m.encode page entry others place).bytes.length ↔
        m.missing entry entry.slots ops = m.missing entry entry.slots others) := by
  have first := length_encode_add_missing page fixed admitted address
  have second := length_encode_add_missing page fixed admits place
  refine ⟨first, missing_eq_zero_iff fixed, ?_⟩
  omega

/-- A bit number, a constant, a target and a displacement out of range leave the length as it is. -/
theorem length_encode_eq_iff_missing_mixed :
    let entry : Entry Trial.Mode := .of "MIX" 0x40
      [.field (.category [.imm] .bit) 0 3, .bare (.category [.imm] (.immediate .word)),
        .bare (.category [.long] (.relative .byte)),
        .field (.category [.idx] (.indexed .byte true)) 3 3]
    let page : Page Trial.Mode := { lead := [0xDD], gap := 1, entries := [entry] }
    let m := Trial.machine {} [page] (BitVec.allOnes 32) 4
    let ops : List (Operand Trial.Mode Trial.Reg) :=
      [{ mode := .form .imm, value := 2, column := 4 },
        { mode := .form .imm, value := 0x1234, column := 7 },
        { mode := .form .long, value := 0x2010, column := 14 },
        { mode := .form .idx, value := 5, reg := some 3, column := 21 }]
    let rejected : List (Operand Trial.Mode Trial.Reg) :=
      [{ mode := .form .imm, value := 8, column := 4 },
        { mode := .form .imm, value := 0x12345, column := 7 },
        { mode := .form .long, value := 0x4010, column := 16 },
        { mode := .form .idx, value := 500, reg := some 3, column := 23 }]
    (∀ s ∈ entry.slots, m.isFixed entry s = true) ∧ m.admits entry.slots ops = true ∧
      m.admits entry.slots rejected = true ∧
      (m.encode page entry ops 0x2000).fault = none ∧
      (m.encode page entry rejected 0x2000).fault = some (Cause.illegalBitNumber.located 4) ∧
      (m.encode page entry ops 0x2000).bytes.length =
        (m.encode page entry rejected 0x2000).bytes.length := by
  intro entry page m ops rejected
  have fixed : ∀ s ∈ entry.slots, m.isFixed entry s = true := by decide
  have exactly := @length_encode_eq_iff_missing _ _ m entry page ops rejected fixed (by decide)
    (by decide) 0x2000 0x2000
  exact ⟨fixed, by decide, by decide, by decide, by decide, exactly.2.2.mpr (by decide)⟩

/-- A refused index register takes the displacement with it. -/
theorem shortened_by_refused_index :
    let entry : Entry Trial.Mode := .of "LDX" 0x10
      [.field (.category [.idx] (.indexed .byte true)) 0 3]
    let m := Trial.machine {} [{ entries := [entry] }] (BitVec.allOnes 32) 4
    (∀ s ∈ entry.slots, m.isFixed entry s = true) ∧
      m.assemble ∅ "LDX 5(R1)" 0 = ⟨0, [0x11, 0x05], none⟩ ∧
      m.assemble ∅ "LDX 5(R7)" 0 = ⟨0, [0x10], some (Cause.registerNotAllowed.located 4)⟩ := by
  decide

end Machine

end CrossAsm
