import CrossAsm.Proofs.M6800.Recovery
import CrossAsm.Proofs.M6800.RoundTrip
import CrossAsm.Proofs.Z80.RoundTrip

/-! Branches at the edge of the address space. The disassembler wraps the target of a branch into the
address space, while the assembler takes the distance to it as it is. The byte comes out the same,
but a target that was wrapped is too far away. -/

namespace CrossAsm

/-- The target of a branch of two bytes, before it is wrapped into the address space. -/
def branchTarget (address : UInt32) (disp : UInt8) : Int :=
  address.toNat + 2 + signExtend disp.toNat 8

theorem Config.wrap_eq {c : Config} (space : c.addressBits = 16) (v : Int) :
    c.wrap v = v % 0x10000 := by
  rw [wrap, space]
  rfl

/-- A target of sixteen bits is as far away as it was before it was wrapped, or too far. -/
theorem Config.fitsSigned_wrap_sub_iff {c : Config} (space : c.addressBits = 16) (base : Int)
    (byte : Nat) : fitsSigned (c.wrap (base + signExtend byte 8) - base) 8 = true ↔
      0 ≤ base + signExtend byte 8 ∧ base + signExtend byte 8 < 0x10000 := by
  have near := fitsSigned_signExtend byte (show 0 < 8 by decide)
  rw [fitsSigned_iff] at near ⊢
  have half : (twoPow (8 - 1) : Int) = 128 := rfl
  rw [c.wrap_eq space]
  rw [half] at near ⊢
  omega

namespace Machine

variable {Mode Reg : Type} {m : Machine Mode Reg}

/-- Bytes, sixteen address bits, no displacements of variable length, and distances measured from
the end of the instruction. -/
structure Bytewise (m : Machine Mode Reg) : Prop where
  flat : m.config.ladder = []
  cell : m.config.cell = .byte
  origin : m.config.origin = .finish
  space : m.config.addressBits = 16
  unindexed : m.Unindexed

/-- The entry is a branch: its last operand is a target one byte away, and the others stand for
registers in an opcode of one byte. -/
structure IsBranch (m : Machine Mode Reg) (hit : Page Mode × Entry Mode) (front : List (Slot Mode))
    (target : Slot Mode) : Prop where
  lead : hit.1.lead = []
  gap : hit.1.gap = 0
  cells : hit.1.opcodeCells = 1
  slots : hit.2.slots = front ++ [target]
  registers : ∀ s ∈ front, m.shape s.mode = .register
  known : ∀ s ∈ front, ∀ opcode, (m.registerOperand s.mode (s.read opcode)).isSome = true
  relative : m.shape target.mode = .relative .byte
  bare : target.width = 0

/-- The operand that was read is written in a form that is read as `q`, in whatever column. -/
structure Rereads (m : Machine Mode Reg) (entry : Entry Mode) (rendering : Rendering)
    (r : Reading m entry) (q : Operand Mode Reg) : Prop where
  known : q.undefined = false
  register : m.shape r.slot.mode = .register →
    ∀ column, m.registerField r.slot.mode { q with column } = .ok (r.slot.read r.start.opcode)
  text : ∃ op, r.operand = some op ∧ q.value = op.value ∧
    m.ParsesAs rendering.scope (m.formatOperand rendering op).toList q

namespace Rereads

variable {entry : Entry Mode} {rendering : Rendering} {r : Reading m entry} {q : Operand Mode Reg}

theorem column (rereads : m.Rereads entry rendering r q) (column : Nat) :
    m.Rereads entry rendering r { q with column } := by
  obtain ⟨op, read, value, parses⟩ := rereads.text
  exact ⟨rereads.known, rereads.register, op, read, value, parses.starts, parses.parsed, parses.clean⟩

theorem of_rewrites (rewrites : m.Rewrites entry rendering r q) :
    m.Rereads entry rendering r q := by
  obtain ⟨op, read, echo, parses⟩ := rewrites
  exact ⟨(echo q.column).known, fun shaped column => (echo column).register shaped, op, read,
    (echo q.column).value op read, parses⟩

end Rereads

/-- A branch is decoded from its two bytes and assembled to the same. That is in order if its target
lies in the address space without being wrapped; otherwise the target is too far away. -/
structure KeepsBranch (m : Machine Mode Reg) (style : Style) (r : Reader) (opcode disp : UInt8) :
    Prop where
  clean : (m.decode ∅ style r).1.fault = none
  decoded : (m.decode ∅ style r).1.bytes = [opcode, disp]
  bytes : (m.assemble ∅ (m.decode ∅ style r).1.text r.address).bytes = [opcode, disp]
  fault : (m.assemble ∅ (m.decode ∅ style r).1.text r.address).fault.map (·.cause) =
    if 0 ≤ branchTarget r.address disp ∧ branchTarget r.address disp < 0x10000 then none
    else some .operandTooFar

section Branch

variable {hit : Page Mode × Entry Mode} {front : List (Slot Mode)} {target : Slot Mode}

/-- Registers are read from the opcode alone. -/
theorem readings_registers {entry : Entry Mode} {d : Decoding}
    (registers : ∀ s ∈ front, m.shape s.mode = .register)
    (known : ∀ s ∈ front, (m.registerOperand s.mode (s.read d.opcode)).isSome = true)
    (more : List (Slot Mode × Option UInt8)) :
    m.readings entry (front.map (fun s => (s, none)) ++ more) d =
        front.map (⟨·, none, d⟩) ++ m.readings entry more d ∧
      m.stopOf entry (m.readings entry (front.map (fun s => (s, none)) ++ more) d) d =
        m.stopOf entry (m.readings entry more d) d := by
  induction front with
  | nil => exact ⟨rfl, rfl⟩
  | cons s front ih =>
    obtain ⟨op, stands⟩ := Option.isSome_iff_exists.mp (known s (by simp))
    have still : (m.decodeOperand entry s none d).2 = d :=
      congrArg Prod.snd (decodeOperand_register none (registers s (by simp)) stands)
    obtain ⟨readings, stop⟩ := ih (fun s member => registers s (by simp [member]))
      fun s member => known s (by simp [member])
    simp only [List.map_cons, List.cons_append, Machine.readings, Machine.stopOf, Reading.stop, still]
    exact ⟨by rw [readings], stop⟩

/-- Registers go into the opcode, and the target becomes a distance behind it. -/
theorem exists_pieces_branch {entry : Entry Mode} {rendering : Rendering} {d : Decoding} {value : Int}
    (registers : ∀ s ∈ front, m.shape s.mode = .register)
    (relative : m.shape target.mode = .relative .byte) (bare : target.width = 0)
    (read : ∀ op, (⟨target, none, d⟩ : Reading m entry).operand = some op → op.value = value)
    {qs : List (Operand Mode Reg)}
    (rereads : List.Forall₂ (m.Rereads entry rendering)
      (front.map (⟨·, none, d⟩) ++ [⟨target, none, d⟩]) qs) (room : Nat) :
    ∃ pieces column, Pieces (m.Lays entry) (front ++ [target]) qs room pieces none ∧
      pieces.flatMap (·.2.extensions) = [⟨.payload, .relative value 1 false, column⟩] ∧
      placeAll (pieces.map fun p => (p.1, p.2.field)) =
        placeAll ((front ++ [target]).map fun s => (s, BitVec.ofNat 32 (s.read d.opcode))) := by
  induction front generalizing qs with
  | nil =>
    cases rereads with
    | @cons _ q _ _ reread others =>
      cases others
      obtain ⟨op, found, same, -⟩ := reread.text
      have aim : q.value = value := same.trans (read op found)
      refine ⟨[(target, { extensions := [⟨.payload, .relative value 1 false, q.column⟩] })], q.column,
        .cons_clean ?_ (.nil _), rfl, ?_⟩
      · intro e _ _
        simp only [encodeOperand, relative, Width.bytes?, aim, reread.known, e.extend_eq_lay target]
      · simp only [List.map_cons, List.map_nil, List.nil_append, placeAll,
          Slot.place_of_width_zero bare]
  | cons s front ih =>
    cases rereads with
    | @cons _ q _ qs reread others =>
      obtain ⟨pieces, column, lays, extensions, fields⟩ :=
        ih (fun s member => registers s (by simp [member])) others
      have shaped := registers s (by simp)
      have field : m.registerField s.mode q = .ok (s.read d.opcode) := reread.register shaped q.column
      refine ⟨(s, { field := BitVec.ofNat 32 (s.read d.opcode) }) :: pieces, column,
        .cons_clean ?_ lays, ?_, ?_⟩
      · intro e _ _
        simp only [encodeOperand, shaped, encodeRegister, field, e.embed_eq_lay]
      · simpa using extensions
      · simp only [List.map_cons, List.cons_append, placeAll, fields]

namespace IsBranch

variable (branch : m.IsBranch hit front target) (bytewise : m.Bytewise) {opcode disp : UInt8}

include branch bytewise

/-- The opcode takes its registers back, and the distance stands alone behind it. -/
theorem layout_eq (covers : hit.2.covers (BitVec.ofNat 32 opcode.toNat) = true)
    {pieces : List (Slot Mode × Piece)} {value : Int} {column : Nat}
    (extensions : pieces.flatMap (·.2.extensions) = [⟨.payload, .relative value 1 false, column⟩])
    (fields : placeAll (pieces.map fun p => (p.1, p.2.field)) = placeAll (hit.2.slots.map fun s =>
      (s, BitVec.ofNat 32 (s.read (BitVec.ofNat 32 opcode.toNat))))) (base : Int) :
    m.layout hit.1 hit.2 pieces base = opcode :: m.config.endian.put 1 (value - base) := by
  have coded := Entry.eq_placeAll_of_covers covers
  have small := opcode.toNat_lt
  have stage := fun stage => Extension.stageOf_flatMap m.config base stage
    (fun p : Slot Mode × Piece => p.2.extensions) pieces
  simp only [extensions, Extension.stageOf_singleton] at stage
  simp only [Machine.layout, Piece.bytes, ← stage, branch.lead, branch.cells, bytewise.cell, fields,
    coded, BitVec.toNat_ofNat, Nat.mod_eq_of_lt (show opcode.toNat < 2 ^ 32 by omega), Cell.bytes]
  simp [Extension.laid, Extension.render, Endian.put_byte]

variable {suffix : List UInt8} (hits : m.hits (opcode :: disp :: suffix) hit = true)
  (address : UInt32)

include hits

/-- A branch is decoded from its opcode and the byte behind it. -/
theorem course_eq :
    let start : Decoding := ⟨m.config, address, BitVec.ofNat 32 opcode.toNat, [], [opcode],
      disp :: suffix, none⟩
    hit.2.covers (BitVec.ofNat 32 opcode.toNat) = true ∧
      m.course hit (opcode :: disp :: suffix) address =
        front.map (⟨·, none, start⟩) ++ [⟨target, none, start⟩] ∧
      m.finish hit (opcode :: disp :: suffix) address = start.past 1 := by
  intro start
  obtain ⟨byte, tail, split, covers, -, indexed⟩ := m.exists_opcode hit _ address bytewise.unindexed
    bytewise.cell branch.gap branch.cells hits
  rw [branch.lead, List.nil_append] at split indexed
  obtain ⟨rfl, rfl⟩ := List.cons.inj split
  obtain ⟨readings, stop⟩ := @readings_registers _ _ m front hit.2 start branch.registers
    (fun s member => branch.known s member _) [(target, none)]
  have last : (m.decodeOperand hit.2 target none start).2 = start.past 1 :=
    congrArg Prod.snd (decodeOperand_relative none branch.relative (by simp [start]))
  have slots : hit.2.slots.map (fun s => (s, (none : Option UInt8))) =
      front.map (fun s => (s, none)) ++ [(target, none)] := by
    rw [branch.slots, List.map_append]
    rfl
  refine ⟨covers, ?_, ?_⟩
  · rw [course, indexed, slots, readings]
    rfl
  · rw [finish, course, indexed, slots]
    exact stop.trans last

/-- The target is read from the byte behind the opcode, and wrapped. -/
theorem exists_target {r : Reading m hit.2}
    (member : r ∈ m.course hit (opcode :: disp :: suffix) address) (last : r.slot = target) :
    ∃ op, r.operand = some op ∧ op.mode = target.mode ∧
      op.value = m.config.wrap (branchTarget address disp) ∧ 0 ≤ op.value ∧ op.value < 0x10000 := by
  obtain ⟨-, course, -⟩ := branch.course_eq bytewise hits address
  rw [course, List.mem_append, List.mem_singleton] at member
  rcases member with early | rfl
  · obtain ⟨s, present, rfl⟩ := List.mem_map.mp early
    have shaped := branch.registers s present
    rw [show s = target from last, branch.relative] at shaped
    cases shaped
  · have value : ∀ start : Decoding, start.config = m.config → start.address = address →
        start.bytes = [opcode] → start.rest = disp :: suffix → (start.past 1).target
          (signExtend (start.config.endian.number (start.rest.take 1)) 8) =
            m.config.wrap (branchTarget address disp) := by
      intro start config same bytes rest
      simp [Decoding.target, Decoding.base, Decoding.consumed, config, same, bytes, rest,
        bytewise.origin, bytewise.cell, Cell.bytes, branchTarget]
    refine ⟨_, congrArg Prod.fst (decodeOperand_relative none branch.relative (by simp)), rfl,
      value _ rfl rfl rfl rfl, ?_⟩
    rw [value _ rfl rfl rfl rfl, Config.wrap_eq bytewise.space]
    exact ⟨Int.emod_nonneg _ (by decide), Int.emod_lt_of_pos _ (by decide)⟩

/-- Assembled again, a branch has its own two bytes. It is in order if its target was not wrapped. -/
theorem encode_eq {rendering : Rendering} {qs : List (Operand Mode Reg)}
    (rereads : List.Forall₂ (m.Rereads hit.2 rendering)
      (m.course hit (opcode :: disp :: suffix) address) qs)
    (silent : ∀ q ∈ qs, q.fault = none) :
    ∃ column, m.encode hit.1 hit.2 qs address =
      { address
        bytes := [opcode, disp]
        fault := if 0 ≤ branchTarget address disp ∧ branchTarget address disp < 0x10000 then none
          else some (Cause.operandTooFar.located column) } := by
  obtain ⟨covers, course, -⟩ := branch.course_eq bytewise hits address
  obtain ⟨aim, found, -, value, -⟩ := branch.exists_target bytewise hits address
    (by rw [course]; exact List.mem_append_right _ (List.mem_singleton_self _)) rfl
  rw [course] at rereads
  obtain ⟨pieces, column, lays, extensions, fields⟩ := exists_pieces_branch branch.registers
    branch.relative branch.bare
    (fun op read => Option.some.inj (found.symm.trans read) ▸ value) rereads hit.1.gap
  rw [← branch.slots] at lays fields
  -- The target was wrapped when it was written. Its distance has the same low byte, but need not fit.
  let base : Int := address.toNat + 2
  let distance : Int := m.config.wrap (branchTarget address disp) - base
  have back : m.config.endian.put 1 distance = [disp] := by
    have again := @Config.put_wrap_sub m.config (by rw [bytewise.space]; decide) base [disp] rfl
    rwa [Endian.number_singleton] at again
  have layout : m.layout hit.1 hit.2 pieces base = [opcode, disp] := by
    rw [branch.layout_eq bytewise covers extensions fields base, back]
  have fixed : (m.draft hit.1 hit.2 address).base (m.layout hit.1 hit.2 pieces base).length = base := by
    rw [layout]
    simp [Draft.base, draft, bytewise.origin, bytewise.cell, Cell.bytes, base]
  have narrow : ∀ p ∈ pieces, ∀ e ∈ p.2.extensions, e.narrow = true := by
    intro p present e member
    have among : e ∈ pieces.flatMap (·.2.extensions) := List.mem_flatMap.mpr ⟨p, present, member⟩
    rw [extensions, List.mem_singleton] at among
    rw [among]
    rfl
  have laid : Extension.laid m.config base
      ⟨.payload, .relative (m.config.wrap (branchTarget address disp)) 1 false, column⟩ =
        (m.config.endian.put 1 distance, if fitsSigned distance 8 then none else some .operandTooFar) :=
    rfl
  have reached : fitsSigned distance 8 = true ↔
      0 ≤ branchTarget address disp ∧ branchTarget address disp < 0x10000 :=
    Config.fitsSigned_wrap_sub_iff bytewise.space base disp.toNat
  refine ⟨column, ?_⟩
  rw [encode_eq_of_fixed (by simp [Config.steady, bytewise.flat])
    (by rw [branch.cells, bytewise.cell]; decide) lays narrow fixed silent, layout, extensions]
  simp only [Extension.faultOf, List.findSome?_singleton, laid, reached]
  split <;> rfl

omit hits in
/-- A branch that is found in memory is decoded from its two bytes and, once its operands are read
back and its name leads back to it, assembled to the same. -/
theorem assemble_text (style : Style) {r : Reader} (memory : r.rest = opcode :: disp :: suffix)
    (found : m.ownEntries.find? (m.hits r.rest) = some hit) (untidied : ∀ ops, m.tidy ops = ops)
    (proper : isName hit.2.name = true) {S : Slot Mode → Operand Mode Reg → Prop}
    (stable : ∀ s q column, S s q → S s { q with column })
    (each : ∀ reading ∈ m.course hit r.rest r.address, ∃ q,
      m.Rereads hit.2 (m.rendering ∅ style r.address) reading q ∧ S reading.slot q)
    (named : ∀ read, List.Forall₂ S hit.2.slots read → ∀ name, Text.upper name = hit.2.name →
      m.findByName name read = .ok hit ∧ m.check hit.2 read = none) :
    m.KeepsBranch style r opcode disp := by
  have hits := List.find?_some found
  rw [memory] at hits
  obtain ⟨-, -, finish⟩ := branch.course_eq bytewise hits r.address
  rw [← memory] at finish
  have decoded := congrArg Prod.fst (decode_eq ∅ style found)
  rw [finish] at decoded
  obtain ⟨qs, related⟩ := exists_forall₂ each
  have parses : List.Forall₂ (m.ParsesAs (m.rendering ∅ style r.address).scope)
      (((m.tidy ((m.course hit r.rest r.address).filterMap (·.operand))).map
        (m.formatOperand (m.rendering ∅ style r.address))).map String.toList) qs := by
    rw [untidied]
    exact parses_of_reads (related.imp fun _ _ both => by
      obtain ⟨op, read, -, parses⟩ := both.1.text
      exact ⟨op, read, parses⟩)
  let laid (column : Nat) : Assembled :=
    { address := r.address
      bytes := [opcode, disp]
      fault := if 0 ≤ branchTarget r.address disp ∧ branchTarget r.address disp < 0x10000 then none
        else some (Cause.operandTooFar.located column) }
  -- The column of a fault depends on the text, so it is left open.
  suffices ∃ column, m.assemble ∅ (m.decode ∅ style r).1.text r.address = laid column by
    obtain ⟨column, assembled⟩ := this
    refine ⟨congrArg (·.fault) decoded, congrArg (·.bytes) decoded, by rw [assembled], ?_⟩
    rw [assembled]
    simp only [laid]
    split <;> rfl
  refine assemble_text_induction ∅ style found proper parses
    (P := fun out => ∃ column, out = laid column) ?_
  intro read moved silent name same
  have restored := Operand.forall₂_moved (fun reading q column both =>
    ⟨both.1.column column, stable _ _ column both.2⟩) related moved
  have forms : List.Forall₂ S hit.2.slots read := by
    rw [← m.slots_course hit r.rest r.address]
    exact List.forall₂_map_left_iff.mpr (restored.imp fun _ _ both => both.2)
  obtain ⟨back, checked⟩ := named read forms name same
  refine ⟨hit, back, checked, ?_⟩
  have rereads := restored.imp fun _ _ both => both.1
  rw [memory] at rereads
  exact branch.encode_eq bytewise hits r.address rereads silent

end IsBranch

end Branch

/-- Is this the opcode byte of a branch? -/
def branches (m : Machine Mode Reg) (opcode : UInt8) : Bool :=
  m.ownEntries.any fun hit => hit.1.lead.isEmpty && hit.1.gap == 0 && hit.1.opcodeCells == 1 &&
    hit.2.covers (BitVec.ofNat 32 opcode.toNat) && hit.2.slots.any fun s =>
      match m.shape s.mode with
      | .relative _ => true
      | _ => false

/-- DJNZ leads to a place by its distance, and JP does not. -/
example : Z80.machine.branches 0x10 = true ∧ Z80.machine.branches 0xC3 = false := by
  decide

theorem exists_of_branches {opcode : UInt8} (branches : m.branches opcode = true) :
    ∃ hit ∈ m.ownEntries, hit.1.lead = [] ∧ hit.1.gap = 0 ∧ hit.1.opcodeCells = 1 ∧
      hit.2.covers (BitVec.ofNat 32 opcode.toNat) = true ∧
      ∃ s ∈ hit.2.slots, ∃ width, m.shape s.mode = .relative width := by
  simp only [Machine.branches, List.any_eq_true, Bool.and_eq_true, List.isEmpty_iff, beq_iff_eq]
    at branches
  obtain ⟨hit, own, ⟨⟨⟨lead, gap⟩, cells⟩, covers⟩, s, member, shaped⟩ := branches
  refine ⟨hit, own, lead, gap, cells, covers, s, member, ?_⟩
  split at shaped
  next width found => exact ⟨width, found⟩
  · cases shaped

/-- An opcode of one byte in front of which nothing stands is matched alone. -/
theorem hits_opcode (cell : m.config.cell = .byte) {hit : Page Mode × Entry Mode}
    (lead : hit.1.lead = []) (gap : hit.1.gap = 0) (cells : hit.1.opcodeCells = 1) (opcode : UInt8)
    (tail : List UInt8) : m.hits (opcode :: tail) hit =
      (hit.2.covers (BitVec.ofNat 32 opcode.toNat) && m.postHolds hit.2 tail) := by
  have split := @m.hits_append _ _ hit [] [opcode] tail (by simp [gapLength, gap])
    (by simp [opcodeLength, cells, cell, Cell.bytes])
  rwa [lead, Endian.number_singleton] at split

theorem find?_isSome_of_hits {hit : Page Mode × Entry Mode} (own : hit ∈ m.ownEntries)
    {rest : List UInt8} (hits : m.hits rest hit = true) :
    ∃ first, m.ownEntries.find? (m.hits rest) = some first :=
  Option.isSome_iff_exists.mp (List.find?_isSome.mpr ⟨hit, own, hits⟩)

end Machine

namespace M6800

variable {variant : Variant} {hit : Page Mode × Entry Mode}

theorem bytewise (variant : Variant) : (machine variant).Bytewise :=
  ⟨rfl, rfl, rfl, rfl, unindexed variant⟩

set_option maxRecDepth 20000 in
/-- Branches have neither a condition nor a second name. -/
theorem table_branches : table.all (fun hit => !hit.2.slots.any (·.mode == .rel) ||
    hit.2.post.isNone && hit.2.name != "LSLD" && (pairing? hit.2.name).isNone) = true := by
  decide

theorem isBranch_of_own (own : hit ∈ (machine variant).ownEntries) {s : Slot Mode}
    (member : s ∈ hit.2.slots) (mode : s.mode = .rel) :
    (machine variant).IsBranch hit [] (.bare .rel) where
  lead := (page_of_own own).1
  gap := (page_of_own own).2.1
  cells := (page_of_own own).2.2
  slots := (branch_of_own own member mode).1
  registers := by simp
  known := by simp
  relative := rfl
  bare := rfl

/-- The opcode of a branch leads to the branch. -/
theorem exists_branch {opcode : UInt8} (branches : (machine variant).branches opcode = true)
    (tail : List UInt8) : ∃ hit ∈ (machine variant).ownEntries,
      (machine variant).ownEntries.find? ((machine variant).hits (opcode :: tail)) = some hit ∧
      (machine variant).IsBranch hit [] (.bare .rel) := by
  obtain ⟨hit, own, lead, gap, cells, covers, s, member, width, shaped⟩ :=
    Machine.exists_of_branches branches
  have mode : s.mode = .rel := by
    change shape s.mode = .relative width at shaped
    cases mode : s.mode <;> simp [mode, shape] at shaped
    rfl
  have branch := isBranch_of_own own member mode
  have plain := List.all_eq_true.mp table_branches hit ((machine variant).mem_ownEntries.mp own).1
  have present : hit.2.slots.any (·.mode == .rel) = true :=
    List.any_eq_true.mpr ⟨s, member, by simp [mode]⟩
  simp only [present, Bool.not_true, Bool.false_or, Bool.and_eq_true, Option.isNone_iff_eq_none,
    bne_iff_ne] at plain
  obtain ⟨⟨post, shift⟩, mask⟩ := plain
  have hits : (machine variant).hits (opcode :: tail) hit = true := by
    rw [Machine.hits_opcode rfl lead gap cells, covers, Machine.postHolds, post, Bool.and_self]
  obtain ⟨first, found⟩ := Machine.find?_isSome_of_hits own hits
  -- An entry of the same opcode before it would stand for it, and none does.
  rcases eq_or_related_of_find? (table_apart.filter _) found own hits with rfl | related
  · exact ⟨first, own, found, branch⟩
  · obtain ⟨byte, _, same, coded, -⟩ := exists_start (List.mem_of_find?_eq_some found)
      (List.find?_some found) 0
    obtain ⟨byte', _, same', coded', -⟩ := exists_start own hits 0
    obtain rfl : byte = byte' := (List.cons.inj (same.symm.trans same')).1
    have stands := related (by rw [coded, coded'])
    rw [not_standsFor shift mask, Bool.and_false] at stands
    cases stands

/-- The target of a branch is written so that it is read back. -/
theorem exists_rereads {entry : Entry Mode} {r : Reading (machine variant) entry}
    (slot : r.slot = .bare .rel) {op : Operand Mode Reg} (read : r.operand = some op)
    (mode : op.mode = .rel) (low : 0 ≤ op.value) (high : op.value < 0x10000) (style : Style)
    (address : UInt32) : ∃ q, (machine variant).Rereads entry
      ((machine variant).rendering ∅ style address) r q ∧ Suits r.slot q := by
  let rendering := (machine variant).rendering ∅ style address
  have parses := parses_address variant rfl (rendering.denotes_target rfl low (by omega))
  refine ⟨{ mode := if op.value < 0x100 then .dir else .ext, value := op.value, column := 0 },
    ⟨rfl, ?_, op, read, rfl, ?_⟩, ?_, ?_⟩
  · intro shaped
    rw [slot] at shaped
    cases shaped
  · have shown : (machine variant).formatOperand rendering op = rendering.target op.value := by
      change formatOperand rendering op = _
      simp [formatOperand, mode]
    rw [shown]
    exact parses
  · rw [slot]
    change (if op.value < 0x100 then Mode.dir else Mode.ext) ∈ [Mode.dir, Mode.ext]
    split <;> simp
  · rw [slot]
    rintro ⟨⟩

/-- A branch of the family is assembled to its own bytes, and in order if its target was not
wrapped. -/
theorem assemble_branch (variant : Variant) (style : Style) {opcode : UInt8}
    (branches : (machine variant).branches opcode = true) {r : Reader} {disp : UInt8}
    {suffix : List UInt8} (memory : r.rest = opcode :: disp :: suffix) :
    (machine variant).KeepsBranch style r opcode disp := by
  obtain ⟨hit, own, found, branch⟩ := exists_branch branches (disp :: suffix)
  have hits := List.find?_some found
  rw [← memory] at found
  refine branch.assemble_text (bytewise variant) style memory found (fun _ => rfl) (name_of_own own)
    (S := Suits) (fun _ _ _ suits => suits) ?_ ?_
  · intro reading member
    have slot : reading.slot = .bare .rel := by
      have among := List.mem_map_of_mem (f := (·.slot)) member
      rwa [Machine.slots_course, branch.slots, List.nil_append, List.mem_singleton] at among
    rw [memory] at member
    obtain ⟨op, read, mode, -, low, high⟩ :=
      branch.exists_target (bytewise variant) hits r.address member slot
    exact exists_rereads slot read mode low high style r.address
  · intro read suits name same
    refine ⟨findByName_of_suits own same suits, ?_⟩
    change check hit.2 read = none
    rw [check, widened_of_suits suits]
    rfl

end M6800

namespace Z80

variable {hit : Page Mode × Entry Mode}

theorem bytewise : machine.Bytewise := ⟨rfl, rfl, rfl, rfl, unindexed⟩

/-- A jump by a distance has a condition in front of its target, or none. -/
theorem exists_isBranch (own : hit ∈ machine.ownEntries) {s : Slot Mode} (member : s ∈ hit.2.slots)
    (mode : s.mode = .rel) : ∃ front, (front = [] ∨ front = [.field .condJr 3 2]) ∧
      machine.IsBranch hit front (.bare .rel) := by
  obtain ⟨lead, gap, slots, -⟩ := branch_of_own own member mode
  have cells := opcodeCells_of_own own
  rcases slots with slots | slots
  · exact ⟨[], .inl rfl, lead, gap, cells, slots, by simp, by simp, rfl, rfl⟩
  · refine ⟨[.field .condJr 3 2], .inr rfl, lead, gap, cells, slots, ?_, ?_, rfl, rfl⟩
    · intro s only
      rw [List.mem_singleton.mp only]
      rfl
    · intro s only opcode
      obtain rfl := List.mem_singleton.mp only
      have every : ∀ field < 4, (registerOperand .condJr field).isSome = true := by decide
      exact every _ (Slot.read_lt (.field Mode.condJr 3 2) opcode)

/-- The opcode of a branch leads to the branch. -/
theorem exists_branch {opcode : UInt8} (branches : machine.branches opcode = true)
    (tail : List UInt8) : ∃ hit ∈ machine.ownEntries,
      machine.ownEntries.find? (machine.hits (opcode :: tail)) = some hit ∧
      ∃ front, (front = [] ∨ front = [.field .condJr 3 2]) ∧
        machine.IsBranch hit front (.bare .rel) := by
  obtain ⟨hit, own, lead, gap, cells, covers, s, member, width, shaped⟩ :=
    Machine.exists_of_branches branches
  have mode : s.mode = .rel := by
    change shape s.mode = .relative width at shaped
    cases mode : s.mode <;> simp [mode, shape] at shaped
    rfl
  obtain ⟨front, kinds, branch⟩ := exists_isBranch own member mode
  have hits : machine.hits (opcode :: tail) hit = true := by
    rw [Machine.hits_opcode rfl lead gap cells, covers, postHolds_of_own own, Bool.and_self]
  obtain ⟨first, found⟩ := Machine.find?_isSome_of_hits own hits
  rcases eq_or_unwritable own found hits with rfl | ⟨lead', gap', apart⟩
  · exact ⟨first, own, found, front, kinds, branch⟩
  · -- Operands that cannot be written are registers, or two of them.
    have matched := List.find?_some found
    rw [Machine.hits_opcode rfl (lead'.trans lead) (gap'.trans gap)
      (opcodeCells_of_own (List.mem_of_find?_eq_some found)), Bool.and_eq_true] at matched
    have hidden := apart _ opcode.toNat_lt matched.1 covers
    rcases kinds with rfl | rfl <;> simp [unwritable, branch.slots, Slot.bare, Slot.field] at hidden

/-- The condition and the target of a branch are written so that they are read back. -/
theorem exists_rereads {entry : Entry Mode} {r : Reading machine entry}
    (slot : r.slot = .field .condJr 3 2 ∨ r.slot = .bare .rel) (clean : r.stop.fault = none)
    (target : r.slot = .bare .rel →
      ∃ op, r.operand = some op ∧ op.mode = .rel ∧ 0 ≤ op.value ∧ op.value < 0x10000)
    (style : Style) (address : UInt32) :
    ∃ q, machine.Rereads entry (machine.rendering ∅ style address) r q ∧
      q.mode ∈ written r.slot.mode := by
  let rendering := machine.rendering ∅ style address
  rcases slot with slot | slot
  · obtain ⟨q, restored⟩ := restores_register style address (by rw [slot]; rfl) (by rw [slot]; rfl) clean
    exact ⟨q, .of_rewrites restored.rewrites, restored.form⟩
  · obtain ⟨op, read, mode, low, high⟩ := target slot
    have parses := parses_number rfl (rendering.denotes_target rfl low (by omega))
    have shown : machine.formatOperand rendering op = rendering.target op.value := by
      change formatOperand rendering op = _
      simp [formatOperand, mode]
    refine ⟨{ mode := .imm, value := op.value, column := 0 }, ⟨rfl, ?_, op, read, rfl, ?_⟩, ?_⟩
    · intro shaped
      rw [slot] at shaped
      cases shaped
    · rw [shown]
      exact parses
    · rw [slot]
      change Mode.imm ∈ written .rel
      decide

/-- The name of a branch leads back to it, and its operands are in order. -/
theorem findByName_branch (own : hit ∈ machine.ownEntries) {front : List (Slot Mode)}
    (kinds : front = [] ∨ front = [.field .condJr 3 2])
    (branch : machine.IsBranch hit front (.bare .rel)) {read : List (Operand Mode Reg)}
    (forms : List.Forall₂ (fun slot q => q.mode ∈ written slot.mode) hit.2.slots read)
    {name : String} (same : Text.upper name = hit.2.name) :
    machine.findByName name read = .ok hit ∧ machine.check hit.2 read = none := by
  have admits := machine.admits_of_forall₂ (forms.imp fun _ _ form => accepts_written form)
  obtain ⟨first, -, found, named, admitted, order⟩ :=
    machine.findByName_eq_ok table_ordered own same admits
  refine ⟨?_, ?_⟩
  · rcases order with rfl | apart
    · exact found
    · have both := machine.mayAdmit_of_admits forms admitted
      have shadowed : shadows first hit = false := by simp [shadows, branch.lead]
      rw [named, beq_self_eq_true, Bool.and_true, shadowed, Bool.not_false, Bool.and_true] at apart
      exact absurd (apart.symm.trans both) (by decide)
  · change check hit.2 read = none
    rw [branch.slots] at forms
    rcases kinds with rfl | rfl
    · obtain ⟨q, rfl⟩ := List.length_eq_one_iff.mp forms.length_eq.symm
      simp [check, branch.slots, Slot.bare]
    · obtain ⟨p, q, rfl⟩ := List.length_eq_two.mp forms.length_eq.symm
      -- A target is a number, never memory at HL.
      have number : ∀ mode ∈ written .rel, mode ≠ .indHl := by decide
      have last := number q.mode (List.forall₂_cons.mp (List.forall₂_cons.mp forms).2).1
      simp [check, branch.slots, Slot.bare, Slot.field, last]

/-- A jump by a distance is assembled to its own bytes, and in order if its target was not wrapped. -/
theorem assemble_branch (style : Style) {opcode : UInt8} (branches : machine.branches opcode = true)
    {r : Reader} {disp : UInt8} {suffix : List UInt8} (memory : r.rest = opcode :: disp :: suffix) :
    machine.KeepsBranch style r opcode disp := by
  obtain ⟨hit, own, found, front, kinds, branch⟩ := exists_branch branches (disp :: suffix)
  have hits := List.find?_some found
  obtain ⟨-, -, finish⟩ := branch.course_eq bytewise hits r.address
  rw [← memory] at found
  refine branch.assemble_text bytewise style memory found (fun _ => rfl) (name_of_own own)
    (S := fun slot q => q.mode ∈ written slot.mode) (fun _ _ _ form => form) ?_
    fun read forms name same => findByName_branch own kinds branch forms same
  intro reading member
  have slot : reading.slot = .field .condJr 3 2 ∨ reading.slot = .bare .rel := by
    have among := List.mem_map_of_mem (f := (·.slot)) member
    rw [Machine.slots_course, branch.slots] at among
    rcases kinds with rfl | rfl
    · exact .inr (by simpa using among)
    · simpa using among
  rw [memory] at member
  have clean : reading.stop.fault = none :=
    (Machine.mem_readings customFollows member).2.2.fault (congrArg (·.fault) finish)
  refine exists_rereads slot clean (fun last => ?_) style r.address
  obtain ⟨op, read, mode, -, bounds⟩ := branch.exists_target bytewise hits r.address member last
  exact ⟨op, read, mode, bounds⟩

end Z80

namespace Target

/-- A branch is decoded and assembled to the same two bytes. That is in order exactly if its target
lies in the address space without being wrapped; otherwise the target is too far away. -/
theorem branch_in_order_iff_unwrapped (t : Target) (family : t ∈ [mc6800, mc6801, hd6301, z80])
    (style : Style) (r : Reader) {opcode disp : UInt8} {suffix : List UInt8}
    (branches : t.machine.branches opcode = true) (memory : r.rest = opcode :: disp :: suffix) :
    let item := (t.decode ∅ style r).1
    let out := t.assemble ∅ item.text r.address
    item.fault = none ∧ item.bytes = [opcode, disp] ∧ out.bytes = [opcode, disp] ∧
      out.fault.map (·.cause) =
        if 0 ≤ branchTarget r.address disp ∧ branchTarget r.address disp < 0x10000 then none
        else some .operandTooFar := by
  have kept : t.machine.KeepsBranch style r opcode disp := by
    simp only [List.mem_cons, List.not_mem_nil, or_false] at family
    rcases family with rfl | rfl | rfl | rfl
    · exact M6800.assemble_branch .mc6800 style branches memory
    · exact M6800.assemble_branch .mc6801 style branches memory
    · exact M6800.assemble_branch .hd6301 style branches memory
    · exact Z80.assemble_branch style branches memory
  exact ⟨kept.clean, kept.decoded, kept.bytes, kept.fault⟩

/-- A conditional jump at the end of the address space whose target is the last byte. -/
theorem branch_in_order_iff_unwrapped_last :
    let r : Reader := Memory.reader ⟨0xFFF0, [0x38, 0x0D], .byte⟩
    let item := (z80.decode ∅ { lowercase := true } r).1
    let out := z80.assemble ∅ item.text 0xFFF0
    z80.machine.branches 0x38 = true ∧ branchTarget 0xFFF0 0x0D = 0xFFFF ∧
      item.fault = none ∧ out.bytes = [0x38, 0x0D] ∧ out.fault.map (·.cause) = none := by
  intro r item out
  have branches : z80.machine.branches 0x38 = true := by decide
  have target : branchTarget 0xFFF0 0x0D = 0xFFFF := by decide
  obtain ⟨clean, -, bytes, fault⟩ := branch_in_order_iff_unwrapped z80 (by decide)
    { lowercase := true } r branches rfl
  rw [show r.address = 0xFFF0 from Memory.address_reader _] at bytes fault
  refine ⟨branches, target, clean, bytes, fault.trans ?_⟩
  rw [target]
  decide

/-- Forwards over the end of the address space: the target is shown at its beginning, and refused. -/
theorem refuses_wrapped_branch :
    let r : Reader := Memory.reader ⟨0xFFF0, [0x20, 0x7F], .byte⟩
    let item := (mc6800.decode ∅ {} r).1
    item.fault = none ∧ item.bytes = [0x20, 0x7F] ∧ item.text = "BRA $0071" ∧
      mc6800.assemble ∅ item.text 0xFFF0 =
        ⟨0xFFF0, [0x20, 0x7F], some (Cause.operandTooFar.located 4)⟩ := by
  decide

end Target

end CrossAsm
