import CrossAsm.Proofs.M6800.RoundTrip
import CrossAsm.Proofs.Source.Disassembly
import CrossAsm.Proofs.Sweep
import CrossAsm.Proofs.Text.Lines
import CrossAsm.Proofs.Tms32010.RoundTrip
import CrossAsm.Proofs.Z80.RoundTrip

/-! Assembling what was disassembled. The text of a decoded instruction is one line of source, and no
mnemonic can be taken for a label or a directive, so the texts of a sweep are a program of as many
instructions, each with the bytes it was decoded from. Nothing in it is a symbol, so the first pass is
the last. -/

namespace CrossAsm

open Text

/-! ### The operands as text -/

theorem Rendering.plain_register (r : Rendering) {Reg : Type} {name : Reg → String}
    (plain : ∀ reg, Plain (name reg).toList) (reg : Option Reg) :
    Plain ((reg.map fun reg => r.case (name reg)).getD "").toList := by
  cases reg with
  | none => simp
  | some reg => exact r.plain_case (plain reg)

theorem M6800.plain_formatOperand {r : Rendering} (none : r.symbols = ∅) (op : Operand Mode Reg) :
    Plain (formatOperand r op).toList := by
  unfold formatOperand
  dsimp only
  repeat' split
  all_goals simp [r.plain_place none, r.plain_target none]

theorem Z80.plain_formatIndexed (r : Rendering) {name : String} (plain : Plain name.toList) (v : Int) :
    Plain (formatIndexed r name v).toList := by
  unfold formatIndexed
  repeat' split
  all_goals simp [r.plain_case plain]

theorem Z80.plain_name (reg : Reg) : Plain reg.name.toList := by
  cases reg <;> simp [Reg.name]

theorem Z80.plain_formatOperand {r : Rendering} (none : r.symbols = ∅) (op : Operand Mode Reg) :
    Plain (formatOperand r op).toList := by
  unfold formatOperand
  split
  case h_21 | h_22 | h_23 | h_24 | h_25 | h_26 => exact plain_formatIndexed r (by simp) _
  case h_27 | h_28 | h_34 => simp [r.plain_place none]
  case h_29 | h_30 | h_31 | h_32 | h_33 | h_36 | h_37 => simp
  case h_35 => exact r.plain_target none _
  case h_38 => exact r.plain_register plain_name op.reg
  -- What is left is a name that the mode itself stands for.
  all_goals exact r.plain_case (by simp)

theorem Tms32010.plain_name (reg : Reg) : Plain reg.name.toList := by
  cases reg <;> simp [Reg.name]

theorem Tms32010.plain_formatOperand {r : Rendering} (none : r.symbols = ∅) (op : Operand Mode Reg) :
    Plain (formatOperand r op).toList := by
  have register := r.plain_register plain_name op.reg
  unfold formatOperand
  repeat' split
  all_goals solve
    | simp [r.plain_place none]
    | exact register

/-! ### Instructions as statements -/

/-- The names of the directives. -/
def Action.directives : List String := ["ORG", "BYTE", "DB", "WORD", "DW"]

theorem Action.directive?_eq_none {name : String} (upper : Text.upper name = name)
    (other : name ∉ directives) (arguments : Cursor) : directive? name arguments = none := by
  simp only [directives, List.mem_cons, not_or] at other
  unfold directive?
  rw [upper]
  split <;> simp_all

/-- Whether a name is a directive does not depend on its arguments or its letter case. -/
theorem Action.directive?_case {name : String} (other : directive? name (Cursor.start "") = none)
    (r : Rendering) (arguments : Cursor) : directive? (r.case name) arguments = none := by
  unfold directive? at other ⊢
  rw [r.upper_case]
  split at other <;> simp_all

/-- A line that begins with a name that is no directive, and has no colon behind it, is an
instruction. -/
theorem Statement.read_lineOf {name : String} {texts : List String}
    (identifier : Cursor.isIdentifier name = true)
    (other : ∀ arguments, Action.directive? name arguments = none) (number : Nat) :
    Statement.read number (Machine.lineOf name texts) =
      ⟨number, none, .instruction (Machine.lineOf name texts)⟩ := by
  obtain ⟨tail, line, stops, colon⟩ : ∃ tail, (Machine.lineOf name texts).toList =
      name.toList ++ tail ∧ Stops isIdentChar tail ∧ tail.head? ≠ some ':' := by
    cases texts with
    | nil => exact ⟨[], by simp [Machine.lineOf], stops_nil _, by simp⟩
    | cons text texts =>
      refine ⟨' ' :: (",".intercalate (text :: texts)).toList, ?_, stops_cons.mpr (by decide), by simp⟩
      simp [Machine.lineOf]
  have word := Cursor.ident?_append identifier stops 0
  have begins : (Cursor.start (Machine.lineOf name texts)).skipSpaces = ⟨0, name.toList ++ tail⟩ := by
    rw [Cursor.start, line, Machine.skipSpaces_identifier identifier]
  have filled := Machine.atEnd_identifier identifier 0 tail
  have dotless := Machine.eat?_identifier identifier (show isIdentStart '.' = false by decide) 0 tail
  -- A space or the end of the line stands behind the name, so it is no label.
  have unlabelled : label? ⟨0, name.toList ++ tail⟩ = none := by
    have apart : (⟨0 + utf8Length name.toList, tail⟩ : Cursor).eat? ':' = none := Cursor.eat?_ne colon
    simp only [label?, word, Option.bind_some, apart, Option.map_none]
  have whole : String.ofList (name.toList ++ tail) = Machine.lineOf name texts := by
    rw [← line, String.ofList_toList]
  simp only [read, begins, unlabelled, Action.read, filled, dotless, Option.getD_none, word,
    Option.bind_some, other, Bool.false_eq_true, if_false, Option.isSome_none, whole]

/-- The text of an item is a statement of source, and gives the bytes of the item where it stands. -/
structure Decoded.ReadsBack (t : Target) (item : Decoded) : Prop where
  plain : Plain item.text.toList
  statement : ∀ number, Statement.read number item.text = ⟨number, none, .instruction item.text⟩
  assembles : t.assemble ∅ item.text item.address = ⟨item.address, item.bytes, none⟩

/-- An item that is no long load is not read from memory that begins like one. -/
theorem Z80.isLong_rest {style : Style} {r : Reader} (clean : (machine.decode ∅ style r).1.fault = none)
    (short : isLong (machine.decode ∅ style r).1.bytes = false) : isLong r.rest = false := by
  rw [Bool.eq_false_iff]
  intro long
  obtain ⟨store, tail, rest⟩ := exists_longOpcode long
  obtain ⟨low, high, more, rfl⟩ := exists_address style store rest clean
  rw [decode_longLoad style store rest] at short
  cases store <;> simp [loaded, isLong, longOpcode] at short

theorem Machine.address_decode {Mode Reg : Type} (m : Machine Mode Reg) (symbols : Symbols)
    (style : Style) (r : Reader) : (m.decode symbols style r).1.address = r.address := by
  unfold decode
  split <;> rfl

namespace Target

theorem name_of_own (t : Target) {hit : Page t.Mode × Entry t.Mode}
    (own : hit ∈ t.machine.ownEntries) : Machine.isName hit.2.name = true := by
  cases t with
  | mc6800 | mc6801 | hd6301 => exact M6800.name_of_own own
  | z80 => exact Z80.name_of_own own
  | ns32000 => exact Ns32000.name_of_own own
  | tms32010 => exact Tms32010.name_of_own own

theorem directive?_of_own (t : Target) {hit : Page t.Mode × Entry t.Mode}
    (own : hit ∈ t.machine.ownEntries) : Action.directive? hit.2.name (Cursor.start "") = none := by
  -- The members of a family share one table.
  have family : M6800.table.all fun hit => !Action.directives.contains hit.2.name := by decide +kernel
  have checked : t.machine.entries.all fun hit => !Action.directives.contains hit.2.name := by
    cases t with
    | mc6800 | mc6801 | hd6301 => exact family
    | z80 | ns32000 | tms32010 => decide +kernel
  have other := List.all_eq_true.mp checked hit (t.machine.mem_ownEntries.mp own).1
  have proper := t.name_of_own own
  simp only [Machine.isName, Bool.and_eq_true, beq_iff_eq] at proper
  exact Action.directive?_eq_none proper.1.1 (by simpa using other) _

/-- Is the text of an instruction read back as its bytes? The target of a branch has to lie in the
address space, a load of the Z80 between HL and memory has to be the short one, and a program address
of the TMS32010 has twelve bits. Of the NS32000 nothing is said here. -/
def isFaithful (t : Target) (item : Decoded) : Bool :=
  let near (target : Int) : Bool := 0 ≤ target && target < 0x10000
  match t with
  | mc6800 | mc6801 | hd6301 => (M6800.branchTarget? item.address item.bytes).all near
  | z80 => (Z80.branchTarget? item.address item.bytes).all near && !Z80.isLong item.bytes
  | tms32010 => Endian.big.number (item.bytes.drop 2) < 0x1000
  | ns32000 => false

theorem plain_formatOperand (t : Target) (known : t ≠ ns32000) {r : Rendering}
    (none : r.symbols = ∅) (op : Operand t.Mode t.Reg) :
    Plain (t.machine.formatOperand r op).toList := by
  cases t with
  | mc6800 | mc6801 | hd6301 => exact M6800.plain_formatOperand none op
  | z80 => exact Z80.plain_formatOperand none op
  | tms32010 => exact Tms32010.plain_formatOperand none op
  | ns32000 => exact absurd rfl known

/-- The text of a faithful instruction gives its bytes. -/
theorem assemble_faithful (t : Target) {style : Style} {r : Reader}
    (clean : (t.decode ∅ style r).1.fault = none)
    (faithful : t.isFaithful (t.decode ∅ style r).1 = true) :
    t.assemble ∅ (t.decode ∅ style r).1.text r.address =
      ⟨r.address, (t.decode ∅ style r).1.bytes, none⟩ := by
  have located : (t.decode ∅ style r).1.address = r.address := t.machine.address_decode ∅ style r
  cases t with
  | mc6800 | mc6801 | hd6301 =>
    simp only [isFaithful, Option.all_eq_true, Bool.and_eq_true, decide_eq_true_eq, located] at faithful
    exact M6800.assemble_text _ style r clean faithful
  | z80 =>
    simp only [isFaithful, Option.all_eq_true, Bool.and_eq_true, decide_eq_true_eq, located,
      Bool.not_eq_true'] at faithful
    exact Z80.assemble_ordinary style r clean faithful.1 (Z80.isLong_rest clean faithful.2)
  | tms32010 =>
    simp only [isFaithful, decide_eq_true_eq] at faithful
    obtain ⟨hit, found⟩ := Machine.exists_hit_of_decode clean
    have decoded := Machine.decode_eq ∅ style found
    have bytes : (tms32010.decode ∅ style r).1.bytes =
        (Tms32010.machine.finish hit r.rest r.address).bytes := congrArg (·.1.bytes) decoded
    have fault : (tms32010.decode ∅ style r).1.fault =
        (Tms32010.machine.finish hit r.rest r.address).fault := congrArg (·.1.fault) decoded
    rw [bytes] at faithful ⊢
    exact Tms32010.assemble_found style found (fault ▸ clean) faithful
  | ns32000 => simp [isFaithful] at faithful

/-- What a target decodes without a fault is a line of source for it. -/
theorem readsBack_of_decode (t : Target) {style : Style} {r : Reader}
    (clean : (t.decode ∅ style r).1.fault = none)
    (faithful : t.isFaithful (t.decode ∅ style r).1 = true) : (t.decode ∅ style r).1.ReadsBack t := by
  have known : t ≠ ns32000 := by
    rintro rfl
    simp [isFaithful] at faithful
  obtain ⟨hit, found⟩ := Machine.exists_hit_of_decode clean
  have own := List.mem_of_find?_eq_some found
  let rendering := t.machine.rendering ∅ style r.address
  have identifier := Machine.isIdentifier_case (t.name_of_own own) rendering
  obtain ⟨ops, text⟩ : ∃ ops : List (Operand t.Mode t.Reg), (t.decode ∅ style r).1.text =
      Machine.lineOf (rendering.case hit.2.name) (ops.map (t.machine.formatOperand rendering)) :=
    ⟨_, congrArg (·.1.text) (Machine.decode_eq ∅ style found)⟩
  constructor
  · rw [text]
    apply Machine.plain_lineOf
    · simp only [Cursor.isIdentifier, Bool.and_eq_true, List.all_eq_true] at identifier
      exact plain_of_isIdentChar identifier.2
    · intro operand member
      obtain ⟨op, -, rfl⟩ := List.mem_map.mp member
      exact t.plain_formatOperand known rfl op
  · intro number
    rw [text]
    exact Statement.read_lineOf identifier
      (Action.directive?_case (t.directive?_of_own own) rendering) number
  · rw [show (t.decode ∅ style r).1.address = r.address from t.machine.address_decode ∅ style r]
    exact t.assemble_faithful clean faithful

end Target

namespace Decoded.ReadsBack

variable {t : Target} {item : Decoded} (back : item.ReadsBack t)

include back

theorem filled : (Cursor.start item.text).skipSpaces.atEnd = false := by
  have read := congrArg Statement.action (back.statement 0)
  unfold Statement.read at read
  dsimp only at read
  split at read <;> exact Action.filled_of_read read

/-- The bytes of an instruction are whole cells. -/
theorem whole : t.config.cell.bytes ∣ item.bytes.length := by
  obtain ⟨name, hit, ops, writes⟩ := Machine.exists_writes_of_clean back.filled
    (show (t.machine.assemble ∅ item.text item.address).fault = none from
      congrArg _ back.assembles)
  have whole := Target.whole_of_writes writes
  rwa [back.assembles] at whole

theorem ne_nil : item.text.toList ≠ [] := by
  intro empty
  have filled := back.filled
  simp [Cursor.start, empty, Cursor.skipSpaces, Cursor.skipWhile, Cursor.atEnd] at filled

theorem run (number : Nat) :
    (Statement.read number item.text).action.run t ∅ number item.address =
      .ok (some ⟨number, item.address, item.bytes, none⟩,
        item.address + t.config.cell.span item.bytes.length) := by
  rw [back.statement, Action.run, back.assembles]
  rfl

end Decoded.ReadsBack

/-! ### The pass over a sweep -/

/-- A pass over the texts of a sweep finds each item where it was decoded. -/
theorem Swept.exists_pass {t : Target} {r : Reader} {items : List Decoded} (swept : Swept r items)
    (cell : r.cell = t.config.cell) (clean : ∀ item ∈ items, item.fault = none)
    (back : ∀ item ∈ items, item.ReadsBack t) (number : Nat) :
    ∃ lines, pass t ∅ (Statement.readLines number (items.map (·.text))) r.address ∅ = .ok (lines, ∅) ∧
      (∀ l ∈ lines, l.fault = none) ∧
      lines.map (fun l => (l.address, l.bytes)) = items.map fun item => (item.address, item.bytes) := by
  induction swept generalizing number with
  | done empty => exact ⟨[], rfl, by simp, rfl⟩
  | @lone r item left misses =>
    -- Bytes that are no whole cell give a fault.
    have fault := clean item (by simp)
    simp [misses.fault] at fault
  | @cons r item items takes later ih =>
    have first := back item (by simp)
    obtain ⟨lines, passed, faultless, same⟩ := ih cell (fun other member => clean other (by simp [member]))
      (fun other member => back other (by simp [member])) (number + 1)
    -- The item takes whole cells, so the pass goes on where the sweep does.
    rw [Reader.address_skip takes.ahead.length_le (cell ▸ first.whole), ← takes.address, cell] at passed
    have unlabelled : (Statement.read number item.text).define r.address ∅ = .ok ∅ := by
      rw [first.statement]
      rfl
    have run := first.run number
    rw [first.statement] at unlabelled run
    refine ⟨⟨number, item.address, item.bytes, none⟩ :: lines, ?_, ?_, by simp [same]⟩
    · rw [List.map_cons, Statement.readLines, pass, first.statement, unlabelled, ← takes.address]
      simp only [run, passed, Option.toList_some, List.singleton_append]
    · simpa using faultless

/-- All items of a sweep are decoded somewhere. -/
theorem Machine.exists_decode_of_sweep {Mode Reg : Type} {m : Machine Mode Reg} {symbols : Symbols}
    {style : Style} {fuel : Nat} {r : Reader} {item : Decoded}
    (member : item ∈ (m.sweep symbols style fuel r).1) :
    ∃ place, item = (m.decode symbols style place).1 := by
  induction fuel generalizing r with
  | zero => simp [sweep] at member
  | succ fuel ih =>
    unfold sweep at member
    split at member
    · rcases List.mem_cons.mp member with rfl | later
      · exact ⟨r, rfl⟩
      · exact ih later
    · simp at member

/-! ### The image -/

theorem Contiguous.dvd_length {t : Target} {location : UInt32} {lines : List Line}
    (contiguous : Contiguous t location lines) :
    t.config.cell.bytes ∣ (lines.flatMap (·.bytes)).length := by
  induction contiguous with
  | nil location => exact Nat.dvd_zero _
  | cons stands later ih =>
    rw [List.flatMap_cons, List.length_append]
    exact Nat.dvd_add stands.whole ih

/-- Lines that stand one behind the other from the start on have their place in the image, as long as
the addresses do not come round to 0. -/
theorem Contiguous.exists_place {t : Target} {location start : UInt32} {lines : List Line}
    (contiguous : Contiguous t location lines) {cells : Nat} (located : location = start + UInt32.ofNat cells)
    (short : start.toNat + cells + (lines.flatMap (·.bytes)).length / t.config.cell.bytes ≤ 0x100000000)
    (image : List UInt8) : ∃ img, Program.place start t.config.cell.bytes image lines = .ok img := by
  induction contiguous generalizing image cells with
  | nil location => exact ⟨image, rfl⟩
  | @cons l rest stands later ih =>
    have positive := t.config.cell.bytes_pos
    obtain ⟨count, length, next⟩ := stands.exists_next located
    have filled := List.length_pos_iff.mpr stands.filled
    have some : 0 < count := by
      rcases Nat.eq_zero_or_pos count with rfl | more
      · omega
      · exact more
    rw [List.flatMap_cons, List.length_append, length, Nat.mul_comm count,
      Nat.mul_add_div positive] at short
    have behind := Nat.zero_le ((rest.flatMap (·.bytes)).length / t.config.cell.bytes)
    have address : l.address.toNat = start.toNat + cells := by
      rw [located, UInt32.toNat_add, UInt32.toNat_ofNat_of_lt' (show cells < 0x100000000 by omega),
        Nat.mod_eq_of_lt (by omega)]
    -- The sum of start and cells does not wrap, so it is not below the start.
    have above : ¬l.address < start := by
      rw [UInt32.lt_iff_toNat_lt]
      omega
    rw [Program.place, if_neg above]
    exact @ih (cells + count) next (by omega) _

/-- The lines of a pass over code stand one behind the other. -/
theorem contiguous_of_pass {t : Target} {known labels : Symbols} {text : String} {start : UInt32}
    {lines : List Line} (passed : pass t known (Statement.ofText text) start ∅ = .ok (lines, labels))
    (clean : ∀ l ∈ lines, l.fault = none)
    (code : ∀ s ∈ Statement.ofText text, s.action.isDirective = false) : Contiguous t start lines := by
  obtain ⟨placed, statements, given, course, -⟩ := Placed.exists_of_pass passed clean
  rw [← given]
  refine course.contiguous fun q member => ?_
  have listed : q.statement ∈ Statement.ofText text := statements ▸ List.mem_map_of_mem member
  exact ⟨code q.statement listed, Statement.exists_read listed⟩

/-- The image of lines that stand one behind the other from the start on is their bytes. -/
theorem Contiguous.image_eq {t : Target} {start : UInt32} {lines : List Line}
    (contiguous : Contiguous t start lines)
    (fits : start.toNat + (lines.flatMap (·.bytes)).length / t.config.cell.bytes ≤ 0x100000000)
    (symbols : Symbols) :
    Program.image ⟨start, t.config.cell.bytes, lines, symbols⟩ = .ok (lines.flatMap (·.bytes)) := by
  have positive : 0 < t.config.cell.bytes := by cases t <;> decide
  have first : start = start + UInt32.ofNat 0 := by simp
  obtain ⟨img, laid⟩ := contiguous.exists_place first (by simpa using fits) []
  have once : (lines.flatMap (·.bytes)).length ≤ 0x100000000 * t.config.cell.bytes := by
    obtain ⟨count, length⟩ := contiguous.dvd_length
    rw [length, Nat.mul_div_cancel_left _ positive] at fits
    rw [length, Nat.mul_comm]
    exact Nat.mul_le_mul_right _ (by omega)
  rw [Program.image, laid, contiguous.place_eq first (by simp) (by simpa using once) laid,
    List.nil_append]

namespace Program

/-- Assembling the texts of a disassembly gives the memory back: as many lines, with the addresses and
bytes of the items, and the bytes as the image. The items have to be without faults and such that each
alone is read back as its bytes. -/
theorem assemble_disassembled (t : Target) (style : Style) (base : UInt32) (bytes : List UInt8)
    (fits : base.toNat + bytes.length / t.config.cell.bytes ≤ 0x100000000)
    (clean : ∀ item ∈ (t.decodeAll ∅ style (Memory.reader ⟨base, bytes, t.config.cell⟩)).1,
      item.fault = none)
    (faithful : ∀ item ∈ (t.decodeAll ∅ style (Memory.reader ⟨base, bytes, t.config.cell⟩)).1,
      t.isFaithful item = true) :
    let items := (t.decodeAll ∅ style (Memory.reader ⟨base, bytes, t.config.cell⟩)).1
    ∃ p, assemble t ("\n".intercalate (items.map (·.text))) base = .ok p ∧ p.image = .ok bytes ∧
      p.lines.map (fun l => (l.address, l.bytes)) = items.map fun item => (item.address, item.bytes) := by
  intro items
  -- The sweep says where the items stand, and the round trip of each what its text gives.
  have swept : Swept (Memory.reader ⟨base, bytes, t.config.cell⟩) items :=
    (Machine.swept_sweep t.customFollows (fun _ => t.cell_le_opcodeLength) ∅ style rfl
      (Nat.le_refl _)).1
  have back (item : Decoded) (member : item ∈ items) : item.ReadsBack t := by
    obtain ⟨place, rfl⟩ := Machine.exists_decode_of_sweep member
    exact t.readsBack_of_decode (clean _ member) (faithful _ member)
  -- The texts are the lines of the source.
  have statements : Statement.ofText ("\n".intercalate (items.map (·.text))) =
      Statement.readLines 1 (items.map (·.text)) := by
    rw [Statement.ofText, lines_intercalate]
    · simpa using fun item member => (back item member).plain
    · simpa using fun item member => (back item member).ne_nil
  obtain ⟨lines, passed, faultless, same⟩ := swept.exists_pass rfl clean back 1
  rw [← statements, Memory.address_reader] at passed
  have together : lines.flatMap (·.bytes) = bytes := by
    have covered : items.flatMap (·.bytes) = bytes := swept.covers_of_clean clean
    have equal := congrArg (List.flatMap Prod.snd) same
    rwa [List.flatMap_map, List.flatMap_map, covered] at equal
  have code : ∀ s ∈ Statement.ofText ("\n".intercalate (items.map (·.text))),
      s.action.isDirective = false := by
    intro s member
    rw [statements] at member
    obtain ⟨line, present, read⟩ := Statement.exists_of_readLines member
    obtain ⟨item, member, rfl⟩ := List.mem_map.mp present
    rw [read, (back item member).statement]
    rfl
  have laid := (contiguous_of_pass passed faultless code).image_eq (by rwa [together]) ∅
  exact ⟨_, assemble_of_pass passed faultless, together ▸ laid, same⟩

/-- A loop with its target as a distance, in lower case. -/
theorem assemble_disassembled_loop :
    let style : Style := { relative := true, lowercase := true }
    let items := (Target.z80.decodeAll ∅ style
      (Memory.reader ⟨0x100, [0x06, 0x10, 0x10, 0xFE, 0xC9], .byte⟩)).1
    "\n".intercalate (items.map (·.text)) = "ld b,10H\ndjnz $\nret" ∧
      ∃ p, assemble .z80 "ld b,10H\ndjnz $\nret" 0x100 = .ok p ∧
        p.image = .ok [0x06, 0x10, 0x10, 0xFE, 0xC9] ∧
        p.lines.map (fun l => (l.address, l.bytes)) =
          items.map fun item => (item.address, item.bytes) := by
  intro style items
  have text : "\n".intercalate (items.map (·.text)) = "ld b,10H\ndjnz $\nret" := by decide
  have back := assemble_disassembled .z80 style 0x100 [0x06, 0x10, 0x10, 0xFE, 0xC9] (by decide)
    (by decide) (by decide)
  exact ⟨text, text ▸ back⟩

end Program

end CrossAsm
