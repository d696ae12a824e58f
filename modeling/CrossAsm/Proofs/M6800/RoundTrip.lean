import CrossAsm.Proofs.M6800.Syntax
import CrossAsm.Proofs.M6800.Table
import CrossAsm.Target

/-! Decoding an instruction of the 6800 family and assembling its text gives its bytes back. -/

namespace CrossAsm.M6800

open Text

section Hit

variable {variant : Variant} {hit : Page Mode × Entry Mode}
  (own : hit ∈ (machine variant).ownEntries)

include own

/-- An entry is found by its opcode byte. -/
theorem exists_start {rest : List UInt8} (hits : (machine variant).hits rest hit = true)
    (address : UInt32) : ∃ opcode tail, rest = opcode :: tail ∧
      hit.2.opcode = BitVec.ofNat 32 opcode.toNat ∧
      (machine variant).postHolds hit.2 tail = true ∧
      (machine variant).indexed hit rest address = (hit.2.slots.map fun s => (s, none),
        ⟨config, address, BitVec.ofNat 32 opcode.toNat, [], [opcode], tail, none⟩) := by
  obtain ⟨lead, gapless, cells⟩ := page_of_own own
  obtain ⟨opcode, tail, split, covers, post, start⟩ :=
    (machine variant).exists_opcode hit rest address (unindexed variant) rfl gapless cells hits
  have bare := slotMask_of_bare fun s member => (slot_of_own own member).2
  have all : ~~~0#32 = BitVec.allOnes 32 := by decide
  rw [Entry.covers_iff, bare, all, BitVec.and_allOnes] at covers
  rw [lead, List.nil_append] at split start
  exact ⟨opcode, tail, split, covers.symm, post, start⟩

end Hit

/-- The target of a branch before it is wrapped into the address space. -/
def branchTarget? (address : UInt32) : List UInt8 → Option Int
  | [opcode, disp] =>
    if isBranch opcode then some (address.toNat + 2 + signExtend disp.toNat 8) else none
  | _ => none

section Reading

variable {variant : Variant} {entry : Entry Mode} {r : Reading (machine variant) entry}
  {q : Operand Mode Reg}

/-- The operand is written in a form that the slot takes back. -/
def Restores (r : Reading (machine variant) entry) (rendering : Rendering)
    (q : Operand Mode Reg) : Prop :=
  (machine variant).Rewrites entry rendering r q ∧ q.mode ∈ written r.slot.mode ∧
    (r.slot.mode = .extended → q.force ≠ some .short)

theorem restores_of_parses {rendering : Rendering} {op : Operand Mode Reg} {text : List Char}
    (found : r.operand = some op) (parses : (machine variant).ParsesAs rendering.scope text q)
    (shown : (formatOperand rendering op).toList = text) (known : q.undefined = false)
    (same : q.value = op.value) (bounded : q.value < 0x10000)
    (straight : r.slot.mode = .rel → fitsSigned (q.value - r.stop.base) 8 = true)
    (masked : isBit r.slot.mode = true → ∀ column base, ∃ piece,
      (machine variant).Lays entry r.slot { q with column } r.start.gapBytes.length piece none ∧
        r.Takes base piece)
    (form : q.mode ∈ written r.slot.mode) (unforced : q.force ≠ some .short) :
    Restores r rendering q := by
  refine ⟨⟨op, found, fun column => ?_, shown ▸ parses⟩, form, fun _ => unforced⟩
  exact
    { known
      value := fun op' found' => by
        rw [found, Option.some.injEq] at found'
        rw [← found', ← same]
      register := fun shaped => by
        change shape r.slot.mode = .register at shaped
        cases mode : r.slot.mode <;> simp [mode, shape] at shaped
      bounded := fun _ _ => bounded
      straight := fun width shaped => by
        exact straight (mode_of_relative shaped)
      custom := fun shaped => masked (isBit_iff_custom.mpr shaped) column }

variable (style : Style) (address : UInt32)

theorem restores_immediate {n : Nat}
    (mode : r.slot.mode = .imm8 ∧ n = 1 ∨ r.slot.mode = .imm16 ∧ n = 2)
    (clean : r.stop.fault = none) :
    ∃ q, Restores r ((machine variant).rendering ∅ style address) q := by
  let rendering := (machine variant).rendering ∅ style address
  obtain ⟨width, sized, shaped, short⟩ : ∃ width : Width, width.bytes? entry.size = some n ∧
      (machine variant).shape r.slot.mode = .immediate width ∧ n ≤ 2 := by
    rcases mode with ⟨mode, rfl⟩ | ⟨mode, rfl⟩
    · exact ⟨.byte, rfl, congrArg shape mode, by decide⟩
    · exact ⟨.word, rfl, congrArg shape mode, by decide⟩
  obtain ⟨op, found, kind, low, -, small, same⟩ :=
    Machine.exists_short_of_clean sized short (.inl shaped) clean
  have denotes := rendering.denotes_imm op.value n
  rw [same] at denotes
  have parses := parses_immediate variant denotes
  refine ⟨_, restores_of_parses found parses ?_ rfl rfl small ?_ ?_ ?_ (by simp)⟩ <;>
    rcases mode with ⟨mode, rfl⟩ | ⟨mode, rfl⟩ <;>
    simp [formatOperand, kind, mode, rendering, isBit, written]

theorem restores_direct (mode : r.slot.mode = .direct) (clean : r.stop.fault = none) :
    ∃ q, Restores r ((machine variant).rendering ∅ style address) q := by
  obtain ⟨op, found, kind, low, byte, small, same⟩ :=
    Machine.exists_short_of_clean rfl (by decide) (.inr (congrArg shape mode)) clean
  let rendering := (machine variant).rendering ∅ style address
  have denotes := rendering.denotes_imm op.value 1
  rw [same] at denotes
  have direct : op.value < 0x100 := byte
  have dollar : (rendering.place (UInt32.ofInt op.value)).toList.head? = some '$' := by
    rw [rendering.place_no_symbols rfl]
    simp [rendering, Machine.rendering, machine, config, Dialect.hex]
  have parses := parses_address variant rfl denotes
  refine ⟨_, restores_of_parses found parses ?_ rfl rfl small ?_ ?_ ?_ (by simp)⟩
  · simp [formatOperand, kind, mode, rendering, dollar]
  all_goals simp [mode, isBit, written, direct]

theorem restores_extended (mode : r.slot.mode = .extended) (clean : r.stop.fault = none) :
    ∃ q, Restores r ((machine variant).rendering ∅ style address) q := by
  obtain ⟨op, found, kind, low, -, small, same⟩ :=
    Machine.exists_short_of_clean rfl (by decide) (.inr (congrArg shape mode)) clean
  let rendering := (machine variant).rendering ∅ style address
  by_cases direct : op.value < 0x100
  · have denotes := rendering.denotes_imm op.value 2
    rw [same] at denotes
    have parses := parses_extended variant denotes
    refine ⟨_, restores_of_parses found parses ?_ rfl rfl small ?_ ?_ ?_ (by simp)⟩
    · simp [formatOperand, kind, mode, direct, rendering]
    all_goals simp [mode, isBit, written]
  · have denotes := rendering.denotes_place rfl low (by omega)
    have parses := parses_address variant rfl denotes
    refine ⟨_, restores_of_parses found parses ?_ rfl rfl small ?_ ?_ ?_ (by simp)⟩
    · simp [formatOperand, kind, mode, direct, rendering]
    all_goals simp [mode, isBit, written, direct]

theorem restores_indexed (mode : r.slot.mode = .indexed) (bare : r.slot.width = 0)
    (clean : r.stop.fault = none) :
    ∃ q, Restores r ((machine variant).rendering ∅ style address) q := by
  let rendering := (machine variant).rendering ∅ style address
  obtain ⟨op, found, kind, low, high⟩ : ∃ op, r.operand = some op ∧ op.mode = r.slot.mode ∧
      0 ≤ op.value ∧ op.value < 0x100 := by
    obtain ⟨op, byte, found, kind, value⟩ :=
      Machine.exists_disp_of_clean (congrArg shape mode) bare clean
    have bound := byte.toNat_lt
    refine ⟨op, found, kind, ?_, ?_⟩ <;> simp only [value, Bool.false_eq_true, if_false] <;> omega
  by_cases zero : op.value = 0
  · have denotes := rendering.denotes_decimal (n := 0) (by decide)
    have parses := parses_indexed variant rfl denotes
    refine ⟨_, restores_of_parses found parses ?_ rfl zero.symm (by decide) ?_ ?_ ?_ (by simp)⟩
    · simp [formatOperand, kind, mode, zero, decimal]
    all_goals simp [mode, isBit, written]
  · have denotes := rendering.denotes_imm op.value 1
    rw [show op.value % twoPow (min (8 * 1) 32) = op.value from Int.emod_eq_of_lt low high]
      at denotes
    have small : op.value < 0x10000 := by omega
    have parses := parses_indexed variant rfl denotes
    refine ⟨_, restores_of_parses found parses ?_ rfl rfl small ?_ ?_ ?_ (by simp)⟩
    · simp [formatOperand, kind, mode, zero, rendering]
    all_goals simp [mode, isBit, written]

/-- A target inside the address space is written so that it leads back to the same byte. -/
theorem restores_branch (mode : r.slot.mode = .rel) (clean : r.stop.fault = none)
    (configured : r.start.config = config)
    (near : ∀ byte tail, r.start.rest = byte :: tail →
      0 ≤ r.stop.base + signExtend byte.toNat 8 ∧
        r.stop.base + signExtend byte.toNat 8 < 0x10000) :
    ∃ q, Restores r ((machine variant).rendering ∅ style address) q := by
  let rendering := (machine variant).rendering ∅ style address
  obtain ⟨op, byte, tail, ahead, -, found, kind, value⟩ :=
    Machine.exists_target_of_clean (congrArg shape mode) clean
  obtain ⟨low, high⟩ := near byte tail ahead
  have target : op.value = r.stop.base + signExtend byte.toNat 8 := by
    rw [value, configured]
    exact Int.emod_eq_of_lt low high
  have inside : fitsSigned (op.value - r.stop.base) 8 = true := by
    rw [target, add_sub_cancel_left]
    exact fitsSigned_signExtend _ (by decide)
  rw [← target] at low high
  have denotes := rendering.denotes_target rfl low (by omega)
  have parses := parses_address variant rfl denotes
  refine ⟨_, restores_of_parses found parses ?_ rfl rfl high (fun _ => inside) ?_ ?_ (by simp)⟩
  · simp [formatOperand, kind, mode, rendering]
  · simp [mode, isBit]
  · simp only [mode, written]
    split <;> simp

/-- A mask that singles out one bit is written as the number of that bit. -/
theorem restores_bit (bit : isBit r.slot.mode = true) (bare : r.slot.width = 0)
    {byte : UInt8} {tail : List UInt8} (ahead : r.start.rest = byte :: tail) (inside : maskBit r.slot.mode byte.toNat < 8)
    (single : bitMask r.slot.mode (maskBit r.slot.mode byte.toNat) = byte.toNat) :
    ∃ q, Restores r ((machine variant).rendering ∅ style address) q := by
  let rendering := (machine variant).rendering ∅ style address
  have shaped : (machine variant).shape r.slot.mode = .custom := isBit_iff_custom.mp bit
  have number : r.start.read 1 = (byte.toNat, r.start.past 1) := by
    rw [Decoding.read, Decoding.readIn_eq _ _ (by simp [ahead]) (by decide)]
    simp [ahead]
  have decoded : (machine variant).decodeOperand entry r.slot r.index r.start =
      (some
        { mode := r.slot.mode
          value := maskBit r.slot.mode byte.toNat
          column := r.start.bytes.length }, r.start.past 1) := by
    simp only [Machine.decodeOperand, shaped]
    simp only [machine, decodeCustom, number, maskBit]
  have found : r.operand = _ := congrArg Prod.fst decoded
  have moved : r.stop = _ := congrArg Prod.snd decoded
  have denotes := rendering.denotes_decimal (n := maskBit r.slot.mode byte.toNat) (by omega)
  have parses := parses_address variant rfl denotes
  refine ⟨_, restores_of_parses found parses ?_ rfl rfl ?_ ?_ ?_ ?_ (by simp)⟩
  · cases mode : r.slot.mode <;> simp_all [isBit, formatOperand, decimalInt_natCast]
  · change (maskBit r.slot.mode byte.toNat : Int) < 0x10000
    omega
  · cases mode : r.slot.mode <;> simp_all [isBit]
  · intro _ column base
    have low : fitsUnsigned (maskBit r.slot.mode byte.toNat : Int) 3 = true := by
      rw [fitsUnsigned_iff (by decide)]
      exact ⟨by omega, by exact_mod_cast inside⟩
    have same : ((maskBit r.slot.mode byte.toNat : Int) % 8).toNat =
        maskBit r.slot.mode byte.toNat := by omega
    refine ⟨{ extensions := [⟨.payload, .number byte.toNat 1 .big, column⟩] }, ?_,
      Reading.takes_payload bare moved rfl ?_⟩
    · intro d drafted _
      simp only [Machine.encodeOperand, shaped]
      simp only [machine, encodeCustom, low, Bool.or_true, if_true, same, single, Draft.emit,
        drafted, d.extend_eq_lay r.slot, config]
    · rw [Extension.laid_number, Endian.put_byte, ahead]
      rfl
  · have direct : (maskBit r.slot.mode byte.toNat : Int) < 0x100 := by omega
    cases mode : r.slot.mode <;> simp_all [isBit, written]

end Reading

section Course

variable {variant : Variant} {hit : Page Mode × Entry Mode}
  (own : hit ∈ (machine variant).ownEntries) {rest : List UInt8}
  (hits : (machine variant).hits rest hit = true) {address : UInt32}
  (clean : ((machine variant).finish hit rest address).fault = none) (style : Style)

include own hits clean

/-- A bit number is read from the byte behind the opcode, which singles out one bit. -/
theorem course_bit {r : Reading (machine variant) hit.2}
    (member : r ∈ (machine variant).course hit rest address) (bit : isBit r.slot.mode = true) :
    ∃ q, Restores r ((machine variant).rendering ∅ style address) q := by
  obtain ⟨opcode, tail, rfl, -, post, start⟩ := exists_start own hits address
  simp only [Machine.course, start] at member
  cases slots : hit.2.slots with
  | nil => simp [slots, Machine.readings] at member
  | cons s more =>
    rw [slots] at member
    rcases List.mem_cons.mp member with rfl | later
    · obtain ⟨condition, found, single⟩ := bit_of_own own slots bit
      have bare := (slot_of_own own (slots ▸ List.mem_cons_self : s ∈ hit.2.slots)).2
      simp only [Machine.postHolds, found, Bool.and_eq_true, decide_eq_true_eq] at post
      obtain ⟨byte, behind, rfl⟩ := List.exists_cons_of_length_pos (show 0 < tail.length from post.1)
      have mask : condition byte.toNat = true := by
        have holds := post.2
        have one : (byte :: behind).take (machine variant).config.cell.bytes = [byte] := rfl
        rwa [one, Endian.number_singleton] at holds
      obtain ⟨inside, restored⟩ := single byte.toNat byte.toNat_lt mask
      exact restores_bit style address bit bare rfl inside restored
    · have among := (Machine.mem_readings (customFollows variant) later).1
      simp only [List.mem_map, Prod.mk.injEq] at among
      obtain ⟨t, present, same, -⟩ := among
      have other := not_bit_of_own own slots present
      rw [same, bit] at other
      exact absurd other (by decide)

/-- The target of a branch is read from the byte behind the opcode. -/
theorem course_branch
    (near : ∀ target, branchTarget? address ((machine variant).finish hit rest address).bytes =
      some target → 0 ≤ target ∧ target < 0x10000)
    {r : Reading (machine variant) hit.2} (member : r ∈ (machine variant).course hit rest address)
    (present : r.slot ∈ hit.2.slots) (mode : r.slot.mode = .rel) :
    ∃ q, Restores r ((machine variant).rendering ∅ style address) q := by
  obtain ⟨opcode, tail, rfl, coded, -, start⟩ := exists_start own hits address
  obtain ⟨slots, branch⟩ := branch_of_own own present mode
  simp only [Machine.finish, Machine.course, start, slots, List.map_cons, List.map_nil,
    Machine.readings, Machine.stopOf, List.mem_singleton] at member clean near
  subst member
  obtain ⟨-, -, -, -, moved, -⟩ := Machine.exists_target_of_clean (congrArg shape mode) clean
  apply restores_branch style address mode clean rfl
  intro byte behind ahead
  obtain rfl : tail = byte :: behind := ahead
  have known : UInt8.ofNat (BitVec.ofNat 32 opcode.toNat).toNat = opcode := by
    have small := opcode.toNat_lt
    rw [BitVec.toNat_ofNat, Nat.mod_eq_of_lt (by omega), UInt8.ofNat_toNat]
  rw [coded, known] at branch
  have base : Decoding.base (Decoding.past ⟨config, address, BitVec.ofNat 32 opcode.toNat, [],
      [opcode], byte :: behind, none⟩ 1) = address.toNat + 2 := by
    simp [Decoding.base, Decoding.consumed, config, Cell.bytes]
  rw [moved] at near ⊢
  rw [base]
  apply near
  change branchTarget? address [opcode, byte] = _
  simp only [branchTarget?, branch, if_true]

/-- Every operand of a decoded instruction is written so that it can be read back. -/
theorem exists_restores
    (near : ∀ target, branchTarget? address ((machine variant).finish hit rest address).bytes =
      some target → 0 ≤ target ∧ target < 0x10000)
    {r : Reading (machine variant) hit.2} (member : r ∈ (machine variant).course hit rest address) :
    ∃ q, Restores r ((machine variant).rendering ∅ style address) q := by
  obtain ⟨among, -, later⟩ := Machine.mem_readings (customFollows variant) member
  have stopped : r.stop.fault = none := later.fault clean
  have present : r.slot ∈ hit.2.slots := by
    rw [Machine.indexed, Machine.readIndexes_eq (unindexed variant)] at among
    obtain ⟨s, present, same⟩ := List.mem_map.mp among
    simp only [Prod.mk.injEq] at same
    exact same.1 ▸ present
  obtain ⟨category, bare⟩ := slot_of_own own present
  cases mode : r.slot.mode with
  | imm | dir | ext | idx => exact absurd (by rw [mode]; rfl) category
  | imm8 => exact restores_immediate style address (.inl ⟨mode, rfl⟩) stopped
  | imm16 => exact restores_immediate style address (.inr ⟨mode, rfl⟩) stopped
  | direct => exact restores_direct style address mode stopped
  | extended => exact restores_extended style address mode stopped
  | indexed => exact restores_indexed style address mode bare stopped
  | rel => exact course_branch own hits clean style near member present mode
  | bitClr | bitSet => exact course_bit own hits clean style member (by rw [mode]; rfl)

end Course

/-- An operand in a form that a slot takes back. -/
def Suits (slot : Slot Mode) (q : Operand Mode Reg) : Prop :=
  q.mode ∈ written slot.mode ∧ (slot.mode = .extended → q.force ≠ some .short)

theorem suits_of_restores {variant : Variant} {entry : Entry Mode} {rendering : Rendering}
    {readings : List (Reading (machine variant) entry)} {read : List (Operand Mode Reg)}
    (restores : List.Forall₂ (fun r q => Restores r rendering q) readings read) :
    List.Forall₂ Suits (readings.map (·.slot)) read :=
  List.forall₂_map_left_iff.mpr (restores.imp fun _ _ restored => restored.2)

theorem widened_of_suits {slots : List (Slot Mode)} {ops : List (Operand Mode Reg)}
    (suits : List.Forall₂ Suits slots ops) : widened slots ops = false := by
  induction suits with
  | nil => rfl
  | @cons slot op _ _ first _ ih =>
    have free : (slot.mode == .extended && op.force == some .short) = false := by
      simpa using first.2
    rw [widened, free, ih, Bool.or_self]

/-- The name and the operands of a decoded instruction lead back to its entry. -/
theorem findByName_of_suits {variant : Variant} {hit : Page Mode × Entry Mode}
    (own : hit ∈ (machine variant).ownEntries) {name : String}
    (same : upper name = hit.2.name) {ops : List (Operand Mode Reg)}
    (suits : List.Forall₂ Suits hit.2.slots ops) :
    (machine variant).findByName name ops = .ok hit := by
  have forms := suits.imp fun _ _ suited => suited.1
  have admits := (machine variant).admits_of_forall₂
    (suits.imp fun slot _ suited => accepts_written slot.mode _ suited.1)
  obtain ⟨first, -, found, name, admitted, order⟩ :=
    (machine variant).findByName_eq_ok table_ordered own same admits
  rcases order with rfl | apart
  · exact found
  · have both := (machine variant).mayAdmit_of_admits forms admitted
    rw [name, beq_self_eq_true, Bool.and_true] at apart
    exact absurd (apart.symm.trans both) (by decide)

/-- What a member of the family decodes it assembles to the same bytes. -/
theorem assemble_text (variant : Variant) (style : Style) (r : Reader)
    (clean : ((machine variant).decode ∅ style r).1.fault = none)
    (near : ∀ target, branchTarget? r.address ((machine variant).decode ∅ style r).1.bytes =
      some target → 0 ≤ target ∧ target < 0x10000) :
    (machine variant).assemble ∅ ((machine variant).decode ∅ style r).1.text r.address =
      ⟨r.address, ((machine variant).decode ∅ style r).1.bytes, none⟩ := by
  obtain ⟨hit, found⟩ := Machine.exists_hit_of_decode clean
  have own := List.mem_of_find?_eq_some found
  have hits := List.find?_some found
  rw [Machine.decode_eq ∅ style found] at clean near
  apply Machine.assemble_decoded (compact variant) (customFollows variant) (unindexed variant)
    (fun _ => rfl) ∅ style (entryFits_of_own own) found clean (name_of_own own)
    (fun _ _ restored => restored.1)
    (fun _ _ column restored => ⟨restored.1.column column, restored.2⟩)
    (fun _ member => exists_restores own hits clean style near member)
  intro read restores name same
  have suits := suits_of_restores restores
  rw [Machine.slots_course] at suits
  refine ⟨findByName_of_suits own same suits, ?_⟩
  change check hit.2 read = none
  rw [check, widened_of_suits suits]
  rfl

end CrossAsm.M6800

namespace CrossAsm.Target

/-- A member of the 6800 family assembles the text of what it decodes to the bytes it decoded. -/
theorem m6800_assembles_decoded (t : Target) (family : t ∈ [mc6800, mc6801, hd6301])
    (style : Style) (r : Reader) (clean : (t.decode ∅ style r).1.fault = none)
    (near : ∀ target, M6800.branchTarget? r.address (t.decode ∅ style r).1.bytes = some target →
      0 ≤ target ∧ target < 0x10000) :
    t.assemble ∅ (t.decode ∅ style r).1.text r.address =
      ⟨r.address, (t.decode ∅ style r).1.bytes, none⟩ := by
  simp only [List.mem_cons, List.not_mem_nil, or_false] at family
  rcases family with rfl | rfl | rfl
  · exact M6800.assemble_text .mc6800 style r clean near
  · exact M6800.assemble_text .mc6801 style r clean near
  · exact M6800.assemble_text .hd6301 style r clean near

/-- A branch backwards and a bit instruction, as a distance and in lower case. -/
theorem m6800_assembles_decoded_bsr :
    let style : Style := { relative := true, lowercase := true }
    let branch := (hd6301.decode ∅ style (Memory.reader ⟨0x1000, [0x8D, 0x80], .byte⟩)).1
    let bit := (hd6301.decode ∅ style (Memory.reader ⟨0x1000, [0x71, 0xF7, 0x45], .byte⟩)).1
    branch.bytes = [0x8D, 0x80] ∧ bit.bytes = [0x71, 0xF7, 0x45] ∧
      hd6301.assemble ∅ branch.text 0x1000 = ⟨0x1000, branch.bytes, none⟩ ∧
      hd6301.assemble ∅ bit.text 0x1000 = ⟨0x1000, bit.bytes, none⟩ := by
  refine ⟨by decide, by decide, ?_, ?_⟩
  · have inside : M6800.branchTarget? 0x1000 (hd6301.decode ∅ { relative := true, lowercase := true }
        (Memory.reader ⟨0x1000, [0x8D, 0x80], .byte⟩)).1.bytes = some 0xF82 := by decide
    exact m6800_assembles_decoded hd6301 (by decide) { relative := true, lowercase := true }
      (Memory.reader ⟨0x1000, [0x8D, 0x80], .byte⟩) (by decide)
      fun target found => by
        obtain rfl := Option.some.inj (inside.symm.trans found)
        decide
  · have free : M6800.branchTarget? 0x1000 (hd6301.decode ∅ { relative := true, lowercase := true }
        (Memory.reader ⟨0x1000, [0x71, 0xF7, 0x45], .byte⟩)).1.bytes = none := by decide
    exact m6800_assembles_decoded hd6301 (by decide) { relative := true, lowercase := true }
      (Memory.reader ⟨0x1000, [0x71, 0xF7, 0x45], .byte⟩) (by decide)
      fun target found => by
        have both := free.symm.trans found
        simp at both

end CrossAsm.Target
