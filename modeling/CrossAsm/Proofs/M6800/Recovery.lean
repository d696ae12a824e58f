import CrossAsm.Proofs.M6800.Table
import CrossAsm.Proofs.Recovery

/-! What is assembled for the 6800 family is found again in the table. Entries that share an opcode
take the same bytes, and one that stands before another tells by its mask whether it is meant. -/

namespace CrossAsm.M6800

/-- A mask instruction, the bit instruction that stands for it where its mask meets a condition, and
that condition. -/
structure Pairing where
  mask : String
  bit : String
  single : Nat → Bool

def pairings : List Pairing :=
  [⟨"AIM", "BCLR", oneBitClear⟩, ⟨"OIM", "BSET", oneBitSet⟩, ⟨"EIM", "BTGL", oneBitSet⟩,
    ⟨"TIM", "BTST", oneBitSet⟩]

/-- The bit instruction that may stand for an instruction of this name. -/
def pairing? (name : String) : Option Pairing := pairings.find? (·.mask == name)

/-- The name under which an instruction with these operands is decoded. -/
def decodedName (name : String) (ops : List (Operand Mode Reg)) : String :=
  if name = "LSLD" then "ASLD"
  else
    match pairing? name, ops with
    | some pairing, mask :: _ => if pairing.single (mask.value % 256).toNat then pairing.bit else name
    | _, _ => name

/-- Bytes behind the opcode for a bit number, which becomes a mask. -/
def maskBytes (_ : Mode) : Nat := 1

/-! ### Entries that share an opcode -/

/-- Is this the entry's condition, for every byte? -/
def hasPost (entry : Entry Mode) (single : Nat → Bool) : Bool :=
  match entry.post with
  | some post => (List.range 256).all fun mask => post mask == single mask
  | none => false

/-- Entries of the same opcode and length. -/
def alike (first second : Page Mode × Entry Mode) : Bool :=
  first.2.opcode == second.2.opcode &&
    (machine .mc6800).extent maskBytes first.2 first.2.slots 0 ==
      (machine .mc6800).extent maskBytes second.2 second.2.slots 0

/-- The earlier entry stands for the later one always, or where its mask meets the condition. -/
def standsFor (earlier later : Page Mode × Entry Mode) : Bool :=
  earlier.2.name == "ASLD" && later.2.name == "LSLD" ||
    (pairing? later.2.name).any fun pairing => earlier.2.name == pairing.bit &&
      hasPost earlier.2 pairing.single

set_option maxRecDepth 20000 in
theorem table_apart : table.Pairwise fun earlier later =>
    earlier.2.opcode.toNat = later.2.opcode.toNat →
      (alike earlier later && standsFor earlier later) = true :=
  pairwise_of_byKey (·.2.opcode.toNat) (fun _ _ unrelated => (Classical.not_imp.mp unrelated).1)
    (by decide +kernel)

/-- The masks of single bits meet the condition of a bit instruction, and other masks are left to an
instruction without condition. What another entry may stand for has that entry. -/
def paired (hit : Page Mode × Entry Mode) : Bool :=
  (match hit.2.slots, hit.2.post with
    | s :: _, some post => isBit s.mode && ((List.range 8).all fun n => post (bitMask s.mode n)) &&
        table.any fun other => other.1.features == hit.1.features && other.2.post.isNone &&
          alike other hit
    | _, none => true
    | _, _ => false) &&
    (hit.2.name != "LSLD" || table.any fun other => other.1.features == hit.1.features &&
      other.2.name == "ASLD" && other.2.post.isNone && alike other hit) &&
    (pairing? hit.2.name).all fun pairing =>
      hit.2.slots.head?.any (·.mode == .imm8) && table.any fun other =>
        other.1.features == hit.1.features && other.2.name == pairing.bit && alike other hit &&
          hasPost other.2 pairing.single

set_option maxRecDepth 20000 in
theorem table_paired : table.all paired = true := by decide

section Alike

variable {variant : Variant} {hit other : Page Mode × Entry Mode}
  (own : hit ∈ (machine variant).ownEntries)

include own

theorem covers_iff_opcode (opcode : BitVec 32) : hit.2.covers opcode = true ↔ opcode = hit.2.opcode := by
  have none := slotMask_of_bare fun s member => (slot_of_own own member).2
  rw [Entry.covers_iff, none, BitVec.not_zero, BitVec.and_allOnes]

theorem paired_of_own : paired hit = true :=
  List.all_eq_true.mp table_paired hit ((machine variant).mem_ownEntries.mp own).1

/-- Another entry of the table in the same members of the family. -/
theorem own_of_features (member : other ∈ table) (same : other.1.features = hit.1.features) :
    other ∈ (machine variant).ownEntries := by
  have enabled := ((machine variant).mem_ownEntries.mp own).2
  refine (machine variant).mem_ownEntries.mpr ⟨member, ?_⟩
  rw [Machine.enabled, same]
  exact enabled

end Alike

section Written

variable {entry : Entry Mode} {slot : Slot Mode} {op : Operand Mode Reg} {room : Nat}
  {variant : Variant}

/-- A bit number in order becomes the mask of its bit. -/
def maskByte (slot : Slot Mode) (_ : Operand Mode Reg) (piece : Piece) (cause : Option Cause) : Prop :=
  cause = none → ∃ n < 8, ∃ mask : UInt8, mask.toNat = bitMask slot.mode n ∧
    ∀ base, piece.bytes config base .payload = [mask]

theorem bitMask_lt (mode : Mode) : ∀ n < 8, bitMask mode n < 256 := by
  unfold bitMask
  split <;> decide

theorem exists_stands_custom (custom : (machine variant).shape slot.mode = .custom) :
    ∃ piece cause, (machine variant).Stands maskBytes maskByte entry slot op room piece cause := by
  have outside : (machine variant).inGap slot = false := by simp [Machine.inGap, custom]
  have lays (d : Draft) : (machine variant).encodeOperand entry slot op d =
      encodeCustom entry slot op d := by
    simp only [Machine.encodeOperand, custom]
    rfl
  have stands (value : Nat) (cause : Option Cause)
      (laid : ∀ d : Draft, encodeCustom entry slot op d = (d.emit .payload value 1 op.column, cause))
      (mask : cause = none → ∃ n < 8, value = bitMask slot.mode n) :
      ∃ piece cause, (machine variant).Stands maskBytes maskByte entry slot op room piece cause := by
    refine ⟨{ extensions := [⟨.payload, .number value 1 .big, op.column⟩] }, cause,
      Machine.stands_payload ?_ (by simp [outside]) ?_ (by simp [custom]) ?_⟩
    · intro d same _
      rw [lays, laid, Draft.emit, same, d.extend_eq_lay slot]
      rfl
    · intro base
      simp [Extension.laid_number, Machine.span, custom, maskBytes]
    · intro _ clean
      obtain ⟨n, small, rfl⟩ := mask clean
      have byte : (UInt8.ofNat (bitMask slot.mode n)).toNat = bitMask slot.mode n :=
        Nat.mod_eq_of_lt (bitMask_lt slot.mode n small)
      refine ⟨n, small, _, byte, fun base => ?_⟩
      rw [Piece.bytes, Extension.stageOf_singleton, if_pos rfl, Extension.laid_number]
      exact (congrArg (fun value : Nat => Endian.big.put 1 value) byte.symm).trans
        (Endian.big.put_byte _)
  by_cases inside : (op.undefined || fitsUnsigned op.value 3) = true
  · refine stands (bitMask slot.mode (op.value % 8).toNat) none (fun d => ?_) fun _ =>
      ⟨(op.value % 8).toNat, by omega, rfl⟩
    rw [encodeCustom, if_pos inside]
  · refine stands 0 (some .illegalBitNumber) (fun d => ?_) (by simp)
    rw [encodeCustom, if_neg inside]
    rfl

theorem exists_stands (fits : (machine variant).fieldFits slot = true) :
    ∃ piece cause, (machine variant).Stands maskBytes maskByte entry slot op room piece cause :=
  Machine.exists_stands (compact variant) fits exists_stands_custom

/-- Every field of the opcode can be read, since there is none. -/
theorem legible (fits : (machine variant).fieldFits slot = true) (opcode : BitVec 32) :
    (machine variant).Legible maskBytes entry slot opcode := by
  refine Machine.legible_of_compact (compact variant) fits (fun shaped => ?_) fun _ d same _ enough => ?_
  · change shape slot.mode = .register at shaped
    cases mode : slot.mode <;> simp [mode, shape] at shaped
  · exact congrArg Prod.snd (d.readIn_eq d.config.endian enough (show 1 ≤ 4 by decide))

end Written

/-! ### The entry that is found -/

/-- The members of the family agree on how long operands are. -/
theorem extent_variant (variant : Variant) (entry : Entry Mode) (slots : List (Slot Mode)) (room : Nat) :
    (machine variant).extent maskBytes entry slots room =
      (machine .mc6800).extent maskBytes entry slots room := by
  induction slots generalizing room with
  | nil => rfl
  | cons slot slots ih =>
    simp only [Machine.extent, ih]
    rfl

theorem eq_of_alike {other hit : Page Mode × Entry Mode} (same : alike other hit = true) :
    other.2.opcode = hit.2.opcode ∧ ∀ variant, (machine variant).extent maskBytes other.2 other.2.slots 0 =
      (machine variant).extent maskBytes hit.2 hit.2.slots 0 := by
  simp only [alike, Bool.and_eq_true, beq_iff_eq] at same
  exact ⟨same.1, fun variant => by rw [extent_variant variant, extent_variant variant, same.2]⟩

/-- Entries of other names stand for themselves alone. -/
theorem not_standsFor {earlier later : Page Mode × Entry Mode} (shift : later.2.name ≠ "LSLD")
    (mask : pairing? later.2.name = none) : standsFor earlier later = false := by
  simp [standsFor, shift, mask]

theorem postHolds_of_hasPost {entry : Entry Mode} {single : Nat → Bool} {variant : Variant}
    (known : hasPost entry single = true) (mask : UInt8) (tail : List UInt8) :
    (machine variant).postHolds entry (mask :: tail) = single mask.toNat := by
  unfold hasPost at known
  split at known
  next post some =>
    simp only [List.all_eq_true, List.mem_range, beq_iff_eq] at known
    have one : (machine variant).config.cell.bytes = 1 := rfl
    simp [Machine.postHolds, some, one, known mask.toNat mask.toNat_lt]
  · simp at known

section Found

variable {variant : Variant} {hit other first : Page Mode × Entry Mode} {gap payload : List UInt8}
  {opcode : BitVec 32} (own : hit ∈ (machine variant).ownEntries)
  (complete : (machine variant).Complete maskBytes hit gap opcode payload)
  (suffix : List UInt8)

include own complete

/-- An entry of the same opcode and length takes the same bytes. -/
theorem complete_of_alike (present : other ∈ (machine variant).ownEntries)
    (same : alike other hit = true) :
    (machine variant).Complete maskBytes other gap opcode payload ∧
      (machine variant).instruction other.1 gap opcode payload =
        (machine variant).instruction hit.1 gap opcode payload := by
  obtain ⟨lead, gaps, cells⟩ := page_of_own own
  obtain ⟨lead', gaps', cells'⟩ := page_of_own present
  have none : (machine variant).gapLength hit.1 = 0 := by simp [Machine.gapLength, gaps]
  have none' : (machine variant).gapLength other.1 = 0 := by simp [Machine.gapLength, gaps']
  have length : (machine variant).opcodeLength other.1 = (machine variant).opcodeLength hit.1 := by
    rw [Machine.opcodeLength, Machine.opcodeLength, cells, cells']
  have long := complete.long
  rw [none] at long
  refine ⟨⟨?_, ?_, length ▸ complete.short, length ▸ complete.small⟩, ?_⟩
  · rw [none', ← none]
    exact complete.gapped
  · rw [none', (eq_of_alike same).2]
    exact long
  · rw [Machine.instruction, Machine.instruction, lead, lead', length]

theorem hits_of_alike (coded : opcode = hit.2.opcode) (present : other ∈ (machine variant).ownEntries)
    (same : alike other hit = true) :
    (machine variant).hits ((machine variant).instruction hit.1 gap opcode payload ++ suffix) other =
      (machine variant).postHolds other.2 (payload ++ suffix) := by
  obtain ⟨whole, bytes⟩ := complete_of_alike own complete present same
  have covers : other.2.covers opcode = true := by
    rw [covers_iff_opcode present, coded, (eq_of_alike same).1]
  rw [← bytes, whole.hits_eq, covers, Bool.true_and]

/-- The entry that is found stands for every entry that matches. -/
theorem eq_or_standsFor (coded : opcode = hit.2.opcode)
    (found : (machine variant).ownEntries.find? ((machine variant).hits
      ((machine variant).instruction hit.1 gap opcode payload ++ suffix)) = some first)
    (present : other ∈ (machine variant).ownEntries) (same : alike other hit = true)
    (matched : (machine variant).postHolds other.2 (payload ++ suffix) = true) :
    first = other ∨ alike first other = true ∧ standsFor first other = true := by
  have hits := hits_of_alike own complete suffix coded present same
  rw [matched] at hits
  rcases eq_or_related_of_find? (table_apart.filter _) found present hits with equal | related
  · exact .inl equal
  · -- Without fields, entries that match the same byte have the same opcode.
    have member := List.mem_of_find?_eq_some found
    have firstHits := List.find?_some found
    obtain ⟨lead, gaps, cells⟩ := page_of_own own
    obtain ⟨lead', gaps', cells'⟩ := page_of_own member
    rw [complete.hits_of_page (lead'.trans lead.symm) (gaps'.trans gaps.symm)
      (cells'.trans cells.symm), Bool.and_eq_true, covers_iff_opcode member] at firstHits
    have equal : first.2.opcode = other.2.opcode := by
      rw [← firstHits.1, coded, (eq_of_alike same).1]
    have both := related (congrArg BitVec.toNat equal)
    exact .inr (by simpa using both)

end Found

section Lines

variable {variant : Variant} {symbols : Symbols} {line : String} {address : UInt32} {name : String}
  {hit : Page Mode × Entry Mode} {ops : List (Operand Mode Reg)} {pieces : List (Slot Mode × Piece)}
  {fault : Option Fault} {gap payload : List UInt8} {opcode : BitVec 32} {base : Int}
  (own : hit ∈ (machine variant).ownEntries)
  (laid : Pieces (fun slot op room piece cause => accepts slot.mode op.mode = true ∧
    (machine variant).Stands maskBytes maskByte hit.2 slot op room piece cause) hit.2.slots ops
    hit.1.gap pieces fault)
  (bytes : payload = pieces.flatMap (·.2.bytes config base .payload)) (suffix : List UInt8)

include own laid bytes

/-- A bit instruction in order has a mask that meets its condition. -/
theorem postHolds_of_laid (clean : fault = none) :
    (machine variant).postHolds hit.2 (payload ++ suffix) = true := by
  have checked := paired_of_own own
  simp only [paired, Bool.and_eq_true] at checked
  cases post : hit.2.post with
  | none => rw [Machine.postHolds, post]
  | some single =>
    cases slots : hit.2.slots with
    | nil => simp [slots, post] at checked
    | cons s more =>
      simp only [slots, post, Bool.and_eq_true, List.all_eq_true, List.mem_range] at checked
      obtain ⟨⟨⟨⟨bit, masks⟩, -⟩, -⟩, -⟩ := checked
      have custom : (machine variant).shape s.mode = .custom := isBit_iff_custom.mp bit
      rw [slots] at laid
      obtain ⟨op, others, piece, pieces, cause, -, rfl, ⟨-, stands⟩, quiet⟩ := laid.exists_cons
      obtain ⟨n, small, mask, value, laid⟩ := stands.custom custom (quiet clean)
      have one : (machine variant).config.cell.bytes = 1 := rfl
      simp [Machine.postHolds, post, bytes, laid, one, value, masks n small]

/-- The entry matches its bytes, or its bit number is out of range and a mask instruction does. -/
theorem exists_matching : ∃ other ∈ (machine variant).ownEntries, alike other hit = true ∧
    (machine variant).postHolds other.2 (payload ++ suffix) = true := by
  by_cases clean : fault = none
  · exact ⟨hit, own, by simp [alike], postHolds_of_laid own laid bytes suffix clean⟩
  have checked := paired_of_own own
  simp only [paired, Bool.and_eq_true] at checked
  cases post : hit.2.post with
  | none => exact ⟨hit, own, by simp [alike], by rw [Machine.postHolds, post]⟩
  | some single =>
    cases slots : hit.2.slots with
    | nil => simp [slots, post] at checked
    | cons s more =>
      simp only [slots, post, Bool.and_eq_true, List.any_eq_true, beq_iff_eq,
        Option.isNone_iff_eq_none] at checked
      obtain ⟨⟨⟨-, other, member, ⟨same, free⟩, likewise⟩, -⟩, -⟩ := checked
      exact ⟨other, own_of_features own member same, likewise, by rw [Machine.postHolds, free]⟩

omit own in
/-- The mask of a mask instruction in order stands behind the opcode. -/
theorem exists_mask (clean : fault = none) (mask : hit.2.slots.head?.any (·.mode == .imm8) = true) :
    ∃ op others byte tail, ops = op :: others ∧ payload = byte :: tail ∧
      byte.toNat = (op.value % 256).toNat := by
  obtain ⟨s, more, slots, mode⟩ : ∃ s more, hit.2.slots = s :: more ∧ s.mode = .imm8 := by
    cases slots : hit.2.slots with
    | nil => simp [slots] at mask
    | cons s more => exact ⟨s, more, rfl, by simpa [slots] using mask⟩
  rw [slots] at laid
  obtain ⟨op, others, piece, pieces, cause, rfl, rfl, ⟨-, stands⟩, quiet⟩ := laid.exists_cons
  have put := stands.immediate .byte 1 (by rw [mode]; rfl) rfl (quiet clean) base
  obtain ⟨byte, single⟩ := List.length_eq_one_iff.mp
    (show (Endian.big.put 1 op.value).length = 1 from Endian.big.length_put 1 op.value)
  have number := Endian.big.number_put op.value (show 1 ≤ 4 by decide)
  rw [single, Endian.number_singleton] at number
  refine ⟨op, others, byte, pieces.flatMap (·.2.bytes config base .payload), rfl, ?_, ?_⟩
  · rw [bytes, List.flatMap_cons]
    exact congrArg (· ++ pieces.flatMap (·.2.bytes config base .payload)) (put.trans single)
  · exact (Int.toNat_natCast _).symm.trans (congrArg Int.toNat number)

/-- Without a fault the entry that is found has the name under which the instruction is decoded. -/
theorem name_of_found (complete : (machine variant).Complete maskBytes hit gap opcode payload)
    (coded : opcode = hit.2.opcode) {first : Page Mode × Entry Mode}
    (found : (machine variant).ownEntries.find? ((machine variant).hits
      ((machine variant).instruction hit.1 gap opcode payload ++ suffix)) = some first)
    (clean : fault = none) : first.2.name = decodedName hit.2.name ops := by
  have checked := paired_of_own own
  simp only [paired, Bool.and_eq_true] at checked
  obtain ⟨⟨-, shifts⟩, masks⟩ := checked
  have itself := eq_or_standsFor own complete suffix coded found own (by simp [alike])
    (postHolds_of_laid own laid bytes suffix clean)
  -- Only the shift and the masks of one bit share their bytes with another name.
  by_cases shift : hit.2.name = "LSLD"
  · simp only [shift, bne_self_eq_false, Bool.false_or, List.any_eq_true, Bool.and_eq_true,
      beq_iff_eq, Option.isNone_iff_eq_none] at shifts
    obtain ⟨other, member, ⟨⟨same, named⟩, free⟩, likewise⟩ := shifts
    have renamed : decodedName hit.2.name ops = "ASLD" := by simp only [decodedName, if_pos shift]
    rcases eq_or_standsFor own complete suffix coded found (own_of_features own member same) likewise
      (by rw [Machine.postHolds, free]) with rfl | ⟨-, stands⟩
    · rw [named, renamed]
    · rw [not_standsFor (by rw [named]; decide) (by rw [named]; decide)] at stands
      exact absurd stands (by decide)
  cases known : pairing? hit.2.name with
  | none =>
    have kept : decodedName hit.2.name ops = hit.2.name := by
      simp only [decodedName, if_neg shift, known]
    rcases itself with rfl | ⟨-, stands⟩
    · exact kept.symm
    · rw [not_standsFor shift known] at stands
      exact absurd stands (by decide)
  | some pairing =>
    simp only [known, Option.all_some, Bool.and_eq_true, List.any_eq_true, beq_iff_eq] at masks
    obtain ⟨immediate, other, member, ⟨⟨same, named⟩, likewise⟩, post⟩ := masks
    obtain ⟨op, others, byte, tail, rfl, rfl, value⟩ := exists_mask laid bytes clean immediate
    have conditional : decodedName hit.2.name (op :: others) =
        if pairing.single byte.toNat then pairing.bit else hit.2.name := by
      simp only [decodedName, if_neg shift, known, value]
    rw [conditional]
    cases single : pairing.single byte.toNat with
    | true =>
      have unique : ∀ pairing ∈ pairings,
          pairing.bit ≠ "LSLD" ∧ (pairing? pairing.bit).isNone = true := by decide
      obtain ⟨shift, alone⟩ := unique pairing (List.mem_of_find?_eq_some known)
      rcases eq_or_standsFor own complete suffix coded found (own_of_features own member same)
        likewise (by rw [List.cons_append, postHolds_of_hasPost post, single]) with rfl | ⟨-, stands⟩
      · rw [named, if_pos rfl]
      · rw [not_standsFor (by rw [named]; exact shift)
          (by rw [named]; exact Option.isNone_iff_eq_none.mp alone)] at stands
        exact absurd stands (by decide)
    | false =>
      rw [if_neg (by decide)]
      rcases itself with rfl | ⟨-, stands⟩
      · rfl
      · -- The bit instruction does not match a mask that does not meet its condition.
        simp only [standsFor, beq_eq_false_iff_ne.mpr shift, Bool.and_false, Bool.false_or,
          known, Option.any_some, Bool.and_eq_true] at stands
        have matched := List.find?_some found
        obtain ⟨lead, gaps, cells⟩ := page_of_own own
        obtain ⟨lead', gaps', cells'⟩ := page_of_own (List.mem_of_find?_eq_some found)
        rw [complete.hits_of_page (lead'.trans lead.symm) (gaps'.trans gaps.symm)
          (cells'.trans cells.symm), List.cons_append, postHolds_of_hasPost stands.2, single,
          Bool.and_false] at matched
        exact absurd matched (by decide)

end Lines

/-- Every line that gives bytes leads to an entry that takes them all. Without a fault this is the one
it was read as, or one that stands for it. -/
theorem exists_leadsTo {variant : Variant} {symbols : Symbols} {line : String} {address : UInt32}
    {name : String} {hit : Page Mode × Entry Mode} {ops : List (Operand Mode Reg)}
    (writes : (machine variant).Writes symbols line address name hit ops) (suffix : List UInt8) :
    let a := (machine variant).assemble symbols line address
    ∃ first ∈ (machine variant).ownEntries, (machine variant).LeadsTo a.bytes suffix address first ∧
      (a.fault = none → first.2.name = decodedName hit.2.name ops) := by
  have own := writes.own
  have fits := entryFits_of_own own
  obtain ⟨pieces, early, late, gap, opcode, payload, laid, placed, ⟨base, bytes⟩, complete, assembled⟩ :=
    writes.exists_complete rfl fits fun slot member _ _ _ _ =>
      exists_stands (Machine.fieldFits_of_entryFits fits member)
  have coded : opcode = hit.2.opcode :=
    (covers_iff_opcode own opcode).mp (Machine.covers_of_pieces fits laid placed)
  obtain ⟨other, present, likewise, holds⟩ := exists_matching own laid bytes suffix
  have matched := hits_of_alike own complete suffix coded present likewise
  rw [holds] at matched
  obtain ⟨first, found⟩ := Option.isSome_iff_exists.mp
    (List.find?_isSome.mpr ⟨other, present, matched⟩)
  have member := List.mem_of_find?_eq_some found
  have same : alike first hit = true := by
    rcases eq_or_standsFor own complete suffix coded found present likewise holds with equal | ⟨same, -⟩
    · rw [equal, likewise]
    · simp only [alike, Bool.and_eq_true, beq_iff_eq] at same likewise ⊢
      exact ⟨same.1.trans likewise.1, same.2.trans likewise.2⟩
  obtain ⟨whole, instruction⟩ := complete_of_alike own complete member same
  rw [assembled]
  refine ⟨first, member, ?_, fun clean => ?_⟩
  · rw [← instruction] at found ⊢
    exact whole.leadsTo (unindexed variant) (customFollows variant) (fun s inside =>
      legible (Machine.fieldFits_of_entryFits (entryFits_of_own member) inside) opcode) address found
  · have quiet : early = none := by
      simp only [Option.or_eq_none_iff] at clean
      exact clean.1.1
    exact name_of_found own laid bytes suffix complete coded found quiet

end CrossAsm.M6800
