import CrossAsm.Proofs.Z80.Syntax
import CrossAsm.Proofs.Z80.Table

/-! The operands of a decoded Z80 instruction. Each is written in a form that its slot takes back,
with the value and the register it was read with. -/

namespace CrossAsm.Z80

open Text

/-- The register that a slot without a field stands for by itself. -/
def named? : Mode → Option Reg
  | .a => some .a
  | .hl => some .hl
  | .de => some .de
  | .sp => some .sp
  | .af => some .af
  | .i => some .i
  | .r => some .r
  | .ix => some .ix
  | .iy => some .iy
  | _ => none

/-- The register that points to the memory which a slot without a field stands for. -/
def pointer? : Mode → Option Reg
  | .memHl => some .hl
  | .memBc => some .bc
  | .memDe => some .de
  | .memSp => some .sp
  | .memC => some .c
  | _ => none

section Reading

variable {entry : Entry Mode} {r : Reading machine entry} {q : Operand Mode Reg}

/-- The operand is written in a form that the slot takes back. -/
structure Restores (r : Reading machine entry) (rendering : Rendering) (q : Operand Mode Reg) :
    Prop where
  rewrites : machine.Rewrites entry rendering r q
  form : q.mode ∈ written r.slot.mode
  pair : r.slot.mode = .pair → q.mode = .regHl → r.slot.read r.start.opcode = 2

theorem restores_of_parses {rendering : Rendering} {op : Operand Mode Reg} {text : List Char}
    (found : r.operand = some op) (parses : machine.ParsesAs rendering.scope text q)
    (shown : (formatOperand rendering op).toList = text) (known : q.undefined = false)
    (same : q.value = op.value) (bounded : q.value < 0x10000) (form : q.mode ∈ written r.slot.mode)
    (register : shape r.slot.mode = .register →
      registerField r.slot.mode q = .ok (r.slot.read r.start.opcode))
    (straight : r.slot.mode = .rel → fitsSigned (q.value - r.stop.base) 8 = true)
    (custom : shape r.slot.mode = .custom → ∀ column base, ∃ piece,
      machine.Lays entry r.slot { q with column } r.start.gapBytes.length piece none ∧
        r.Takes base piece)
    (pair : r.slot.mode = .pair → q.mode = .regHl → r.slot.read r.start.opcode = 2) :
    Restores r rendering q where
  form := form
  pair := pair
  rewrites := by
    refine ⟨op, found, fun column => ?_, shown ▸ parses⟩
    exact
      { known
        value := fun op' found' => by
          rw [found, Option.some.injEq] at found'
          rw [← found', ← same]
        register
        bounded := fun _ _ => bounded
        straight := fun width shaped => by
          exact straight (mode_of_relative shaped)
        custom := fun shaped => custom shaped column }

/-- The operand stands neither for a register field nor for a distance, nor is it read by rules of
its own. -/
def isPlain (mode : Mode) : Bool :=
  match shape mode with
  | .register | .custom | .relative _ => false
  | _ => true

theorem restores_plain {rendering : Rendering} {op : Operand Mode Reg} {text : List Char}
    (plain : isPlain r.slot.mode = true) (found : r.operand = some op)
    (parses : machine.ParsesAs rendering.scope text q)
    (shown : (formatOperand rendering op).toList = text) (known : q.undefined = false)
    (same : q.value = op.value) (bounded : q.value < 0x10000)
    (form : q.mode ∈ written r.slot.mode) : Restores r rendering q := by
  apply restores_of_parses found parses shown known same bounded form
  · intro shaped
    simp [isPlain, shaped] at plain
  · intro mode
    simp [isPlain, mode, shape] at plain
  · intro shaped
    simp [isPlain, shaped] at plain
  · intro mode
    simp [isPlain, mode, shape] at plain

variable (style : Style) (address : UInt32)

/-- A slot that stands for one operand reads just that. -/
theorem operand_implied (implied : shape r.slot.mode = .implied) :
    r.operand = some { mode := r.slot.mode, column := r.start.bytes.length } :=
  congrArg Prod.fst (Machine.decodeOperand_implied r.index implied)

theorem restores_named {reg : Reg} (named : named? r.slot.mode = some reg) :
    ∃ q, Restores r (machine.rendering ∅ style address) q := by
  let rendering := machine.rendering ∅ style address
  obtain ⟨implied, plain, member, form⟩ : shape r.slot.mode = .implied ∧
      isPlain r.slot.mode = true ∧ reg ∈ words ∧ reg.mode ∈ written r.slot.mode := by
    revert named
    cases r.slot.mode <;> simp only [named?, reduceCtorEq, Option.some.injEq, false_imp_iff] <;>
      rintro rfl <;> decide
  have names := rendering.names_case (isWord_words reg member)
  refine ⟨_, restores_plain plain (operand_implied implied) (parses_register member names) ?_ rfl
    rfl (show (0 : Int) < 0x10000 by decide) form⟩
  revert named
  cases r.slot.mode <;> simp only [named?, reduceCtorEq, Option.some.injEq, false_imp_iff] <;>
    rintro rfl <;> rfl

theorem toList_case_append (r : Rendering) (a b : String) :
    (r.case (a ++ b)).toList = (r.case a).toList ++ (r.case b).toList := by
  unfold Rendering.case
  split <;> simp [lower, upper]

theorem toList_case_paren (r : Rendering) (name : String) :
    (r.case ("(" ++ name ++ ")")).toList = '(' :: (r.case name).toList ++ [')'] := by
  have opening : (r.case "(").toList = ['('] := by
    unfold Rendering.case
    split <;> rfl
  have closing : (r.case ")").toList = [')'] := by
    unfold Rendering.case
    split <;> rfl
  rw [toList_case_append, toList_case_append, opening, closing, List.singleton_append]

theorem restores_alternate (mode : r.slot.mode = .afP) :
    ∃ q, Restores r (machine.rendering ∅ style address) q := by
  let rendering := machine.rendering ∅ style address
  have names := rendering.names_case (isWord_words .af (by decide))
  have quote : (rendering.case "\x27").toList = ['\x27'] := by
    unfold Rendering.case
    split <;> rfl
  refine ⟨_, restores_plain (by rw [mode]; rfl) (operand_implied (by rw [mode]; rfl))
    (parses_alternate names) ?_ rfl rfl (by decide) (by rw [mode]; decide)⟩
  rw [mode, ← quote, ← toList_case_append]
  rfl

theorem restores_pointer {reg : Reg} (points : pointer? r.slot.mode = some reg) :
    ∃ q, Restores r (machine.rendering ∅ style address) q := by
  let rendering := machine.rendering ∅ style address
  obtain ⟨implied, plain, member, mode, found, other, form⟩ : shape r.slot.mode = .implied ∧
      isPlain r.slot.mode = true ∧ reg ∈ words ∧ ∃ mode, indirect? reg = some mode ∧
        ¬(mode = .indIx ∨ mode = .indIy) ∧ mode ∈ written r.slot.mode := by
    revert points
    cases r.slot.mode <;> simp only [pointer?, reduceCtorEq, Option.some.injEq, false_imp_iff] <;>
      rintro rfl <;> exact ⟨rfl, rfl, by decide, _, rfl, by decide, by decide⟩
  have names := rendering.names_case (isWord_words reg member)
  refine ⟨_, restores_plain plain (operand_implied implied) (parses_memory member names found other)
    ?_ rfl rfl (show (0 : Int) < 0x10000 by decide) form⟩
  rw [← toList_case_paren]
  revert points
  cases r.slot.mode <;> simp only [pointer?, reduceCtorEq, Option.some.injEq, false_imp_iff] <;>
    rintro rfl <;> rfl

/-- A displacement is written with its sign, and not at all if it is zero. -/
theorem exists_displaces (r : Rendering) (name : String) {v : Int} (low : -0x80 ≤ v)
    (high : v < 0x80) : ∃ tail,
      (formatIndexed r name v).toList = '(' :: (r.case name).toList ++ tail ++ [')'] ∧
        Displaces r.scope tail v := by
  unfold formatIndexed
  split
  next zero => exact ⟨[], by simp, .inl ⟨rfl, zero⟩⟩
  · split
    next negative =>
      have text : (r.num v).toList = '-' :: (r.num (-v)).toList := by
        rw [Rendering.num, Dialect.signed_neg _ negative]
        simp [Rendering.num]
      refine ⟨'-' :: (r.num (-v)).toList, by simp, .inr ⟨.inr rfl, ?_, low, high⟩⟩
      rw [← text]
      exact r.evals_num (by omega) (by omega)
    next positive =>
      have reads := r.scope.reads_plus (i := v) (by omega) (by simp only [Literal.limit]; omega)
      exact ⟨'+' :: (r.num v).toList, by simp,
        .inr ⟨.inl rfl, reads.evals (by simp) (by omega) (by omega), low, high⟩⟩

/-- The index register of a slot, and the mode in which memory at it is written. -/
def indexed? : Mode → Option (Reg × Mode)
  | .idxIx | .jpIx => some (.ix, .indIx)
  | .idxIy | .jpIy => some (.iy, .indIy)
  | _ => none

theorem restores_indexed {reg : Reg} {mode : Mode} (indexed : indexed? r.slot.mode = some (reg, mode))
    {op : Operand Mode Reg} (found : r.operand = some op) (kind : op.mode = r.slot.mode)
    (low : -0x80 ≤ op.value) (high : op.value < 0x80) :
    ∃ q, Restores r (machine.rendering ∅ style address) q := by
  let rendering := machine.rendering ∅ style address
  obtain ⟨plain, member, points, index, form, shown⟩ : isPlain r.slot.mode = true ∧ reg ∈ words ∧
      indirect? reg = some mode ∧ (mode = .indIx ∨ mode = .indIy) ∧ mode ∈ written r.slot.mode ∧
        formatOperand rendering op = formatIndexed rendering reg.name op.value := by
    revert indexed
    simp only [formatOperand, kind]
    cases r.slot.mode <;> simp only [indexed?, reduceCtorEq, Option.some.injEq, Prod.mk.injEq,
      false_imp_iff, and_imp] <;> rintro rfl rfl <;>
      exact ⟨rfl, by decide, rfl, by decide, by decide, rfl⟩
  obtain ⟨tail, text, displaces⟩ := exists_displaces rendering reg.name low high
  have names := rendering.names_case (isWord_words reg member)
  have small : op.value < 0x10000 := by omega
  exact ⟨_, restores_plain plain found (parses_indexed member names points index displaces)
    (by rw [shown, text]) rfl rfl small form⟩

theorem restores_displaced (mode : r.slot.mode = .idxIx ∨ r.slot.mode = .idxIy)
    (bare : r.slot.width = 0) (clean : r.stop.fault = none) :
    ∃ q, Restores r (machine.rendering ∅ style address) q := by
  have shaped : machine.shape r.slot.mode = .indexed .byte true := by
    rcases mode with mode | mode <;> rw [mode] <;> rfl
  obtain ⟨op, byte, found, kind, value⟩ := Machine.exists_disp_of_clean shaped bare clean
  have inside := fitsSigned_signExtend byte.toNat (show 0 < 8 by decide)
  rw [if_pos rfl] at value
  rw [← value, fitsSigned_iff] at inside
  obtain ⟨low, high⟩ : -0x80 ≤ op.value ∧ op.value < 0x80 := inside
  rcases mode with mode | mode
  · exact restores_indexed style address (by rw [mode]; rfl) found kind low high
  · exact restores_indexed style address (by rw [mode]; rfl) found kind low high

theorem restores_jump (mode : r.slot.mode = .jpIx ∨ r.slot.mode = .jpIy) :
    ∃ q, Restores r (machine.rendering ∅ style address) q := by
  rcases mode with mode | mode
  · exact restores_indexed style address (by rw [mode]; rfl)
      (operand_implied (by rw [mode]; rfl)) rfl (by simp) (by simp)
  · exact restores_indexed style address (by rw [mode]; rfl)
      (operand_implied (by rw [mode]; rfl)) rfl (by simp) (by simp)

theorem restores_immediate {n : Nat}
    (mode : r.slot.mode = .imm8 ∧ n = 1 ∨ r.slot.mode = .imm16 ∧ n = 2)
    (clean : r.stop.fault = none) :
    ∃ q, Restores r (machine.rendering ∅ style address) q := by
  let rendering := machine.rendering ∅ style address
  obtain ⟨width, sized, shaped, short⟩ : ∃ width : Width, width.bytes? entry.size = some n ∧
      machine.shape r.slot.mode = .immediate width ∧ n ≤ 2 := by
    rcases mode with ⟨mode, rfl⟩ | ⟨mode, rfl⟩
    · exact ⟨.byte, rfl, congrArg shape mode, by decide⟩
    · exact ⟨.word, rfl, congrArg shape mode, by decide⟩
  obtain ⟨op, found, kind, -, -, small, same⟩ :=
    Machine.exists_short_of_clean sized short (.inl shaped) clean
  have denotes := rendering.denotes_imm op.value n
  rw [same] at denotes
  have parses := parses_number rfl denotes
  have form : .imm ∈ written r.slot.mode := by
    rcases mode with ⟨mode, -⟩ | ⟨mode, -⟩ <;> rw [mode] <;> decide
  refine ⟨_, restores_plain ?_ found parses ?_ rfl rfl small form⟩ <;>
    rcases mode with ⟨mode, rfl⟩ | ⟨mode, rfl⟩ <;> simp only [mode, formatOperand, kind] <;> rfl

theorem restores_place (mode : r.slot.mode = .addr) (clean : r.stop.fault = none) :
    ∃ q, Restores r (machine.rendering ∅ style address) q := by
  let rendering := machine.rendering ∅ style address
  obtain ⟨op, found, kind, low, -, small, -⟩ :=
    Machine.exists_short_of_clean rfl (by decide) (.inr (congrArg shape mode)) clean
  have parses := parses_number rfl (rendering.denotes_place rfl low (by omega))
  have form : .imm ∈ written r.slot.mode := by
    rw [mode]
    decide
  exact ⟨_, restores_plain (by rw [mode]; rfl) found parses
    (by simp only [formatOperand, kind, mode]; rfl) rfl rfl small form⟩

theorem toList_paren (text : String) : ("(" ++ text ++ ")").toList = '(' :: text.toList ++ [')'] := by
  simp

theorem restores_memory (mode : r.slot.mode = .abs16) (clean : r.stop.fault = none) :
    ∃ q, Restores r (machine.rendering ∅ style address) q := by
  let rendering := machine.rendering ∅ style address
  obtain ⟨op, found, kind, low, -, small, -⟩ :=
    Machine.exists_short_of_clean rfl (by decide) (.inr (congrArg shape mode)) clean
  have parses := parses_address rfl (rendering.denotes_place rfl low (by omega))
  have form : .indAbs ∈ written r.slot.mode := by
    rw [mode]
    decide
  exact ⟨_, restores_plain (by rw [mode]; rfl) found parses
    (by simp only [formatOperand, kind, mode, toList_paren]; rfl) rfl rfl small form⟩

theorem restores_port (mode : r.slot.mode = .port) (clean : r.stop.fault = none) :
    ∃ q, Restores r (machine.rendering ∅ style address) q := by
  let rendering := machine.rendering ∅ style address
  obtain ⟨op, found, kind, -, -, small, same⟩ :=
    Machine.exists_short_of_clean rfl (by decide) (.inr (congrArg shape mode)) clean
  have denotes := rendering.denotes_imm op.value 1
  rw [same] at denotes
  have parses := parses_address rfl denotes
  have form : .indAbs ∈ written r.slot.mode := by
    rw [mode]
    decide
  exact ⟨_, restores_plain (by rw [mode]; rfl) found parses
    (by simp only [formatOperand, kind, mode, toList_paren]; rfl) rfl rfl small form⟩

theorem restores_bit (mode : r.slot.mode = .bit) (width : r.slot.width = 3) :
    ∃ q, Restores r (machine.rendering ∅ style address) q := by
  let rendering := machine.rendering ∅ style address
  have found : r.operand = _ :=
    congrArg Prod.fst (Machine.decodeOperand_bit r.index (congrArg shape mode))
  have bound : r.slot.read r.start.opcode < 8 := by
    have bound := r.slot.read_lt r.start.opcode
    rwa [width] at bound
  have small : (r.slot.read r.start.opcode : Int) < 0x10000 := by omega
  have denotes := rendering.denotes_decimal (n := r.slot.read r.start.opcode) (by omega)
  have form : .imm ∈ written r.slot.mode := by
    rw [mode]
    decide
  exact ⟨_, restores_plain (by rw [mode]; rfl) found (parses_number rfl denotes)
    (by simp only [formatOperand, mode, decimalInt_natCast]) rfl rfl small form⟩

/-- A target inside the address space is written so that it leads back to the same byte. -/
theorem restores_branch (mode : r.slot.mode = .rel) (clean : r.stop.fault = none)
    (configured : r.start.config = config)
    (near : ∀ byte tail, r.start.rest = byte :: tail →
      0 ≤ r.stop.base + signExtend byte.toNat 8 ∧
        r.stop.base + signExtend byte.toNat 8 < 0x10000) :
    ∃ q, Restores r (machine.rendering ∅ style address) q := by
  let rendering := machine.rendering ∅ style address
  obtain ⟨op, byte, tail, ahead, -, found, kind, value⟩ :=
    Machine.exists_target_of_clean (congrArg shape mode) clean
  obtain ⟨low, high⟩ := near byte tail ahead
  have target : op.value = r.stop.base + signExtend byte.toNat 8 := by
    rw [value, configured]
    exact Int.emod_eq_of_lt low high
  have inside : fitsSigned (op.value - r.stop.base) 8 = true := by
    rw [target, add_sub_cancel_left]
    exact fitsSigned_signExtend _ (by decide)
  rw [← target] at low high
  have parses := parses_number rfl (rendering.denotes_target rfl low (by omega))
  have form : .imm ∈ written r.slot.mode := by
    rw [mode]
    decide
  exact ⟨_, restores_of_parses found parses (by simp only [formatOperand, kind, mode]; rfl) rfl rfl
    high form (by simp [mode, shape]) (fun _ => inside) (by simp [mode, shape]) (by simp [mode])⟩

/-- The operand that a register field stands for is written as memory at HL or by a name. -/
def RegisterReturns (category : Mode) (field : Nat) (op : Operand Mode Reg) : Prop :=
  op = { mode := .indHl, column := 0 } ∧ .indHl ∈ written category ∧
      registerField category op = .ok field ∨
    ∃ reg ∈ words,
      (op = { mode := reg.mode, reg := some reg, column := 0 } ∨
        op = { mode := .cc, reg := some reg, column := 0 }) ∧
      reg.mode ∈ written category ∧
      registerField category { mode := reg.mode, reg := some reg, column := 0 } = .ok field ∧
      (category = .pair → reg.mode = .regHl → field = 2)

/-- The categories of slots with a register field. -/
def registerCategories : List Mode :=
  [.reg8, .reg8M, .pair, .pairAf, .pairIx, .pairIy, .cond, .condJr]

theorem mem_registerCategories {category : Mode} (shaped : shape category = .register) :
    category ∈ registerCategories := by
  revert shaped
  cases category <;> simp [shape, registerCategories]

theorem registerReturns : ∀ category ∈ registerCategories, ∀ field < twoPow (fieldWidth category),
    ∀ op ∈ registerOperand category field, RegisterReturns category field op := by
  unfold RegisterReturns
  decide

theorem formatOperand_named (r : Rendering) (reg : Reg) :
    formatOperand r { mode := reg.mode, reg := some reg, column := 0 } = r.case reg.name := by
  cases reg <;> rfl

theorem restores_register (shaped : shape r.slot.mode = .register)
    (width : r.slot.width = fieldWidth r.slot.mode) (clean : r.stop.fault = none) :
    ∃ q, Restores r (machine.rendering ∅ style address) q := by
  let rendering := machine.rendering ∅ style address
  have bound := r.slot.read_lt r.start.opcode
  rw [width] at bound
  obtain ⟨op, stands⟩ := Machine.exists_register_of_clean shaped clean
  have found : r.operand = _ :=
    congrArg Prod.fst (Machine.decodeOperand_register r.index shaped stands)
  have straight : r.slot.mode ≠ .rel := by
    intro mode
    simp [mode, shape] at shaped
  rcases registerReturns _ (mem_registerCategories shaped) _ bound _ stands with ⟨rfl, form, back⟩ | ⟨reg, member, kind, form, back, pair⟩
  · have names := rendering.names_case (isWord_words .hl (by decide))
    refine ⟨_, restores_of_parses found (parses_memory (by decide) names rfl (by decide)) ?_ rfl rfl
      (by decide) form (fun _ => back) (absurd · straight) (by simp [shaped]) (by simp)⟩
    rw [← toList_case_paren]
    rfl
  · have names := rendering.names_case (isWord_words reg member)
    refine ⟨_, restores_of_parses found (parses_register member names) ?_ rfl ?_ (by simp) form
      (fun _ => back) (absurd · straight) (by simp [shaped]) pair⟩
    · rcases kind with rfl | rfl
      · rw [formatOperand_named]
      · rfl
    · rcases kind with rfl | rfl <;> rfl

/-- A restart vector or an interrupt mode whose number leads back to its field. -/
theorem restores_custom {rendering : Rendering} {op : Operand Mode Reg} {text : List Char}
    (shaped : machine.shape r.slot.mode = .custom) (form : .imm ∈ written r.slot.mode)
    (word : r.slot.width ≤ 32)
    (decoded : decodeCustom entry r.slot r.index r.start = (some op, r.start))
    (intel : rendering.scope.dialect = .intel) (denotes : rendering.scope.Denotes text op.value)
    (shown : (formatOperand rendering op).toList = text) (small : op.value < 0x10000)
    (back : ∀ column, customField r.slot.mode { mode := .imm, value := op.value, column } =
      .ok (r.slot.read r.start.opcode)) : ∃ q, Restores r rendering q := by
  have read : machine.decodeOperand entry r.slot r.index r.start = (some op, r.start) := by
    simp only [Machine.decodeOperand, shaped]
    exact decoded
  have found : r.operand = some op := congrArg Prod.fst read
  have still : r.stop = r.start := congrArg Prod.snd read
  have parses := parses_number intel denotes
  refine ⟨_, restores_of_parses found parses shown rfl rfl small form ?_ ?_ ?_ ?_⟩
  · intro register
    exact absurd (shaped.symm.trans register) (by decide)
  · intro mode
    rw [mode] at shaped
    exact absurd shaped (by decide)
  · intro _ column base
    refine ⟨{ field := BitVec.ofInt 32 (r.slot.read r.start.opcode) }, ?_,
      Reading.takes_field still (r.slot.place_ofInt word rfl)⟩
    intro d _ _
    simp only [Machine.encodeOperand, shaped]
    simp only [machine, encodeCustom, back column, Draft.embed_eq_lay]
  · intro mode
    rw [mode] at shaped
    exact absurd shaped (by decide)

theorem restores_restart (mode : r.slot.mode = .rst) (width : r.slot.width = 3) :
    ∃ q, Restores r (machine.rendering ∅ style address) q := by
  let rendering := machine.rendering ∅ style address
  have bound : r.slot.read r.start.opcode < 8 := by
    have bound := r.slot.read_lt r.start.opcode
    rwa [width] at bound
  have decoded : decodeCustom entry r.slot r.index r.start =
      (some { mode := .rst, value := 8 * r.slot.read r.start.opcode, column := 0 }, r.start) := by
    simp only [decodeCustom, mode, if_true]
  have denotes := rendering.denotes_imm (8 * r.slot.read r.start.opcode) 1
  have same : (8 * r.slot.read r.start.opcode : Int) % twoPow (min (8 * 1) 32) =
      8 * r.slot.read r.start.opcode := Int.emod_eq_of_lt (by omega) (by
        change _ < (256 : Int)
        omega)
  rw [same] at denotes
  have form : .imm ∈ written r.slot.mode := by
    rw [mode]
    decide
  refine restores_custom (congrArg shape mode) form (by omega) decoded rfl denotes rfl ?_ ?_
  · change (8 * r.slot.read r.start.opcode : Int) < 0x10000
    omega
  · intro column
    have vector : 0 ≤ (8 * r.slot.read r.start.opcode : Int) ∧
        (8 * r.slot.read r.start.opcode : Int) ≤ 0x38 ∧
        (8 * r.slot.read r.start.opcode : Int) % 8 = 0 := by omega
    have field : (8 * r.slot.read r.start.opcode : Int) / 8 = r.slot.read r.start.opcode := by omega
    simp only [customField, mode, if_true, vector, field]
    rfl

/-- The field of an interrupt mode that there is, and the number of the mode. -/
theorem restores_interrupt (mode : r.slot.mode = .imMode) (width : r.slot.width = 2)
    (clean : r.stop.fault = none) :
    ∃ q, Restores r (machine.rendering ∅ style address) q := by
  let rendering := machine.rendering ∅ style address
  have bound : r.slot.read r.start.opcode < 4 := by
    have bound := r.slot.read_lt r.start.opcode
    rwa [width] at bound
  have form : .imm ∈ written r.slot.mode := by
    rw [mode]
    decide
  have shaped : machine.shape r.slot.mode = .custom := congrArg shape mode
  have stop : r.stop = (decodeCustom entry r.slot r.index r.start).2 := by
    simp only [Reading.stop, Machine.decodeOperand, shaped]
    rfl
  obtain ⟨n, decoded, small, back⟩ : ∃ n : Nat,
      decodeCustom entry r.slot r.index r.start =
        (some { mode := .imMode, value := n, column := 0 }, r.start) ∧ n < 3 ∧
      ∀ column, customField .imMode { mode := .imm, value := n, column } =
        .ok (r.slot.read r.start.opcode) := by
    rw [stop] at clean
    simp only [decodeCustom, mode, reduceCtorEq, if_false] at clean ⊢
    generalize r.slot.read r.start.opcode = field at bound clean ⊢
    interval_cases field
    · exact ⟨0, rfl, by decide, fun _ => rfl⟩
    · exact absurd clean (Decoding.fail_fault_ne_none _ _)
    · exact ⟨1, rfl, by decide, fun _ => rfl⟩
    · exact ⟨2, rfl, by decide, fun _ => rfl⟩
  have denotes := rendering.denotes_decimal (n := n) (by omega)
  refine restores_custom shaped form (by omega) decoded rfl denotes ?_ ?_ (mode ▸ back)
  · simp only [formatOperand, decimalInt_natCast]
  · change (n : Int) < 0x10000
    omega

end Reading

end CrossAsm.Z80
