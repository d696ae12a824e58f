import CrossAsm.Proofs.Extent
import CrossAsm.Proofs.Ladder
import CrossAsm.Target.Trial

/-! Encoding and decoding of operands are inverse to each other where a target leaves them to the
shapes of its slots. Each operand that is laid down without a fault is read back from its field in
the opcode and its bytes outside of it, and the operands of an entry one after the other. -/

namespace CrossAsm

variable {Mode Reg : Type} {m : Machine Mode Reg} {entry : Entry Mode} {slot : Slot Mode}

/-- The bytes a piece has in a stage when every extension has a size of its own. -/
def Piece.shown (p : Piece) (config : Config) (base : Int) (size : Extension → Nat)
    (stage : Stage) : List UInt8 :=
  Extension.shown config base size stage p.extensions

/-- The state after the next `n` bytes, with these bytes left in the gap. -/
def Decoding.beyond (d : Decoding) (n : Nat) (free : List UInt8) : Decoding :=
  { d.past n with gapBytes := free }

theorem Decoding.beyond_self (d : Decoding) : d.beyond 0 d.gapBytes = d := by
  simp [beyond]

theorem Decoding.beyond_beyond (d : Decoding) (n k : Nat) (free less : List UInt8) :
    (d.beyond n free).beyond k less = d.beyond (n + k) less := by
  simp [beyond, past, List.take_add, List.append_assoc]

/-- What is left in the gap does not move the place displacements are measured from. -/
theorem Decoding.base_past_beyond (d : Decoding) (n k : Nat) (free : List UInt8) :
    ((d.beyond n free).past k).base = (d.past (n + k)).base := by
  rw [← d.past_past]
  rfl

namespace Machine

/-- Is the operand of the slot measured from the instruction? -/
def measured (m : Machine Mode Reg) (slot : Slot Mode) : Bool :=
  match m.shape slot.mode with
  | .relative _ | .ladder true => true
  | _ => false

/-- Does the operand of the slot have bytes outside the opcode? -/
def extended (m : Machine Mode Reg) (slot : Slot Mode) : Bool :=
  match m.shape slot.mode with
  | .implied | .register | .embedded _ | .bit => false
  | _ => true

/-- What comes back from a slot: an operand of the same register field, and the same number as far
as the slot keeps it. Immediates are kept up to the bytes they have, targets up to the address
space; an indexed operand keeps the register alone. -/
def Recovered (m : Machine Mode Reg) (entry : Entry Mode) (slot : Slot Mode)
    (op back : Operand Mode Reg) : Prop :=
  match m.shape slot.mode with
  | .implied => back.mode = slot.mode
  | .register => m.registerField slot.mode back = m.registerField slot.mode op
  | .embedded _ | .bit | .absolute _ | .ladder false =>
    back.mode = slot.mode ∧ back.value = op.value
  | .immediate width => back.mode = slot.mode ∧
      ∃ n, width.bytes? entry.size = some n ∧ back.value = op.value % twoPow (8 * n)
  | .relative _ | .ladder true => back.mode = slot.mode ∧ back.value = m.config.wrap op.value
  | .indexed _ _ => back.mode = slot.mode ∧ back.value = op.value ∧ (0 < slot.width →
      ∃ r, m.registerField slot.mode r = m.registerField slot.mode op ∧ back.reg = r.reg)
  | .custom => False

/-- What comes back from a slot when displacements are read from a place `shift` cells away from where
they were measured from: the targets are that far away. -/
def Returned (m : Machine Mode Reg) (entry : Entry Mode) (slot : Slot Mode)
    (op : Operand Mode Reg) (shift : Int) (back : Operand Mode Reg) : Prop :=
  m.Recovered entry slot
    { op with value := if m.measured slot then op.value + shift else op.value } back

theorem returned_iff {op back : Operand Mode Reg} {shift : Int}
    (still : m.measured slot = true → shift = 0) :
    m.Returned entry slot op shift back ↔ m.Recovered entry slot op back := by
  cases free : m.measured slot with
  | true => simp [Returned, still free]
  | false => simp [Returned, free]

/-- A register field stands for an operand that has it again. -/
def Inverts (m : Machine Mode Reg) (slot : Slot Mode) : Prop :=
  ∀ op field, m.registerField slot.mode op = .ok field → field < twoPow slot.width ∧
    ∃ r, m.registerOperand slot.mode field = some r ∧ m.registerField slot.mode r = .ok field

/-- Where the piece's field is in the opcode and its bytes are in the gap and ahead, an operand is
read and just these bytes are passed. -/
def Yields (m : Machine Mode Reg) (base : Int) (size : Extension → Nat)
    (Q : Operand Mode Reg → Prop) (entry : Entry Mode) (slot : Slot Mode) (room : Nat)
    (piece : Piece) : Prop :=
  ∀ (d : Decoding) (free more : List UInt8), d.config = m.config →
    slot.read d.opcode = piece.field.toNat % twoPow slot.width →
    d.gapBytes = piece.shown m.config base size .gap ++ free → (room = 0 → d.gapBytes = []) →
    d.rest = piece.shown m.config base size .payload ++ more →
    ∃ back, m.decodeOperand entry slot (piece.shown m.config base size .index).head? d =
        (some back, d.beyond (piece.shown m.config base size .payload).length free) ∧
      ((m.measured slot = true →
        (d.past (piece.shown m.config base size .payload).length).base = base) → Q back)

/-- As `Yields`, wherever the operand is measured from: the distance to `base` is told as well. -/
def YieldsFrom (m : Machine Mode Reg) (base : Int) (size : Extension → Nat)
    (Q : Int → Operand Mode Reg → Prop) (entry : Entry Mode) (slot : Slot Mode) (room : Nat)
    (piece : Piece) : Prop :=
  ∀ (d : Decoding) (free more : List UInt8), d.config = m.config →
    slot.read d.opcode = piece.field.toNat % twoPow slot.width →
    d.gapBytes = piece.shown m.config base size .gap ++ free → (room = 0 → d.gapBytes = []) →
    d.rest = piece.shown m.config base size .payload ++ more →
    ∃ back, m.decodeOperand entry slot (piece.shown m.config base size .index).head? d =
        (some back, d.beyond (piece.shown m.config base size .payload).length free) ∧
      Q ((d.past (piece.shown m.config base size .payload).length).base - base) back

/-- Without a fault so far, the piece stands where the slot asks for, and the operand comes back
from it if its bytes are in order. -/
structure Bears (m : Machine Mode Reg) (base : Int) (size : Extension → Nat) (entry : Entry Mode)
    (slot : Slot Mode) (op : Operand Mode Reg) (room : Nat) (piece : Piece)
    (cause : Option Cause) : Prop where
  quiet : cause = none
  plain : m.extended slot = false → piece.extensions = []
  outside : piece.shown m.config base size .index = []
  gaps : piece.gaps = if m.inGap slot && decide (0 < room) then 1 else 0
  gapped : (piece.shown m.config base size .gap).length =
    if m.inGap slot && decide (0 < room) then m.span (fun _ => 0) entry slot else 0
  narrow : ∀ e ∈ piece.extensions, e.narrow = true
  returns : (∀ e ∈ piece.extensions, (e.render m.config base (size e)).2 = none) →
    m.YieldsFrom base size (m.Returned entry slot op) entry slot room piece

/-- Measured from where it was laid down for, the operand comes back as it was written. -/
theorem Bears.yields {base : Int} {size : Extension → Nat} {op : Operand Mode Reg} {room : Nat}
    {piece : Piece} {cause : Option Cause} (bears : m.Bears base size entry slot op room piece cause)
    (clean : ∀ e ∈ piece.extensions, (e.render m.config base (size e)).2 = none) :
    m.Yields base size (m.Recovered entry slot op) entry slot room piece := by
  intro d free more config read gap roomless ahead
  obtain ⟨back, decoded, returned⟩ :=
    bears.returns clean d free more config read gap roomless ahead
  refine ⟨back, decoded, fun settled => (returned_iff fun measured => ?_).mp returned⟩
  exact Int.sub_eq_zero.mpr (settled measured)

/-! ### One operand -/

theorem Width.bytes?_pos {width : Width} {size : Size} {n : Nat}
    (sized : width.bytes? size = some n) : 0 < n := by
  cases width <;> cases size <;> simp_all [Width.bytes?] <;> omega

theorem measured_of_not_extended (inside : m.extended slot = false) : m.measured slot = false := by
  unfold extended at inside
  unfold measured
  cases shape : m.shape slot.mode <;> simp_all

theorem inGap_of_not_extended (inside : m.extended slot = false) : m.inGap slot = false := by
  unfold extended at inside
  unfold inGap
  cases shape : m.shape slot.mode <;> simp_all

section Bears

variable {base : Int} {size : Extension → Nat} {op : Operand Mode Reg} {room : Nat}

theorem toNat_ofNat_mod {n width : Nat} (word : width ≤ 32) (small : n < twoPow width) :
    (BitVec.ofNat 32 n).toNat % twoPow width = n := by
  have below : twoPow width ≤ 0x100000000 := twoPow_le (n := 32) word
  have whole : n % 0x100000000 = n := Nat.mod_eq_of_lt (by omega)
  rw [BitVec.toNat_ofNat]
  exact (congrArg (· % twoPow width) whole).trans (Nat.mod_eq_of_lt small)

theorem toNat_ofInt_mod (v : Int) {width : Nat} (word : width ≤ 32) :
    (((BitVec.ofInt 32 v).toNat % twoPow width : Nat) : Int) = v % twoPow width := by
  have divides : (twoPow width : Int) ∣ 0x100000000 := by
    rw [twoPow_eq]
    exact Int.natCast_dvd_natCast.mpr (Nat.pow_dvd_pow 2 word)
  have whole : (((v % 0x100000000).toNat : Nat) : Int) = v % 0x100000000 :=
    Int.toNat_of_nonneg (Int.emod_nonneg v (by decide))
  rw [BitVec.toNat_ofInt, Int.natCast_emod]
  exact (congrArg (· % (twoPow width : Int)) whole).trans (Int.emod_emod_of_dvd v divides)

/-- A number behind the opcode is read back up to the bytes it has. -/
theorem decodeOperand_put {width : Width} {n : Nat} {v : Int} {d : Decoding} {more : List UInt8}
    {index : Option UInt8}
    (shape : m.shape slot.mode = .immediate width ∨ m.shape slot.mode = .absolute width)
    (sized : width.bytes? entry.size = some n) (config : d.config = m.config)
    (ahead : d.rest = m.config.endian.put n v ++ more) :
    m.decodeOperand entry slot index d =
      (some { mode := slot.mode, value := v % twoPow (8 * n), column := d.bytes.length },
        d.past (m.config.endian.put n v).length) := by
  have short := Width.bytes?_le sized
  have length : (m.config.endian.put n v).length = n := by simp [short]
  rw [decodeOperand_number index shape sized (by rw [ahead, List.length_append]; omega), config,
    ahead, List.take_left' length, m.config.endian.number_put v short, length]

/-- An operand that has only a field in the opcode. -/
theorem bears_field {field : BitVec 32} (inside : m.extended slot = false)
    (reads : ∀ (d : Decoding) (index : Option UInt8),
      slot.read d.opcode = field.toNat % twoPow slot.width →
      ∃ back, m.decodeOperand entry slot index d = (some back, d) ∧ m.Recovered entry slot op back) :
    m.Bears base size entry slot op room { field } none where
  quiet := rfl
  plain _ := rfl
  outside := rfl
  gaps := by simp [inGap_of_not_extended inside, Piece.gaps]
  gapped := by simp [inGap_of_not_extended inside, Piece.shown]
  narrow := by simp
  returns _ d free more _ read gap _ _ := by
    obtain ⟨back, decoded, recovered⟩ := reads d none read
    obtain rfl : d.gapBytes = free := gap
    refine ⟨back, decoded.trans (congrArg _ d.beyond_self.symm), (returned_iff ?_).mpr recovered⟩
    simp [measured_of_not_extended inside]

/-- An operand with bytes behind the opcode. -/
theorem bears_payload {field : BitVec 32} {content : Field} {column : Nat}
    (outside : m.extended slot = true) (ungapped : (m.inGap slot && decide (0 < room)) = false)
    (narrow : Extension.narrow ⟨.payload, content, column⟩ = true)
    (reads : ∀ chunk, (Extension.render m.config base ⟨.payload, content, column⟩
        (size ⟨.payload, content, column⟩)) = (chunk, none) →
      ∀ (d : Decoding) (more : List UInt8), d.config = m.config →
      slot.read d.opcode = field.toNat % twoPow slot.width → (room = 0 → d.gapBytes = []) →
      d.rest = chunk ++ more →
      ∃ back, m.decodeOperand entry slot none d = (some back, d.past chunk.length) ∧
        m.Returned entry slot op ((d.past chunk.length).base - base) back) :
    m.Bears base size entry slot op room
      { field, extensions := [⟨.payload, content, column⟩] } none where
  quiet := rfl
  plain inside := by simp [inside] at outside
  outside := by simp [Piece.shown, Extension.shown_singleton]
  gaps := by simp [ungapped, Piece.gaps]
  gapped := by simp [ungapped, Piece.shown, Extension.shown_singleton]
  narrow := by simpa using narrow
  returns clean d free more config read gap roomless ahead := by
    simp only [Piece.shown, Extension.shown_singleton, reduceCtorEq, if_true, if_false,
      List.nil_append, List.head?_nil] at gap ahead ⊢
    have fine : (Extension.render m.config base ⟨.payload, content, column⟩
        (size ⟨.payload, content, column⟩)).2 = none := clean _ (by simp)
    obtain ⟨back, decoded, recovered⟩ := reads _ (Prod.ext rfl fine) d more config read roomless ahead
    refine ⟨back, ?_, recovered⟩
    rw [decoded, ← gap]
    rfl

theorem fits_of_encodeEmbedded {fits : Bool} {cause : Cause} {d next : Draft}
    (known : op.undefined = false) (run : encodeEmbedded slot op fits cause d = (next, none)) :
    fits = true ∧ next = d.lay slot (BitVec.ofInt 32 op.value) [] := by
  cases fits with
  | true =>
    simp only [encodeEmbedded, Bool.or_true, if_true, d.embed_eq_lay, Prod.mk.injEq, and_true] at run
    exact ⟨rfl, run.symm⟩
  | false => simp [encodeEmbedded, known] at run

theorem fits_of_encodeNumber {stage : Stage} {n : Nat} {fits : Bool} {d next : Draft}
    (known : op.undefined = false) (run : encodeNumber stage op n fits d = (next, none)) :
    fits = true ∧ next = d.emit stage op.value n op.column := by
  cases fits with
  | true =>
    simp only [encodeNumber, Bool.or_true, if_true, Prod.mk.injEq, and_true] at run
    exact ⟨rfl, run.symm⟩
  | false => simp [encodeNumber, known] at run

/-- A displacement is read back wherever it stands, with the register in the opcode. -/
theorem decodeOperand_disp {disp : Width} {signed : Bool} {n : Nat} {state : Decoding}
    {index : Option UInt8} {reg : Option Reg} {stop : Decoding} {number : Nat}
    (shape : m.shape slot.mode = .indexed disp signed) (sized : disp.bytes? entry.size = some n)
    (named : if 0 < slot.width then
        ∃ r, m.registerOperand slot.mode (slot.read state.opcode) = some r ∧ r.reg = reg
      else reg = none)
    (read : state.readDisp n = (number, stop))
    (kept : (number : Int) = op.value % twoPow (8 * n))
    (fits : (if signed then fitsSigned op.value (8 * n) else fitsUnsigned op.value (8 * n)) = true) :
    m.decodeOperand entry slot index state =
      (some { mode := slot.mode, reg, value := op.value, column := state.bytes.length }, stop) := by
  have short := Width.bytes?_le sized
  have positive := Width.bytes?_pos sized
  have value : (if signed then signExtend number (8 * n) else (number : Int)) = op.value := by
    cases signed with
    | true =>
      apply signExtend_of_fitsSigned (by omega) fits
      rw [kept, Int.emod_emod_of_dvd _ (dvd_refl _)]
    | false =>
      obtain ⟨low, high⟩ := (fitsUnsigned_iff (by omega)).mp fits
      exact kept.trans (Int.emod_eq_of_lt low high)
  by_cases field : 0 < slot.width
  · rw [if_pos field] at named
    obtain ⟨r, known, rfl⟩ := named
    simp only [decodeOperand, shape, sized, if_pos field, known, read, value]
  · rw [if_neg field] at named
    simp only [decodeOperand, shape, sized, if_neg field, read, value, named]

section Shapes

variable {d next : Draft} (run : m.encodeOperand entry slot op d = (next, none))

include run

theorem exists_bears_register (word : slot.width ≤ 32) (inverts : m.Inverts slot)
    (shape : m.shape slot.mode = .register) :
    ∃ piece, next = d.lay slot piece.field piece.extensions ∧
      m.Bears base size entry slot op room piece none := by
  cases field : m.registerField slot.mode op with
  | error cause => simp [encodeOperand, shape, encodeRegister, field] at run
  | ok n =>
    obtain ⟨small, r, known, again⟩ := inverts op n field
    simp only [encodeOperand, shape, encodeRegister, field, d.embed_eq_lay, Prod.mk.injEq,
      and_true] at run
    refine ⟨{ field := BitVec.ofNat 32 n }, run.symm, bears_field (by simp [extended, shape]) ?_⟩
    intro state index read
    rw [toNat_ofNat_mod word small] at read
    refine ⟨r, decodeOperand_register index shape (read ▸ known), ?_⟩
    simp only [Recovered, shape, again, field]

theorem exists_bears_embedded (word : slot.width ≤ 32) (known : op.undefined = false)
    {signed : Bool} (wide : signed = true → 0 < slot.width)
    (shape : m.shape slot.mode = .embedded signed) :
    ∃ piece, next = d.lay slot piece.field piece.extensions ∧
      m.Bears base size entry slot op room piece none := by
  simp only [encodeOperand, shape] at run
  obtain ⟨fits, rfl⟩ := fits_of_encodeEmbedded known run
  refine ⟨{ field := BitVec.ofInt 32 op.value }, rfl, bears_field (by simp [extended, shape]) ?_⟩
  intro state index read
  have kept := toNat_ofInt_mod op.value word
  rw [← read] at kept
  refine ⟨_, decodeOperand_embedded index shape, ?_⟩
  simp only [Recovered, shape, true_and]
  cases signed with
  | true =>
    apply signExtend_of_fitsSigned (wide rfl) fits
    rw [kept, Int.emod_emod_of_dvd _ (dvd_refl _)]
  | false =>
    obtain ⟨low, high⟩ := (fitsUnsigned_iff (by omega)).mp fits
    exact kept.trans (Int.emod_eq_of_lt low high)

theorem exists_bears_bit (word : slot.width ≤ 32) (known : op.undefined = false)
    (shape : m.shape slot.mode = .bit) :
    ∃ piece, next = d.lay slot piece.field piece.extensions ∧
      m.Bears base size entry slot op room piece none := by
  simp only [encodeOperand, shape] at run
  obtain ⟨fits, rfl⟩ := fits_of_encodeEmbedded known run
  refine ⟨{ field := BitVec.ofInt 32 op.value }, rfl, bears_field (by simp [extended, shape]) ?_⟩
  intro state index read
  have kept := toNat_ofInt_mod op.value word
  rw [← read] at kept
  obtain ⟨low, high⟩ := (fitsUnsigned_iff (by omega)).mp fits
  refine ⟨_, decodeOperand_bit index shape, ?_⟩
  simp only [Recovered, shape, true_and]
  exact kept.trans (Int.emod_eq_of_lt low high)

theorem exists_bears_relative (known : op.undefined = false) {width : Width}
    (shape : m.shape slot.mode = .relative width) :
    ∃ piece, next = d.lay slot piece.field piece.extensions ∧
      m.Bears base size entry slot op room piece none := by
  cases sized : width.bytes? entry.size with
  | none => simp [encodeOperand, shape, sized] at run
  | some n =>
    have short := Width.bytes?_le sized
    have positive := Width.bytes?_pos sized
    simp only [encodeOperand, shape, sized, known, d.extend_eq_lay slot, Prod.mk.injEq, and_true]
      at run
    refine ⟨{ extensions := [⟨.payload, .relative op.value n false, op.column⟩] }, run.symm,
      bears_payload (by simp [extended, shape]) (by simp [inGap, shape]) (decide_eq_true short) ?_⟩
    intro chunk rendered state more same _ _ ahead
    simp only [Extension.render, Bool.false_eq_true, if_false, Prod.mk.injEq, ite_eq_left_iff,
      reduceCtorEq, imp_false, Bool.not_eq_true, Bool.not_eq_false] at rendered
    obtain ⟨rfl, fits⟩ := rendered
    have length : (m.config.endian.put n (op.value - base)).length = n := by simp [short]
    have number := m.config.endian.number_put (op.value - base) short
    have taken : state.rest.take n = m.config.endian.put n (op.value - base) := by
      rw [ahead, List.take_left' length]
    have enough : n ≤ state.rest.length := by
      rw [ahead, List.length_append, length]
      omega
    have delta : signExtend (m.config.endian.number (m.config.endian.put n (op.value - base)))
        (8 * n) = op.value - base := by
      apply signExtend_of_fitsSigned (by omega) fits
      rw [number, Int.emod_emod_of_dvd _ (dvd_refl _)]
    have read := state.readIn_eq state.config.endian enough short
    rw [taken, same] at read
    refine ⟨{ mode := slot.mode, value := (state.past n).target (op.value - base),
              column := state.bytes.length }, by
      simp only [decodeOperand, shape, sized, Decoding.read, same, read, delta, length], ?_⟩
    rw [length]
    simp only [Returned, Recovered, measured, shape, if_true, true_and, Decoding.target,
      Decoding.past_config, same]
    congr 1
    ring

theorem exists_bears_ladder (known : op.undefined = false) {relative : Bool}
    (good : Ladder.readable m.config.ladder = true) (shape : m.shape slot.mode = .ladder relative) :
    ∃ piece, next = d.lay slot piece.field piece.extensions ∧
      m.Bears base size entry slot op room piece none := by
  simp only [encodeOperand, shape, known, d.extend_eq_lay slot, Prod.mk.injEq, and_true] at run
  refine ⟨{ extensions := [⟨.payload, .ladder op.value relative op.force false, op.column⟩] },
    run.symm, bears_payload (by simp [extended, shape]) (by simp [inGap, shape]) rfl ?_⟩
  intro chunk rendered state more same _ _ ahead
  obtain ⟨rung, member, -, holds, encoded⟩ := Extension.exists_rung_of_clean
    (v := if relative then op.value - base else op.value) _ rfl (congrArg Prod.snd rendered)
  rw [rendered] at encoded
  obtain rfl := encoded
  have read := Decoding.readLadder_encode (same ▸ good) (same ▸ member) holds ahead
  cases relative with
  | true =>
    refine ⟨{ mode := slot.mode
              value := (state.past (rung.encode (op.value - base)).length).target (op.value - base)
              column := state.bytes.length }, by
      simp only [decodeOperand, shape, read, if_true], ?_⟩
    simp only [Returned, Recovered, measured, shape, if_true, true_and, Decoding.target,
      Decoding.past_config, same]
    congr 1
    ring
  | false =>
    refine ⟨{ mode := slot.mode, value := op.value, column := state.bytes.length }, by
      simp only [decodeOperand, shape, read, Bool.false_eq_true, if_false], ?_⟩
    rw [returned_iff (by simp [measured, shape])]
    simp only [Recovered, shape, true_and]

variable (config : d.config = m.config)

include config

theorem exists_bears_immediate (known : op.undefined = false) {width : Width}
    (shape : m.shape slot.mode = .immediate width) :
    ∃ piece, next = d.lay slot piece.field piece.extensions ∧
      m.Bears base size entry slot op room piece none := by
  cases sized : width.bytes? entry.size with
  | none => simp [encodeOperand, shape, sized] at run
  | some n =>
    simp only [encodeOperand, shape, sized] at run
    obtain ⟨-, rfl⟩ := fits_of_encodeNumber known run
    refine ⟨{ extensions := [⟨.payload, .number op.value n m.config.endian, op.column⟩] },
      by rw [Draft.emit, config, d.extend_eq_lay slot], bears_payload (by simp [extended, shape])
      (by simp [inGap, shape]) (decide_eq_true (Width.bytes?_le sized)) ?_⟩
    intro chunk rendered state more same _ _ ahead
    obtain rfl : m.config.endian.put n op.value = chunk := (Prod.mk.inj rendered).1
    refine ⟨_, decodeOperand_put (.inl shape) sized same ahead, ?_⟩
    rw [returned_iff (by simp [measured, shape])]
    simp only [Recovered, shape, true_and]
    exact ⟨n, sized, rfl⟩

theorem exists_bears_absolute (known : op.undefined = false) {width : Width}
    (shape : m.shape slot.mode = .absolute width) :
    ∃ piece, next = d.lay slot piece.field piece.extensions ∧
      m.Bears base size entry slot op room piece none := by
  cases sized : width.bytes? entry.size with
  | none => simp [encodeOperand, shape, sized] at run
  | some n =>
    have short := Width.bytes?_le sized
    simp only [encodeOperand, shape, sized, known, Bool.false_eq_true, if_false] at run
    obtain ⟨fits, rfl⟩ := fits_of_encodeNumber rfl run
    refine ⟨{ extensions := [⟨.payload, .number op.value n m.config.endian, op.column⟩] },
      by rw [Draft.emit, config, d.extend_eq_lay slot], bears_payload (by simp [extended, shape])
      (by simp [inGap, shape]) (decide_eq_true short) ?_⟩
    intro chunk rendered state more same _ _ ahead
    obtain rfl : m.config.endian.put n op.value = chunk := (Prod.mk.inj rendered).1
    refine ⟨_, decodeOperand_put (.inr shape) sized same ahead, ?_⟩
    rw [returned_iff (by simp [measured, shape])]
    obtain ⟨low, high⟩ := (fitsUnsigned_iff (by omega)).mp fits
    have narrower : twoPow (min (8 * n) d.config.addressBits) ≤ twoPow (8 * n) :=
      twoPow_le (Nat.min_le_left _ _)
    simp only [Recovered, shape, true_and]
    exact Int.emod_eq_of_lt low (by omega)

/-- An indexed operand has its register in the opcode and its displacement in the gap, where that
has room, or behind the opcode. -/
theorem exists_indexed (word : slot.width ≤ 32) (known : op.undefined = false)
    (inverts : 0 < slot.width → m.Inverts slot) {disp : Width} {signed : Bool}
    (shape : m.shape slot.mode = .indexed disp signed) :
    ∃ n field, disp.bytes? entry.size = some n ∧
      (if signed then fitsSigned op.value (8 * n) else fitsUnsigned op.value (8 * n)) = true ∧
      next = d.lay slot field [⟨if 0 < d.room then .gap else .payload,
        .number op.value n m.config.endian, op.column⟩] ∧
      ∃ reg, (0 < slot.width →
          ∃ r, m.registerField slot.mode r = m.registerField slot.mode op ∧ reg = r.reg) ∧
        ∀ opcode, slot.read opcode = field.toNat % twoPow slot.width →
          if 0 < slot.width then
            ∃ r, m.registerOperand slot.mode (slot.read opcode) = some r ∧ r.reg = reg
          else reg = none := by
  by_cases wide : 0 < slot.width
  · cases field : m.registerField slot.mode op with
    | error cause =>
      simp [encodeOperand, shape, if_pos wide, encodeRegister, field] at run
    | ok f =>
      obtain ⟨small, r, named, again⟩ := inverts wide op f field
      cases sized : disp.bytes? entry.size with
      | none => simp [encodeOperand, shape, if_pos wide, encodeRegister, field, sized] at run
      | some n =>
        simp only [encodeOperand, shape, if_pos wide, encodeRegister, field, sized,
          d.embed_eq_lay] at run
        obtain ⟨fits, rfl⟩ := fits_of_encodeNumber known run
        refine ⟨n, BitVec.ofNat 32 f, rfl, fits, ?_, r.reg, fun _ => ⟨r, again, rfl⟩, ?_⟩
        · simp [Draft.emit, Draft.extend, Draft.lay, Draft.dispStage_eq, Draft.room, config]
        · intro opcode read
          rw [if_pos wide, read, toNat_ofNat_mod word small]
          exact ⟨r, named, rfl⟩
  · cases sized : disp.bytes? entry.size with
    | none => simp [encodeOperand, shape, if_neg wide, sized] at run
    | some n =>
      simp only [encodeOperand, shape, if_neg wide, sized] at run
      obtain ⟨fits, rfl⟩ := fits_of_encodeNumber known run
      refine ⟨n, 0#32, rfl, fits, ?_, none, fun positive => absurd positive wide, ?_⟩
      · rw [Draft.emit, config, d.extend_eq_lay slot, Draft.dispStage_eq]
      · intro opcode _
        rw [if_neg wide]

theorem exists_bears_indexed (word : slot.width ≤ 32) (known : op.undefined = false)
    (inverts : 0 < slot.width → m.Inverts slot) {disp : Width} {signed : Bool}
    (shape : m.shape slot.mode = .indexed disp signed) (roomy : d.room = room) :
    ∃ piece, next = d.lay slot piece.field piece.extensions ∧
      m.Bears base size entry slot op room piece none := by
  obtain ⟨n, field, sized, fits, laid, reg, same, named⟩ :=
    exists_indexed run config word known inverts shape
  have short := Width.bytes?_le sized
  have positive := Width.bytes?_pos sized
  have inside : m.inGap slot = true := by simp [inGap, shape]
  have length : (m.config.endian.put n op.value).length = n := by simp [short]
  have number := m.config.endian.number_put op.value short
  have recovered (column : Nat) (shift : Int) : m.Returned entry slot op shift
      { mode := slot.mode, reg, value := op.value, column } := by
    rw [returned_iff (by simp [measured, shape])]
    simp only [Recovered, shape, true_and]
    exact same
  rw [roomy] at laid
  -- The displacement stands in the gap if there is one, and behind the opcode otherwise.
  by_cases room : 0 < room
  · rw [if_pos room] at laid
    refine ⟨{ field, extensions := [⟨.gap, .number op.value n m.config.endian, op.column⟩] }, laid, ?_⟩
    exact {
      quiet := rfl
      plain := by simp [extended, shape]
      outside := by simp [Piece.shown, Extension.shown_singleton]
      gaps := by simp [inside, room, Piece.gaps]
      gapped := by
        simp [inside, room, Piece.shown, Extension.shown_singleton, Extension.render, span, shape,
          sized, short]
      narrow := by simpa [Extension.narrow] using short
      returns := by
        intro _ state free more config read gap _ _
        simp only [Piece.shown, Extension.shown_singleton, reduceCtorEq, if_true, if_false,
          Extension.render, List.length_nil, Decoding.past_zero, List.head?_nil] at gap ⊢
        have enough : n ≤ state.gapBytes.length := by
          rw [gap, List.length_append, length]
          omega
        have taken : state.readDisp n =
            (m.config.endian.number (m.config.endian.put n op.value), state.beyond 0 free) := by
          rw [Decoding.readDisp_gap enough short, gap, List.take_left' length,
            List.drop_left' length, Decoding.beyond, Decoding.past_zero, config]
        exact ⟨_, decodeOperand_disp shape sized (named _ read) taken number fits,
          recovered _ _⟩ }
  · rw [if_neg room] at laid
    refine ⟨{ field, extensions := [⟨.payload, .number op.value n m.config.endian, op.column⟩] },
      laid, bears_payload (by simp [extended, shape]) (by simp [room]) (decide_eq_true short) ?_⟩
    intro chunk rendered state more config read roomless ahead
    obtain rfl : m.config.endian.put n op.value = chunk := (Prod.mk.inj rendered).1
    have empty := roomless (by omega)
    have enough : n ≤ state.rest.length := by
      rw [ahead, List.length_append, length]
      omega
    have taken : state.readDisp n = (m.config.endian.number (m.config.endian.put n op.value),
        state.past n) := by
      have behind := state.readIn_eq state.config.endian enough short
      rw [Decoding.readDisp_rest (by simp [empty]; omega), Decoding.read, behind, ahead,
        List.take_left' length, config]
    rw [length]
    exact ⟨_, decodeOperand_disp shape sized (named _ read) taken number fits, recovered _ _⟩

end Shapes

end Bears

/-- What it takes for operands to come back: the target leaves them to the shapes of its slots, the
fields stand apart from one another and from the fixed bits of the opcode, a gap has one byte and
the first displacement fills it, what is measured from the end of the instruction ends it, and
ladder and register fields can be read back. -/
structure Invertible (m : Machine Mode Reg) (page : Page Mode) (entry : Entry Mode) : Prop where
  unindexed : m.Unindexed
  untidied : ∀ ops, m.tidy ops = ops
  generic : ∀ s ∈ entry.slots, m.shape s.mode ≠ .custom
  short : m.opcodeLength page ≤ 4
  disjoint : entry.slots.Pairwise fun s t => s.mask &&& t.mask = 0
  inside : ∀ s ∈ entry.slots, s.pos + s.width ≤ 8 * m.opcodeLength page
  apart : ∀ s ∈ entry.slots, s.mask &&& entry.opcode = 0#32
  signed : ∀ s ∈ entry.slots, m.shape s.mode = .embedded true → 0 < s.width
  gap : page.gap = 0 ∨ page.gap = 1 ∧ m.config.cell = .byte ∧
    ∃ s, entry.slots.find? m.inGap = some s ∧ m.span (fun _ => 0) entry s = 1
  behind : m.config.origin = .start ∨
    entry.slots.Pairwise fun s t => m.measured s = true → m.extended t = false
  ladder : Ladder.readable m.config.ladder = true
  registers : ∀ s ∈ entry.slots, m.shape s.mode = .register ∨
    (m.inGap s = true ∧ 0 < s.width) → m.Inverts s

/-- What it takes for every operand to be found in its place: all that `Invertible` asks for, but
anything may stand behind what is measured from the end of the instruction. -/
structure Separable (m : Machine Mode Reg) (page : Page Mode) (entry : Entry Mode) : Prop where
  unindexed : m.Unindexed
  untidied : ∀ ops, m.tidy ops = ops
  generic : ∀ s ∈ entry.slots, m.shape s.mode ≠ .custom
  short : m.opcodeLength page ≤ 4
  disjoint : entry.slots.Pairwise fun s t => s.mask &&& t.mask = 0
  inside : ∀ s ∈ entry.slots, s.pos + s.width ≤ 8 * m.opcodeLength page
  apart : ∀ s ∈ entry.slots, s.mask &&& entry.opcode = 0#32
  signed : ∀ s ∈ entry.slots, m.shape s.mode = .embedded true → 0 < s.width
  gap : page.gap = 0 ∨ page.gap = 1 ∧ m.config.cell = .byte ∧
    ∃ s, entry.slots.find? m.inGap = some s ∧ m.span (fun _ => 0) entry s = 1
  ladder : Ladder.readable m.config.ladder = true
  registers : ∀ s ∈ entry.slots, m.shape s.mode = .register ∨
    (m.inGap s = true ∧ 0 < s.width) → m.Inverts s

instance {page : Page Mode} : Coe (m.Invertible page entry) (m.Separable page entry) where
  coe invertible := { invertible with }

section Separable

variable {page : Page Mode} (separable : m.Separable page entry) {base : Int}
  {size : Extension → Nat}

include separable

/-- Every operand without a fault becomes a piece that it comes back from. -/
theorem exists_bears {op : Operand Mode Reg} {d next : Draft} (own : slot ∈ entry.slots)
    (run : m.encodeOperand entry slot op d = (next, none)) (config : d.config = m.config)
    (known : op.undefined = false) :
    ∃ piece, next = d.lay slot piece.field piece.extensions ∧
      m.Bears base size entry slot op d.room piece none := by
  have word : slot.width ≤ 32 := by
    have inside := separable.inside slot own
    have short := separable.short
    omega
  cases shape : m.shape slot.mode with
  | implied =>
    simp only [encodeOperand, shape, Prod.mk.injEq, and_true] at run
    refine ⟨{}, by rw [← run, ← d.eq_lay slot], bears_field (by simp [extended, shape]) ?_⟩
    intro state index _
    exact ⟨_, decodeOperand_implied index shape, by simp only [Recovered, shape]⟩
  | register =>
    exact exists_bears_register run word (separable.registers slot own (.inl shape)) shape
  | embedded signed =>
    refine exists_bears_embedded run word known (fun negative => ?_) shape
    exact separable.signed slot own (negative ▸ shape)
  | bit => exact exists_bears_bit run word known shape
  | immediate width => exact exists_bears_immediate run config known shape
  | absolute width => exact exists_bears_absolute run config known shape
  | relative width => exact exists_bears_relative run known shape
  | indexed disp signed =>
    refine exists_bears_indexed run config word known (fun wide => ?_) shape rfl
    exact separable.registers slot own (.inr ⟨by simp [inGap, shape], wide⟩)
  | ladder relative => exact exists_bears_ladder run known separable.ladder shape
  | custom => exact absurd shape (separable.generic slot own)

theorem exists_pieces {slots : List (Slot Mode)} {ops : List (Operand Mode Reg)} {d next : Draft}
    (own : ∀ s ∈ slots, s ∈ entry.slots) (count : slots.length = ops.length)
    (run : m.encodeOperands entry slots ops d = (next, none)) (config : d.config = m.config)
    (known : ∀ op ∈ ops, op.undefined = false) :
    ∃ pieces, next = d.layAll pieces ∧
      Pieces (m.Bears base size entry) slots ops d.room pieces none := by
  induction slots generalizing ops d with
  | nil =>
    obtain rfl : ops = [] := List.length_eq_zero_iff.mp count.symm
    obtain rfl : d = next := (Prod.mk.inj run).1
    exact ⟨[], rfl, .nil _⟩
  | cons slot slots ih =>
    cases ops with
    | nil => simp at count
    | cons op ops =>
      cases first : m.encodeOperand entry slot op d with
      | mk middle cause =>
        simp only [encodeOperands, first, Prod.mk.injEq, Option.or_eq_none_iff,
          Option.map_eq_none_iff] at run
        obtain ⟨rfl, rfl, quiet⟩ := run
        obtain ⟨piece, rfl, bears⟩ := exists_bears separable (own slot (by simp)) first config
          (known op (by simp))
        obtain ⟨pieces, laid, rest⟩ := ih (fun s member => own s (by simp [member]))
          (by simpa using count) (Prod.ext rfl quiet) config
          (fun q member => known q (by simp [member]))
        rw [Draft.room_lay] at rest
        exact ⟨(slot, piece) :: pieces, laid, .cons_clean bears rest⟩

end Separable

/-! ### All operands of an entry -/

/-- The fields of the pieces are in the opcode, and their bytes in the gap and ahead. -/
structure Ahead (m : Machine Mode Reg) (base : Int) (size : Extension → Nat)
    (pieces : List (Slot Mode × Piece)) (more : List UInt8) (d : Decoding) : Prop where
  config : d.config = m.config
  fields : ∀ p ∈ pieces, p.1.read d.opcode = p.2.field.toNat % twoPow p.1.width
  gap : d.gapBytes = pieces.flatMap (·.2.shown m.config base size .gap)
  rest : d.rest = pieces.flatMap (·.2.shown m.config base size .payload) ++ more

section Run

variable {base : Int} {size : Extension → Nat} {slots : List (Slot Mode)}
  {ops : List (Operand Mode Reg)} {room : Nat} {pieces : List (Slot Mode × Piece)}
  {fault : Option Fault}
  (bears : Pieces (m.Bears base size entry) slots ops room pieces fault)

include bears

theorem index_of_bears : pieces.flatMap (·.2.shown m.config base size .index) = [] :=
  List.flatMap_eq_nil_iff.mpr (bears.forall_mem fun _ _ _ _ _ bears => bears.outside)

theorem gap_of_bears (full : room = 0) :
    pieces.flatMap (·.2.shown m.config base size .gap) = [] := by
  induction bears with
  | nil => rfl
  | cons first _ ih =>
    have own := first.gapped
    simp only [full, Nat.lt_irrefl, decide_false, Bool.and_false, Bool.false_eq_true, if_false,
      List.length_eq_zero_iff] at own
    simp [own, ih (by omega)]

/-- A gap of one byte is filled by the first displacement. -/
theorem length_gap_of_bears (filled : room = 0 ∨ room = 1 ∧
    ∃ s, slots.find? m.inGap = some s ∧ m.span (fun _ => 0) entry s = 1) :
    (pieces.flatMap (·.2.shown m.config base size .gap)).length = room := by
  induction bears with
  | nil room =>
    rcases filled with none | ⟨-, s, found, -⟩
    · exact none.symm
    · simp at found
  | @cons slot op room piece cause slots ops pieces later first rest ih =>
    rcases filled with none | ⟨one, s, found, short⟩
    · rw [gap_of_bears (.cons first rest) none, none]
      rfl
    · have own := first.gapped
      have taken := first.gaps
      rw [List.flatMap_cons, List.length_append, own]
      cases inside : m.inGap slot with
      | true =>
        obtain rfl : slot = s := by simpa [inside] using found
        simp only [inside, one, Nat.lt_one_iff, decide_true, Bool.true_and, if_true] at taken ⊢
        rw [gap_of_bears rest (by omega), short]
        rfl
      | false =>
        simp only [inside, Bool.false_and, Bool.false_eq_true, if_false] at taken ⊢
        rw [ih (.inr ⟨by omega, s, by simpa [inside] using found, short⟩)]
        omega

theorem payload_of_bears (plain : ∀ s ∈ slots, m.extended s = false) :
    pieces.flatMap (·.2.shown m.config base size .payload) = [] := by
  induction bears with
  | nil => rfl
  | @cons slot op room piece cause slots ops pieces later first rest ih =>
    have none := first.plain (plain slot (by simp))
    rw [List.flatMap_cons, ih fun s member => plain s (by simp [member]), List.append_nil,
      Piece.shown, none]
    rfl

theorem narrow_of_bears {p : Slot Mode × Piece} (member : p ∈ pieces) {e : Extension}
    (inside : e ∈ p.2.extensions) : e.narrow = true :=
  bears.forall_mem (P := fun p => ∀ e ∈ p.2.extensions, e.narrow = true)
    (fun _ _ _ _ _ bears => bears.narrow) p member e inside

omit bears in
/-- The operand of the first piece comes back, and then the other pieces are ahead. -/
theorem Ahead.exists_back {op : Operand Mode Reg} {piece : Piece} {cause : Option Cause}
    {d : Decoding} {more : List UInt8} (state : m.Ahead base size ((slot, piece) :: pieces) more d)
    (first : m.Bears base size entry slot op room piece cause)
    (rest : Pieces (m.Bears base size entry) slots ops (room - piece.gaps) pieces fault)
    (clean : ∀ e ∈ piece.extensions, (e.render m.config base (size e)).2 = none) :
    ∃ back, m.decodeOperand entry slot none d =
        (some back, d.beyond (piece.shown m.config base size .payload).length
          (pieces.flatMap (·.2.shown m.config base size .gap))) ∧
      m.Returned entry slot op
        ((d.past (piece.shown m.config base size .payload).length).base - base) back ∧
      m.Ahead base size pieces more (d.beyond (piece.shown m.config base size .payload).length
        (pieces.flatMap (·.2.shown m.config base size .gap))) := by
  have roomless := gap_of_bears (.cons first rest)
  rw [← state.gap] at roomless
  have bytes := state.rest
  rw [List.flatMap_cons, List.append_assoc] at bytes
  obtain ⟨back, decoded, returned⟩ := first.returns clean d _ _ state.config
    (state.fields (slot, piece) (by simp)) state.gap roomless bytes
  rw [first.outside] at decoded
  exact ⟨back, decoded, returned, state.config, fun p member => state.fields p (by simp [member]),
    rfl, by simp [Decoding.beyond, bytes]⟩

/-- Operands whose pieces are in order come back one after the other. -/
theorem exists_decodeSlots (d : Decoding) (more : List UInt8)
    (clean : ∀ p ∈ pieces, ∀ e ∈ p.2.extensions, (e.render m.config base (size e)).2 = none)
    (config : d.config = m.config)
    (fields : ∀ p ∈ pieces, p.1.read d.opcode = p.2.field.toNat % twoPow p.1.width)
    (gap : d.gapBytes = pieces.flatMap (·.2.shown m.config base size .gap))
    (ahead : d.rest = pieces.flatMap (·.2.shown m.config base size .payload) ++ more)
    (behind : m.config.origin = .start ∨
      slots.Pairwise fun s t => m.measured s = true → m.extended t = false)
    (settled : (d.past (pieces.flatMap (·.2.shown m.config base size .payload)).length).base =
      base) :
    ∃ backs, m.decodeSlots entry (slots.map fun s => (s, none)) d =
        (backs, d.beyond (pieces.flatMap (·.2.shown m.config base size .payload)).length []) ∧
      List.Forall₂ (fun (written : Slot Mode × Operand Mode Reg) back =>
        m.Recovered entry written.1 written.2 back) (slots.zip ops) backs := by
  have state : m.Ahead base size pieces more d := ⟨config, fields, gap, ahead⟩
  clear config fields gap ahead
  induction bears generalizing d with
  | nil room =>
    have empty : d.gapBytes = [] := state.gap
    exact ⟨[], congrArg _ (empty ▸ d.beyond_self.symm), .nil⟩
  | @cons slot op room piece cause slots ops pieces later first rest ih =>
    obtain ⟨back, decoded, returned, onward⟩ := state.exists_back first rest
      (clean (slot, piece) (by simp))
    rw [List.flatMap_cons, List.length_append] at settled ⊢
    obtain ⟨backs, run, each⟩ := ih _ (fun p member => clean p (by simp [member]))
      (behind.imp_right fun ordered => (List.pairwise_cons.mp ordered).2)
      ((d.base_past_beyond _ _ _).trans settled) onward
    rw [Decoding.beyond_beyond] at run
    refine ⟨back :: backs, ?_, .cons ((returned_iff ?_).mp returned) each⟩
    · simp only [List.map_cons, decodeSlots, decoded, run]
      rfl
    · -- What is measured from the end of the instruction is followed by nothing.
      intro measured
      apply Int.sub_eq_zero.mpr
      rcases behind with start | ordered
      · rw [← settled]
        simp only [Decoding.base, Decoding.past_config, state.config, start, Decoding.past_address]
      · have nothing := payload_of_bears rest fun s member =>
          (List.pairwise_cons.mp ordered).1 s member measured
        rw [nothing] at settled
        exact settled

end Run

/-! ### The finished instruction -/

/-- Every extension in order is as long as its size. -/
theorem length_render {config : Config} {base : Int} {e : Extension} {n : Nat}
    (good : Ladder.readable config.ladder = true) (narrow : e.narrow = true)
    (rigid : e.flexible = false → n = e.initialSize config.ladder)
    (clean : (e.render config base n).2 = none) : (e.render config base n).1.length = n := by
  obtain ⟨stage, field, column⟩ := e
  cases field with
  | number value bytes endian =>
    have short : bytes ≤ 4 := by simpa [Extension.narrow] using narrow
    rw [rigid rfl]
    simp [Extension.render, Extension.initialSize, short]
  | relative target bytes undefined =>
    have short : bytes ≤ 4 := by simpa [Extension.narrow] using narrow
    rw [rigid rfl]
    simp [Extension.render, Extension.initialSize, short]
  | ladder value relative force undefined =>
    obtain ⟨rung, member, size, -, rendered⟩ := Extension.exists_rung_of_clean stage rfl clean
    have shaped := Rung.shaped_of_formed (Ladder.formed_of_readable good member)
    rw [rendered, Rung.length_encode shaped, size]

/-- A finished instruction in order is as long as the sizes of its extensions say. -/
theorem length_bytes {d : Draft} (good : Ladder.readable d.config.ladder = true)
    (short : d.opcodeBytes ≤ 4) (narrow : ∀ e ∈ d.extensions, e.narrow = true)
    (clean : d.fault? = none) : d.length d.sizes = d.bytes.length := by
  obtain ⟨size, sizes, rigid, fine, bytes⟩ := d.exists_shown clean
  have each : d.sizes =
      d.extensions.map fun e => (e.render d.config d.finalBase (size e)).1.length := by
    rw [sizes]
    apply List.map_congr_left
    intro e member
    exact (length_render good (narrow e member) (rigid e) (fine e member)).symm
  rw [Draft.length, each, ← Extension.length_shown, bytes]
  simp only [List.length_append, Endian.length_put, Nat.min_eq_left short]
  omega

/-- The fields of an entry are read back from the bytes of its opcode. -/
theorem read_put {page : Page Mode} {pieces : List (Slot Mode × Piece)} {p : Slot Mode × Piece}
    (separable : m.Separable page entry) (slots : pieces.map (·.1) = entry.slots)
    (member : p ∈ pieces) :
    p.1.read (BitVec.ofNat 32 (m.config.endian.number (m.config.endian.put (m.opcodeLength page)
      (entry.opcode ||| placeAll (pieces.map fun p => (p.1, p.2.field))).toNat))) =
      p.2.field.toNat % twoPow p.1.width := by
  have own : p.1 ∈ entry.slots := slots ▸ List.mem_map_of_mem member
  have inside := separable.inside p.1 own
  have short := separable.short
  have number (n : Nat) : m.config.endian.number (m.config.endian.put (m.opcodeLength page) n) =
      n % twoPow (8 * m.opcodeLength page) := by
    exact_mod_cast m.config.endian.number_put n short
  have free : entry.opcode &&& p.1.mask = 0#32 := by
    rw [BitVec.and_comm]
    exact separable.apart p.1 own
  rw [number, p.1.read_mod inside, p.1.read_or, p.1.read_eq_zero free, Nat.zero_or]
  apply Slot.read_placeAll
  · rw [List.map_map]
    exact slots ▸ separable.disjoint
  · exact List.mem_map_of_mem member
  · omega

/-- A finished instruction is the pieces of its operands in their stages, and its displacements are
measured from the base that its own length leads to. -/
theorem exists_finished {page : Page Mode} {ops : List (Operand Mode Reg)} {address : UInt32}
    {d : Draft} (separable : m.Separable page entry) (count : ops.length = entry.slots.length)
    (known : ∀ op ∈ ops, op.undefined = false)
    (laid : m.encodeOperands entry entry.slots ops (m.draft page entry address) = (d, none))
    (clean : d.fault? = none) :
    ∃ (size : Extension → Nat) (pieces : List (Slot Mode × Piece)) (base : Int),
      Pieces (m.Bears base size entry) entry.slots ops page.gap pieces none ∧
      (∀ p ∈ pieces, ∀ e ∈ p.2.extensions, (e.render m.config base (size e)).2 = none) ∧
      d.bytes = page.lead ++ pieces.flatMap (·.2.shown m.config base size .gap) ++
        m.config.endian.put (m.opcodeLength page)
          (entry.opcode ||| placeAll (pieces.map fun p => (p.1, p.2.field))).toNat ++
        pieces.flatMap (·.2.shown m.config base size .payload) ∧
      base = (m.draft page entry address).base d.bytes.length := by
  obtain ⟨size, -, -, fine, bytes⟩ := d.exists_shown clean
  obtain ⟨pieces, whole, bears⟩ := @exists_pieces _ _ m entry page separable d.finalBase size _ _
    _ _ (fun _ own => own) count.symm laid rfl known
  rw [Draft.layAll_eq] at whole
  have config : d.config = m.config := by rw [whole]; rfl
  have coded : d.opcodeBytes = m.opcodeLength page := by rw [whole]; rfl
  have extensions : d.extensions = pieces.flatMap (·.2.extensions) := by
    rw [whole]
    exact List.nil_append _
  have narrow : ∀ e ∈ d.extensions, e.narrow = true := by
    intro e member
    rw [extensions, List.mem_flatMap] at member
    obtain ⟨p, present, member⟩ := member
    exact narrow_of_bears bears present member
  refine ⟨size, pieces, d.finalBase, bears, ?_, ?_, ?_⟩
  · intro p member e inside
    rw [config] at fine
    exact fine e (by rw [extensions]; exact List.mem_flatMap_of_mem member inside)
  · have lead : d.lead = page.lead := by rw [whole]; rfl
    have opcode : d.opcode = entry.opcode ||| placeAll (pieces.map fun p => (p.1, p.2.field)) := by
      rw [whole]
      rfl
    have index := index_of_bears bears
    simp only [Piece.shown] at index ⊢
    rw [bytes, config, extensions, coded, lead, opcode]
    simp only [Extension.shown_flatMap, index, List.append_nil]
  · rw [← length_bytes (config ▸ separable.ladder) (coded ▸ separable.short) narrow clean]
    simp only [Draft.finalBase, Draft.base, config]
    rw [whole]
    rfl

/-- Operands that are laid down without a fault come back when the finished instruction is decoded:
nothing is reported, just the bytes of the instruction are taken, and each slot gives an operand
with the register and the number it was written with. -/
theorem decodeOperands_encoded {page : Page Mode} {entry : Entry Mode}
    (invertible : m.Invertible page entry) {ops : List (Operand Mode Reg)} {address : UInt32}
    {d : Draft} (count : ops.length = entry.slots.length)
    (known : ∀ op ∈ ops, op.undefined = false)
    (laid : m.encodeOperands entry entry.slots ops (m.draft page entry address) = (d, none))
    (clean : d.fault? = none) (suffix : List UInt8) :
    ∃ backs stop, m.decodeOperands entry
        (m.decoding (m.foundAt (page, entry) (d.bytes ++ suffix)) address (d.bytes ++ suffix)) =
        (backs, stop) ∧
      stop.fault = none ∧ stop.bytes = d.bytes ∧ stop.rest = suffix ∧
      List.Forall₂ (fun (written : Slot Mode × Operand Mode Reg) back =>
        m.Recovered entry written.1 written.2 back) (entry.slots.zip ops) backs := by
  obtain ⟨size, pieces, base, bears, fine, bytes, settled⟩ :=
    exists_finished invertible count known laid clean
  have gapped : (pieces.flatMap (·.2.shown m.config base size .gap)).length = m.gapLength page := by
    rw [length_gap_of_bears bears (invertible.gap.imp_right fun ⟨one, _, found⟩ => ⟨one, found⟩),
      gapLength]
    rcases invertible.gap with none | ⟨one, byte, -⟩
    · rw [none, Nat.zero_mul]
    · rw [one, byte]
      rfl
  -- The head is read as the opcode with the fields of the pieces, the rest as their payload.
  let code := m.config.endian.put (m.opcodeLength page)
    (entry.opcode ||| placeAll (pieces.map fun p => (p.1, p.2.field))).toNat
  have coded : code.length = m.opcodeLength page := by
    rw [Endian.length_put, Nat.min_eq_left invertible.short]
  let first := m.decoding (m.foundAt (page, entry) (d.bytes ++ suffix)) address (d.bytes ++ suffix)
  have start := m.decoding_append (page, entry) address
    (pieces.flatMap (·.2.shown m.config base size .payload) ++ suffix) gapped coded
  rw [← List.append_assoc, ← show d.bytes = page.lead ++ _ ++ code ++ _ from bytes] at start
  change first = _ at start
  have stop : first.past (pieces.flatMap (·.2.shown m.config base size .payload)).length = _ :=
    Decoding.past_append (by rw [start])
  have taken : first.bytes ++ pieces.flatMap (·.2.shown m.config base size .payload) = d.bytes := by
    rw [start, bytes]
  rw [taken] at stop
  obtain ⟨backs, run, recovered⟩ := exists_decodeSlots bears first suffix fine (by rw [start])
    (fun p member => by rw [start]; exact read_put invertible bears.slots_eq member)
    (by rw [start]) (by rw [start]) invertible.behind (by rw [stop, start, settled]; rfl)
  have decoded : m.decodeOperands entry first = (backs, first.beyond
      (pieces.flatMap (·.2.shown m.config base size .payload)).length []) := by
    simp only [decodeOperands, readIndexes_eq invertible.unindexed, run, invertible.untidied]
  refine ⟨backs, _, decoded, ?_, ?_, ?_, recovered⟩
  · exact (congrArg Decoding.fault stop).trans (by rw [start])
  · exact congrArg Decoding.bytes stop
  · exact congrArg Decoding.rest stop

end Machine

theorem Trial.inverts {config : Config} {pages : List (Page Trial.Mode)} {features : BitVec 32}
    {count : Nat} {slot : Slot Trial.Mode} (enough : count ≤ twoPow slot.width) :
    (Trial.machine config pages features count).Inverts slot := by
  intro op field written
  change Trial.registerField count slot.mode op = .ok field at written
  unfold Trial.registerField at written
  split at written
  next reg _ =>
    split at written
    next small =>
      obtain rfl : reg = field := by simpa using written
      exact ⟨Nat.lt_of_lt_of_le small enough, { mode := .form .reg, reg := some reg, column := 0 },
        if_pos small, if_pos small⟩
    · simp at written
  · simp at written

/-- A register, an indexed operand whose displacement fills the gap, a short constant, a word, and a
target that is too far for the short rung once the instruction has its length. -/
theorem Machine.decodeOperands_encoded_trial :
    let config : Config :=
      { endian := .big, ladder := [⟨1, 0, 1, -64, 63⟩, ⟨2, 2, 2, -8192, 8191⟩] }
    let entry : Entry Trial.Mode := .of "MOVE" 0x80
      [.field (.category [.reg] .register) 0 2, .field (.category [.idx] (.indexed .byte true)) 2 2,
        .field (.category [.imm] (.embedded true)) 4 3, .bare (.category [.imm] (.immediate .word)),
        .bare (.category [.long] (.ladder true))]
    let page : Page Trial.Mode := { lead := [0xDD], gap := 1, entries := [entry] }
    let m := Trial.machine config [page] (BitVec.allOnes 32) 4
    let ops : List (Operand Trial.Mode Trial.Reg) :=
      [{ mode := .form .reg, reg := some 2, column := 5 },
        { mode := .form .idx, reg := some 1, value := -5, column := 8 },
        { mode := .form .imm, value := -3, column := 15 },
        { mode := .form .imm, value := -2, column := 19 },
        { mode := .form .long, value := 0x2047, column := 23 }]
    let d := (m.encodeOperands entry entry.slots ops (m.draft page entry 0x2000)).1
    d.bytes = [0xDD, 0xFB, 0xD6, 0xFF, 0xFE, 0x80, 0x40] ∧
      ∃ backs stop, m.decodeOperands entry
          (m.decoding (m.foundAt (page, entry) (d.bytes ++ [0x55])) 0x2000 (d.bytes ++ [0x55])) =
          (backs, stop) ∧
        stop.fault = none ∧ stop.bytes = d.bytes ∧ stop.rest = [0x55] ∧
        List.Forall₂ (fun (written : Slot Trial.Mode × Operand Trial.Mode Trial.Reg) back =>
          m.Recovered entry written.1 written.2 back) (entry.slots.zip ops) backs := by
  intro config entry page m ops d
  have invertible : m.Invertible page entry := {
    unindexed := fun _ _ => rfl
    untidied := fun _ => rfl
    generic := by decide
    short := by decide
    disjoint := by decide
    inside := by decide
    apart := by decide
    signed := by decide
    gap := .inr ⟨rfl, rfl, _, rfl, rfl⟩
    behind := .inr (by decide)
    ladder := by decide
    registers := by
      intro s member field
      apply Trial.inverts
      have wide : ∀ s ∈ entry.slots, m.shape s.mode = .register ∨
          (m.inGap s = true ∧ 0 < s.width) → 4 ≤ twoPow s.width := by decide
      exact wide s member field }
  exact ⟨by decide, decodeOperands_encoded invertible rfl (by decide) (Prod.ext rfl (by decide))
    (by decide) [0x55]⟩

end CrossAsm
