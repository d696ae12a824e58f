import CrossAsm.Table

/-! Instructions of the 6800 family: the MC6800, what the MC6801 adds, and what the HD6301 adds
to that. -/

namespace CrossAsm.M6800

inductive Mode where
  -- operands as written
  | imm
  | dir
  | ext
  | idx
  -- categories of slots
  | imm8
  | imm16
  | direct
  | extended
  | indexed
  | rel
  | bitClr
  | bitSet
deriving DecidableEq, Repr

inductive Reg where
  | x
deriving DecidableEq, Repr

/-- An instruction without operands. -/
def inherent (name : String) (opcode : BitVec 32) : Entry Mode := .of name opcode []

/-- An instruction with one operand. -/
def unary (name : String) (opcode : BitVec 32) (mode : Mode) : Entry Mode :=
  .of name opcode [.bare mode]

/-- An instruction on memory, at `opcode` indexed and 16 above it extended. -/
def modify (name : String) (opcode : BitVec 32) : List (Entry Mode) :=
  [unary name opcode .indexed, unary name (opcode + 0x10) .extended]

/-- A store, at `opcode` direct, then indexed and extended. -/
def store (name : String) (opcode : BitVec 32) : List (Entry Mode) :=
  unary name opcode .direct :: modify name (opcode + 0x10)

/-- An instruction with an immediate at `opcode`, then as a store. -/
def load (immediate : Mode) (name : String) (opcode : BitVec 32) : List (Entry Mode) :=
  unary name opcode immediate :: store name (opcode + 0x10)

def mc6800 : List (Entry Mode) :=
  [inherent "NOP" 0x01, inherent "TAP" 0x06, inherent "TPA" 0x07, inherent "INX" 0x08,
    inherent "DEX" 0x09, inherent "CLV" 0x0A, inherent "SEV" 0x0B, inherent "CLC" 0x0C,
    inherent "SEC" 0x0D, inherent "CLI" 0x0E, inherent "SEI" 0x0F, inherent "SBA" 0x10,
    inherent "CBA" 0x11, inherent "TAB" 0x16, inherent "TBA" 0x17, inherent "DAA" 0x19,
    inherent "ABA" 0x1B, inherent "TSX" 0x30, inherent "INS" 0x31, inherent "PULA" 0x32,
    inherent "PULB" 0x33, inherent "DES" 0x34, inherent "TXS" 0x35, inherent "PSHA" 0x36,
    inherent "PSHB" 0x37, inherent "RTS" 0x39, inherent "RTI" 0x3B, inherent "WAI" 0x3E,
    inherent "SWI" 0x3F,
    unary "BRA" 0x20 .rel, unary "BHI" 0x22 .rel, unary "BLS" 0x23 .rel, unary "BCC" 0x24 .rel,
    unary "BCS" 0x25 .rel, unary "BNE" 0x26 .rel, unary "BEQ" 0x27 .rel, unary "BVC" 0x28 .rel,
    unary "BVS" 0x29 .rel, unary "BPL" 0x2A .rel, unary "BMI" 0x2B .rel, unary "BGE" 0x2C .rel,
    unary "BLT" 0x2D .rel, unary "BGT" 0x2E .rel, unary "BLE" 0x2F .rel, unary "BSR" 0x8D .rel,
    inherent "NEGA" 0x40, inherent "COMA" 0x43, inherent "LSRA" 0x44, inherent "RORA" 0x46,
    inherent "ASRA" 0x47, inherent "ASLA" 0x48, inherent "ROLA" 0x49, inherent "DECA" 0x4A,
    inherent "INCA" 0x4C, inherent "TSTA" 0x4D, inherent "CLRA" 0x4F,
    inherent "NEGB" 0x50, inherent "COMB" 0x53, inherent "LSRB" 0x54, inherent "RORB" 0x56,
    inherent "ASRB" 0x57, inherent "ASLB" 0x58, inherent "ROLB" 0x59, inherent "DECB" 0x5A,
    inherent "INCB" 0x5C, inherent "TSTB" 0x5D, inherent "CLRB" 0x5F] ++
  modify "NEG" 0x60 ++ modify "COM" 0x63 ++ modify "LSR" 0x64 ++ modify "ROR" 0x66 ++
  modify "ASR" 0x67 ++ modify "ASL" 0x68 ++ modify "ROL" 0x69 ++ modify "DEC" 0x6A ++
  modify "INC" 0x6C ++ modify "TST" 0x6D ++ modify "JMP" 0x6E ++ modify "CLR" 0x6F ++
  load .imm8 "SUBA" 0x80 ++ load .imm8 "CMPA" 0x81 ++ load .imm8 "SBCA" 0x82 ++
  load .imm8 "ANDA" 0x84 ++ load .imm8 "BITA" 0x85 ++ load .imm8 "LDAA" 0x86 ++
  store "STAA" 0x97 ++ load .imm8 "EORA" 0x88 ++ load .imm8 "ADCA" 0x89 ++
  load .imm8 "ORAA" 0x8A ++ load .imm8 "ADDA" 0x8B ++
  load .imm8 "SUBB" 0xC0 ++ load .imm8 "CMPB" 0xC1 ++ load .imm8 "SBCB" 0xC2 ++
  load .imm8 "ANDB" 0xC4 ++ load .imm8 "BITB" 0xC5 ++ load .imm8 "LDAB" 0xC6 ++
  store "STAB" 0xD7 ++ load .imm8 "EORB" 0xC8 ++ load .imm8 "ADCB" 0xC9 ++
  load .imm8 "ORAB" 0xCA ++ load .imm8 "ADDB" 0xCB ++
  load .imm16 "CPX" 0x8C ++ load .imm16 "LDS" 0x8E ++ store "STS" 0x9F ++
  load .imm16 "LDX" 0xCE ++ store "STX" 0xDF ++ modify "JSR" 0xAD

def mc6801 : List (Entry Mode) :=
  [inherent "LSRD" 0x04, inherent "ASLD" 0x05, inherent "LSLD" 0x05, unary "BRN" 0x21 .rel,
    inherent "PULX" 0x38, inherent "ABX" 0x3A, inherent "PSHX" 0x3C, inherent "MUL" 0x3D,
    unary "JSR" 0x9D .direct] ++
  load .imm16 "SUBD" 0x83 ++ load .imm16 "ADDD" 0xC3 ++ load .imm16 "LDD" 0xCC ++
  store "STD" 0xDD

/-- How many of the low eight bits are set. -/
def bitCount (n : Nat) : Nat := (List.range 8).countP n.testBit

def oneBitSet (mask : Nat) : Bool := bitCount mask == 1

def oneBitClear (mask : Nat) : Bool := bitCount mask == 7

/-- A bit instruction on memory, at `opcode` indexed and 16 above it direct. It is told from the
mask instruction of the same opcode by its mask. -/
def bitOp (mode : Mode) (post : Nat → Bool) (name : String) (opcode : BitVec 32) :
    List (Entry Mode) :=
  [{ name, opcode, slots := [.bare mode, .bare .indexed], post := some post },
    { name, opcode := opcode + 0x10, slots := [.bare mode, .bare .direct], post := some post }]

/-- A mask instruction on memory, at `opcode` indexed and 16 above it direct. -/
def maskOp (name : String) (opcode : BitVec 32) : List (Entry Mode) :=
  [.of name opcode [.bare .imm8, .bare .indexed],
    .of name (opcode + 0x10) [.bare .imm8, .bare .direct]]

/-- The bit instructions come before the mask instructions, so that a mask of one bit decodes as
the bit. -/
def hd6301 : List (Entry Mode) :=
  [inherent "XGDX" 0x18, inherent "SLP" 0x1A] ++
  bitOp .bitClr oneBitClear "BCLR" 0x61 ++ bitOp .bitSet oneBitSet "BSET" 0x62 ++
  bitOp .bitSet oneBitSet "BTGL" 0x65 ++ bitOp .bitSet oneBitSet "BTST" 0x6B ++
  maskOp "AIM" 0x61 ++ maskOp "OIM" 0x62 ++ maskOp "EIM" 0x65 ++ maskOp "TIM" 0x6B

/-- The members of the family as feature bits. -/
inductive Variant where
  | mc6800
  | mc6801
  | hd6301
deriving DecidableEq, Repr

def Variant.features : Variant → BitVec 32
  | mc6800 => 1
  | mc6801 => 2
  | hd6301 => 4

/-- Added instructions come first, so that a direct form added by a later member is preferred to
the extended form of the base set. -/
def pages : List (Page Mode) :=
  [{ features := Variant.hd6301.features, entries := hd6301 },
    { features := Variant.mc6801.features ||| Variant.hd6301.features, entries := mc6801 },
    { entries := mc6800 }]

end CrossAsm.M6800
