import CrossAsm.Table

/-! Instructions of the Z80. -/

namespace CrossAsm.Z80

inductive Mode where
  -- registers and conditions as written
  | regA
  | regC
  | r8
  | regI
  | regR
  | regBc
  | regDe
  | regHl
  | regSp
  | regAf
  | afAlt
  | regIx
  | regIy
  | cc
  -- memory operands and constants as written
  | indHl
  | indBc
  | indDe
  | indSp
  | indC
  | indAbs
  | indIx
  | indIy
  | imm
  -- categories of slots
  | reg8
  | reg8M
  | pair
  | pairAf
  | pairIx
  | pairIy
  | a
  | hl
  | de
  | sp
  | af
  | afP
  | i
  | r
  | ix
  | iy
  | memHl
  | memBc
  | memDe
  | memSp
  | memC
  | jpIx
  | jpIy
  | abs16
  | port
  | idxIx
  | idxIy
  | imm8
  | imm16
  | addr
  | rel
  | bit
  | rst
  | imMode
  | cond
  | condJr
deriving DecidableEq, Repr

/-- Registers and conditions. `c` is both. -/
inductive Reg where
  | b
  | c
  | d
  | e
  | h
  | l
  | a
  | i
  | r
  | bc
  | de
  | hl
  | sp
  | af
  | afAlt
  | ix
  | iy
  | nz
  | z
  | nc
  | po
  | pe
  | p
  | m
deriving DecidableEq, Repr

/-- Instructions without lead bytes. -/
def primary : List (Entry Mode) :=
  [.of "NOP" 0x00 [],
    .of "LD" 0x01 [.field .pair 4 2, .bare .imm16],
    .of "LD" 0x02 [.bare .memBc, .bare .a],
    .of "LD" 0x12 [.bare .memDe, .bare .a],
    .of "LD" 0x0A [.bare .a, .bare .memBc],
    .of "LD" 0x1A [.bare .a, .bare .memDe],
    .of "LD" 0x22 [.bare .abs16, .bare .hl],
    .of "LD" 0x2A [.bare .hl, .bare .abs16],
    .of "LD" 0x32 [.bare .abs16, .bare .a],
    .of "LD" 0x3A [.bare .a, .bare .abs16],
    .of "LD" 0x06 [.field .reg8M 3 3, .bare .imm8],
    .of "LD" 0xF9 [.bare .sp, .bare .hl],
    .of "HALT" 0x76 [],
    .of "LD" 0x40 [.field .reg8M 3 3, .field .reg8M 0 3],
    .of "INC" 0x03 [.field .pair 4 2],
    .of "DEC" 0x0B [.field .pair 4 2],
    .of "INC" 0x04 [.field .reg8M 3 3],
    .of "DEC" 0x05 [.field .reg8M 3 3],
    .of "RLCA" 0x07 [],
    .of "RRCA" 0x0F [],
    .of "RLA" 0x17 [],
    .of "RRA" 0x1F [],
    .of "DAA" 0x27 [],
    .of "CPL" 0x2F [],
    .of "SCF" 0x37 [],
    .of "CCF" 0x3F [],
    .of "EX" 0x08 [.bare .af, .bare .afP],
    .of "ADD" 0x09 [.bare .hl, .field .pair 4 2],
    .of "DJNZ" 0x10 [.bare .rel],
    .of "JR" 0x18 [.bare .rel],
    .of "JR" 0x20 [.field .condJr 3 2, .bare .rel],
    .of "ADD" 0x80 [.bare .a, .field .reg8M 0 3],
    .of "ADC" 0x88 [.bare .a, .field .reg8M 0 3],
    .of "SUB" 0x90 [.field .reg8M 0 3],
    .of "SBC" 0x98 [.bare .a, .field .reg8M 0 3],
    .of "AND" 0xA0 [.field .reg8M 0 3],
    .of "XOR" 0xA8 [.field .reg8M 0 3],
    .of "OR" 0xB0 [.field .reg8M 0 3],
    .of "CP" 0xB8 [.field .reg8M 0 3],
    .of "ADD" 0xC6 [.bare .a, .bare .imm8],
    .of "ADC" 0xCE [.bare .a, .bare .imm8],
    .of "SUB" 0xD6 [.bare .imm8],
    .of "SBC" 0xDE [.bare .a, .bare .imm8],
    .of "AND" 0xE6 [.bare .imm8],
    .of "XOR" 0xEE [.bare .imm8],
    .of "OR" 0xF6 [.bare .imm8],
    .of "CP" 0xFE [.bare .imm8],
    .of "RET" 0xC9 [],
    .of "RET" 0xC0 [.field .cond 3 3],
    .of "JP" 0xC3 [.bare .addr],
    .of "JP" 0xC2 [.field .cond 3 3, .bare .addr],
    .of "CALL" 0xCD [.bare .addr],
    .of "CALL" 0xC4 [.field .cond 3 3, .bare .addr],
    .of "POP" 0xC1 [.field .pairAf 4 2],
    .of "PUSH" 0xC5 [.field .pairAf 4 2],
    .of "RST" 0xC7 [.field .rst 3 3],
    .of "OUT" 0xD3 [.bare .port, .bare .a],
    .of "IN" 0xDB [.bare .a, .bare .port],
    .of "EXX" 0xD9 [],
    .of "EX" 0xE3 [.bare .memSp, .bare .hl],
    .of "JP" 0xE9 [.bare .memHl],
    .of "EX" 0xEB [.bare .de, .bare .hl],
    .of "DI" 0xF3 [],
    .of "EI" 0xFB []]

/-- Rotations, shifts and bit instructions. -/
def bits : List (Entry Mode) :=
  [.of "RLC" 0x00 [.field .reg8M 0 3],
    .of "RRC" 0x08 [.field .reg8M 0 3],
    .of "RL" 0x10 [.field .reg8M 0 3],
    .of "RR" 0x18 [.field .reg8M 0 3],
    .of "SLA" 0x20 [.field .reg8M 0 3],
    .of "SRA" 0x28 [.field .reg8M 0 3],
    .of "SRL" 0x38 [.field .reg8M 0 3],
    .of "BIT" 0x40 [.field .bit 3 3, .field .reg8M 0 3],
    .of "RES" 0x80 [.field .bit 3 3, .field .reg8M 0 3],
    .of "SET" 0xC0 [.field .bit 3 3, .field .reg8M 0 3]]

/-- Port, interrupt and block instructions. -/
def extended : List (Entry Mode) :=
  [.of "IN" 0x40 [.field .reg8 3 3, .bare .memC],
    .of "OUT" 0x41 [.bare .memC, .field .reg8 3 3],
    .of "SBC" 0x42 [.bare .hl, .field .pair 4 2],
    .of "ADC" 0x4A [.bare .hl, .field .pair 4 2],
    .of "LD" 0x43 [.bare .abs16, .field .pair 4 2],
    .of "LD" 0x4B [.field .pair 4 2, .bare .abs16],
    .of "NEG" 0x44 [],
    .of "RETN" 0x45 [],
    .of "RETI" 0x4D [],
    .of "IM" 0x46 [.field .imMode 3 2],
    .of "LD" 0x47 [.bare .i, .bare .a],
    .of "LD" 0x4F [.bare .r, .bare .a],
    .of "LD" 0x57 [.bare .a, .bare .i],
    .of "LD" 0x5F [.bare .a, .bare .r],
    .of "RRD" 0x67 [],
    .of "RLD" 0x6F [],
    .of "LDI" 0xA0 [],
    .of "CPI" 0xA1 [],
    .of "INI" 0xA2 [],
    .of "OUTI" 0xA3 [],
    .of "LDD" 0xA8 [],
    .of "CPD" 0xA9 [],
    .of "IND" 0xAA [],
    .of "OUTD" 0xAB [],
    .of "LDIR" 0xB0 [],
    .of "CPIR" 0xB1 [],
    .of "INIR" 0xB2 [],
    .of "OTIR" 0xB3 [],
    .of "LDDR" 0xB8 [],
    .of "CPDR" 0xB9 [],
    .of "INDR" 0xBA [],
    .of "OTDR" 0xBB []]

/-- Instructions on an index register, given the modes for the register itself, for memory at a
displacement from it, for a jump to it and for the pairs it is added to. -/
def index (reg disp jump pairs : Mode) : List (Entry Mode) :=
  [.of "ADD" 0x09 [.bare reg, .field pairs 4 2],
    .of "LD" 0x21 [.bare reg, .bare .imm16],
    .of "LD" 0x22 [.bare .abs16, .bare reg],
    .of "LD" 0x2A [.bare reg, .bare .abs16],
    .of "INC" 0x23 [.bare reg],
    .of "DEC" 0x2B [.bare reg],
    .of "INC" 0x34 [.bare disp],
    .of "DEC" 0x35 [.bare disp],
    .of "LD" 0x36 [.bare disp, .bare .imm8],
    .of "LD" 0x46 [.field .reg8 3 3, .bare disp],
    .of "LD" 0x70 [.bare disp, .field .reg8 0 3],
    .of "ADD" 0x86 [.bare .a, .bare disp],
    .of "ADC" 0x8E [.bare .a, .bare disp],
    .of "SUB" 0x96 [.bare disp],
    .of "SBC" 0x9E [.bare .a, .bare disp],
    .of "AND" 0xA6 [.bare disp],
    .of "XOR" 0xAE [.bare disp],
    .of "OR" 0xB6 [.bare disp],
    .of "CP" 0xBE [.bare disp],
    .of "POP" 0xE1 [.bare reg],
    .of "EX" 0xE3 [.bare .memSp, .bare reg],
    .of "PUSH" 0xE5 [.bare reg],
    .of "JP" 0xE9 [.bare jump],
    .of "LD" 0xF9 [.bare .sp, .bare reg]]

/-- Rotations, shifts and bit instructions on memory at a displacement. -/
def indexBits (disp : Mode) : List (Entry Mode) :=
  [.of "RLC" 0x06 [.bare disp],
    .of "RRC" 0x0E [.bare disp],
    .of "RL" 0x16 [.bare disp],
    .of "RR" 0x1E [.bare disp],
    .of "SLA" 0x26 [.bare disp],
    .of "SRA" 0x2E [.bare disp],
    .of "SRL" 0x3E [.bare disp],
    .of "BIT" 0x46 [.field .bit 3 3, .bare disp],
    .of "RES" 0x86 [.field .bit 3 3, .bare disp],
    .of "SET" 0xC6 [.field .bit 3 3, .bare disp]]

/-- In the last two pages the displacement stands before the opcode. -/
def pages : List (Page Mode) :=
  [{ entries := primary },
    { lead := [0xCB], entries := bits },
    { lead := [0xED], entries := extended },
    { lead := [0xDD], entries := index .ix .idxIx .jpIx .pairIx },
    { lead := [0xFD], entries := index .iy .idxIy .jpIy .pairIy },
    { lead := [0xDD, 0xCB], gap := 1, entries := indexBits .idxIx },
    { lead := [0xFD, 0xCB], gap := 1, entries := indexBits .idxIy }]

end CrossAsm.Z80
