import CrossAsm.Table

/-! Instructions of the NS32000 in the formats 0 to 4. -/

namespace CrossAsm.Ns32000

inductive Mode where
  -- operands as written
  | reg
  | regRel
  | space
  | imm
  | abs
  | tos
  | regList
  /-- An address relative to the instruction, decoded to its target. -/
  | pcrel
  -- categories of slots
  /-- Any general operand. -/
  | gen
  /-- A general operand that is written to. -/
  | genW
  /-- A general operand whose address is taken. -/
  | genA
  | quick
  | disp
  | dispAbs
  | list
  | listRev
deriving DecidableEq, Repr

inductive Reg where
  | r0
  | r1
  | r2
  | r3
  | r4
  | r5
  | r6
  | r7
  | fp
  | sp
  | sb
  | pc
deriving DecidableEq, Repr

/-- Displacements of 7, 14 and 30 bits. A first byte from `0xE0` on would reach below the least
30-bit displacement there is. -/
def ladder : List Rung :=
  [{ bytes := 1, tag := 0, tagBits := 1, min := -64, max := 63 },
    { bytes := 2, tag := 2, tagBits := 2, min := -8192, max := 8191 },
    { bytes := 4, tag := 3, tagBits := 2, min := -0x1F000000, max := 0x1FFFFFFF }]

/-- Branches, calls and register saving, with an opcode of one byte. -/
def short : List (Entry Mode) :=
  [.of "BEQ" 0x0A [.bare .disp],
    .of "BNE" 0x1A [.bare .disp],
    .of "BCS" 0x2A [.bare .disp],
    .of "BCC" 0x3A [.bare .disp],
    .of "BHI" 0x4A [.bare .disp],
    .of "BLS" 0x5A [.bare .disp],
    .of "BGT" 0x6A [.bare .disp],
    .of "BLE" 0x7A [.bare .disp],
    .of "BFS" 0x8A [.bare .disp],
    .of "BFC" 0x9A [.bare .disp],
    .of "BLO" 0xAA [.bare .disp],
    .of "BHS" 0xBA [.bare .disp],
    .of "BLT" 0xCA [.bare .disp],
    .of "BGE" 0xDA [.bare .disp],
    .of "BR" 0xEA [.bare .disp],
    .of "BSR" 0x02 [.bare .disp],
    .of "RET" 0x12 [.bare .dispAbs],
    .of "CXP" 0x22 [.bare .dispAbs],
    .of "RXP" 0x32 [.bare .dispAbs],
    .of "RETT" 0x42 [.bare .dispAbs],
    .of "RETI" 0x52 [],
    .of "SAVE" 0x62 [.bare .list],
    .of "RESTORE" 0x72 [.bare .listRev],
    .of "ENTER" 0x82 [.bare .list, .bare .dispAbs],
    .of "EXIT" 0x92 [.bare .listRev],
    .of "NOP" 0xA2 [],
    .of "WAIT" 0xB2 [],
    .of "DIA" 0xC2 [],
    .of "FLAG" 0xD2 [],
    .of "SVC" 0xE2 [],
    .of "BPT" 0xF2 []]

/-- An instruction on bytes, words and double words. -/
def sized (name : String) (opcode : BitVec 32) (slots : List (Slot Mode)) : List (Entry Mode) :=
  [{ name := name ++ "B", opcode, slots, size := .byte },
    { name := name ++ "W", opcode := opcode ||| 1, slots, size := .word },
    { name := name ++ "D", opcode := opcode ||| 3, slots, size := .long }]

/-- Instructions on general operands, with an opcode of two bytes. -/
def long : List (Entry Mode) :=
  sized "ADDQ" 0x0C [.field .quick 7 4, .field .genW 11 5] ++
  sized "CMPQ" 0x1C [.field .quick 7 4, .field .gen 11 5] ++
  sized "ACB" 0x4C [.field .quick 7 4, .field .genW 11 5, .bare .disp] ++
  sized "MOVQ" 0x5C [.field .quick 7 4, .field .genW 11 5] ++
  [.of "JUMP" 0x027F [.field .genA 11 5], .of "JSR" 0x067F [.field .genA 11 5]] ++
  sized "CASE" 0x077C [.field .gen 11 5] ++
  sized "ADJSP" 0x057C [.field .gen 11 5] ++
  sized "ADD" 0x00 [.field .gen 11 5, .field .genW 6 5] ++
  sized "CMP" 0x04 [.field .gen 11 5, .field .gen 6 5] ++
  sized "BIC" 0x08 [.field .gen 11 5, .field .genW 6 5] ++
  sized "ADDC" 0x10 [.field .gen 11 5, .field .genW 6 5] ++
  sized "MOV" 0x14 [.field .gen 11 5, .field .genW 6 5] ++
  sized "OR" 0x18 [.field .gen 11 5, .field .genW 6 5] ++
  sized "SUB" 0x20 [.field .gen 11 5, .field .genW 6 5] ++
  [{ name := "ADDR", opcode := 0x27, slots := [.field .genA 11 5, .field .genW 6 5],
     size := .long }] ++
  sized "AND" 0x28 [.field .gen 11 5, .field .genW 6 5] ++
  sized "SUBC" 0x30 [.field .gen 11 5, .field .genW 6 5] ++
  sized "TBIT" 0x34 [.field .gen 11 5, .field .gen 6 5] ++
  sized "XOR" 0x38 [.field .gen 11 5, .field .genW 6 5]

def pages : List (Page Mode) := [{ entries := short }, { opcodeCells := 2, entries := long }]

end CrossAsm.Ns32000
