import CrossAsm.Table

/-! Instructions of the TMS32010. Operands that may be left out make entries of their own, the
longest first, so that decoding finds the full form. -/

namespace CrossAsm.Tms32010

inductive Mode where
  -- operands as written
  | imm
  /-- `*`, `*+` or `*-`, with the value 0, 1 or 2. -/
  | ind
  | arReg
  -- categories of slots
  | mem
  | narp
  | shift
  | sachShift
  | ar
  | port
  | k1
  | k8
  | k13
  | arp
  | pma
deriving DecidableEq, Repr

inductive Reg where
  | ar0
  | ar1
deriving DecidableEq, Repr

/-- A memory operand in the low byte. -/
def mem : Slot Mode := .field .mem 0 8

/-- A memory operand behind `front` and before `back`, with or without a next register pointer. -/
def access (name : String) (opcode : BitVec 32) (front back : List (Slot Mode)) :
    List (Entry Mode) :=
  [.of name opcode (front ++ [mem] ++ back ++ [.bare .narp]),
    .of name opcode (front ++ [mem] ++ back)]

/-- A memory operand with a shift that may be left out. -/
def shifted (name : String) (opcode : BitVec 32) (shift : Slot Mode) : List (Entry Mode) :=
  access name opcode [] [shift] ++ [.of name opcode [mem]]

/-- An instruction with a program address in a second word. -/
def branch (name : String) (opcode : BitVec 32) : Entry Mode := .of name opcode [.bare .pma]

def base : List (Entry Mode) :=
  shifted "ADD" 0x0000 (.field .shift 8 4) ++
  shifted "SUB" 0x1000 (.field .shift 8 4) ++
  shifted "LAC" 0x2000 (.field .shift 8 4) ++
  access "SAR" 0x3000 [.field .ar 8 1] [] ++
  access "LAR" 0x3800 [.field .ar 8 1] [] ++
  access "IN" 0x4000 [] [.field .port 8 3] ++
  access "OUT" 0x4800 [] [.field .port 8 3] ++
  access "SACL" 0x5000 [] [] ++
  shifted "SACH" 0x5800 (.field .sachShift 8 3) ++
  [.of "LARP" 0x6880 [.field .arp 0 1],
    .of "LARK" 0x7000 [.field .ar 8 1, .field .k8 0 8],
    .of "LACK" 0x7E00 [.field .k8 0 8],
    .of "LDPK" 0x6E00 [.field .k1 0 1],
    .of "MPYK" 0x8000 [.field .k13 0 13],
    .of "NOP" 0x7F80 [],
    .of "DINT" 0x7F81 [],
    .of "EINT" 0x7F82 [],
    .of "ABS" 0x7F88 [],
    .of "ZAC" 0x7F89 [],
    .of "ROVM" 0x7F8A [],
    .of "SOVM" 0x7F8B [],
    .of "CALA" 0x7F8C [],
    .of "RET" 0x7F8D [],
    .of "PAC" 0x7F8E [],
    .of "APAC" 0x7F8F [],
    .of "SPAC" 0x7F90 [],
    .of "PUSH" 0x7F9C [],
    .of "POP" 0x7F9D [],
    branch "BANZ" 0xF400,
    branch "BV" 0xF500,
    branch "BIOZ" 0xF600,
    branch "CALL" 0xF800,
    branch "B" 0xF900,
    branch "BLZ" 0xFA00,
    branch "BLEZ" 0xFB00,
    branch "BGZ" 0xFC00,
    branch "BGEZ" 0xFD00,
    branch "BNZ" 0xFE00,
    branch "BZ" 0xFF00]

def memory : List (Entry Mode) :=
  access "ADDH" 0x6000 [] [] ++ access "ADDS" 0x6100 [] [] ++ access "SUBH" 0x6200 [] [] ++
  access "SUBS" 0x6300 [] [] ++ access "SUBC" 0x6400 [] [] ++ access "ZALH" 0x6500 [] [] ++
  access "ZALS" 0x6600 [] [] ++ access "TBLR" 0x6700 [] [] ++ access "MAR" 0x6800 [] [] ++
  access "DMOV" 0x6900 [] [] ++ access "LT" 0x6A00 [] [] ++ access "LTD" 0x6B00 [] [] ++
  access "LTA" 0x6C00 [] [] ++ access "MPY" 0x6D00 [] [] ++ access "LDP" 0x6F00 [] [] ++
  access "XOR" 0x7800 [] [] ++ access "AND" 0x7900 [] [] ++ access "OR" 0x7A00 [] [] ++
  access "LST" 0x7B00 [] [] ++ access "SST" 0x7C00 [] [] ++ access "TBLW" 0x7D00 [] []

/-- `LARP` is `MAR` with a fixed indirect operand, so the base page comes first. -/
def pages : List (Page Mode) := [{ entries := base }, { entries := memory }]

end CrossAsm.Tms32010
