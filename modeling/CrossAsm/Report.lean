import CrossAsm.Json
import CrossAsm.Target

/-! Instructions, targets and symbol tables as JSON. -/

namespace CrossAsm

def Cause.tag : Cause → String
  | unknownInstruction => "UnknownInstruction"
  | operandNotAllowed => "OperandNotAllowed"
  | unknownOperand => "UnknownOperand"
  | illegalSize => "IllegalSize"
  | overflowRange => "OverflowRange"
  | illegalConstant => "IllegalConstant"
  | illegalBitNumber => "IllegalBitNumber"
  | operandNotAligned => "OperandNotAligned"
  | operandTooFar => "OperandTooFar"
  | undefinedSymbol => "UndefinedSymbol"
  | duplicateRegister => "DuplicateRegister"
  | registerNotAllowed => "RegisterNotAllowed"
  | garbageAtEnd => "GarbageAtEnd"
  | missingClosingParen => "MissingClosingParen"
  | missingClosingQuote => "MissingClosingQuote"
  | divideByZero => "DivideByZero"
  | noMemory => "NoMemory"
  | internalError => "InternalError"

def Dialect.tag : Dialect → String
  | intel => "Intel"
  | motorola => "Motorola"
  | national => "National"
  | texas => "Texas"

def Endian.tag : Endian → String
  | big => "Big"
  | little => "Little"

def Cell.tag : Cell → String
  | byte => "Byte"
  | word => "Word"

def Origin.tag : Origin → String
  | start => "Start"
  | finish => "End"

def Target.tag : Target → String
  | mc6800 => "Mc6800"
  | mc6801 => "Mc6801"
  | hd6301 => "Hd6301"
  | z80 => "Z80"
  | ns32000 => "Ns32000"
  | tms32010 => "Tms32010"

def Fault.json (f : Fault) : Json := .object [("kind", .str f.cause.tag), ("at", .int f.offset)]

def Decoded.json (d : Decoded) : Json :=
  .object [("address", .int d.address.toNat), ("bytes", .list (d.bytes.map fun b => .int b.toNat)),
    ("mnemonic", .str d.mnemonic), ("operands", .list (d.operands.map .str)),
    ("error", (d.fault.map Fault.json).getD .null)]

def Rung.json (r : Rung) : Json :=
  .object [("bytes", .int r.bytes), ("tag", .int r.tag), ("tag_bits", .int r.tagBits),
    ("min", .int r.min), ("max", .int r.max)]

def Config.json (c : Config) : Json :=
  .object [("dialect", .str c.dialect.tag), ("endian", .str c.endian.tag),
    ("unit", .str c.cell.tag), ("address_bits", .int c.addressBits),
    ("rel_base", .str c.origin.tag),
    ("ladder", if c.ladder.isEmpty then .null else .list (c.ladder.map Rung.json))]

def Target.json (t : Target) : Json :=
  .object [("cpu", .str t.tag), ("config", t.config.json),
    ("mnemonics", .list (t.mnemonics.map .str))]

/-- The shown names with their addresses. -/
def Symbols.json (s : Symbols) : Json :=
  .list (s.shown.map fun (name, address) =>
    .object [("addr", .int address.toNat), ("name", .str name)])

end CrossAsm
