/-! What can go wrong while a line is assembled or an instruction decoded, and where. -/

namespace CrossAsm

inductive Cause where
  | unknownInstruction
  | operandNotAllowed
  | unknownOperand
  | illegalSize
  | overflowRange
  | illegalConstant
  | illegalBitNumber
  | operandNotAligned
  | operandTooFar
  | undefinedSymbol
  | duplicateRegister
  | registerNotAllowed
  | garbageAtEnd
  | missingClosingParen
  | missingClosingQuote
  | divideByZero
  | noMemory
  | internalError
deriving DecidableEq, Repr

def Cause.text : Cause → String
  | unknownInstruction => "unknown instruction"
  | operandNotAllowed => "operand not allowed"
  | unknownOperand => "unknown operand"
  | illegalSize => "illegal size"
  | overflowRange => "overflow range"
  | illegalConstant => "illegal constant"
  | illegalBitNumber => "illegal bit number"
  | operandNotAligned => "operand not aligned"
  | operandTooFar => "operand too far"
  | undefinedSymbol => "undefined symbol"
  | duplicateRegister => "duplicate register"
  | registerNotAllowed => "register not allowed"
  | garbageAtEnd => "garbage at end"
  | missingClosingParen => "missing closing paren"
  | missingClosingQuote => "missing closing quote"
  | divideByZero => "divide by zero"
  | noMemory => "no memory"
  | internalError => "internal error"

/-- A cause and the byte offset it was found at: inside the source line when assembling,
inside the instruction when decoding. -/
structure Fault where
  cause : Cause
  offset : Nat
deriving DecidableEq, Repr

/-- The fault of this cause at a byte offset. -/
def Cause.located (cause : Cause) (offset : Nat) : Fault := ⟨cause, offset⟩

def Fault.message (f : Fault) : String :=
  f.cause.text ++ " at " ++ toString f.offset

/-- A soft fault still lets the instruction be emitted: a later pass may know the symbol. -/
def Fault.isSoft (f : Fault) : Bool := f.cause == .undefinedSymbol

end CrossAsm
