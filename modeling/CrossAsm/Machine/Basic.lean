import CrossAsm.Decoding
import CrossAsm.Layout
import CrossAsm.Rendering
import CrossAsm.Table
import CrossAsm.Value.Expression

/-! A target processor: its tables, its operand syntax, and its own rules where the general ones
do not reach. -/

namespace CrossAsm

structure Machine (Mode Reg : Type) where
  name : String
  config : Config
  /-- The variant bits of this processor. -/
  features : BitVec 32 := BitVec.allOnes 32
  pages : List (Page Mode)
  /-- Does a slot of the first mode take an operand of the second? -/
  accepts : Mode → Mode → Bool
  shape : Mode → Shape
  /-- Reads one operand; the cursor after it is where reading stopped, also after a fault. -/
  parseOperand : Scope → Cursor → Operand Mode Reg × Cursor
  /-- The field that stands for an operand's register in a slot of this mode. -/
  registerField : Mode → Operand Mode Reg → Except Cause Nat :=
    fun _ _ => .error .registerNotAllowed
  /-- The operand a register field stands for. -/
  registerOperand : Mode → Nat → Option (Operand Mode Reg) := fun _ _ => none
  /-- What is wrong with operands that the slots take one by one. -/
  check : Entry Mode → List (Operand Mode Reg) → Option Cause := fun _ _ => none
  encodeCustom : Entry Mode → Slot Mode → Operand Mode Reg → Draft → Draft × Option Cause :=
    fun _ _ _ d => (d, some .internalError)
  /-- Reads the operand of a custom slot, given its index byte if it has one. -/
  decodeCustom : Entry Mode → Slot Mode → Option UInt8 → Decoding →
      Option (Operand Mode Reg) × Decoding :=
    fun _ _ _ d => (none, d.fail .internalError)
  /-- Does a slot of this mode with this field have an index byte in front of all operands? -/
  hasIndexByte : Mode → Nat → Bool := fun _ _ => false
  /-- Leaves out decoded operands that are not written. -/
  tidy : List (Operand Mode Reg) → List (Operand Mode Reg) := id
  formatOperand : Rendering → Operand Mode Reg → String

namespace Machine

variable {Mode Reg : Type}

/-- Is the page part of this variant? -/
def enabled (m : Machine Mode Reg) (page : Page Mode) : Bool := page.features &&& m.features != 0

/-- Every entry with its page, in table order. -/
def entries (m : Machine Mode Reg) : List (Page Mode × Entry Mode) :=
  m.pages.flatMap fun page => page.entries.map fun entry => (page, entry)

/-- The entries of a name, letter case aside, in table order. -/
def candidates (m : Machine Mode Reg) (name : String) : List (Page Mode × Entry Mode) :=
  let name := Text.upper name
  m.entries.filter fun hit => hit.2.name == name

/-- Names in increasing order, each once. -/
def sortNames (names : List String) : List String :=
  ((names.foldl (fun m name => m.insert name ()) (∅ : SortedMap String Unit)).toList).map (·.1)

/-- The names of every page. -/
def allMnemonics (m : Machine Mode Reg) : List String :=
  sortNames (m.entries.map (·.2.name))

/-- The names this variant has. -/
def mnemonics (m : Machine Mode Reg) : List String :=
  sortNames ((m.entries.filter fun hit => m.enabled hit.1).map (·.2.name))

end Machine

end CrossAsm
