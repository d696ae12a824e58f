import CrossAsm.Text.Cursor
import CrossAsm.Text.Lines

/-! Source lines as statements: a label, if there is one, and what the rest of the line asks for.
Reading a statement needs neither symbols nor a location. -/

namespace CrossAsm

inductive Action where
  /-- Blank, or a comment. -/
  | nothing
  /-- Moves the location to the value of the expression at the cursor. -/
  | origin (expression : Cursor)
  /-- Lays down the numbers at the cursor, each of so many bytes. -/
  | data (width : Nat) (items : Cursor)
  /-- A dot in front of a word that is no directive. -/
  | unknownDirective
  | instruction (text : String)
deriving DecidableEq, Repr

namespace Action

/-- The directive with this name, in any letter case, whose arguments are at the cursor. -/
def directive? (name : String) (arguments : Cursor) : Option Action :=
  match Text.upper name with
  | "ORG" => some (.origin arguments)
  | "BYTE" | "DB" => some (.data 1 arguments)
  | "WORD" | "DW" => some (.data 2 arguments)
  | _ => none

/-- Reads what stands behind the label. The dot in front of a directive may be left out, so any
other line without one is an instruction. -/
def read (c : Cursor) : Action :=
  if c.atEnd then .nothing
  else
    let dot := c.eat? '.'
    match (dot.getD c).ident?.bind fun (name, after) => directive? name after with
    | some action => action
    | none => if dot.isSome then .unknownDirective else .instruction (String.ofList c.rest)

end Action

structure Statement where
  /-- The number of the line, from 1. -/
  number : Nat
  label : Option String
  action : Action
deriving DecidableEq, Repr

namespace Statement

/-- An identifier with a colon right behind it. -/
def label? (c : Cursor) : Option (String × Cursor) :=
  c.ident?.bind fun (name, after) => (after.eat? ':').map fun after => (name, after)

def read (number : Nat) (line : String) : Statement :=
  let c := (Cursor.start line).skipSpaces
  match label? c with
  | some (name, after) => ⟨number, some name, Action.read after.skipSpaces⟩
  | none => ⟨number, none, Action.read c⟩

/-- The statements of lines counted from `number`. -/
def readLines : Nat → List String → List Statement
  | _, [] => []
  | number, line :: rest => read number line :: readLines (number + 1) rest

def ofText (text : String) : List Statement := readLines 1 (Text.lines text)

end Statement

end CrossAsm
