import CrossAsm.Json.Read
import CrossAsm.Symbols

/-! Reading a symbol table from JSON: a list of definitions, each an object with an address and a
name, or a list of the two. -/

namespace CrossAsm.Symbols

/-- A string at the cursor. -/
def readName? (cs : List Char) : Option (String × List Char) :=
  match Json.skip cs with
  | '"' :: rest =>
    (Json.string? (rest.length + 1) rest).map fun (name, rest) => (String.ofList name, rest)
  | _ => none

/-- A whole number of 32 bits. -/
def readAddress? (cs : List Char) : Option (UInt32 × List Char) :=
  match Json.whole? (Json.skip cs) with
  | some (n, rest) => if n < 0x100000000 then some (UInt32.ofNat n, rest) else none
  | none => none

/-- The text behind a character that has to come next. -/
def expect? (ch : Char) (cs : List Char) : Option (List Char) :=
  match Json.skip cs with
  | next :: rest => if next = ch then some rest else none
  | [] => none

/-- The value of a field: the address or the name, which are given once, or one of no interest. -/
def readField? (key : String) (address : Option UInt32) (name : Option String) (cs : List Char) :
    Option (Option UInt32 × Option String × List Char) :=
  match key, address, name with
  | "addr", none, _ => (readAddress? cs).map fun (a, rest) => (some a, name, rest)
  | "name", _, none => (readName? cs).map fun (s, rest) => (address, some s, rest)
  | "addr", some _, _ | "name", _, some _ => none
  | _, _, _ => (Json.skipValue? (cs.length + 1) cs).map fun rest => (address, name, rest)

/-- The fields of an object up to its closing brace. -/
def readFields? : Nat → Option UInt32 → Option String → List Char →
    Option ((String × UInt32) × List Char)
  | 0, _, _, _ => none
  | fuel + 1, address, name, cs => do
    let (key, rest) ← readName? cs
    let rest ← expect? ':' rest
    let (address, name, rest) ← readField? key address name rest
    match Json.skip rest with
    | ',' :: rest => readFields? fuel address name rest
    | '\x7d' :: rest => return ((← name, ← address), rest)
    | _ => none

def readDefinition? (cs : List Char) : Option ((String × UInt32) × List Char) :=
  match Json.skip cs with
  | '\x7b' :: rest => readFields? (rest.length + 1) none none rest
  | '[' :: rest => do
    let (address, rest) ← readAddress? rest
    let rest ← expect? ',' rest
    let (name, rest) ← readName? rest
    let rest ← expect? ']' rest
    return ((name, address), rest)
  | _ => none

/-- Definitions up to the closing bracket. -/
def readDefinitions? : Nat → List Char → Option (List (String × UInt32) × List Char)
  | 0, _ => none
  | fuel + 1, cs => do
    let (d, rest) ← readDefinition? cs
    match Json.skip rest with
    | ',' :: rest =>
      let (more, rest) ← readDefinitions? fuel rest
      return (d :: more, rest)
    | ']' :: rest => return ([d], rest)
    | _ => none

/-- The definitions in a text that holds nothing else. -/
def definitions? (text : String) : Option (List (String × UInt32)) := do
  let rest ← expect? '[' text.toList
  let (defs, rest) ←
    match Json.skip rest with
    | ']' :: rest => some ([], rest)
    | rest => readDefinitions? (rest.length + 1) rest
  if (Json.skip rest).isEmpty then return defs else none

/-- The table that the definitions in a text make, one after the other. -/
def ofText? (text : String) : Option Symbols := (definitions? text).map ofList

end CrossAsm.Symbols
