import CrossAsm.SortedMap

/-! The symbol table: the value of each name, and the name shown for each address. -/

namespace CrossAsm

structure Symbols where
  values : SortedMap String UInt32
  names : SortedMap UInt32 String
deriving DecidableEq

namespace Symbols

def empty : Symbols := ⟨∅, ∅⟩

instance : EmptyCollection Symbols := ⟨empty⟩

def value? (s : Symbols) (name : String) : Option UInt32 := s.values.get? name

def name? (s : Symbols) (address : UInt32) : Option String := s.names.get? address

/-- Defines or redefines `name`. The first name given to an address is the one shown for it,
until that name moves elsewhere. -/
def define (s : Symbols) (name : String) (value : UInt32) : Symbols :=
  let names :=
    match s.value? name with
    | some old => if s.name? old = some name then s.names.erase old else s.names
    | none => s.names
  ⟨s.values.insert name value, names.insertIfNew value name⟩

/-- Definitions made one after the other. -/
def ofList (defs : List (String × UInt32)) : Symbols :=
  defs.foldl (fun s d => s.define d.1 d.2) ∅

/-- The shown names with their addresses, in address order. -/
def shown (s : Symbols) : List (String × UInt32) := s.names.toList.map fun e => (e.2, e.1)

/-- The closest shown name at or below `address`, with the distance to it. -/
def nearest? (s : Symbols) (address : UInt32) : Option (String × UInt32) :=
  (s.names.floor? address).map fun e => (e.2, address - e.1)

def size (s : Symbols) : Nat := s.values.size

end Symbols

end CrossAsm
