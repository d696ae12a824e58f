/-! The words of a command line: options with a value, flags, plain words, and a command with
words of its own. -/

namespace CrossAsm

/-- What a command line may hold. -/
structure Usage where
  /-- Options with a value: each spelling and the name it stands for. -/
  options : List (String × String)
  flags : List String
  /-- How many plain words there are. -/
  plain : Nat
  /-- Words that end the list and stand in front of a command line of their own. -/
  commands : List String

structure Arguments where
  options : List (String × String) := []
  flags : List String := []
  plain : List String := []
  command : Option (String × List String) := none
deriving DecidableEq, Repr

namespace Arguments

/-- A dash and something behind it. -/
def isOption (word : String) : Bool :=
  match word.toList with
  | '-' :: _ :: _ => true
  | _ => false

/-- Sorts the words. Behind `--` all words are plain. -/
def sort (u : Usage) : List String → Option Arguments
  | [] => some {}
  | word :: rest =>
    if u.commands.contains word then some { command := some (word, rest) }
    else if word = "--" then some { plain := rest }
    else if !isOption word then (sort u rest).map fun a => { a with plain := word :: a.plain }
    else if u.flags.contains word then
      (sort u rest).map fun a => { a with flags := word :: a.flags }
    else
      match u.options.lookup word, rest with
      | some name, value :: rest =>
        if isOption value then none
        else (sort u rest).map fun a => { a with options := (name, value) :: a.options }
      | _, _ => none

/-- Sorts the words and checks them: no option or flag comes twice, and there are as many plain
words as asked for. -/
def read (u : Usage) (words : List String) : Option Arguments :=
  (sort u words).filter fun a =>
    (a.options.map (·.1)).Nodup ∧ a.flags.Nodup ∧ a.plain.length = u.plain

def option? (a : Arguments) (name : String) : Option String := a.options.lookup name

def flag (a : Arguments) (name : String) : Bool := a.flags.contains name

/-- The value of an option read by `f`, or `missing` if it is not there; `none` if `f` refuses
it. -/
def get {α : Type} (a : Arguments) (name : String) (missing : α) (f : String → Option α) :
    Option α :=
  match a.option? name with
  | none => some missing
  | some value => f value

end Arguments

end CrossAsm
