/-! A disk as a value: items in directories, the way a path leads to them, and what happens when
it leads nowhere. -/

namespace CrossAsm

/-- Why a file cannot be read or written. -/
inductive FileError where
  | missing
  | notDirectory
  | isDirectory
  | nameTooLong
  | notText
  | other (text : String)
deriving DecidableEq, Repr

def FileError.message : FileError → String
  | missing => "No such file or directory (os error 2)"
  | notDirectory => "Not a directory (os error 20)"
  | isDirectory => "Is a directory (os error 21)"
  | nameTooLong => "File name too long (os error 36)"
  | notText => "stream did not contain valid UTF-8"
  | other text => text

/-! ### Paths -/

namespace Path

/-- The names between the slashes. -/
def split : List Char → List (List Char)
  | [] => [[]]
  | '/' :: rest => [] :: split rest
  | ch :: rest =>
    match split rest with
    | [] => [[ch]]
    | name :: names => (ch :: name) :: names

/-- The names of a path without the slashes at its end. -/
def names (path : String) : List String :=
  let slashesDropped := (path.toList.reverse.dropWhile (· == '/')).reverse
  (split slashesDropped).map String.ofList

/-- Does the path start at the root? -/
def isAbsolute (path : String) : Bool := path.toList.head? == some '/'

/-- Does the path ask for a directory by a slash at its end? -/
def isSlashed (path : String) : Bool := path.toList.getLast? == some '/'

/-- The last name without its extension. A dot in front of the name begins none. -/
def stem (path : String) : String :=
  let name := (path.toList.reverse.takeWhile (· != '/')).reverse
  let stem := ((name.reverse.dropWhile (· != '.')).drop 1).reverse
  String.ofList (if stem.isEmpty then name else stem)

/-- The bytes that one name can have. -/
def nameLimit : Nat := 255

/-- The bytes that a path can have. -/
def limit : Nat := 4095

end Path

inductive Item where
  | file (bytes : List UInt8)
  /-- Takes whatever is written to it and reads as empty. -/
  | sink
deriving DecidableEq, Repr

def Item.contents : Item → List UInt8
  | file bytes => bytes
  | sink => []

structure Disk where
  /-- The directory that paths start from unless they start at the root. -/
  working : List String
  /-- Items by their names from the root down. The first of one place counts. -/
  items : List (List String × Item)
deriving DecidableEq, Repr

/-- Where a path leads. -/
inductive Place where
  | directory
  | item (location : List String) (item : Item)
  /-- Nothing yet, in a directory that exists. -/
  | vacant (location : List String)
deriving DecidableEq, Repr

namespace Disk

/-- A disk with an empty working directory. The null device is a sink. -/
def empty (working : List String) : Disk := ⟨working, [(["dev", "null"], .sink)]⟩

/-- Every location above an item or down to the working directory is a directory. -/
def isDirectory (d : Disk) (location : List String) : Bool :=
  location.isPrefixOf d.working ||
    d.items.any fun i => location.isPrefixOf i.1 && location != i.1

/-- Follows names from a directory on. -/
def walk (d : Disk) : List String → List String → Except FileError Place
  | _, [] => .ok .directory
  | here, name :: rest =>
    if name = "" ∨ name = "." then d.walk here rest
    else if name = ".." then d.walk here.dropLast rest
    else if Path.nameLimit < name.utf8ByteSize then .error .nameTooLong
    else
      let there := here ++ [name]
      if d.isDirectory there then d.walk there rest
      else
        match d.items.lookup there, rest with
        | some item, [] => .ok (.item there item)
        | none, [] => .ok (.vacant there)
        | some _, _ => .error .notDirectory
        | none, _ => .error .missing

/-- Where a path leads, a slash at its end aside. An empty path leads nowhere. -/
def find (d : Disk) (path : String) : Except FileError Place :=
  if path.isEmpty then .error .missing
  else if Path.limit < path.utf8ByteSize then .error .nameTooLong
  else d.walk (if Path.isAbsolute path then [] else d.working) (Path.names path)

def read (d : Disk) (path : String) : Except FileError (List UInt8) :=
  match d.find path with
  | .error e => .error e
  | .ok .directory => .error .isDirectory
  | .ok (.vacant _) => .error .missing
  | .ok (.item _ item) => if Path.isSlashed path then .error .notDirectory else .ok item.contents

/-- Puts a file at a location, with all directories above it. -/
def put (d : Disk) (location : List String) (bytes : List UInt8) : Disk :=
  { d with items := (location, .file bytes) :: d.items }

/-- Writes a file, new or in place of an old one, into a directory that exists. -/
def write (d : Disk) (path : String) (bytes : List UInt8) : Except FileError Disk :=
  match d.find path with
  | .error e => .error e
  | .ok .directory => .error .isDirectory
  | .ok place =>
    if Path.isSlashed path then .error .isDirectory
    else
      match place with
      | .item location (.file _) | .vacant location => .ok (d.put location bytes)
      | _ => .ok d

/-- Writes files one after the other, up to the first that cannot be written. -/
def writeAll (d : Disk) : List (String × List UInt8) → Disk × Option FileError
  | [] => (d, none)
  | (path, bytes) :: rest =>
    match d.write path bytes with
    | .ok d => d.writeAll rest
    | .error e => (d, some e)

/-- Puts a file below the working directory. -/
def add (d : Disk) (name : String) (bytes : List UInt8) : Disk :=
  d.put (d.working ++ Path.names name) bytes

end Disk

end CrossAsm
