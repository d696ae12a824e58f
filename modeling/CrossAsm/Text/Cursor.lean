import CrossAsm.Text.Blank

/-! A cursor over one line of assembly text: how many bytes of its UTF-8 form are behind it,
and the characters still ahead. Every operation moves over whole characters, so the position
is always a character boundary. -/

namespace CrossAsm

/-- Bytes of the UTF-8 form of a run of characters. -/
def Text.utf8Length : List Char → Nat
  | [] => 0
  | ch :: rest => ch.utf8Size + utf8Length rest

def Text.isIdentStart (c : Char) : Bool := c.isAlpha || c == '_'

def Text.isIdentChar (c : Char) : Bool := c.isAlphanum || c == '_' || c == '.'

structure Cursor where
  pos : Nat
  rest : List Char
deriving DecidableEq, Repr

namespace Cursor

def start (line : String) : Cursor := ⟨0, line.toList⟩

def peek? (c : Cursor) : Option Char := c.rest.head?

/-- Moves over the next `n` characters, or to the end if there are fewer. -/
def advance (c : Cursor) (n : Nat) : Cursor :=
  ⟨c.pos + Text.utf8Length (c.rest.take n), c.rest.drop n⟩

/-- The longest run of characters satisfying `p`. -/
def run (c : Cursor) (p : Char → Bool) : List Char := c.rest.takeWhile p

/-- Moves over the longest run of characters satisfying `p`. -/
def skipWhile (c : Cursor) (p : Char → Bool) : Cursor :=
  ⟨c.pos + Text.utf8Length (c.rest.takeWhile p), c.rest.dropWhile p⟩

/-- Moves over spaces and tabs; no other blank separates tokens. -/
def skipSpaces (c : Cursor) : Cursor := c.skipWhile fun ch => ch == ' ' || ch == '\t'

def eat? (c : Cursor) (ch : Char) : Option Cursor :=
  if c.peek? = some ch then some (c.advance 1) else none

/-- Does the text begin with the word, letter case aside? -/
def startsWith : List Char → List Char → Bool
  | [], _ => true
  | w :: word, ch :: rest => w.toUpper == ch.toUpper && startsWith word rest
  | _ :: _, [] => false

/-- Moves over `word`, letter case aside, when no identifier character follows it. -/
def eatWord? (c : Cursor) (word : String) : Option Cursor :=
  let after := c.advance word.toList.length
  if startsWith word.toList c.rest && !(after.peek?.any Text.isIdentChar) then some after
  else none

/-- The identifier at the cursor. -/
def peekIdent? (c : Cursor) : Option String :=
  if c.peek?.any Text.isIdentStart then some (String.ofList (c.run Text.isIdentChar)) else none

/-- The identifier at the cursor and the cursor after it. -/
def ident? (c : Cursor) : Option (String × Cursor) :=
  c.peekIdent?.map fun name => (name, c.skipWhile Text.isIdentChar)

/-- Only blanks or a `;` comment remain. -/
def atEnd (c : Cursor) : Bool :=
  match c.rest.dropWhile Text.isBlank with
  | [] => true
  | ch :: _ => ch == ';'

/-- The first character boundary at or after byte `offset`, walking from byte `pos`. -/
def seekFrom (pos : Nat) : List Char → Nat → Cursor
  | [], _ => ⟨pos, []⟩
  | ch :: rest, offset =>
    if offset ≤ pos then ⟨pos, ch :: rest⟩ else seekFrom (pos + ch.utf8Size) rest offset

/-- The cursor over `line` at byte `offset`, or at its end if the line is shorter. -/
def seek (line : String) (offset : Nat) : Cursor := seekFrom 0 line.toList offset

end Cursor

end CrossAsm
