/-! The lines of a text. A line ends with a newline, and a carriage return right in front of the
newline belongs to the end. What stands behind the last newline is a line if it is not empty. -/

namespace CrossAsm.Text

def splitLines : List Char → List (List Char)
  | [] => []
  | '\n' :: rest => [] :: splitLines rest
  | '\r' :: '\n' :: rest => [] :: splitLines rest
  | ch :: rest =>
    match splitLines rest with
    | [] => [[ch]]
    | line :: lines => (ch :: line) :: lines

def lines (text : String) : List String := (splitLines text.toList).map String.ofList

end CrossAsm.Text
