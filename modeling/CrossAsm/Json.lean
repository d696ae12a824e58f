import CrossAsm.Text.Radix

/-! JSON values and their text, indented by two spaces a level. -/

namespace CrossAsm

inductive Json where
  | null
  | int (i : Int)
  | str (s : String)
  | list (items : List Json)
  | object (fields : List (String × Json))

namespace Json

/-- A character inside a string. Control characters have escapes; all others but the quote and the
backslash stand for themselves. -/
def escape (ch : Char) : String :=
  match ch with
  | '"' => "\\\""
  | '\\' => "\\\\"
  | '\n' => "\\n"
  | '\r' => "\\r"
  | '\t' => "\\t"
  | '\x08' => "\\b"
  | '\x0c' => "\\f"
  | ch => if ch.toNat < 0x20 then "\\u" ++ Text.hexLower 4 ch.toNat else String.singleton ch

def quoted (s : String) : String := "\"" ++ String.join (s.toList.map escape) ++ "\""

def newline (level : Nat) : String := "\n" ++ String.join (List.replicate level "  ")

mutual

/-- The text of a value whose first line is indented already. -/
def textAt (level : Nat) : Json → String
  | null => "null"
  | int i => Text.decimalInt i
  | str s => quoted s
  | list [] => "[]"
  | list items => "[" ++ itemsAt (level + 1) items ++ newline level ++ "]"
  | object [] => "\x7b\x7d"
  | object fields => "\x7b" ++ fieldsAt (level + 1) fields ++ newline level ++ "\x7d"

def itemsAt (level : Nat) : List Json → String
  | [] => ""
  | [item] => newline level ++ textAt level item
  | item :: rest => newline level ++ textAt level item ++ "," ++ itemsAt level rest

def fieldsAt (level : Nat) : List (String × Json) → String
  | [] => ""
  | [(key, value)] => newline level ++ quoted key ++ ": " ++ textAt level value
  | (key, value) :: rest =>
    newline level ++ quoted key ++ ": " ++ textAt level value ++ "," ++ fieldsAt level rest

end

def text (j : Json) : String := j.textAt 0

end Json

end CrossAsm
