/-! The characters with the Unicode property White_Space, and the letter case of ASCII text. -/

namespace CrossAsm.Text

/-- White_Space: the tab to carriage-return block, the space, and the wider separators. -/
def isBlank (c : Char) : Bool :=
  let n := c.toNat
  (0x09 ≤ n && n ≤ 0x0D) || n == 0x20 || n == 0x85 || n == 0xA0 || n == 0x1680 ||
    (0x2000 ≤ n && n ≤ 0x200A) || n == 0x2028 || n == 0x2029 || n == 0x202F || n == 0x205F ||
    n == 0x3000

/-- Upper case of the ASCII letters; every other character stays. -/
def upper (s : String) : String := String.ofList (s.toList.map Char.toUpper)

/-- Lower case of the ASCII letters; every other character stays. -/
def lower (s : String) : String := String.ofList (s.toList.map Char.toLower)

/-- The text without the blanks at either end. -/
def trim (s : String) : String :=
  String.ofList ((s.toList.dropWhile isBlank).reverse.dropWhile isBlank).reverse

end CrossAsm.Text
