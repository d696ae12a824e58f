import CrossAsm.Json

/-! Reading the parts of a JSON text: strings and whole numbers for their value, and values that
are only passed over. -/

namespace CrossAsm.Json

def isSpace (ch : Char) : Bool := ch == ' ' || ch == '\n' || ch == '\r' || ch == '\t'

def skip (cs : List Char) : List Char := cs.dropWhile isSpace

/-- Four hexadecimal digits. -/
def hexQuad? : List Char → Option (Nat × List Char)
  | a :: b :: c :: d :: rest => do
    let a ← Text.digit? 16 a
    let b ← Text.digit? 16 b
    let c ← Text.digit? 16 c
    let d ← Text.digit? 16 d
    return (((a * 16 + b) * 16 + c) * 16 + d, rest)
  | _ => none

/-- The character of a `\u` escape, whose digits come next. A high surrogate needs a low one
behind it. -/
def unicode? (cs : List Char) : Option (Char × List Char) := do
  let (n, rest) ← hexQuad? cs
  if 0xD800 ≤ n ∧ n < 0xDC00 then
    match rest with
    | '\\' :: 'u' :: rest =>
      let (low, rest) ← hexQuad? rest
      if 0xDC00 ≤ low ∧ low < 0xE000 then
        return (Char.ofNat (0x10000 + (n - 0xD800) * 0x400 + (low - 0xDC00)), rest)
      else none
    | _ => none
  else if 0xDC00 ≤ n ∧ n < 0xE000 then none
  else return (Char.ofNat n, rest)

/-- The escape behind a backslash. -/
def unescape? : List Char → Option (Char × List Char)
  | '"' :: rest => some ('"', rest)
  | '\\' :: rest => some ('\\', rest)
  | '/' :: rest => some ('/', rest)
  | 'b' :: rest => some ('\x08', rest)
  | 'f' :: rest => some ('\x0c', rest)
  | 'n' :: rest => some ('\n', rest)
  | 'r' :: rest => some ('\r', rest)
  | 't' :: rest => some ('\t', rest)
  | 'u' :: rest => unicode? rest
  | _ => none

/-- The rest of a string up to its closing quote. -/
def string? : Nat → List Char → Option (List Char × List Char)
  | 0, _ => none
  | _, [] => none
  | _ + 1, '"' :: rest => some ([], rest)
  | fuel + 1, '\\' :: rest => do
    let (ch, rest) ← unescape? rest
    let (more, rest) ← string? fuel rest
    return (ch :: more, rest)
  | fuel + 1, ch :: rest =>
    if ch.toNat < 0x20 then none
    else do
      let (more, rest) ← string? fuel rest
      return (ch :: more, rest)

/-- Digits, one at least. -/
def digits? (cs : List Char) : Option (List Char × List Char) :=
  match cs.takeWhile Char.isDigit with
  | [] => none
  | ds => some (ds, cs.dropWhile Char.isDigit)

/-- A whole number without a sign: no zero stands in front of another digit. -/
def whole? (cs : List Char) : Option (Nat × List Char) :=
  match digits? cs with
  | some ('0' :: _ :: _, _) | none => none
  | some (ds, rest) => some (ds.foldl (fun n ch => n * 10 + (Text.digit? 10 ch).getD 0) 0, rest)

/-! ### Passing over values

What is passed over has to be well formed but need not mean anything: a string may hold half a
surrogate pair. -/

/-- The text behind a string whose opening quote is passed already. -/
def skipString? : List Char → Option (List Char)
  | [] => none
  | '"' :: rest => some rest
  | '\\' :: 'u' :: a :: b :: c :: d :: rest =>
    if [a, b, c, d].all (Text.isDigitOf 16) then skipString? rest else none
  | '\\' :: ch :: rest =>
    if ['"', '\\', '/', 'b', 'f', 'n', 'r', 't'].contains ch then skipString? rest else none
  | ch :: rest => if ch.toNat < 0x20 then none else skipString? rest

/-- The text behind a fraction, if there is one. -/
def skipFraction? : List Char → Option (List Char)
  | '.' :: rest => (digits? rest).map (·.2)
  | rest => some rest

/-- The text behind an exponent, if there is one. -/
def skipExponent? : List Char → Option (List Char)
  | [] => some []
  | e :: rest =>
    if e == 'e' || e == 'E' then
      match rest with
      | '+' :: rest | '-' :: rest => (digits? rest).map (·.2)
      | rest => (digits? rest).map (·.2)
    else some (e :: rest)

def skipNumber? (cs : List Char) : Option (List Char) := do
  let (_, rest) ← whole? (if cs.head? == some '-' then cs.drop 1 else cs)
  let rest ← skipFraction? rest
  skipExponent? rest

mutual

/-- The text behind a value. Every value, item and field takes up a character at least. -/
def skipValue? : Nat → List Char → Option (List Char)
  | 0, _ => none
  | fuel + 1, cs =>
    match skip cs with
    | 'n' :: 'u' :: 'l' :: 'l' :: rest => some rest
    | 't' :: 'r' :: 'u' :: 'e' :: rest => some rest
    | 'f' :: 'a' :: 'l' :: 's' :: 'e' :: rest => some rest
    | '"' :: rest => skipString? rest
    | '[' :: rest =>
      match skip rest with
      | ']' :: rest => some rest
      | rest => skipItems? fuel rest
    | '\x7b' :: rest =>
      match skip rest with
      | '\x7d' :: rest => some rest
      | rest => skipFields? fuel rest
    | rest => skipNumber? rest

/-- The text behind the items of a list and its closing bracket. -/
def skipItems? : Nat → List Char → Option (List Char)
  | 0, _ => none
  | fuel + 1, cs => do
    let rest ← skipValue? fuel cs
    match skip rest with
    | ',' :: rest => skipItems? fuel rest
    | ']' :: rest => some rest
    | _ => none

/-- The text behind the fields of an object and its closing brace. -/
def skipFields? : Nat → List Char → Option (List Char)
  | 0, _ => none
  | fuel + 1, cs =>
    match skip cs with
    | '"' :: rest => do
      let rest ← skipString? rest
      match skip rest with
      | ':' :: rest =>
        let rest ← skipValue? fuel rest
        match skip rest with
        | ',' :: rest => skipFields? fuel rest
        | '\x7d' :: rest => some rest
        | _ => none
      | _ => none
    | _ => none

end

end CrossAsm.Json
