import CrossAsm.Proofs.Text.Slice

/-! A cursor that knows no more than its line and a byte of it. Whatever it looks at it cuts out of
the line, and it moves by numbers of bytes: one for a space, the length of a word for a word. So
it fails where a number is wrong and a cut goes through a character. In step with a cursor over
characters it never does, and finds the same. -/

namespace CrossAsm

open Text

structure ByteCursor where
  line : String
  pos : Nat

namespace ByteCursor

def rest? (b : ByteCursor) : Option String := slice? b.line b.pos b.line.utf8ByteSize

def peek? (b : ByteCursor) : Option (Option Char) := do
  let rest ← b.rest?
  some rest.toList.head?

def peekNth? (b : ByteCursor) (n : Nat) : Option (Option Char) := do
  let rest ← b.rest?
  some rest.toList[n]?

def moved (b : ByteCursor) (bytes : Nat) : ByteCursor := { b with pos := b.pos + bytes }

/-- Goes to a byte, or to the end if the line is shorter. -/
def seek (b : ByteCursor) (pos : Nat) : ByteCursor :=
  { b with pos := min pos b.line.utf8ByteSize }

def bump? (b : ByteCursor) : Option (Option Char × ByteCursor) := do
  match ← b.peek? with
  | none => some (none, b)
  | some ch => some (some ch, b.moved ch.utf8Size)

theorem lt_of_peek? {b : ByteCursor} {next : Option Char} {p : Char → Bool}
    (found : b.peek? = some next) (inside : next.any p = true) : b.pos < b.line.utf8ByteSize := by
  by_contra beyond
  have empty : String.Pos.Raw.extract b.line ⟨b.pos⟩ ⟨b.line.utf8ByteSize⟩ = "" :=
    if_pos (Nat.le_of_not_lt beyond)
  obtain rfl : none = next := by
    simp only [peek?, rest?, slice?, empty] at found
    split at found
    · simpa using found
    · simp at found
  exact Bool.false_ne_true inside

/-- Moves over spaces and tabs, byte by byte. -/
def skipSpaces? (b : ByteCursor) : Option ByteCursor :=
  match found : b.peek? with
  | none => none
  | some next =>
    if space : next.any fun ch => ch == ' ' || ch == '\t' then
      have _inside := lt_of_peek? found space
      skipSpaces? (b.moved 1)
    else some b
termination_by b.line.utf8ByteSize - b.pos
decreasing_by
  simp only [moved]
  omega

theorem skipSpaces?_eq {b : ByteCursor} {next : Option Char} (found : b.peek? = some next) :
    b.skipSpaces? = if next.any fun ch => ch == ' ' || ch == '\t' then (b.moved 1).skipSpaces?
      else some b := by
  rw [skipSpaces?]
  split
  next missing => exact absurd (found.symm.trans missing) (by simp)
  next other again =>
    obtain rfl : next = other := Option.some.inj (found.symm.trans again)
    rfl

def eat? (b : ByteCursor) (ch : Char) : Option (Bool × ByteCursor) := do
  let next ← b.peek?
  if next = some ch then some (true, b.moved ch.utf8Size) else some (false, b)

/-- Moves over a word, letter case aside, when no identifier character follows it. The line is cut
only where the length of the word ends between characters. -/
def eatWord? (b : ByteCursor) (word : String) : Option (Bool × ByteCursor) := do
  let rest ← b.rest?
  let width := word.utf8ByteSize
  if rest.utf8ByteSize < width ∨ ¬String.Pos.Raw.IsValid rest ⟨width⟩ then some (false, b)
  else
    let head ← slice? rest 0 width
    if upper head ≠ upper word then some (false, b)
    else
      let tail ← slice? rest width rest.utf8ByteSize
      if tail.toList.head?.any isIdentChar then some (false, b) else some (true, b.moved width)

/-- Bytes in front of the first character outside a class. -/
def width (p : Char → Bool) (text : String) : Nat := utf8Length (text.toList.takeWhile p)

@[simp] theorem width_ofList (p : Char → Bool) (cs : List Char) :
    width p (String.ofList cs) = utf8Length (cs.takeWhile p) := by
  rw [width, String.toList_ofList]

def peekIdent? (b : ByteCursor) : Option (Option String) := do
  let rest ← b.rest?
  if rest.toList.head?.any isIdentStart then
    let name ← slice? rest 0 (width isIdentChar rest)
    some (some name)
  else some none

def ident? (b : ByteCursor) : Option (Option String × ByteCursor) := do
  match ← b.peekIdent? with
  | none => some (none, b)
  | some name => some (some name, b.moved name.utf8ByteSize)

def atEnd? (b : ByteCursor) : Option Bool := do
  let rest ← b.rest?
  match rest.toList.dropWhile isBlank with
  | [] => some true
  | ch :: _ => some (ch == ';')

/-- The digits of one radix, with no identifier character behind them. -/
def digits? (b : ByteCursor) (radix origin : Nat) : Option (Except Fault (Nat × ByteCursor)) := do
  let rest ← b.rest?
  let stop := width (isDigitOf radix) rest
  let tail ← slice? rest stop rest.utf8ByteSize
  if tail.toList.head?.any isIdentChar then
    some (.error (Cause.illegalConstant.located origin))
  else
    let body ← slice? rest 0 stop
    match Literal.accumulate radix 0 body.toList with
    | .ok n => some (.ok (n, b.seek (b.pos + stop)))
    | .error cause => some (.error (cause.located origin))

/-- The digits and the radix of a token of so many bytes. The suffix that is cut off is one byte. -/
def suffixed? (token : String) (bytes : Nat) : Option (String × Nat) :=
  let body := slice? token 0 (bytes - 1)
  let digits (radix : Nat) := do
    let body ← body
    if body.toList.all (isDigitOf radix) then some (body, radix) else some (token, 10)
  match token.toList.getLast?.map Char.toUpper with
  | some 'H' => body.map (·, 16)
  | some 'O' => body.map (·, 8)
  | some 'Q' => body.map (·, 8)
  | some 'B' => digits 2
  | some 'D' => digits 10
  | _ => some (token, 10)

/-- A number with an optional radix suffix, up to the last letter or digit. -/
def withSuffix? (b : ByteCursor) (origin : Nat) : Option (Except Fault (Nat × ByteCursor)) := do
  let rest ← b.rest?
  let stop := width Char.isAlphanum rest
  let token ← slice? rest 0 stop
  let (body, radix) ← suffixed? token stop
  if body.isEmpty then some (.error (Cause.illegalConstant.located origin))
  else
    match Literal.accumulate radix 0 body.toList with
    | .ok n => some (.ok (n, b.seek (b.pos + stop)))
    | .error cause => some (.error (cause.located origin))

end ByteCursor

/-! ### Lengths in bytes -/

namespace Text

theorem utf8Size_of_toNat_le {ch : Char} (small : ch.toNat ≤ 127) : ch.utf8Size = 1 :=
  Char.utf8Size_eq_one_iff.mpr (UInt32.le_iff_toNat_le.mpr small)

theorem utf8Size_of_isAlphanum {ch : Char} (alphanum : ch.isAlphanum = true) : ch.utf8Size = 1 := by
  rw [isAlphanum_iff] at alphanum
  exact utf8Size_of_toNat_le (by omega)

/-- A letter is one byte in either case, and other characters have no case. -/
theorem utf8Size_toUpper (ch : Char) : ch.toUpper.utf8Size = ch.utf8Size := by
  by_cases lower : ch.isLower
  · have letter : ch.isAlpha = true := by simp [Char.isAlpha, lower]
    rw [utf8Size_of_isAlphanum (by simp [Char.isAlphanum, letter]),
      utf8Size_of_isAlphanum (by simp [Char.isAlphanum, letter])]
  · rw [Char.toUpper_eq_of_not_isLower lower]

theorem utf8Length_map_toUpper (cs : List Char) :
    utf8Length (cs.map Char.toUpper) = utf8Length cs := by
  induction cs with
  | nil => rfl
  | cons ch cs ih => rw [List.map_cons, utf8Length, utf8Length, ih, utf8Size_toUpper]

theorem utf8Length_of_upper_eq {a b : List Char} (same : a.map Char.toUpper = b.map Char.toUpper) :
    utf8Length a = utf8Length b := by
  rw [← utf8Length_map_toUpper, same, utf8Length_map_toUpper]

/-- Two beginnings of a text that are as long as each other are the same. -/
theorem append_inj_of_utf8Length {a b x y : List Char} (same : a ++ x = b ++ y)
    (lengths : utf8Length a = utf8Length b) : a = b ∧ x = y := by
  induction a generalizing b with
  | nil =>
    cases b with
    | nil => exact ⟨rfl, same⟩
    | cons ch b =>
      have size := ch.utf8Size_pos
      simp only [utf8Length] at lengths
      omega
  | cons ch a ih =>
    cases b with
    | nil =>
      have size := ch.utf8Size_pos
      simp only [utf8Length] at lengths
      omega
    | cons ch' b =>
      simp only [List.cons_append, List.cons.injEq] at same
      obtain ⟨rfl, same⟩ := same
      simp only [utf8Length] at lengths
      obtain ⟨rfl, rest⟩ := ih same (by omega)
      exact ⟨rfl, rest⟩

end Text

namespace Cursor

theorem startsWith_iff_append {word text : List Char} : startsWith word text = true ↔
    ∃ taken behind, text = taken ++ behind ∧ taken.map Char.toUpper = word.map Char.toUpper := by
  rw [startsWith_iff]
  constructor
  · rintro ⟨more, joined⟩
    obtain ⟨taken, behind, rfl, same, -⟩ := List.map_eq_append_iff.mp joined.symm
    exact ⟨taken, behind, rfl, same⟩
  · rintro ⟨taken, behind, rfl, same⟩
    rw [← same, List.map_append]
    exact List.prefix_append _ _

theorem advance_run (c : Cursor) (p : Char → Bool) :
    c.advance (c.run p).length = c.skipWhile p := by
  have split : c.run p ++ c.rest.dropWhile p = c.rest := List.takeWhile_append_dropWhile
  have moved := advance_append c.pos (c.run p) (c.rest.dropWhile p)
  rwa [split] at moved

/-- The byte of the line that the cursor is at. -/
def onBytes (c : Cursor) (line : String) : ByteCursor := ⟨line, c.pos⟩

/-- What was read, with the byte of the line that the cursor is at behind it. -/
def landed {α : Type} (line : String) : Except Fault (α × Cursor) → Except Fault (α × ByteCursor)
  | .ok (a, after) => .ok (a, after.onBytes line)
  | .error fault => .error fault

/-! ### In step with the characters -/

namespace Within

variable {line : String} {c : Cursor} (within : Within line c)

include within

theorem rest?_onBytes : (c.onBytes line).rest? = some (String.ofList c.rest) := within.slice?_rest

theorem peekNth?_onBytes (n : Nat) : (c.onBytes line).peekNth? n = some c.rest[n]? := by
  simp [ByteCursor.peekNth?, within.rest?_onBytes]

theorem peek?_onBytes : (c.onBytes line).peek? = some c.peek? := by
  simp [ByteCursor.peek?, within.rest?_onBytes, peek?]

theorem atEnd?_onBytes : (c.onBytes line).atEnd? = some c.atEnd := by
  simp only [ByteCursor.atEnd?, within.rest?_onBytes, Option.bind_eq_bind, Option.bind_some,
    String.toList_ofList, atEnd]
  cases c.rest.dropWhile isBlank <;> rfl

theorem bump?_onBytes :
    (c.onBytes line).bump? = some (c.peek?, (c.advance 1).onBytes line) := by
  simp only [ByteCursor.bump?, within.peek?_onBytes, Option.bind_eq_bind, Option.bind_some]
  cases ahead : c.rest with
  | nil => simp [peek?, ahead, onBytes, advance, utf8Length]
  | cons ch rest => simp [peek?, ahead, onBytes, advance, utf8Length, ByteCursor.moved]

theorem eat?_onBytes (ch : Char) : (c.onBytes line).eat? ch =
    some ((c.eat? ch).isSome, ((c.eat? ch).getD c).onBytes line) := by
  simp only [ByteCursor.eat?, within.peek?_onBytes, Option.bind_eq_bind, Option.bind_some]
  by_cases next : c.peek? = some ch
  · obtain ⟨rest, ahead⟩ : ∃ rest, c.rest = ch :: rest := List.head?_eq_some_iff.mp next
    simp [next, eat?, onBytes, ByteCursor.moved, advance, ahead, utf8Length]
  · simp [next, eat?]

end Within

theorem Within.skipSpaces?_onBytes {line : String} {c : Cursor} (within : Within line c) :
    (c.onBytes line).skipSpaces? = some (c.skipSpaces.onBytes line) := by
  rw [ByteCursor.skipSpaces?_eq within.peek?_onBytes]
  -- The induction follows the text ahead, of which each turn of the loop takes one character.
  induction ahead : c.rest generalizing c with
  | nil =>
    have still : c.skipSpaces = c := skipSpaces_stops (by rw [ahead]; exact stops_nil _)
    rw [peek?, ahead, List.head?_nil, Option.any_none, if_neg Bool.false_ne_true, still]
  | cons ch rest ih =>
    rw [peek?, ahead, List.head?_cons, Option.any_some]
    by_cases space : (ch == ' ' || ch == '\t') = true
    · have size : ch.utf8Size = 1 := by
        rcases (by simpa using space : ch = ' ' ∨ ch = '\t') with rfl | rfl <;> rfl
      have step : (c.onBytes line).moved 1 = (c.advance 1).onBytes line := by
        simp [onBytes, ByteCursor.moved, advance, ahead, utf8Length, size]
      have same : c.skipSpaces = (c.advance 1).skipSpaces := by
        simp [skipSpaces, skipWhile, advance, ahead, utf8Length, space, Nat.add_assoc]
      have later := within.of_reaches (c.reaches_advance 1)
      rw [if_pos space, step, same, ByteCursor.skipSpaces?_eq later.peek?_onBytes]
      exact ih later (by simp [advance, ahead])
    · have still : c.skipSpaces = c :=
        skipSpaces_stops (by rw [ahead, stops_cons]; exact Bool.eq_false_iff.mpr space)
      rw [if_neg space, still]

/-! ### Words -/

/-- At a byte between characters, a word is there or not as the text in front of the byte says. -/
theorem eatWord?_append {c : Cursor} {word : String} {taken behind : List Char}
    (ahead : c.rest = taken ++ behind) (width : utf8Length taken = word.utf8ByteSize) :
    c.eatWord? word =
      if taken.map Char.toUpper = word.toList.map Char.toUpper ∧
          behind.head?.any isIdentChar = false then some ⟨c.pos + word.utf8ByteSize, behind⟩
      else none := by
  have starts : startsWith word.toList c.rest = true ↔
      taken.map Char.toUpper = word.toList.map Char.toUpper := by
    rw [startsWith_iff_append]
    refine ⟨?_, fun same => ⟨taken, behind, ahead, same⟩⟩
    rintro ⟨other, rest, split, same⟩
    have lengths := utf8Length_of_upper_eq same
    rw [utf8Length_toList, ← width] at lengths
    obtain ⟨rfl, -⟩ := append_inj_of_utf8Length (split.symm.trans ahead) lengths
    exact same
  simp only [eatWord?]
  by_cases same : taken.map Char.toUpper = word.toList.map Char.toUpper
  · have count : word.toList.length = taken.length := by
      simpa using (congrArg List.length same).symm
    have after : c.advance word.toList.length = ⟨c.pos + word.utf8ByteSize, behind⟩ := by
      have moved := advance_append c.pos taken behind
      rwa [← ahead, ← count, width] at moved
    simp [after, starts.mpr same, same, peek?]
  · have other : startsWith word.toList c.rest = false := by
      rw [Bool.eq_false_iff, ne_eq, starts]
      exact same
    simp [other, same]

theorem Within.eatWord?_onBytes {line : String} {c : Cursor} (within : Within line c)
    (word : String) : (c.onBytes line).eatWord? word =
      some ((c.eatWord? word).isSome, ((c.eatWord? word).getD c).onBytes line) := by
  simp only [ByteCursor.eatWord?, within.rest?_onBytes, Option.bind_eq_bind, Option.bind_some]
  by_cases cut : String.Pos.Raw.IsValid (String.ofList c.rest) ⟨word.utf8ByteSize⟩
  · obtain ⟨taken, behind, ahead, width⟩ := isValid_iff.mp cut
    rw [String.toList_ofList] at ahead
    have long : ¬(String.ofList c.rest).utf8ByteSize < word.utf8ByteSize := by
      rw [utf8ByteSize_ofList, ahead, utf8Length_append]
      omega
    have head := slice?_zero taken behind
    have tail := slice?_end taken behind
    have same : upper (String.ofList taken) = upper word ↔
        taken.map Char.toUpper = word.toList.map Char.toUpper := by
      rw [upper, upper, String.toList_ofList, String.ofList_inj]
    rw [← ahead, ← width] at head tail
    simp only [if_neg (not_or.mpr ⟨long, not_not.mpr cut⟩), head, tail, Option.bind_some,
      eatWord?_append ahead width.symm, String.toList_ofList, ne_eq, same]
    by_cases equal : taken.map Char.toUpper = word.toList.map Char.toUpper
    · cases behind.head?.any isIdentChar <;> simp [equal, onBytes, ByteCursor.moved]
    · simp [equal]
  · -- A word at the cursor would end between characters.
    have other : startsWith word.toList c.rest = false := by
      rw [Bool.eq_false_iff, ne_eq, startsWith_iff_append]
      rintro ⟨taken, behind, ahead, same⟩
      apply cut
      rw [isValid_iff, String.toList_ofList]
      refine ⟨taken, behind, ahead, ?_⟩
      rw [utf8Length_of_upper_eq same, utf8Length_toList]
    simp [cut, eatWord?, other]

/-! ### Runs of one class -/

theorem slice?_width (p : Char → Bool) (cs : List Char) :
    slice? (String.ofList cs) 0 (ByteCursor.width p (String.ofList cs)) =
      some (String.ofList (cs.takeWhile p)) := by
  have cut := slice?_zero (cs.takeWhile p) (cs.dropWhile p)
  rwa [List.takeWhile_append_dropWhile, ← ByteCursor.width_ofList] at cut

theorem slice?_behind_width (p : Char → Bool) (cs : List Char) :
    slice? (String.ofList cs) (ByteCursor.width p (String.ofList cs))
      (String.ofList cs).utf8ByteSize = some (String.ofList (cs.dropWhile p)) := by
  have cut := slice?_end (cs.takeWhile p) (cs.dropWhile p)
  rwa [List.takeWhile_append_dropWhile, ← ByteCursor.width_ofList] at cut

/-- What is in front of the last letter or digit of a token ends one byte before the token does. -/
theorem slice?_dropLast {cs : List Char} (full : cs ≠ [])
    (alphanum : ∀ ch ∈ cs, ch.isAlphanum = true) :
    slice? (String.ofList cs) 0 (utf8Length cs - 1) = some (String.ofList cs.dropLast) := by
  have split := List.dropLast_append_getLast full
  have one : utf8Length cs - 1 = utf8Length cs.dropLast := by
    have size := utf8Size_of_isAlphanum (alphanum _ (List.getLast_mem full))
    have lengths := utf8Length_append cs.dropLast [cs.getLast full]
    rw [split] at lengths
    simp only [utf8Length, size] at lengths
    omega
  have cut := slice?_zero cs.dropLast [cs.getLast full]
  rwa [split, ← one] at cut

theorem suffixed?_ofList {cs : List Char} (alphanum : ∀ ch ∈ cs, ch.isAlphanum = true) :
    ByteCursor.suffixed? (String.ofList cs) (utf8Length cs) =
      some (String.ofList (Literal.suffixed cs).1, (Literal.suffixed cs).2) := by
  by_cases full : cs = []
  · subst full
    rfl
  simp only [ByteCursor.suffixed?, Literal.suffixed, slice?_dropLast full alphanum,
    String.toList_ofList, Option.bind_eq_bind, Option.bind_some, Option.map_some]
  generalize cs.getLast?.map Char.toUpper = letter
  split
  · rfl
  · rfl
  · rfl
  · split <;> rfl
  · split <;> rfl
  · simp [*]

/-- A number that begins with a digit keeps one in front of its suffix. -/
theorem suffixed_ne_nil {ch : Char} (digit : ch.isDigit = true) (rest : List Char) :
    (Literal.suffixed (ch :: rest)).1 ≠ [] := by
  cases rest with
  | nil => exact isDigit_induction (P := fun ch => (Literal.suffixed [ch]).1 ≠ []) (by decide) digit
  | cons next rest =>
    simp only [Literal.suffixed]
    split <;> simp
    all_goals split <;> simp

namespace Within

variable {line : String} {c : Cursor} (within : Within line c)

include within

theorem peekIdent?_onBytes : (c.onBytes line).peekIdent? = some c.peekIdent? := by
  simp only [ByteCursor.peekIdent?, within.rest?_onBytes, Option.bind_eq_bind, Option.bind_some,
    slice?_width, String.toList_ofList, peekIdent?, peek?, run]
  split <;> simp [*]

theorem ident?_onBytes : (c.onBytes line).ident? =
    some (c.ident?.map Prod.fst, ((c.ident?.map Prod.snd).getD c).onBytes line) := by
  simp only [ByteCursor.ident?, within.peekIdent?_onBytes, Option.bind_eq_bind, Option.bind_some,
    ident?]
  cases read : c.peekIdent? with
  | none => rfl
  | some name =>
    have run : String.ofList (c.run isIdentChar) = name := by
      simp only [peekIdent?] at read
      split at read
      · exact Option.some.inj read
      · simp at read
    simp [← run, onBytes, ByteCursor.moved, skipWhile, Cursor.run]

/-- The line does not end inside a run of one class. -/
theorem seek_width (p : Char → Bool) :
    (c.onBytes line).seek ((c.onBytes line).pos + ByteCursor.width p (String.ofList c.rest)) =
      (c.advance (c.run p).length).onBytes line := by
  -- The end of the run is a byte of the line, so the minimum in `seek` does nothing.
  have later := (within.of_reaches (c.reaches_skipWhile p)).pos_add
  have pos : (c.skipWhile p).pos =
      (c.onBytes line).pos + ByteCursor.width p (String.ofList c.rest) := by
    rw [ByteCursor.width_ofList, skipWhile, onBytes]
  rw [advance_run, ← pos]
  simp only [ByteCursor.seek, onBytes]
  rw [Nat.min_eq_left (by omega)]

theorem digits?_onBytes (radix origin : Nat) : (c.onBytes line).digits? radix origin =
    some (landed line (Literal.plain radix origin c)) := by
  have run : c.rest.takeWhile (isDigitOf radix) = c.run (isDigitOf radix) := rfl
  have next : (c.advance (c.run (isDigitOf radix)).length).peek? =
      (c.rest.dropWhile (isDigitOf radix)).head? := by
    rw [advance_run, peek?, skipWhile]
  simp only [ByteCursor.digits?, within.rest?_onBytes, Option.bind_eq_bind, Option.bind_some,
    slice?_width, slice?_behind_width, String.toList_ofList, within.seek_width, Literal.plain, next,
    run]
  split
  · rfl
  · cases Literal.accumulate radix 0 (c.run (isDigitOf radix)) <;> rfl

theorem withSuffix?_onBytes (origin : Nat) (digit : c.peek?.any Char.isDigit = true) :
    (c.onBytes line).withSuffix? origin = some (landed line (Literal.withSuffix origin c)) := by
  have run : c.rest.takeWhile Char.isAlphanum = c.run Char.isAlphanum := rfl
  have alphanum : ∀ ch ∈ c.run Char.isAlphanum, ch.isAlphanum = true :=
    fun ch member => List.mem_takeWhile_imp member
  -- The test for a number of nothing but a suffix never applies behind a first digit.
  have kept : (String.ofList (Literal.suffixed (c.run Char.isAlphanum)).1).isEmpty = false := by
    obtain ⟨ch, first, digit⟩ := (Option.any_eq_true _ _).mp digit
    obtain ⟨rest, ahead⟩ := List.head?_eq_some_iff.mp first
    rw [← run, ahead, List.takeWhile_cons_of_pos (by simp [Char.isAlphanum, digit])]
    simpa [String.isEmpty_iff] using suffixed_ne_nil digit (rest.takeWhile Char.isAlphanum)
  have token : ByteCursor.width Char.isAlphanum (String.ofList c.rest) =
      utf8Length (c.run Char.isAlphanum) := ByteCursor.width_ofList ..
  have suffix := suffixed?_ofList alphanum
  rw [← token] at suffix
  simp only [ByteCursor.withSuffix?, within.rest?_onBytes, Option.bind_eq_bind, Option.bind_some,
    slice?_width, run, suffix, kept, Bool.false_eq_true, if_false, String.toList_ofList,
    within.seek_width, Literal.withSuffix]
  cases Literal.accumulate (Literal.suffixed (c.run Char.isAlphanum)).2 0
    (Literal.suffixed (c.run Char.isAlphanum)).1 <;> rfl

end Within

end Cursor

end CrossAsm
