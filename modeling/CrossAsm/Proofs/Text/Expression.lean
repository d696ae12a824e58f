import CrossAsm.Proofs.Bytes
import CrossAsm.Proofs.Text.Numeral
import CrossAsm.Rendering
import CrossAsm.Value.Expression

/-! Expressions as they are rendered: a number with its sign, the location counter, and a distance
from it. Each is read back as the number it stands for. -/

namespace CrossAsm

open Text

/-- Characters that end an expression where it stands in an operand. -/
def Text.isCloser (ch : Char) : Bool := [',', ')', '(', '[', ']', ';', ':'].contains ch

/-- The text ends, or goes on with a character that ends an expression. -/
def Text.Closes (rest : List Char) : Prop := rest.head?.all isCloser = true

theorem Text.closes_nil : Closes [] := rfl

theorem Text.closes_cons {ch : Char} {rest : List Char} :
    Closes (ch :: rest) ↔ isCloser ch = true := by
  simp [Closes]

theorem Text.Closes.stops {p : Char → Bool} {rest : List Char} (closed : Closes rest)
    (apart : ∀ ch ∈ [',', ')', '(', '[', ']', ';', ':'], p ch = false) : Stops p rest := by
  cases rest with
  | nil => exact stops_nil p
  | cons ch rest =>
    have closer : ch ∈ [',', ')', '(', '[', ']', ';', ':'] := by
      simpa [isCloser] using closes_cons.mp closed
    exact stops_cons.mpr (apart ch closer)

theorem Text.Closes.stops_ident {rest : List Char} (closed : Closes rest) :
    Stops isIdentChar rest := by
  apply closed.stops
  intro ch closer
  fin_cases closer <;> rfl

theorem Text.Closes.stops_spaces {rest : List Char} (closed : Closes rest) :
    Stops (fun ch => ch == ' ' || ch == '\t') rest := by
  apply closed.stops
  intro ch closer
  fin_cases closer <;> rfl

theorem Text.Closes.no_operator {rest : List Char} (closed : Closes rest) :
    Operator.read? rest = none := by
  cases rest with
  | nil => rfl
  | cons ch rest =>
    have closer : ch ∈ [',', ')', '(', '[', ']', ';', ':'] := by
      simpa [isCloser] using closes_cons.mp closed
    fin_cases closer <;> rfl

theorem Dialect.signed_neg (d : Dialect) {i : Int} (negative : i < 0) :
    d.signed i = "-" ++ d.signed (-i) := by
  have positive : ¬-i < 0 := by omega
  have small : (-9 ≤ -i ∧ -i ≤ 9) ↔ (-9 ≤ i ∧ i ≤ 9) := by omega
  simp only [Dialect.signed, decimalInt, negative, positive, small, if_true, if_false,
    Int.natAbs_neg]
  split <;> rfl

namespace Scope

variable (s : Scope)

/-- A character that no sign, bracket, quote or blank starts with. -/
def startsAtom (ch : Char) : Bool :=
  !(ch == ' ' || ch == '\t') && (sign? ch).isNone && (closing? ch).isNone && ch != '\x27'

theorem unary_atom (fuel pos : Nat) {ch : Char} {rest : List Char} (plain : startsAtom ch = true) :
    s.unary (fuel + 1) ⟨pos, ch :: rest⟩ = s.atom ⟨pos, ch :: rest⟩ := by
  simp only [startsAtom, Bool.and_eq_true, Bool.not_eq_true', Option.isNone_iff_eq_none,
    bne_iff_ne, ne_eq] at plain
  obtain ⟨⟨⟨blank, sign⟩, bracket⟩, quote⟩ := plain
  have unmoved : (⟨pos, ch :: rest⟩ : Cursor).skipSpaces = ⟨pos, ch :: rest⟩ :=
    Cursor.skipSpaces_stops (stops_cons.mpr blank)
  simp only [unary, unmoved, Cursor.peek?, List.head?_cons, sign, bracket, quote, if_false]

/-- The text is an operand without operators that stands for a number. -/
def Reads (text : List Char) (value : Int) : Prop :=
  ∀ fuel pos rest, Stops isIdentChar rest →
    s.unary (fuel + 2) ⟨pos, text ++ rest⟩ =
      .ok (.known (Int64.ofInt value), ⟨pos + utf8Length text, rest⟩)

theorem unary_literal (fuel pos : Nat) {text rest : List Char} {n : Nat}
    (head : text.head?.any startsAtom = true)
    (literal : Literal.read? s.dialect ⟨pos, text ++ rest⟩ =
      some (.ok (n, ⟨pos + utf8Length text, rest⟩))) :
    s.unary (fuel + 1) ⟨pos, text ++ rest⟩ =
      .ok (.known (Int64.ofInt n), ⟨pos + utf8Length text, rest⟩) := by
  cases text with
  | nil => simp at head
  | cons ch text =>
    rw [List.cons_append] at literal ⊢
    rw [s.unary_atom fuel pos (by simpa using head), atom, literal]
    simp [Int64.ofInt_eq_ofNat]

theorem startsAtom_of_isDigit {ch : Char} (digit : ch.isDigit = true) : startsAtom ch = true := by
  rw [isDigit_iff] at digit
  have other (c : Char) (outside : c.toNat < 48 ∨ 57 < c.toNat) : ch ≠ c := by
    rintro rfl
    omega
  simp [startsAtom, sign?, closing?, other ' ' (by decide), other '\t' (by decide),
    other '-' (by decide), other '+' (by decide), other '~' (by decide), other '!' (by decide),
    other '(' (by decide), other '[' (by decide), other '\x27' (by decide)]

theorem startsAtom_spelled {d : Dialect} {n : Nat} {text : List Char} (spelled : d.Spelled n text) :
    text.head?.any startsAtom = true := by
  cases spelled with
  | decimal digits =>
    obtain ⟨first, more, rfl⟩ := List.exists_cons_of_ne_nil digits.nonempty
    exact startsAtom_of_isDigit (isDigit_of_isDigitOf_ten (digits.digits first (by simp)))
  | marked announced digits =>
    have marks : ∀ mark ∈ d.marks, mark.1.head?.any startsAtom = true := by
      cases d <;> simp [Dialect.marks, startsAtom, sign?, closing?]
    have head := marks _ announced
    simp only [Option.any_eq_true] at head ⊢
    obtain ⟨ch, found, starts⟩ := head
    exact ⟨ch, by simp [found], starts⟩
  | suffixed announced digits first =>
    obtain ⟨ch, more, rfl⟩ := List.exists_cons_of_ne_nil digits.nonempty
    exact startsAtom_of_isDigit (by simpa using first)

/-- A number is read however it is written. -/
theorem unary_spelled (fuel pos : Nat) {n : Nat} {text rest : List Char}
    (spelled : s.dialect.Spelled n text) (bound : n ≤ Literal.limit) (stops : Stops isIdentChar rest) :
    s.unary (fuel + 1) ⟨pos, text ++ rest⟩ =
      .ok (.known (Int64.ofInt n), ⟨pos + utf8Length text, rest⟩) :=
  s.unary_literal fuel pos (startsAtom_spelled spelled) (Literal.read?_spelled spelled pos bound stops)

theorem reads_hex {n : Nat} (width : Nat) (bound : n ≤ Literal.limit) :
    s.Reads (s.dialect.hex n width).toList n :=
  fun fuel pos _ stops => s.unary_spelled (fuel + 1) pos (s.dialect.spelled_hex n width) bound stops

theorem reads_decimal {n : Nat} (bound : n ≤ Literal.limit) : s.Reads (decimal n).toList n :=
  fun fuel pos _ stops => s.unary_spelled (fuel + 1) pos (s.dialect.spelled_decimal n) bound stops

/-- A sign acts on the operand behind it. -/
theorem unary_sign_eq (fuel pos : Nat) {sign : Char} {act : Int64 → Int64} (signs : sign? sign = some act)
    (solid : (sign == ' ' || sign == '\t') = false) (rest : List Char) :
    s.unary (fuel + 1) ⟨pos, sign :: rest⟩ =
      match s.unary fuel ⟨pos + sign.utf8Size, rest⟩ with
      | .ok (v, after) => .ok (v.map act, after)
      | .error f => .error f := by
  have unmoved : (⟨pos, sign :: rest⟩ : Cursor).skipSpaces = ⟨pos, sign :: rest⟩ :=
    Cursor.skipSpaces_stops (stops_cons.mpr solid)
  rcases inner : s.unary fuel ⟨pos + sign.utf8Size, rest⟩ with f | ⟨v, after⟩ <;>
    simp only [unary, unmoved, Cursor.peek?, List.head?_cons, signs, Cursor.advance_one, inner]

/-- A sign in front acts on the number. -/
theorem unary_sign {fuel pos : Nat} {sign : Char} {act : Int64 → Int64} {text rest : List Char}
    {value result : Int} (signs : sign? sign = some act)
    (solid : (sign == ' ' || sign == '\t') = false)
    (acts : act (Int64.ofInt value) = Int64.ofInt result)
    (body : s.unary (fuel + 1) ⟨pos + sign.utf8Size, text ++ rest⟩ =
      .ok (.known (Int64.ofInt value), ⟨pos + sign.utf8Size + utf8Length text, rest⟩)) :
    s.unary (fuel + 2) ⟨pos, sign :: text ++ rest⟩ =
      .ok (.known (Int64.ofInt result), ⟨pos + utf8Length (sign :: text), rest⟩) := by
  rw [List.cons_append, s.unary_sign_eq (fuel + 1) pos signs solid, body, ← acts, utf8Length,
    ← Nat.add_assoc]
  rfl

/-- Without a sign a small constant is a literal. -/
theorem unary_signed (fuel pos : Nat) {i : Int} {rest : List Char} (positive : 0 ≤ i)
    (bound : i.natAbs ≤ Literal.limit) (stops : Stops isIdentChar rest) :
    s.unary (fuel + 1) ⟨pos, (s.dialect.signed i).toList ++ rest⟩ =
      .ok (.known (Int64.ofInt i), ⟨pos + utf8Length (s.dialect.signed i).toList, rest⟩) := by
  have unsigned : ¬i < 0 := by omega
  have value : (i.natAbs : Int) = i := by omega
  have small := s.unary_spelled fuel pos (s.dialect.spelled_decimal i.natAbs) bound stops
  have large := s.unary_spelled fuel pos (s.dialect.spelled_hex i.natAbs 1) bound stops
  rw [value] at small large
  simp only [Dialect.signed, decimalInt, unsigned, if_false]
  split
  · exact small
  · exact large

theorem reads_signed {i : Int} (bound : i.natAbs ≤ Literal.limit) :
    s.Reads (s.dialect.signed i).toList i := by
  intro fuel pos rest stops
  by_cases negative : i < 0
  · have body := s.unary_signed fuel (pos + '-'.utf8Size) (i := -i) (by omega) (by omega) stops
    have text : (s.dialect.signed i).toList = '-' :: (s.dialect.signed (-i)).toList := by
      rw [s.dialect.signed_neg negative]
      simp
    rw [text]
    exact s.unary_sign rfl rfl (by rw [Int64.ofInt_neg, Int64.neg_neg]) body
  · exact s.unary_signed (fuel + 1) pos (by omega) bound stops

theorem reads_plus {i : Int} (positive : 0 ≤ i) (bound : i.natAbs ≤ Literal.limit) :
    s.Reads ('+' :: (s.dialect.signed i).toList) i :=
  fun fuel pos _ stops =>
    s.unary_sign rfl rfl rfl (s.unary_signed fuel (pos + '+'.utf8Size) positive bound stops)

/-- The location counter, where no digit makes it the mark of a number. -/
theorem reads_here : s.Reads [s.dialect.locationSymbol] s.location.toNat := by
  intro fuel pos rest stops
  have digitStop : Stops (isDigitOf 16) rest := stops.mono isIdentChar_of_isDigitOf
  have letterStop : Stops Char.isAlpha rest := stops.mono fun c alpha => by
    simp [isIdentChar, Char.isAlphanum, alpha]
  have none : s.dialect.radixMark? (s.dialect.locationSymbol :: rest) = none := by
    cases rest with
    | nil => rfl
    | cons b rest =>
      have digit := stops_cons.mp digitStop
      have letter := s.dialect.zeroLetter?_of_not_alpha (stops_cons.mp letterStop)
      cases kind : s.dialect with
      | intel => simp [Dialect.radixMark?, Dialect.sigil?, Dialect.locationSymbol, digit]
      | motorola =>
        rw [kind] at letter
        simp [Dialect.radixMark?, Dialect.sigil?, Dialect.locationSymbol, letter]
      | national =>
        rw [kind] at letter
        simp [Dialect.radixMark?, Dialect.sigil?, letter]
      | texas =>
        rw [kind] at letter
        simp [Dialect.radixMark?, Dialect.sigil?, Dialect.locationSymbol, letter]
  have plain : startsAtom s.dialect.locationSymbol = true := by cases s.dialect <;> rfl
  have digit : s.dialect.locationSymbol.isDigit = false := by cases s.dialect <;> rfl
  rw [List.singleton_append, s.unary_atom (fuel + 1) pos plain]
  simp [atom, Literal.read?, none, Cursor.peek?, digit, utf8Length, Int64.ofInt_eq_ofNat]

/-! ### Whole expressions -/

theorem continued_closes (fuel least pos : Nat) (left : Value) {rest : List Char}
    (closed : Closes rest) : s.continued (fuel + 1) least left ⟨pos, rest⟩ = .ok (left, ⟨pos, rest⟩) := by
  have unmoved : (⟨pos, rest⟩ : Cursor).skipSpaces = ⟨pos, rest⟩ :=
    Cursor.skipSpaces_stops closed.stops_spaces
  simp only [continued, unmoved, closed.no_operator]

theorem toInt_known {value : Int} (low : -0x80000000 ≤ value) (high : value < 0x100000000) :
    (Value.known (Int64.ofInt value)).toInt = value := by
  apply Int64.toInt_ofInt_of_le
  · have least : Int64.minValue.toInt = -9223372036854775808 := by decide
    omega
  · omega

/-- The text is an expression that stands for a number, wherever an operand goes on behind it. -/
def Evals (text : List Char) (value : Int) : Prop :=
  ∀ pos rest, Closes rest → s.eval ⟨pos, text ++ rest⟩ =
    .ok (.known (Int64.ofInt value), ⟨pos + utf8Length text, rest⟩)

theorem eval_of_binary {pos : Nat} {text rest : List Char} {value : Int}
    (low : -0x80000000 ≤ value) (high : value < 0x100000000)
    (read : ∀ fuel, text.length ≤ fuel → s.binary (2 * fuel + 2) 0 ⟨pos, text ++ rest⟩ =
      .ok (.known (Int64.ofInt value), ⟨pos + utf8Length text, rest⟩)) :
    s.eval ⟨pos, text ++ rest⟩ =
      .ok (.known (Int64.ofInt value), ⟨pos + utf8Length text, rest⟩) := by
  have ranged : (Value.known (Int64.ofInt value)).inRange = true := by
    simp only [Value.inRange, toInt_known low high]
    simpa using ⟨low, high⟩
  have whole := read (text ++ rest).length (by simp)
  simp only [eval, depth, whole, ranged, Bool.or_true, if_true]

theorem Reads.evals {s : Scope} {text : List Char} {value : Int} (reads : s.Reads text value)
    (nonempty : text ≠ []) (low : -0x80000000 ≤ value) (high : value < 0x100000000) :
    s.Evals text value := by
  intro pos rest closed
  apply s.eval_of_binary low high
  intro fuel long
  have positive := List.length_pos_iff.mpr nonempty
  obtain ⟨spare, rfl⟩ : ∃ spare, fuel = spare + 1 := ⟨fuel - 1, by omega⟩
  have operand := reads (2 * spare + 1) pos rest closed.stops_ident
  rw [show 2 * (spare + 1) + 2 = 2 * spare + 3 + 1 by omega, binary, operand]
  exact s.continued_closes _ _ _ _ closed

/-- A sum or difference of two operands without operators. -/
theorem evals_sum {left right : List Char} {a b : Int} (op : Char) (operator : Operator)
    {value : Int} (first : s.Reads left a) (second : s.Reads right b) (leftLong : left ≠ [])
    (read : ∀ text, Operator.read? (op :: text) = some (operator, 1))
    (loose : 0 < operator.precedence) (blank : (op == ' ' || op == '\t') = false)
    (word : isIdentChar op = false)
    (computed : operator.compute (Int64.ofInt a) (Int64.ofInt b) = some (Int64.ofInt value))
    (low : -0x80000000 ≤ value) (high : value < 0x100000000) :
    s.Evals (left ++ op :: right) value := by
  intro pos rest closed
  apply s.eval_of_binary low high
  intro fuel long
  have positive := List.length_pos_iff.mpr leftLong
  obtain ⟨spare, rfl⟩ : ∃ spare, fuel = spare + 2 := ⟨fuel - 2, by simp at long; omega⟩
  have start := first (2 * spare + 3) pos (op :: right ++ rest) (stops_cons.mpr word)
  have unmoved (p : Nat) : (⟨p, op :: right ++ rest⟩ : Cursor).skipSpaces = ⟨p, op :: right ++ rest⟩ :=
    Cursor.skipSpaces_stops (stops_cons.mpr blank)
  have skipped (p : Nat) : (⟨p, op :: right ++ rest⟩ : Cursor).advance 1 =
      ⟨p + op.utf8Size, right ++ rest⟩ := Cursor.advance_one p op _
  have operand (p : Nat) := second (2 * spare + 1) p rest closed.stops_ident
  have tail (p : Nat) : s.binary (2 * spare + 4) operator.precedence ⟨p, right ++ rest⟩ =
      .ok (.known (Int64.ofInt b), ⟨p + utf8Length right, rest⟩) := by
    rw [binary, operand]
    exact s.continued_closes _ _ _ _ closed
  have applied : operator.applied? (.known (Int64.ofInt a)) (.known (Int64.ofInt b)) =
      some (.known (Int64.ofInt value)) := by
    simp [Operator.applied?, Value.known, computed]
  have total : pos + utf8Length (left ++ op :: right) =
      pos + utf8Length left + op.utf8Size + utf8Length right := by
    simp [utf8Length_append, utf8Length, Nat.add_assoc]
  rw [show 2 * (spare + 2) + 2 = 2 * spare + 5 + 1 by omega, List.append_assoc, binary, start,
    total]
  change s.continued (2 * spare + 4 + 1) 0 _ _ = _
  rw [continued, unmoved, List.cons_append, read]
  rw [List.cons_append] at skipped
  simp only [Nat.not_le.mpr loose, if_false, skipped, tail, applied]
  exact s.continued_closes _ _ _ _ closed

end Scope

namespace Rendering

/-- What the names and the location counter stand for in the text of an instruction. -/
def scope (r : Rendering) : Scope := ⟨r.config.dialect, r.symbols, r.address⟩

variable (r : Rendering)

theorem upper_case (s : String) : upper (r.case s) = upper s := by
  unfold case
  split
  · exact upper_lower s
  · exact upper_upper s

theorem evals_hex {n : Nat} (width : Nat) (bound : n < 0x100000000) :
    r.scope.Evals (r.config.dialect.hex n width).toList n := by
  have small : n ≤ Literal.limit := by
    simp only [Literal.limit]
    omega
  have reads := r.scope.reads_hex width small
  exact reads.evals (r.config.dialect.spelled_hex n width).ne_nil (by omega) (by omega)

theorem reads_num {i : Int} (bound : i.natAbs < 0x100000000) : r.scope.Reads (r.num i).toList i := by
  apply r.scope.reads_signed
  simp only [Literal.limit]
  omega

theorem num_ne_nil (i : Int) : (r.num i).toList ≠ [] := by
  have hex (n : Nat) := (r.config.dialect.spelled_hex n 1).ne_nil
  have decimal (n : Nat) := (spells_decimal n).nonempty
  unfold num Dialect.signed decimalInt
  split <;> split <;> simp_all

theorem evals_num {i : Int} (low : -0x80000000 ≤ i) (high : i < 0x100000000) :
    r.scope.Evals (r.num i).toList i :=
  (r.reads_num (by omega)).evals (r.num_ne_nil i) low high

theorem evals_decimal {n : Nat} (bound : n < 0x100000000) : r.scope.Evals (decimal n).toList n := by
  have small : n ≤ Literal.limit := by
    simp only [Literal.limit]
    omega
  exact (r.scope.reads_decimal small).evals (spells_decimal n).nonempty (by omega) (by omega)

/-- The target of a jump stands for its address, also as a distance from the location counter. -/
theorem evals_target_of_place {v : Int} (low : 0 ≤ v) (high : v < 0x100000000)
    (place : r.scope.Evals (r.place (UInt32.ofInt v)).toList v) :
    r.scope.Evals (r.target v).toList v := by
  have word := r.address.toNat_lt
  unfold target
  split
  · have here : r.scope.Reads [r.config.dialect.locationSymbol] r.address.toNat := r.scope.reads_here
    dsimp only
    split
    next zero =>
      have same : (r.address.toNat : Int) = v := by omega
      rw [String.toList_singleton]
      rw [same] at here
      exact here.evals (by simp) (by omega) (by omega)
    · split
      next behind =>
        have distance := r.reads_num (i := -(v - r.address.toNat)) (by omega)
        have difference : Operator.sub.compute (Int64.ofInt r.address.toNat)
            (Int64.ofInt (-(v - r.address.toNat))) = some (Int64.ofInt v) := by
          rw [Operator.compute, ← Int64.ofInt_sub]
          congr 2
          omega
        have evals := r.scope.evals_sum '-' .sub here distance (by simp) (fun _ => rfl) (by decide)
          (by decide) (by decide) difference (by omega) (by omega)
        simpa using evals
      next ahead =>
        have distance := r.reads_num (i := v - r.address.toNat) (by omega)
        have sum : Operator.add.compute (Int64.ofInt r.address.toNat)
            (Int64.ofInt (v - r.address.toNat)) = some (Int64.ofInt v) := by
          rw [Operator.compute, ← Int64.ofInt_add]
          congr 2
          omega
        have evals := r.scope.evals_sum '+' .add here distance (by simp) (fun _ => rfl) (by decide)
          (by decide) (by decide) sum (by omega) (by omega)
        simpa using evals
  · exact place

/-! ### Without symbols -/

theorem place_no_symbols (none : r.symbols = ∅) (address : UInt32) :
    r.place address = r.config.dialect.hex address.toNat r.config.addressDigits := by
  have name : r.symbols.name? address = Option.none := by
    rw [none]
    rfl
  have nearest : r.symbols.nearest? address = Option.none := by
    rw [none]
    rfl
  simp [place, symbol?, name, nearest]

theorem evals_place (none : r.symbols = ∅) {v : Int} (low : 0 ≤ v) (high : v < 0x100000000) :
    r.scope.Evals (r.place (UInt32.ofInt v)).toList v := by
  have same : ((UInt32.ofInt v).toNat : Int) = v := by
    simp only [UInt32.ofInt, UInt32.toNat_ofNat']
    omega
  rw [r.place_no_symbols none]
  have evals := r.evals_hex (n := (UInt32.ofInt v).toNat) r.config.addressDigits (by omega)
  rwa [same] at evals

theorem evals_target (none : r.symbols = ∅) {v : Int} (low : 0 ≤ v) (high : v < 0x100000000) :
    r.scope.Evals (r.target v).toList v :=
  r.evals_target_of_place low high (r.evals_place none low high)

end Rendering

/-! ### How numbers begin -/

/-- A character that a number or the location counter begins with. -/
def Dialect.opens (d : Dialect) (ch : Char) : Bool :=
  ch.isDigit || ch == d.locationSymbol || (d == .motorola && ch == '$') || (d == .texas && ch == '>')

theorem Dialect.opens_hex (d : Dialect) (n width : Nat) :
    (d.hex n width).toList.head?.any d.opens = true := by
  cases d with
  | intel =>
    obtain ⟨cs, text, spelled, digit⟩ := Literal.intel_hex_toList n width
    obtain ⟨first, more, rfl⟩ := List.exists_cons_of_ne_nil spelled.nonempty
    have first : first.isDigit = true := by simpa using digit
    simp [text, opens, first]
  | motorola => simp [Dialect.hex, opens]
  | national => simp [Dialect.hex, opens, Char.isDigit]
  | texas => simp [Dialect.hex, opens]

theorem Dialect.opens_decimal (d : Dialect) (n : Nat) :
    (decimal n).toList.head?.any d.opens = true := by
  have spelled := spells_decimal n
  obtain ⟨first, more, shape⟩ := List.exists_cons_of_ne_nil spelled.nonempty
  have digit := isDigit_of_isDigitOf_ten (spelled.digits first (by simp [shape]))
  simp [shape, opens, digit]

/-- The text stands for a number and begins as numbers do. -/
structure Scope.Denotes (s : Scope) (text : List Char) (value : Int) : Prop where
  evals : s.Evals text value
  opens : text.head?.any s.dialect.opens = true
  low : 0 ≤ value
  high : value < 0x100000000

namespace Rendering

variable (r : Rendering)

theorem denotes_hex {n : Nat} (width : Nat) (bound : n < 0x100000000) :
    r.scope.Denotes (r.config.dialect.hex n width).toList n :=
  ⟨r.evals_hex width bound, r.config.dialect.opens_hex n width, by omega, by omega⟩

theorem denotes_decimal {n : Nat} (bound : n < 0x100000000) :
    r.scope.Denotes (decimal n).toList n :=
  ⟨r.evals_decimal bound, r.config.dialect.opens_decimal n, by omega, by omega⟩

theorem denotes_num {i : Int} (low : 0 ≤ i) (high : i < 0x100000000) :
    r.scope.Denotes (r.num i).toList i := by
  refine ⟨r.evals_num (by omega) high, ?_, low, high⟩
  have positive : ¬i < 0 := by omega
  simp only [num, Dialect.signed, decimalInt, positive, if_false]
  split
  · exact r.config.dialect.opens_decimal _
  · exact r.config.dialect.opens_hex _ _

theorem denotes_imm (v : Int) (bytes : Nat) :
    r.scope.Denotes (r.imm v bytes).toList (v % twoPow (min (8 * bytes) 32)) := by
  have width : 0 < twoPow (min (8 * bytes) 32) := twoPow_pos _
  have word : twoPow (min (8 * bytes) 32) ≤ 0x100000000 := twoPow_le (n := 32) (by omega)
  have low := Int.emod_nonneg v (show (twoPow (min (8 * bytes) 32) : Int) ≠ 0 by omega)
  have high := Int.emod_lt_of_pos v (show (0 : Int) < twoPow (min (8 * bytes) 32) by omega)
  have denotes := r.denotes_hex (n := (v % twoPow (min (8 * bytes) 32)).toNat) (2 * bytes)
    (by omega)
  rwa [Int.toNat_of_nonneg low] at denotes

theorem denotes_place (none : r.symbols = ∅) {v : Int} (low : 0 ≤ v) (high : v < 0x100000000) :
    r.scope.Denotes (r.place (UInt32.ofInt v)).toList v := by
  refine ⟨r.evals_place none low high, ?_, low, high⟩
  rw [r.place_no_symbols none]
  exact r.config.dialect.opens_hex _ _

theorem denotes_target (none : r.symbols = ∅) {v : Int} (low : 0 ≤ v) (high : v < 0x100000000) :
    r.scope.Denotes (r.target v).toList v := by
  refine ⟨r.evals_target none low high, ?_, low, high⟩
  have here : r.scope.dialect.opens r.config.dialect.locationSymbol = true := by
    simp [Dialect.opens, scope]
  unfold target
  dsimp only
  split
  · split
    · simpa using here
    · split <;> simpa using here
  · exact (r.denotes_place none low high).opens

end Rendering

end CrossAsm
