import CrossAsm.Proofs.Text.Cursor
import CrossAsm.Value.Literal

/-! Numbers written in a dialect are read back as literals of it, whatever text follows that does
not continue a word. -/

namespace CrossAsm

namespace Text

/-- The number that digits stand for, behind what `start` stands for. -/
def numeral (radix start : Nat) (cs : List Char) : Nat :=
  cs.foldl (fun value c => value * radix + (digit? radix c).getD 0) start

/-- Digits of a radix for a number. -/
structure Spells (radix : Nat) (cs : List Char) (n : Nat) : Prop where
  digits : ∀ c ∈ cs, isDigitOf radix c = true
  nonempty : cs ≠ []
  value : numeral radix 0 cs = n

theorem le_numeral {radix : Nat} (positive : 0 < radix) (start : Nat) (cs : List Char) :
    start ≤ numeral radix start cs := by
  induction cs generalizing start with
  | nil => exact Nat.le_refl _
  | cons c cs ih =>
    have step : start ≤ start * radix + (digit? radix c).getD 0 := by
      have scaled := Nat.le_mul_of_pos_right start positive
      omega
    exact Nat.le_trans step (ih _)

theorem digit?_hex : ∀ n : Fin 16, digit? 16 (Nat.digitChar n) = some n.val ∧
    digit? 16 (Nat.digitChar n).toUpper = some n.val := by decide

theorem digit?_decimal : ∀ n : Fin 10, digit? 10 (Nat.digitChar n) = some n.val := by decide

/-- Digits found one by one by a function that writes each below the radix spell the number. -/
theorem spells_toDigits {radix : Nat} (write : Char → Char) (large : 1 < radix)
    (digit : ∀ n < radix, digit? radix (write (Nat.digitChar n)) = some n) (n : Nat) :
    Spells radix ((Nat.toDigits radix n).map write) n := by
  induction n using Nat.strongRecOn with
  | ind n ih =>
    by_cases small : n < radix
    · rw [Nat.toDigits_of_lt_base small]
      constructor
      · simp [isDigitOf, digit n small]
      · simp
      · simp [numeral, digit n small]
    · have last : n % radix < radix := Nat.mod_lt _ (by omega)
      have shorter : n / radix < n := Nat.div_lt_self (by omega) large
      obtain ⟨digits, -, value⟩ := ih _ shorter
      rw [Nat.toDigits_of_base_le large (by omega), List.map_append]
      constructor
      · intro c member
        rcases List.mem_append.mp member with front | final
        · exact digits c front
        · obtain rfl : c = write (Nat.digitChar (n % radix)) := by simpa using final
          simp [isDigitOf, digit _ last]
      · simp
      · have joined : numeral radix 0 ((Nat.toDigits radix (n / radix)).map write) * radix +
            n % radix = n := by
          rw [value]
          exact Nat.div_add_mod' n radix
        simpa [numeral, List.foldl_append, digit _ last] using joined

/-- Zeros in front do not count. -/
theorem Spells.leftpad {radix n : Nat} {cs : List Char} (spelled : Spells radix cs n)
    (positive : 0 < radix) (width : Nat) : Spells radix (cs.leftpad width '0') n := by
  have zero : digit? radix '0' = some 0 := by
    have digit : '0'.isDigit = true := by decide
    simp [digit?, digit, positive]
  rw [List.leftpad]
  generalize width - cs.length = count
  induction count with
  | zero => simpa using spelled
  | succ count ih =>
    rw [List.replicate_succ, List.cons_append]
    constructor
    · intro c member
      rcases List.mem_cons.mp member with rfl | later
      · simp [isDigitOf, zero]
      · exact ih.digits c later
    · simp
    · have value := ih.value
      simpa [numeral, zero] using value

theorem spells_hexUpper (width n : Nat) : Spells 16 (hexUpper width n).toList n := by
  have spelled := (spells_toDigits Char.toUpper (by decide)
    (fun k small => (digit?_hex ⟨k, small⟩).2) n).leftpad (by decide) width
  have same : ((Nat.toDigits 16 n).leftpad width '0').map Char.toUpper =
      ((Nat.toDigits 16 n).map Char.toUpper).leftpad width '0' := by
    simp [List.leftpad]
  rw [hexUpper, String.toList_ofList, same]
  exact spelled

theorem spells_hexLower (width n : Nat) : Spells 16 (hexLower width n).toList n := by
  have spelled := spells_toDigits id (by decide) (fun k small => (digit?_hex ⟨k, small⟩).1) n
  rw [List.map_id] at spelled
  rw [hexLower, String.toList_ofList]
  exact spelled.leftpad (by decide) width

theorem spells_decimal (n : Nat) : Spells 10 (decimal n).toList n := by
  have spelled := spells_toDigits id (by decide) (fun k small => digit?_decimal ⟨k, small⟩) n
  rw [List.map_id] at spelled
  rwa [decimal, String.toList_ofList]

theorem decimalInt_natCast (n : Nat) : decimalInt n = decimal n := by
  have positive : ¬(n : Int) < 0 := by omega
  simp [decimalInt, positive]

/-- A digit is a letter or a decimal digit. -/
theorem isAlphanum_of_isDigitOf {radix : Nat} {c : Char} (digit : isDigitOf radix c = true) :
    c.isAlphanum = true := by
  have small : 'a' ≤ c ∧ c ≤ 'f' → 97 ≤ c.toNat ∧ c.toNat ≤ 122 := by
    rintro ⟨low, high⟩
    have least : 97 ≤ c.toNat := UInt32.le_iff_toNat_le.mp low
    have most : c.toNat ≤ 102 := UInt32.le_iff_toNat_le.mp high
    omega
  have large : 'A' ≤ c ∧ c ≤ 'F' → 65 ≤ c.toNat ∧ c.toNat ≤ 90 := by
    rintro ⟨low, high⟩
    have least : 65 ≤ c.toNat := UInt32.le_iff_toNat_le.mp low
    have most : c.toNat ≤ 70 := UInt32.le_iff_toNat_le.mp high
    omega
  rw [isAlphanum_iff]
  unfold isDigitOf digit? at digit
  split at digit
  next decimal => exact .inr (.inr ((isDigit_iff c).mp decimal))
  · split at digit
    next lower => exact .inr (.inl (small lower))
    · split at digit
      next upper => exact .inl (large upper)
      · simp at digit

theorem isIdentChar_of_isDigitOf {radix : Nat} (c : Char) (digit : isDigitOf radix c = true) :
    isIdentChar c = true := by
  simp [isIdentChar, isAlphanum_of_isDigitOf digit]

theorem isDigit_of_isDigitOf_ten {c : Char} (digit : isDigitOf 10 c = true) : c.isDigit = true := by
  unfold isDigitOf digit? at digit
  split at digit
  · assumption
  · split at digit
    · simp at digit
    · split at digit <;> simp at digit

end Text

open Text

namespace Literal

theorem accumulate_eq {radix start : Nat} {cs : List Char} (positive : 0 < radix)
    (digits : ∀ c ∈ cs, isDigitOf radix c = true) (bound : numeral radix start cs ≤ limit) :
    accumulate radix start cs = .ok (numeral radix start cs) := by
  induction cs generalizing start with
  | nil => rfl
  | cons c cs ih =>
    obtain ⟨d, found⟩ := Option.isSome_iff_exists.mp (digits c (by simp))
    have later : numeral radix start (c :: cs) = numeral radix (start * radix + d) cs := by
      simp [numeral, found]
    rw [later] at bound ⊢
    have small : start * radix + d ≤ limit := Nat.le_trans (le_numeral positive _ cs) bound
    simp only [accumulate, found, small, ite_true]
    exact ih (fun c member => digits c (by simp [member])) bound

theorem plain_eq {radix n : Nat} (origin pos : Nat) {cs rest : List Char} (positive : 0 < radix)
    (spelled : Spells radix cs n) (bound : n ≤ limit) (stops : Stops isIdentChar rest) :
    plain radix origin ⟨pos, cs ++ rest⟩ = .ok (n, ⟨pos + utf8Length cs, rest⟩) := by
  have digitStop : Stops (isDigitOf radix) rest := stops.mono isIdentChar_of_isDigitOf
  have read := accumulate_eq positive spelled.digits (spelled.value.symm ▸ bound)
  have next : rest.head?.any isIdentChar = false := stops
  simp [plain, Cursor.run_append pos spelled.digits digitStop, Cursor.peek?, next, read,
    spelled.value]

theorem withSuffix_eq {radix n : Nat} (origin pos : Nat) {cs rest : List Char} {letter : Char}
    (positive : 0 < radix) (split : suffixed (cs ++ [letter]) = (cs, radix))
    (alpha : letter.isAlphanum = true) (spelled : Spells radix cs n) (bound : n ≤ limit)
    (stops : Stops Char.isAlphanum rest) :
    withSuffix origin ⟨pos, cs ++ [letter] ++ rest⟩ =
      .ok (n, ⟨pos + utf8Length (cs ++ [letter]), rest⟩) := by
  have token : ∀ c ∈ cs ++ [letter], c.isAlphanum = true := by
    intro c member
    rcases List.mem_append.mp member with digit | suffix
    · exact isAlphanum_of_isDigitOf (spelled.digits c digit)
    · exact List.mem_singleton.mp suffix ▸ alpha
  have read := accumulate_eq positive spelled.digits (spelled.value.symm ▸ bound)
  rw [withSuffix, Cursor.run_append pos token stops]
  simp only [split, read, spelled.value, Cursor.advance_append]

theorem withSuffix_decimal {n : Nat} (origin pos : Nat) {cs rest : List Char}
    (spelled : Spells 10 cs n) (bound : n ≤ limit) (stops : Stops Char.isAlphanum rest) :
    withSuffix origin ⟨pos, cs ++ rest⟩ = .ok (n, ⟨pos + utf8Length cs, rest⟩) := by
  have token : ∀ c ∈ cs, c.isAlphanum = true := fun c member =>
    isAlphanum_of_isDigitOf (spelled.digits c member)
  have read := accumulate_eq (by decide) spelled.digits (spelled.value.symm ▸ bound)
  have parts : suffixed cs = (cs, 10) := by
    have ends := List.getLast?_eq_some_getLast spelled.nonempty
    generalize cs.getLast spelled.nonempty = last at ends
    have digit : last.isDigit = true :=
      isDigit_of_isDigitOf_ten (spelled.digits last (List.mem_of_getLast? ends))
    have kept : last.toUpper = last := by
      apply Char.toUpper_eq_of_not_isLower
      rw [isDigit_iff] at digit
      simp only [Char.isLower, Bool.and_eq_true, decide_eq_true_eq, not_and]
      intro low
      have least : 97 ≤ last.toNat := UInt32.le_iff_toNat_le.mp low
      omega
    have other (letter : Char) (alpha : letter.isDigit = false) : some last ≠ some letter := by
      rintro ⟨⟩
      simp [alpha] at digit
    unfold suffixed
    rw [ends, Option.map_some, kept]
    split
    case h_6 => rfl
    all_goals exact absurd (by assumption) (other _ (by decide))
  rw [withSuffix, Cursor.run_append pos token stops]
  simp only [parts, read, spelled.value, Cursor.advance_append]

end Literal

namespace Dialect

/-- The marks in front of digits, and the radix that each announces. -/
def marks : Dialect → List (List Char × Nat)
  | intel => [(['$'], 16), (['0', 'x'], 16), (['0', 'X'], 16)]
  | motorola => [(['$'], 16), (['%'], 2), (['@'], 8), (['0', 'x'], 16), (['0', 'X'], 16)]
  | national => [(['0', 'x'], 16), (['0', 'X'], 16), (['0', 'b'], 2), (['0', 'B'], 2), (['0', 'o'], 8),
      (['0', 'O'], 8)]
  | texas => [(['>'], 16), (['0', 'x'], 16), (['0', 'X'], 16)]

/-- The letters behind digits, and the radix that each announces. -/
def suffixes : Dialect → List (Char × Nat)
  | intel => [('H', 16), ('h', 16), ('O', 8), ('o', 8), ('Q', 8), ('q', 8), ('B', 2), ('b', 2), ('D', 10),
      ('d', 10)]
  | _ => []

/-- The ways in which a dialect writes a number. Digits with a suffix begin with a decimal one, so that
they are no name. -/
inductive Spelled (d : Dialect) (n : Nat) : List Char → Prop
  | decimal {cs : List Char} (digits : Spells 10 cs n) : Spelled d n cs
  | marked {mark cs : List Char} {radix : Nat} (announced : (mark, radix) ∈ d.marks)
      (digits : Spells radix cs n) : Spelled d n (mark ++ cs)
  | suffixed {letter : Char} {cs : List Char} {radix : Nat} (announced : (letter, radix) ∈ d.suffixes)
      (digits : Spells radix cs n) (first : cs.head?.any Char.isDigit = true) :
      Spelled d n (cs ++ [letter])

theorem sigil?_digit (d : Dialect) {a : Char} (digit : a.isDigit = true) : d.sigil? a = none := by
  unfold sigil?
  split
  case h_6 => rfl
  all_goals exact absurd digit (by decide)

/-- Digits are not taken for a radix mark unless a radix letter is the second of them. -/
theorem radixMark?_digit (d : Dialect) {a : Char} {rest : List Char} (digit : a.isDigit = true)
    (letter : ∀ b ∈ rest.head?, d.zeroLetter? b = none) : d.radixMark? (a :: rest) = none := by
  cases rest with
  | nil => rfl
  | cons b rest => simp [radixMark?, d.sigil?_digit digit, letter b (by simp)]

/-- A mark announces its radix where a digit of it follows. -/
theorem radixMark?_mark (d : Dialect) (b : Char) (rest : List Char) :
    ∀ mark ∈ d.marks, isDigitOf mark.2 b = true →
      d.radixMark? (mark.1 ++ b :: rest) = some (mark.1.length, mark.2) := by
  intro mark member digit
  cases d <;> fin_cases member <;> simp_all [radixMark?, sigil?, zeroLetter?]

theorem radix_pos_of_mark (d : Dialect) : ∀ mark ∈ d.marks, 0 < mark.2 := by
  cases d <;> decide

theorem suffix_of_intel : ∀ suffix ∈ intel.suffixes, 0 < suffix.2 ∧ suffix.1.isAlphanum = true ∧
    intel.zeroLetter? suffix.1 = none := by decide

/-- No digit is the letter of a hexadecimal mark. -/
theorem zeroLetter?_intel_digit {radix : Nat} {b : Char} (digit : isDigitOf radix b = true) :
    intel.zeroLetter? b = none := by
  unfold zeroLetter?
  split
  case h_1 | h_2 => simp [isDigitOf, digit?, Char.isDigit] at digit
  case h_7 => rfl
  all_goals contradiction

theorem zeroLetter?_of_not_alpha (d : Dialect) {b : Char} (other : b.isAlpha = false) :
    d.zeroLetter? b = none := by
  unfold zeroLetter?
  split
  case h_7 => rfl
  all_goals exact absurd other (by decide)

end Dialect

namespace Literal

open Dialect

/-- A number with its suffix, as the suffixed dialect writes it. -/
theorem intel_hex_toList (n width : Nat) :
    ∃ cs, (intel.hex n width).toList = cs ++ ['H'] ∧ Spells 16 cs n ∧
      cs.head?.any Char.isDigit = true := by
  have spelled := spells_hexUpper width n
  obtain ⟨first, more, shape⟩ := List.exists_cons_of_ne_nil spelled.nonempty
  by_cases alpha : first.isAlpha = true
  · refine ⟨'0' :: (hexUpper width n).toList, ?_, ?_, rfl⟩
    · simp [hex, shape, alpha]
    · have padded := spelled.leftpad (by decide) ((hexUpper width n).toList.length + 1)
      simpa [List.leftpad] using padded
  · refine ⟨(hexUpper width n).toList, ?_, spelled, ?_⟩
    · simp [hex, shape, alpha]
    · have letter := isAlphanum_of_isDigitOf (spelled.digits first (by simp [shape]))
      simpa [shape, Char.isAlphanum, alpha] using letter

/-- The letters split off what they stand behind, also those that are digits of a larger radix. -/
theorem suffixed_append {cs : List Char} {n : Nat} :
    ∀ suffix ∈ intel.suffixes, Spells suffix.2 cs n →
      suffixed (cs ++ [suffix.1]) = (cs, suffix.2) := by
  intro suffix member spelled
  have all : cs.all (isDigitOf suffix.2) = true := List.all_eq_true.mpr spelled.digits
  fin_cases member <;> simp_all [suffixed]

/-- However a dialect writes a number, it is read as a literal. -/
theorem read?_spelled {d : Dialect} {n : Nat} {text : List Char} (spelled : d.Spelled n text) (pos : Nat)
    {rest : List Char} (bound : n ≤ limit) (stops : Stops isIdentChar rest) :
    read? d ⟨pos, text ++ rest⟩ = some (.ok (n, ⟨pos + utf8Length text, rest⟩)) := by
  have word : Stops Char.isAlphanum rest := stops.mono fun c inside => by simp [isIdentChar, inside]
  cases spelled with
  | decimal digits =>
    have suffix := withSuffix_decimal pos pos digits bound word
    have body := plain_eq pos pos (by decide) digits bound stops
    obtain ⟨first, more, rfl⟩ := List.exists_cons_of_ne_nil digits.nonempty
    have start := isDigit_of_isDigitOf_ten (digits.digits first (by simp))
    -- A zero in front could open a mark; what stands behind it is a digit or ends the word.
    have none : d.radixMark? (first :: (more ++ rest)) = none := by
      apply d.radixMark?_digit start
      intro b second
      apply d.zeroLetter?_of_not_alpha
      cases more with
      | nil =>
        cases rest with
        | nil => simp at second
        | cons c rest =>
          obtain rfl : b = c := by simpa using second.symm
          have other := stops_cons.mp stops
          simp only [isIdentChar, Char.isAlphanum, Bool.or_eq_false_iff] at other
          exact other.1.1.1
      | cons c more =>
        obtain rfl : b = c := by simpa using second.symm
        have digit := isDigit_of_isDigitOf_ten (digits.digits b (by simp))
        rw [isDigit_iff] at digit
        apply Bool.eq_false_iff.mpr
        rw [Ne, isAlpha_iff]
        omega
    simp only [List.cons_append] at suffix body ⊢
    simp only [read?, none, Cursor.peek?, List.head?_cons, Option.any_some, start, if_true, suffix,
      body, ite_self]
  | @marked mark cs radix announced digits =>
    obtain ⟨first, more, rfl⟩ := List.exists_cons_of_ne_nil digits.nonempty
    have found : d.radixMark? (mark ++ (first :: more ++ rest)) = some (mark.length, radix) :=
      d.radixMark?_mark first (more ++ rest) _ announced (digits.digits first (by simp))
    have body := plain_eq pos (pos + utf8Length mark) (d.radix_pos_of_mark _ announced) digits bound stops
    rw [List.append_assoc, utf8Length_append, ← Nat.add_assoc]
    simp only [read?, found, Cursor.advance_append, body]
  | @suffixed letter cs radix announced digits first =>
    obtain rfl : d = .intel := by
      cases d <;> simp_all [suffixes]
    obtain ⟨positive, alpha, unmarked⟩ := suffix_of_intel _ announced
    have body := withSuffix_eq pos pos positive (suffixed_append _ announced digits) alpha digits bound word
    obtain ⟨a, more, rfl⟩ := List.exists_cons_of_ne_nil digits.nonempty
    have start : a.isDigit = true := by simpa using first
    have none : intel.radixMark? (a :: (more ++ [letter] ++ rest)) = none := by
      apply radixMark?_digit _ start
      intro b second
      cases more with
      | nil =>
        obtain rfl : b = letter := by simpa using second.symm
        exact unmarked
      | cons c more =>
        obtain rfl : b = c := by simpa using second.symm
        exact zeroLetter?_intel_digit (digits.digits b (by simp))
    simp only [List.cons_append] at body ⊢
    simp only [read?, none, Cursor.peek?, List.head?_cons, Option.any_some, start, if_true, body]

end Literal

namespace Dialect

theorem Spelled.ne_nil {d : Dialect} {n : Nat} {text : List Char} (spelled : d.Spelled n text) :
    text ≠ [] := by
  cases spelled with
  | decimal digits => exact digits.nonempty
  | marked _ digits => simp [digits.nonempty]
  | suffixed => simp

theorem spelled_decimal (d : Dialect) (n : Nat) : d.Spelled n (decimal n).toList :=
  .decimal (spells_decimal n)

theorem spelled_hex (d : Dialect) (n width : Nat) : d.Spelled n (d.hex n width).toList := by
  cases d with
  | intel =>
    obtain ⟨cs, text, spelled, digit⟩ := Literal.intel_hex_toList n width
    rw [text]
    exact .suffixed (by decide) spelled digit
  | motorola =>
    have text : (motorola.hex n width).toList = ['$'] ++ (hexUpper width n).toList := by simp [hex]
    rw [text]
    exact .marked (by decide) (spells_hexUpper width n)
  | national =>
    have text : (national.hex n width).toList = ['0', 'x'] ++ (hexLower width n).toList := by simp [hex]
    rw [text]
    exact .marked (by decide) (spells_hexLower width n)
  | texas =>
    have text : (texas.hex n width).toList = ['>'] ++ (hexUpper width n).toList := by simp [hex]
    rw [text]
    exact .marked (by decide) (spells_hexUpper width n)

end Dialect

end CrossAsm
