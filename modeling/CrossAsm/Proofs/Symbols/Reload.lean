import CrossAsm.Proofs.Text.Numeral
import CrossAsm.Report
import CrossAsm.Symbols.Read

/-! A symbol table that is written as JSON is read back. Strings come back from their escapes, whole
numbers from their digits, and the definitions one by one in the order they were written. -/

namespace CrossAsm

/-! ### Strings and numbers -/

namespace Json

open Text

theorem hexLower_control : ∀ n < 0x20, (hexLower 4 n).toList =
    ['0', '0', Nat.digitChar (n / 16), Nat.digitChar (n % 16)] := by
  decide

theorem unescape?_control {ch : Char} (control : ch.toNat < 0x20) (rest : List Char) :
    unescape? ('u' :: ((hexLower 4 ch.toNat).toList ++ rest)) = some (ch, rest) := by
  have high := (digit?_hex ⟨ch.toNat / 16, by omega⟩).1
  have low := (digit?_hex ⟨ch.toNat % 16, by omega⟩).1
  have zero : digit? 16 '0' = some 0 := by decide
  have whole : ((0 * 16 + 0) * 16 + ch.toNat / 16) * 16 + ch.toNat % 16 = ch.toNat := by omega
  have read : hexQuad? ((hexLower 4 ch.toNat).toList ++ rest) = some (ch.toNat, rest) := by
    simp only [hexLower_control _ control, List.cons_append, List.nil_append, hexQuad?, zero, high,
      low, Option.bind_eq_bind, Option.bind_some, whole]
    rfl
  -- A control character is far below the surrogates, so its digits are not half of a pair.
  have notHigh : ¬(0xD800 ≤ ch.toNat ∧ ch.toNat < 0xDC00) := by omega
  have notLow : ¬(0xDC00 ≤ ch.toNat ∧ ch.toNat < 0xE000) := by omega
  simp only [unescape?, unicode?, read, Option.bind_eq_bind, Option.bind_some, if_neg notHigh,
    if_neg notLow, Char.ofNat_toNat]
  rfl

theorem string?_backslash (fuel : Nat) {ch : Char} {cs rest : List Char}
    (escaped : unescape? cs = some (ch, rest)) : string? (fuel + 1) ('\\' :: cs) =
      (string? fuel rest).map fun (more, rest) => (ch :: more, rest) := by
  simp only [string?, escaped, Option.bind_eq_bind, Option.bind_some]
  cases string? fuel rest <;> rfl

/-- One character of a string comes back from its escape. -/
theorem string?_escape (fuel : Nat) (ch : Char) (rest : List Char) :
    string? (fuel + 1) ((escape ch).toList ++ rest) =
      (string? fuel rest).map fun (more, rest) => (ch :: more, rest) := by
  unfold escape
  split
  -- Without a short escape a control character is written by its code, any other as it is.
  case h_8 quote slash _ _ _ _ _ =>
    split
    next control =>
      rw [String.toList_append]
      exact string?_backslash fuel (unescape?_control control rest)
    next plain =>
      rw [String.toList_singleton, List.singleton_append, string?, if_neg plain]
      · cases string? fuel rest <;> rfl
      · exact quote
      · exact slash
  all_goals exact string?_backslash fuel rfl

theorem toList_quoted (s : String) :
    (quoted s).toList = '"' :: (s.toList.flatMap (fun ch => (escape ch).toList) ++ ['"']) := by
  simp [quoted, String.toList_join, List.flatMap_map]

/-- A string comes back from its escapes and its closing quote. -/
theorem string?_escaped {fuel : Nat} {cs : List Char} (enough : cs.length < fuel)
    (rest : List Char) :
    string? fuel (cs.flatMap (fun ch => (escape ch).toList) ++ '"' :: rest) = some (cs, rest) := by
  induction cs generalizing fuel with
  | nil =>
    obtain ⟨fuel, rfl⟩ := Nat.exists_eq_add_of_lt enough
    rfl
  | cons ch cs ih =>
    -- A character costs one of the fuel, however long its escape is.
    obtain ⟨fuel, rfl⟩ := Nat.exists_eq_add_of_lt enough
    rw [List.flatMap_cons, List.append_assoc, string?_escape, ih (by simp; omega)]
    rfl

/-- Every character takes up one at least when it is written. -/
theorem length_le_escaped (cs : List Char) :
    cs.length ≤ (cs.flatMap fun ch => (escape ch).toList).length := by
  induction cs with
  | nil => exact Nat.le_refl _
  | cons ch cs ih =>
    have one : 0 < (escape ch).toList.length := by
      unfold escape
      split
      case h_8 => split <;> simp
      all_goals decide
    simp only [List.flatMap_cons, List.length_append, List.length_cons]
    omega

/-- Only zero itself has a zero in front. -/
theorem head?_toDigits {n : Nat} (positive : 0 < n) : (Nat.toDigits 10 n).head? ≠ some '0' := by
  induction n using Nat.strongRecOn with
  | ind n ih =>
    by_cases small : n < 10
    · have digits : ∀ n < 10, 0 < n → Nat.digitChar n ≠ '0' := by decide
      simpa [Nat.toDigits_of_lt_base small] using digits n small positive
    · rw [Nat.toDigits_of_base_le (by decide) (by omega), List.head?_append]
      have front := ih (n / 10) (by omega) (by omega)
      cases digits : (Nat.toDigits 10 (n / 10)).head? with
      | none => simp [Nat.toDigits_ne_nil] at digits
      | some first => simpa [digits] using front

theorem digits?_decimal (n : Nat) {rest : List Char} (stops : Stops Char.isDigit rest) :
    digits? ((decimal n).toList ++ rest) = some ((decimal n).toList, rest) := by
  obtain ⟨digits, nonempty, -⟩ := spells_decimal n
  have inside : ∀ c ∈ (decimal n).toList, c.isDigit = true :=
    fun c member => isDigit_of_isDigitOf_ten (digits c member)
  rw [digits?, takeWhile_append_stops inside stops, dropWhile_append_stops inside stops]
  split
  next empty => exact absurd empty nonempty
  next => rfl

/-- A whole number comes back from its digits. -/
theorem whole?_decimal (n : Nat) {rest : List Char} (stops : Stops Char.isDigit rest) :
    whole? ((decimal n).toList ++ rest) = some (n, rest) := by
  rw [whole?, digits?_decimal n stops]
  split
  next zero second more behind same =>
    -- A zero in front of another digit would be that of zero, which has no other.
    obtain ⟨same, -⟩ := Prod.mk.inj (Option.some.inj same)
    rw [decimal, String.toList_ofList] at same
    rcases Nat.eq_zero_or_pos n with rfl | positive
    · simp [Nat.toDigits_of_lt_base] at same
    · exact absurd (by rw [same]; rfl) (head?_toDigits positive)
  next none => simp at none
  next ds behind _ same =>
    obtain ⟨rfl, rfl⟩ := Prod.mk.inj (Option.some.inj same)
    exact congrArg (fun value => some (value, rest)) (spells_decimal n).value

/-! ### Blanks -/

theorem skip_cons {ch : Char} (visible : isSpace ch = false) (rest : List Char) :
    skip (ch :: rest) = ch :: rest := by
  simp [skip, visible]

theorem skip_newline (level : Nat) (cs : List Char) : skip ((newline level).toList ++ cs) = skip cs := by
  apply List.dropWhile_append_of_pos
  intro c member
  simp only [newline, String.toList_append, String.toList_join, List.mem_append, List.mem_flatMap,
    List.mem_replicate] at member
  rcases member with first | ⟨_, ⟨-, rfl⟩, blank⟩
  · obtain rfl : c = '\n' := by simpa using first
    rfl
  · obtain rfl : c = ' ' := by simpa using blank
    rfl

theorem skip_space (cs : List Char) : skip (' ' :: cs) = skip cs := rfl

theorem skip_quoted (s : String) (rest : List Char) :
    skip ((quoted s).toList ++ rest) = (quoted s).toList ++ rest := by
  rw [toList_quoted]
  rfl

theorem skip_decimal (n : Nat) (rest : List Char) :
    skip ((decimal n).toList ++ rest) = (decimal n).toList ++ rest := by
  obtain ⟨digits, nonempty, -⟩ := spells_decimal n
  cases shape : (decimal n).toList with
  | nil => exact absurd shape nonempty
  | cons first more =>
    have digit := isDigit_of_isDigitOf_ten (digits first (by simp [shape]))
    apply skip_cons
    cases blank : isSpace first with
    | false => rfl
    | true =>
      simp only [isSpace, Bool.or_eq_true, beq_iff_eq] at blank
      rcases blank with ((rfl | rfl) | rfl) | rfl <;> exact absurd digit (by decide)

end Json

/-! ### Definitions -/

namespace Symbols

open Text

variable {cs rest : List Char}

theorem readName?_quoted {name : String} (ahead : Json.skip cs = (Json.quoted name).toList ++ rest) :
    readName? cs = some (name, rest) := by
  rw [Json.toList_quoted, List.cons_append, List.append_assoc, List.singleton_append] at ahead
  have enough : name.toList.length < (name.toList.flatMap (fun ch => (Json.escape ch).toList) ++
      '"' :: rest).length + 1 := by
    have written := Json.length_le_escaped name.toList
    simp only [List.length_append]
    omega
  simp only [readName?, ahead, Json.string?_escaped enough, Option.map_some, String.ofList_toList]

theorem readAddress?_decimal {address : UInt32}
    (ahead : Json.skip cs = (decimal address.toNat).toList ++ rest)
    (stops : Stops Char.isDigit rest) : readAddress? cs = some (address, rest) := by
  have word : address.toNat < 0x100000000 := address.toNat_lt
  simp only [readAddress?, ahead, Json.whole?_decimal _ stops, if_pos word, UInt32.ofNat_toNat]

theorem expect?_eq {ch : Char} (ahead : Json.skip cs = ch :: rest) : expect? ch cs = some rest := by
  simp only [expect?, ahead, if_true]

/-- A definition as it is written. -/
def definitionJson (d : String × UInt32) : Json :=
  .object [("addr", .int d.2.toNat), ("name", .str d.1)]

theorem toList_definitionJson (level : Nat) (d : String × UInt32) :
    ((definitionJson d).textAt level).toList =
      '\x7b' :: ((Json.newline (level + 1)).toList ++ ((Json.quoted "addr").toList ++ ':' :: ' ' ::
        ((decimal d.2.toNat).toList ++ ',' :: ((Json.newline (level + 1)).toList ++
          ((Json.quoted "name").toList ++ ':' :: ' ' :: ((Json.quoted d.1).toList ++
            ((Json.newline level).toList ++ ['\x7d']))))))) := by
  simp [definitionJson, Json.textAt, Json.fieldsAt, decimalInt_natCast]

section Fields

variable {fuel : Nat} {key : String} {address : Option UInt32} {name : Option String}
  {value behind : List Char} (ahead : Json.skip cs = (Json.quoted key).toList ++ ':' :: value)

include ahead

theorem readFields?_comma {address' : Option UInt32} {name' : Option String}
    (field : readField? key address name value = some (address', name', behind))
    (comma : Json.skip behind = ',' :: rest) :
    readFields? (fuel + 1) address name cs = readFields? fuel address' name' rest := by
  have colon : expect? ':' (':' :: value) = some value := expect?_eq (Json.skip_cons rfl value)
  simp only [readFields?, readName?_quoted ahead, colon, field, comma, Option.bind_eq_bind,
    Option.bind_some]

theorem readFields?_brace {d : String × UInt32}
    (field : readField? key address name value = some (some d.2, some d.1, behind))
    (brace : Json.skip behind = '\x7d' :: rest) :
    readFields? (fuel + 1) address name cs = some (d, rest) := by
  have colon : expect? ':' (':' :: value) = some value := expect?_eq (Json.skip_cons rfl value)
  simp only [readFields?, readName?_quoted ahead, colon, field, brace, Option.bind_eq_bind,
    Option.bind_some]
  rfl

end Fields

/-- A definition comes back from its text. -/
theorem readDefinition?_written {level : Nat} {d : String × UInt32}
    (ahead : Json.skip cs = ((definitionJson d).textAt level).toList ++ rest) :
    readDefinition? cs = some (d, rest) := by
  rw [toList_definitionJson] at ahead
  simp only [List.cons_append, List.append_assoc, List.nil_append] at ahead
  simp only [readDefinition?, ahead]
  have address (behind : List Char) : readField? "addr" none none
      (' ' :: ((decimal d.2.toNat).toList ++ ',' :: behind)) = some (some d.2, none, ',' :: behind) := by
    have ahead := (Json.skip_space _).trans (Json.skip_decimal d.2.toNat (',' :: behind))
    simp only [readField?, readAddress?_decimal ahead rfl, Option.map_some]
  have name (behind : List Char) : readField? "name" (some d.2) none
      (' ' :: ((Json.quoted d.1).toList ++ behind)) = some (some d.2, some d.1, behind) := by
    simp only [readField?, readName?_quoted ((Json.skip_space _).trans (Json.skip_quoted _ _)),
      Option.map_some]
  rw [readFields?_comma (by rw [Json.skip_newline, Json.skip_quoted]) (address _)
    (Json.skip_cons rfl _), List.length_append]
  -- The blanks in front of the fields are a bound on these already.
  have blank : (Json.newline (level + 1)).toList.length = (level + 1) * 2 + 1 := by
    simp [Json.newline, String.toList_join, List.length_flatMap]
  rw [blank, Nat.add_right_comm]
  apply readFields?_brace (by rw [Json.skip_newline, Json.skip_quoted]) (name _)
  rw [Json.skip_newline]
  exact Json.skip_cons rfl rest

theorem skip_definitionJson (level : Nat) (d : String × UInt32) (rest : List Char) :
    Json.skip ((Json.newline level).toList ++ (((definitionJson d).textAt level).toList ++ rest)) =
      ((definitionJson d).textAt level).toList ++ rest := by
  rw [Json.skip_newline, toList_definitionJson]
  exact Json.skip_cons rfl _

/-- Definitions come back one after the other, up to the closing bracket. -/
theorem readDefinitions?_written {level outer : Nat} {d : String × UInt32}
    {defs : List (String × UInt32)} {fuel : Nat} (enough : defs.length < fuel) :
    readDefinitions? fuel ((Json.itemsAt level ((d :: defs).map definitionJson)).toList ++
      ((Json.newline outer).toList ++ ']' :: rest)) = some (d :: defs, rest) := by
  induction defs generalizing d fuel with
  | nil =>
    obtain ⟨fuel, rfl⟩ := Nat.exists_eq_add_of_lt enough
    have closed : Json.skip ((Json.newline outer).toList ++ ']' :: rest) = ']' :: rest := by
      rw [Json.skip_newline]
      exact Json.skip_cons rfl rest
    simp only [List.map_cons, List.map_nil, Json.itemsAt, String.toList_append, List.append_assoc,
      readDefinitions?, readDefinition?_written (skip_definitionJson level d _), closed,
      Option.bind_eq_bind, Option.bind_some]
    rfl
  | cons next defs ih =>
    obtain ⟨fuel, rfl⟩ := Nat.exists_eq_add_of_lt enough
    have comma (more : List Char) : Json.skip (",".toList ++ more) = ',' :: more :=
      Json.skip_cons rfl more
    have later := @ih next (defs.length + 1 + fuel) (by omega)
    simp only [List.map_cons] at later
    simp only [List.map_cons, Json.itemsAt, String.toList_append, List.append_assoc,
      List.length_cons, readDefinitions?, readDefinition?_written (skip_definitionJson level d _),
      comma, later, Option.bind_eq_bind, Option.bind_some]
    rfl

theorem readDefinitions?_skip (fuel : Nat) (cs : List Char) :
    readDefinitions? fuel (Json.skip cs) = readDefinitions? fuel cs := by
  have again : Json.skip (Json.skip cs) = Json.skip cs := List.dropWhile_idempotent _ cs
  cases fuel with
  | zero => rfl
  | succ fuel => simp only [readDefinitions?, readDefinition?, again]

/-- Every definition takes up a character at least. -/
theorem length_le_itemsAt (level : Nat) (defs : List (String × UInt32)) :
    defs.length ≤ (Json.itemsAt level (defs.map definitionJson)).toList.length := by
  induction defs with
  | nil => exact Nat.le_refl _
  | cons d defs ih =>
    cases defs with
    | nil =>
      simp only [List.map_cons, List.map_nil, Json.itemsAt, String.toList_append,
        toList_definitionJson, List.length_append, List.length_cons]
      omega
    | cons next defs =>
      simp only [List.map_cons, Json.itemsAt, String.toList_append, toList_definitionJson,
        List.length_append, List.length_cons] at ih ⊢
      omega

/-- Definitions begin with the brace of the first. -/
theorem exists_skip_itemsAt (level : Nat) (d : String × UInt32) (defs : List (String × UInt32))
    (rest : List Char) : ∃ more, defs.length ≤ more.length ∧ Json.skip
      ((Json.itemsAt level ((d :: defs).map definitionJson)).toList ++ rest) = '\x7b' :: more := by
  have first (more : List Char) : ∃ tail, more.length ≤ tail.length ∧
      Json.skip ((Json.newline level).toList ++
        (((definitionJson d).textAt level).toList ++ more)) = '\x7b' :: tail := by
    rw [skip_definitionJson, toList_definitionJson, List.cons_append]
    refine ⟨_, ?_, rfl⟩
    rw [List.length_append]
    omega
  cases defs with
  | nil =>
    obtain ⟨tail, -, opens⟩ := first rest
    exact ⟨tail, Nat.zero_le _, by simpa [Json.itemsAt] using opens⟩
  | cons next defs =>
    obtain ⟨tail, long, opens⟩ := first
      (',' :: ((Json.itemsAt level ((next :: defs).map definitionJson)).toList ++ rest))
    have items := length_le_itemsAt level (next :: defs)
    refine ⟨tail, ?_, by simpa [Json.itemsAt] using opens⟩
    simp only [List.length_cons, List.length_append] at long items ⊢
    omega

/-- The shown names are read back from the text they are written to. -/
theorem definitions?_json (s : Symbols) : definitions? s.json.text = some s.shown := by
  change definitions? (Json.textAt 0 (.list (s.shown.map definitionJson))) = _
  cases s.shown with
  | nil => rfl
  | cons d defs =>
    -- The first character is looked at before any definition is read, so reading starts behind the
    -- blanks.
    let items := (Json.itemsAt 1 ((d :: defs).map definitionJson)).toList ++
      ((Json.newline 0).toList ++ [']'])
    have text : (Json.textAt 0 (.list ((d :: defs).map definitionJson))).toList = '[' :: items := by
      simp [Json.textAt, items]
    have opened : expect? '[' ('[' :: items) = some items := expect?_eq (Json.skip_cons rfl items)
    obtain ⟨more, long, first⟩ := exists_skip_itemsAt 1 d defs ((Json.newline 0).toList ++ [']'])
    have read : readDefinitions? (('\x7b' :: more).length + 1) ('\x7b' :: more) =
        some (d :: defs, []) := by
      rw [← first, readDefinitions?_skip]
      apply readDefinitions?_written
      rw [first, List.length_cons]
      omega
    simp only [definitions?, text, opened, first, items, Option.bind_eq_bind, Option.bind_some]
    split
    next clash => simp at clash
    next => rw [read]; rfl

end Symbols

end CrossAsm
