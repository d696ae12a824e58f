import CrossAsm.Proofs.Text.Letter

/-! Moving over text of a known form. A run of characters of one class ends where the text behind
it stops the class, and a word is eaten exactly when it is the whole run of word characters at
the cursor, letter case aside. -/

namespace CrossAsm

namespace Text

theorem utf8Length_append (a b : List Char) :
    utf8Length (a ++ b) = utf8Length a + utf8Length b := by
  induction a with
  | nil => simp [utf8Length]
  | cons ch a ih => simp [utf8Length, ih, Nat.add_assoc]

/-- The text does not begin with a character of the class. -/
def Stops (p : Char → Bool) (rest : List Char) : Prop := rest.head?.any p = false

theorem stops_nil (p : Char → Bool) : Stops p [] := rfl

theorem stops_cons {p : Char → Bool} {ch : Char} {rest : List Char} :
    Stops p (ch :: rest) ↔ p ch = false := by
  simp [Stops]

theorem Stops.mono {p q : Char → Bool} {rest : List Char} (stops : Stops p rest)
    (wider : ∀ ch, q ch = true → p ch = true) : Stops q rest := by
  cases rest with
  | nil => exact stops_nil q
  | cons ch rest =>
    rw [stops_cons] at stops ⊢
    cases inside : q ch with
    | false => rfl
    | true => simp [wider ch inside] at stops

theorem takeWhile_append_stops {p : Char → Bool} {cs rest : List Char} (inside : ∀ c ∈ cs, p c)
    (stops : Stops p rest) : (cs ++ rest).takeWhile p = cs := by
  rw [List.takeWhile_append_of_pos inside]
  cases rest with
  | nil => simp
  | cons ch rest => simp [stops_cons.mp stops]

theorem dropWhile_append_stops {p : Char → Bool} {cs rest : List Char} (inside : ∀ c ∈ cs, p c)
    (stops : Stops p rest) : (cs ++ rest).dropWhile p = rest := by
  rw [List.dropWhile_append_of_pos inside]
  cases rest with
  | nil => simp
  | cons ch rest => simp [stops_cons.mp stops]

end Text

open Text

namespace Cursor

theorem run_append {p : Char → Bool} (pos : Nat) {cs rest : List Char} (inside : ∀ c ∈ cs, p c)
    (stops : Stops p rest) : (⟨pos, cs ++ rest⟩ : Cursor).run p = cs :=
  takeWhile_append_stops inside stops

theorem skipWhile_append {p : Char → Bool} (pos : Nat) {cs rest : List Char}
    (inside : ∀ c ∈ cs, p c) (stops : Stops p rest) :
    (⟨pos, cs ++ rest⟩ : Cursor).skipWhile p = ⟨pos + utf8Length cs, rest⟩ := by
  simp [skipWhile, takeWhile_append_stops inside stops, dropWhile_append_stops inside stops]

@[simp] theorem advance_append (pos : Nat) (cs rest : List Char) :
    (⟨pos, cs ++ rest⟩ : Cursor).advance cs.length = ⟨pos + utf8Length cs, rest⟩ := by
  simp [advance]

theorem advance_one (pos : Nat) (ch : Char) (rest : List Char) :
    (⟨pos, ch :: rest⟩ : Cursor).advance 1 = ⟨pos + ch.utf8Size, rest⟩ := by
  simp [advance, utf8Length]

theorem skipSpaces_stops {c : Cursor} (stops : Stops (fun ch => ch == ' ' || ch == '\t') c.rest) :
    c.skipSpaces = c := by
  have unmoved := @skipWhile_append _ c.pos [] c.rest (by simp) stops
  simpa [skipSpaces, utf8Length] using unmoved

@[simp] theorem eat?_cons (pos : Nat) (ch : Char) (rest : List Char) :
    (⟨pos, ch :: rest⟩ : Cursor).eat? ch = some ⟨pos + ch.utf8Size, rest⟩ := by
  simp [eat?, peek?, advance_one]

theorem eat?_ne {c : Cursor} {ch : Char} (differs : c.rest.head? ≠ some ch) : c.eat? ch = none := by
  simp [eat?, peek?, differs]

/-! ### Words -/

/-- The text is an identifier as a whole. -/
def isIdentifier (name : String) : Bool :=
  name.toList.head?.any isIdentStart && name.toList.all isIdentChar

theorem ident?_append {name : String} {rest : List Char} (identifier : isIdentifier name = true)
    (stops : Stops isIdentChar rest) (pos : Nat) :
    (⟨pos, name.toList ++ rest⟩ : Cursor).ident? =
      some (name, ⟨pos + utf8Length name.toList, rest⟩) := by
  simp only [isIdentifier, Bool.and_eq_true, List.all_eq_true] at identifier
  obtain ⟨start, ident⟩ := identifier
  have head : (⟨pos, name.toList ++ rest⟩ : Cursor).peek?.any isIdentStart = true := by
    cases shape : name.toList with
    | nil => simp [shape] at start
    | cons ch more => simpa [peek?, shape] using start
  simp only [ident?, peekIdent?, head, if_true, Option.map_some, run_append pos ident stops,
    skipWhile_append pos ident stops, String.ofList_toList]

theorem startsWith_iff (word text : List Char) :
    startsWith word text = true ↔ word.map Char.toUpper <+: text.map Char.toUpper := by
  induction word generalizing text with
  | nil => simp [startsWith]
  | cons w word ih =>
    cases text with
    | nil => simp [startsWith]
    | cons ch text => simp [startsWith, ih, List.cons_prefix_cons]

private theorem run_eq_take {word text : List Char} (ident : ∀ ch ∈ word, isIdentChar ch = true)
    (starts : word.map Char.toUpper <+: text.map Char.toUpper)
    (stops : Stops isIdentChar (text.drop word.length)) :
    text.takeWhile isIdentChar = text.take word.length ∧
      (text.take word.length).map Char.toUpper = word.map Char.toUpper := by
  have same : (text.take word.length).map Char.toUpper = word.map Char.toUpper := by
    have prefixed := List.prefix_iff_eq_take.mp starts
    rw [List.map_take, prefixed]
    simp
  have inside : ∀ ch ∈ text.take word.length, isIdentChar ch = true := by
    intro ch member
    have upper : ch.toUpper ∈ word.map Char.toUpper := same ▸ List.mem_map_of_mem member
    obtain ⟨w, present, equal⟩ := List.mem_map.mp upper
    rw [← isIdentChar_toUpper, ← equal, isIdentChar_toUpper]
    exact ident w present
  have whole := takeWhile_append_stops inside stops
  rw [List.take_append_drop] at whole
  exact ⟨whole, same⟩

/-- A word is eaten exactly when it is the whole run of word characters at the cursor. -/
theorem eatWord?_eq (c : Cursor) {word : String}
    (ident : ∀ ch ∈ word.toList, isIdentChar ch = true) :
    c.eatWord? word =
      if (c.run isIdentChar).map Char.toUpper = word.toList.map Char.toUpper then
        some (c.skipWhile isIdentChar)
      else none := by
  have splits : c.rest.takeWhile isIdentChar ++ c.rest.dropWhile isIdentChar = c.rest :=
    List.takeWhile_append_dropWhile
  unfold eatWord?
  dsimp only
  split
  next eaten =>
    simp only [Bool.and_eq_true, Bool.not_eq_true', startsWith_iff] at eaten
    obtain ⟨starts, stops⟩ := eaten
    obtain ⟨whole, same⟩ := run_eq_take ident starts stops
    have rest : c.rest.dropWhile isIdentChar = c.rest.drop word.toList.length := by
      have both := splits.trans (List.take_append_drop word.toList.length c.rest).symm
      rw [whole] at both
      exact List.append_cancel_left both
    rw [if_pos (by rw [run, whole, same])]
    simp [skipWhile, advance, whole, rest]
  next kept =>
    rw [if_neg]
    intro same
    apply kept
    have count : (c.rest.takeWhile isIdentChar).length = word.toList.length := by
      have lengths := congrArg List.length same
      simpa [run] using lengths
    have rest : c.rest.drop word.toList.length = c.rest.dropWhile isIdentChar := by
      have dropped := congrArg (List.drop word.toList.length) splits
      rw [← dropped, ← count, List.drop_left]
    simp only [Bool.and_eq_true, Bool.not_eq_true', startsWith_iff]
    constructor
    · rw [← same, ← splits, List.map_append, run]
      exact List.prefix_append _ _
    · change (c.rest.drop word.toList.length).head?.any isIdentChar = false
      rw [rest]
      have stop := List.head?_dropWhile_not isIdentChar c.rest
      cases head : (c.rest.dropWhile isIdentChar).head? with
      | none => rfl
      | some ch => simpa [head] using stop

end Cursor

end CrossAsm
