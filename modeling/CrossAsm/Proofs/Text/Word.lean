import CrossAsm.Proofs.Line

/-! Words of the operand syntax. A word is told from every other one in either letter case, and
nothing that begins as a number is one. -/

namespace CrossAsm

open Text

/-- A word in upper case that begins with a letter. -/
def Text.isWord (word : String) : Bool :=
  word.toList.head?.any Char.isAlpha &&
    word.toList.all fun ch => isIdentChar ch && ch.toUpper == ch

theorem Text.ident_of_isWord {word : String} (plain : isWord word = true) {ch : Char}
    (member : ch ∈ word.toList) : isIdentChar ch = true ∧ ch.toUpper = ch := by
  simp only [isWord, Bool.and_eq_true, List.all_eq_true, beq_iff_eq] at plain
  exact plain.2 ch member

theorem Text.map_toUpper_of_isWord {word : String} (plain : isWord word = true) :
    word.toList.map Char.toUpper = word.toList := by
  have same := List.map_congr_left fun ch member => (ident_of_isWord plain member).2
  rw [same, List.map_id'']
  intro ch
  rfl

/-- The text is the word, letter case aside. -/
structure Text.Names (text : List Char) (word : String) : Prop where
  upper : text.map Char.toUpper = word.toList
  ident : ∀ ch ∈ text, isIdentChar ch = true

theorem Rendering.names_case (r : Rendering) {word : String} (plain : isWord word = true) :
    Names (r.case word).toList word := by
  have upper : (r.case word).toList.map Char.toUpper = word.toList := by
    have same := congrArg String.toList (r.upper_case word)
    simp only [Text.upper, String.toList_ofList] at same
    rw [same, map_toUpper_of_isWord plain]
  refine ⟨upper, fun ch member => ?_⟩
  have present : ch.toUpper ∈ word.toList := upper ▸ List.mem_map_of_mem member
  rw [← isIdentChar_toUpper]
  exact (ident_of_isWord plain present).1

theorem Text.Names.exists_cons {text : List Char} {word : String} (names : Names text word)
    (plain : isWord word = true) : ∃ ch more, text = ch :: more ∧ isIdentChar ch = true ∧
      word.toList.head? = some ch.toUpper := by
  have upper := names.upper
  cases text with
  | nil =>
    simp only [isWord, ← upper, List.map_nil, List.head?_nil, Option.any_none, Bool.false_and,
      Bool.false_eq_true] at plain
  | cons ch more => exact ⟨ch, more, rfl, names.ident ch (by simp), by rw [← upper]; rfl⟩

/-- A word begins an operand unless it could be taken for the index register. -/
theorem Text.Names.starts {text : List Char} {word : String} (names : Names text word)
    (plain : isWord word = true) (other : word.toList.head? ≠ some 'X') :
    text.head?.any startsOperand = true := by
  obtain ⟨ch, more, rfl, ident, head⟩ := names.exists_cons plain
  have solid := Machine.isBlank_of_isIdentChar ident
  have differs (c : Char) (outside : isIdentChar c = false) : ch ≠ c := by
    rintro rfl
    exact absurd (ident.symm.trans outside) (by decide)
  have letter : ch.toUpper ≠ 'X' := by
    rintro same
    exact other (same ▸ head)
  simp [startsOperand, solid, differs ';' (by decide), differs ',' (by decide), letter]

namespace Cursor

theorem eat?_names {text : List Char} {word : String} (names : Names text word)
    (plain : isWord word = true) (other : Char) (outside : isIdentChar other = false) (pos : Nat)
    (rest : List Char) : (⟨pos, text ++ rest⟩ : Cursor).eat? other = none := by
  obtain ⟨ch, more, rfl, ident, -⟩ := names.exists_cons plain
  apply eat?_ne
  rintro same
  obtain rfl : ch = other := by simpa using same
  exact absurd (ident.symm.trans outside) (by decide)

theorem skipSpaces_names {text : List Char} {word : String} (names : Names text word)
    (plain : isWord word = true) (pos : Nat) (rest : List Char) :
    (⟨pos, text ++ rest⟩ : Cursor).skipSpaces = ⟨pos, text ++ rest⟩ := by
  apply skipSpaces_stops
  obtain ⟨ch, more, rfl, ident, -⟩ := names.exists_cons plain
  exact (stops_cons.mpr (Machine.isBlank_of_isIdentChar ident)).mono fun c space => by
    rcases (by simpa using space : c = ' ' ∨ c = '\t') with rfl | rfl <;> rfl

theorem ident?_names {text rest : List Char} {word : String} (names : Names text word)
    (plain : isWord word = true) (stops : Stops isIdentChar rest) (pos : Nat) :
    (⟨pos, text ++ rest⟩ : Cursor).ident? =
      some (String.ofList text, ⟨pos + utf8Length text, rest⟩) := by
  have identifier : isIdentifier (String.ofList text) = true := by
    obtain ⟨ch, more, rfl, ident, head⟩ := names.exists_cons plain
    have alpha : ch.isAlpha = true := by
      rw [← Char.isAlpha_toUpper_eq_isAlpha]
      simp only [isWord, Bool.and_eq_true, head, Option.any_some] at plain
      exact plain.1
    simp only [isIdentifier, String.toList_ofList, List.head?_cons, Option.any_some,
      Bool.and_eq_true, List.all_eq_true]
    exact ⟨by simp [isIdentStart, alpha], names.ident⟩
  have word := ident?_append identifier stops pos
  rwa [String.toList_ofList] at word

theorem eatWord?_names {text rest : List Char} {word other : String} (names : Names text word)
    (stops : Stops isIdentChar rest) (plain : isWord other = true) (pos : Nat) :
    (⟨pos, text ++ rest⟩ : Cursor).eatWord? other =
      if other == word then some ⟨pos + utf8Length text, rest⟩ else none := by
  rw [eatWord?_eq _ fun ch member => (ident_of_isWord plain member).1,
    run_append pos names.ident stops, skipWhile_append pos names.ident stops, names.upper,
    map_toUpper_of_isWord plain]
  by_cases same : other = word
  · simp [same]
  · have differs : word.toList ≠ other.toList := fun equal => same (String.toList_inj.mp equal.symm)
    simp [same, differs]

/-- The word at the cursor among several. -/
theorem findSome?_names {α : Type} {items : List α} {name : α → String} {text rest : List Char}
    {word : String} (names : Names text word) (stops : Stops isIdentChar rest)
    (plain : ∀ item ∈ items, isWord (name item) = true) (pos : Nat) :
    (items.findSome? fun item =>
        ((⟨pos, text ++ rest⟩ : Cursor).eatWord? (name item)).map fun after => (item, after)) =
      (items.find? fun item => name item == word).map fun item =>
        (item, ⟨pos + utf8Length text, rest⟩) := by
  induction items with
  | nil => rfl
  | cons item items ih =>
    have later := ih fun item member => plain item (by simp [member])
    rw [List.findSome?_cons, List.find?_cons, later,
      eatWord?_names names stops (plain item (by simp))]
    cases name item == word <;> rfl

theorem eatWord?_not_alpha {ch : Char} {rest : List Char} {word : String}
    (other : ch.isAlpha = false) (plain : isWord word = true) (pos : Nat) :
    (⟨pos, ch :: rest⟩ : Cursor).eatWord? word = none := by
  have upper := map_toUpper_of_isWord plain
  have fixed : ch.toUpper = ch := by
    apply Char.toUpper_eq_of_not_isLower
    intro lower
    simp [Char.isAlpha, lower] at other
  simp only [isWord, Bool.and_eq_true] at plain
  have unlike : startsWith word.toList (ch :: rest) = false := by
    rw [Bool.eq_false_iff, ne_eq, startsWith_iff, upper]
    intro starts
    cases shape : word.toList with
    | nil => simp [shape] at plain
    | cons letter more =>
      rw [shape, List.map_cons, List.cons_prefix_cons, fixed] at starts
      simp [shape, starts.1, other] at plain
  simp [eatWord?, unlike]

theorem findSome?_not_alpha {α : Type} {items : List α} {name : α → String} {ch : Char}
    {rest : List Char} (other : ch.isAlpha = false)
    (plain : ∀ item ∈ items, isWord (name item) = true) (pos : Nat) :
    (items.findSome? fun item =>
      ((⟨pos, ch :: rest⟩ : Cursor).eatWord? (name item)).map fun after => (item, after)) = none := by
  rw [List.findSome?_eq_none_iff]
  intro item member
  rw [eatWord?_not_alpha other (plain item member), Option.map_none]

end Cursor

end CrossAsm
