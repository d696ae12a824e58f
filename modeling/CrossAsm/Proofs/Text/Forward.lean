import CrossAsm.Proofs.Text.Cursor
import CrossAsm.Value.Expression

/-! Reading goes forward: what is left behind an expression is an end of what was ahead of it, and
the position has grown by the bytes of the text between the two. -/

namespace CrossAsm

/-- The one cursor comes to the other by moving over some text. -/
def Cursor.Reaches (c d : Cursor) : Prop :=
  ∃ taken, c.rest = taken ++ d.rest ∧ d.pos = c.pos + Text.utf8Length taken

namespace Cursor

theorem Reaches.refl (c : Cursor) : c.Reaches c := ⟨[], rfl, rfl⟩

theorem Reaches.trans {a b c : Cursor} (first : a.Reaches b) (second : b.Reaches c) :
    a.Reaches c := by
  obtain ⟨taken, ahead, pos⟩ := first
  obtain ⟨more, behind, later⟩ := second
  refine ⟨taken ++ more, by rw [ahead, behind, List.append_assoc], ?_⟩
  rw [later, pos, Text.utf8Length_append, Nat.add_assoc]

theorem Reaches.length_le {c d : Cursor} (reaches : c.Reaches d) :
    d.rest.length ≤ c.rest.length := by
  obtain ⟨taken, ahead, -⟩ := reaches
  rw [ahead, List.length_append]
  exact Nat.le_add_left _ _

theorem reaches_advance (c : Cursor) (n : Nat) : c.Reaches (c.advance n) :=
  ⟨c.rest.take n, (List.take_append_drop n c.rest).symm, rfl⟩

theorem reaches_skipWhile (c : Cursor) (p : Char → Bool) : c.Reaches (c.skipWhile p) :=
  ⟨c.rest.takeWhile p, List.takeWhile_append_dropWhile.symm, rfl⟩

theorem reaches_skipSpaces (c : Cursor) : c.Reaches c.skipSpaces := c.reaches_skipWhile _

theorem reaches_of_eat? {c d : Cursor} {ch : Char} (eaten : c.eat? ch = some d) :
    c.Reaches d := by
  simp only [eat?] at eaten
  split at eaten
  · obtain rfl := Option.some.inj eaten
    exact c.reaches_advance 1
  · simp at eaten

theorem length_of_eat? {c d : Cursor} {ch : Char} (eaten : c.eat? ch = some d) :
    d.rest.length + 1 = c.rest.length := by
  simp only [eat?] at eaten
  split at eaten
  next ahead =>
    obtain rfl := Option.some.inj eaten
    cases shape : c.rest with
    | nil => simp [peek?, shape] at ahead
    | cons head rest => simp [advance, shape]
  next => simp at eaten

theorem reaches_of_ident? {c d : Cursor} {name : String} (read : c.ident? = some (name, d)) :
    c.Reaches d := by
  simp only [ident?, Option.map_eq_some_iff, Prod.mk.injEq] at read
  obtain ⟨_, _, _, rfl⟩ := read
  exact c.reaches_skipWhile _

theorem reaches_of_eatWord? {c d : Cursor} {word : String} (eaten : c.eatWord? word = some d) :
    c.Reaches d := by
  simp only [eatWord?] at eaten
  split at eaten
  · obtain rfl := Option.some.inj eaten
    exact c.reaches_advance _
  · simp at eaten

end Cursor

open Cursor

namespace Literal

theorem reaches_of_plain {radix origin n : Nat} {c d : Cursor}
    (read : plain radix origin c = .ok (n, d)) : c.Reaches d := by
  simp only [plain] at read
  split at read
  · simp at read
  · split at read
    · cases read
      exact c.reaches_advance _
    · simp at read

theorem reaches_of_withSuffix {origin n : Nat} {c d : Cursor}
    (read : withSuffix origin c = .ok (n, d)) : c.Reaches d := by
  simp only [withSuffix] at read
  split at read
  · cases read
    exact c.reaches_advance _
  · simp at read

theorem reaches_of_read? {dialect : Dialect} {n : Nat} {c d : Cursor}
    (read : read? dialect c = some (.ok (n, d))) : c.Reaches d := by
  simp only [read?] at read
  split at read
  next length radix _ =>
    exact (c.reaches_advance length).trans (reaches_of_plain (Option.some.inj read))
  · split at read
    · split at read
      · exact reaches_of_withSuffix (Option.some.inj read)
      · exact reaches_of_plain (Option.some.inj read)
    · simp at read

end Literal

namespace Scope

variable {s : Scope} {c d : Cursor} {v : Value}

theorem reaches_of_quoted (read : quoted c = .ok (v, d)) : c.Reaches d := by
  simp only [quoted] at read
  split at read
  · simp at read
  · split at read
    · simp at read
    next closed =>
      cases read
      exact ((c.reaches_advance 1).trans (reaches_advance _ 1)).trans (reaches_of_eat? closed)

theorem reaches_of_atom (read : s.atom c = .ok (v, d)) : c.Reaches d := by
  simp only [atom] at read
  split at read
  next literal =>
    cases read
    exact Literal.reaches_of_read? literal
  · simp at read
  · split at read
    next eaten =>
      cases read
      exact reaches_of_eat? eaten
    · split at read
      next named =>
        split at read
        all_goals
          cases read
          exact reaches_of_ident? named
      · simp at read

-- The three levels of the grammar call each other with one unit of fuel less, so one induction on
-- the fuel carries all of them.
theorem reaches_levels (s : Scope) (fuel : Nat) :
    (∀ c v d, s.unary fuel c = .ok (v, d) → c.Reaches d) ∧
      (∀ least c v d, s.binary fuel least c = .ok (v, d) → c.Reaches d) ∧
      (∀ least left c v d, s.continued fuel least left c = .ok (v, d) → c.Reaches d) := by
  induction fuel with
  | zero => simp [unary, binary, continued]
  | succ fuel ih =>
    obtain ⟨ofUnary, ofBinary, ofContinued⟩ := ih
    refine ⟨?_, ?_, ?_⟩
    · intro c v d read
      apply (c.reaches_skipSpaces).trans
      simp only [unary] at read
      split at read
      · simp at read
      split at read
      · split at read
        next inner =>
          cases read
          exact (reaches_advance _ 1).trans (ofUnary _ _ _ inner)
        · simp at read
      split at read
      · split at read
        next inner =>
          split at read
          next closed =>
            cases read
            have inside := (reaches_advance _ 1).trans (ofBinary _ _ _ _ inner)
            exact (inside.trans (reaches_skipSpaces _)).trans (reaches_of_eat? closed)
          · simp at read
        · simp at read
      split at read
      · exact reaches_of_quoted read
      · exact reaches_of_atom read
    · intro least c v d read
      simp only [binary] at read
      split at read
      next operand => exact (ofUnary _ _ _ operand).trans (ofContinued _ _ _ _ _ read)
      · simp at read
    · intro least left c v d read
      simp only [continued] at read
      split at read
      · cases read
        exact .refl c
      split at read
      · cases read
        exact .refl c
      split at read
      · simp at read
      next operand =>
        split at read
        · have behind := (reaches_advance _ _).trans (ofBinary _ _ _ _ operand)
          exact (c.reaches_skipSpaces.trans behind).trans (ofContinued _ _ _ _ _ read)
        · simp at read

theorem reaches_of_eval (read : s.eval c = .ok (v, d)) : c.Reaches d := by
  simp only [eval] at read
  split at read
  · simp at read
  next inner =>
    split at read
    · cases read
      exact (reaches_levels s _).2.1 _ _ _ _ inner
    · simp at read

end Scope

end CrossAsm
