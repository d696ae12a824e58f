import CrossAsm.Proofs.Text.ByteExpression

/-! A scan of a line asks its cursor for one thing after the other and goes back to where it has
been. However it goes on, the cursor stays between characters of the line: asked by bytes alone, it
never cuts through one, answers the same and is at the same byte. -/

namespace CrossAsm

open Text

/-- What a cursor can be asked for. -/
inductive Request where
  | peek
  | peekNth (n : Nat)
  | bump
  | skipSpaces
  | eat (ch : Char)
  | eatWord (word : String)
  | peekIdent
  | ident
  | atEnd
  | rest
  | value (s : Scope)

inductive Answer where
  | nothing
  | char (ch : Option Char)
  | flag (yes : Bool)
  | text (text : Option String)
  | value (v : Except Fault Value)

namespace Request

/-- What the cursor answers, and where it is then. -/
def ask (c : Cursor) : Request → Answer × Cursor
  | peek => (.char c.peek?, c)
  | peekNth n => (.char c.rest[n]?, c)
  | bump => (.char c.peek?, c.advance 1)
  | skipSpaces => (.nothing, c.skipSpaces)
  | eat ch => (.flag (c.eat? ch).isSome, (c.eat? ch).getD c)
  | eatWord word => (.flag (c.eatWord? word).isSome, (c.eatWord? word).getD c)
  | peekIdent => (.text c.peekIdent?, c)
  | ident => (.text (c.ident?.map Prod.fst), (c.ident?.map Prod.snd).getD c)
  | atEnd => (.flag c.atEnd, c)
  | rest => (.text (some (String.ofList c.rest)), c)
  | value s =>
    match s.eval c with
    | .ok (v, after) => (.value (.ok v), after)
    | .error fault => (.value (.error fault), c)

/-- The same by bytes, unless the line would be cut inside a character. -/
def askBytes? (b : ByteCursor) : Request → Option (Answer × ByteCursor)
  | peek => b.peek?.map fun ch => (.char ch, b)
  | peekNth n => (b.peekNth? n).map fun ch => (.char ch, b)
  | bump => b.bump?.map fun (ch, after) => (.char ch, after)
  | skipSpaces => b.skipSpaces?.map fun after => (.nothing, after)
  | eat ch => (b.eat? ch).map fun (eaten, after) => (.flag eaten, after)
  | eatWord word => (b.eatWord? word).map fun (eaten, after) => (.flag eaten, after)
  | peekIdent => b.peekIdent?.map fun name => (.text name, b)
  | ident => b.ident?.map fun (name, after) => (.text name, after)
  | atEnd => b.atEnd?.map fun ended => (.flag ended, b)
  | rest => b.rest?.map fun text => (.text (some text), b)
  | value s => (b.eval? s).map fun (v, after) => (.value v, after)

theorem askBytes?_onBytes {line : String} {c : Cursor} (within : c.Within line) (r : Request) :
    r.askBytes? (c.onBytes line) = some ((r.ask c).1, (r.ask c).2.onBytes line) := by
  cases r with
  | peek => simp only [askBytes?, within.peek?_onBytes, Option.map_some, ask]
  | peekNth n => simp only [askBytes?, within.peekNth?_onBytes, Option.map_some, ask]
  | bump => simp only [askBytes?, within.bump?_onBytes, Option.map_some, ask]
  | skipSpaces => simp only [askBytes?, within.skipSpaces?_onBytes, Option.map_some, ask]
  | eat ch => simp only [askBytes?, within.eat?_onBytes, Option.map_some, ask]
  | eatWord word => simp only [askBytes?, within.eatWord?_onBytes, Option.map_some, ask]
  | peekIdent => simp only [askBytes?, within.peekIdent?_onBytes, Option.map_some, ask]
  | ident => simp only [askBytes?, within.ident?_onBytes, Option.map_some, ask]
  | atEnd => simp only [askBytes?, within.atEnd?_onBytes, Option.map_some, ask]
  | rest => simp only [askBytes?, within.rest?_onBytes, Option.map_some, ask]
  | value s =>
    simp only [askBytes?, within.eval?_onBytes, Option.map_some, ask]
    cases s.eval c <;> rfl

end Request

namespace Cursor

/-- An attempt that leaves the cursor where it is when it fails goes forward if it succeeds. -/
theorem reaches_getD {c : Cursor} {found : Option Cursor}
    (forward : ∀ d, found = some d → c.Reaches d) : c.Reaches (found.getD c) := by
  cases found with
  | none => exact .refl c
  | some d => exact forward d rfl

theorem reaches_ask (c : Cursor) (r : Request) : c.Reaches (r.ask c).2 := by
  cases r with
  | peek | peekNth | peekIdent | atEnd | rest => exact .refl c
  | bump => exact c.reaches_advance 1
  | skipSpaces => exact c.reaches_skipSpaces
  | eat ch => exact reaches_getD fun _ => reaches_of_eat?
  | eatWord word => exact reaches_getD fun _ => reaches_of_eatWord?
  | ident =>
    refine reaches_getD fun d found => ?_
    obtain ⟨⟨name, after⟩, read, rfl⟩ := Option.map_eq_some_iff.mp found
    exact reaches_of_ident? read
  | value s =>
    simp only [Request.ask]
    split
    next read => exact Scope.reaches_of_eval read
    · exact .refl c

/-- The cursor moves forward over some text, which is a slice of the line, by just its bytes. -/
def Passes (line : String) (c d : Cursor) : Prop :=
  ∃ taken : String, slice? line c.pos d.pos = some taken ∧ c.rest = taken.toList ++ d.rest ∧
    d.pos = c.pos + taken.utf8ByteSize

theorem Within.passes {line : String} {c d : Cursor} (within : c.Within line)
    (reaches : c.Reaches d) : c.Passes line d := by
  obtain ⟨taken, ahead, later⟩ := reaches
  refine ⟨String.ofList taken, within.slice?_taken ahead later, ?_, ?_⟩
  · rw [String.toList_ofList, ahead]
  · rw [utf8ByteSize_ofList, later]

end Cursor

/-- A scan of a line: the positions it has been at, and the cursor it has come to. It can go back to
any of those positions, and anything past the line is the end of it. -/
inductive Scan (line : String) : List Nat → Cursor → Prop where
  | start : Scan line [0] (Cursor.start line)
  | ask {been : List Nat} {c : Cursor} (scan : Scan line been c) (r : Request) :
      Scan line ((r.ask c).2.pos :: been) (r.ask c).2
  | setPos {been : List Nat} {c : Cursor} (scan : Scan line been c) {pos : Nat}
      (choice : pos ∈ been ∨ line.utf8ByteSize ≤ pos) :
      Scan line ((Cursor.seek line pos).pos :: been) (Cursor.seek line pos)

namespace Scan

variable {line : String} {been : List Nat} {c : Cursor}

/-- The positions are those of cursors in the line. -/
def Known (line : String) (been : List Nat) : Prop :=
  ∀ pos ∈ been, ∃ d : Cursor, d.Within line ∧ d.pos = pos

theorem Known.cons (known : Known line been) (here : c.Within line) : Known line (c.pos :: been) :=
  List.forall_mem_cons.mpr ⟨⟨c, here, rfl⟩, known⟩

/-- At a known position there is a cursor in the line, and past the line is the end of it. -/
theorem Known.seek {pos : Nat} (known : Known line been)
    (choice : pos ∈ been ∨ line.utf8ByteSize ≤ pos) :
    (Cursor.seek line pos).Within line ∧
      (Cursor.seek line pos).pos = min pos line.utf8ByteSize := by
  rcases choice with member | beyond
  · obtain ⟨d, within, rfl⟩ := known pos member
    have size := within.pos_add
    rw [within.seek_pos, Nat.min_eq_left (by omega)]
    exact ⟨within, rfl⟩
  · rw [Cursor.seek_beyond beyond, Nat.min_eq_right beyond]
    exact ⟨Cursor.within_end line, rfl⟩

/-- The invariant of a scan. The positions it has been at belong to it, since they are what it may
go back to. -/
theorem within (scan : Scan line been c) : c.Within line ∧ Known line been := by
  induction scan with
  | start =>
    have here := Cursor.within_start line
    have none : Known line [] := fun _ member => absurd member List.not_mem_nil
    exact ⟨here, none.cons here⟩
  | @ask been c _ r ih =>
    obtain ⟨there, known⟩ := ih
    have here := there.of_reaches (c.reaches_ask r)
    exact ⟨here, known.cons here⟩
  | setPos _ choice ih =>
    obtain ⟨-, known⟩ := ih
    have here := (known.seek choice).1
    exact ⟨here, known.cons here⟩

/-- Wherever a scan has come to is between two characters of the line. Every request is answered
there without a cut through a character, as it is for the characters ahead, and moves the cursor by
the bytes of the characters it takes; and going back leads to the byte that was asked for, or to
the end of the line. -/
theorem between_characters (scan : Scan line been c) :
    String.Pos.Raw.IsValid line ⟨c.pos⟩ ∧ c.pos ≤ line.utf8ByteSize ∧
      (∀ r : Request,
        r.askBytes? ⟨line, c.pos⟩ = some ((r.ask c).1, ⟨line, (r.ask c).2.pos⟩) ∧
          c.Passes line (r.ask c).2) ∧
      ∀ pos, pos ∈ been ∨ line.utf8ByteSize ≤ pos →
        ByteCursor.seek ⟨line, c.pos⟩ pos = ⟨line, (Cursor.seek line pos).pos⟩ := by
  obtain ⟨here, known⟩ := scan.within
  have size := here.pos_add
  refine ⟨here.isValid, by omega, fun r => ⟨r.askBytes?_onBytes here, ?_⟩, fun pos choice => ?_⟩
  · exact here.passes (c.reaches_ask r)
  · rw [(known.seek choice).2, ByteCursor.seek]

/-- Behind a letter of two bytes, with a quoted one read and the cursor gone back. -/
theorem between_characters_accented :
    let line := "é 'ß'"
    let back : Cursor := ⟨2, " 'ß'".toList⟩
    Scan line [2, 7, 3, 2, 0] back ∧
      String.Pos.Raw.IsValid line ⟨2⟩ ∧ ¬String.Pos.Raw.IsValid line ⟨1⟩ ∧
      Request.skipSpaces.askBytes? ⟨line, 2⟩ = some (.nothing, ⟨line, 3⟩) ∧
      back.Passes line ⟨3, "'ß'".toList⟩ ∧ ByteCursor.seek ⟨line, 2⟩ 9 = ⟨line, 7⟩ := by
  intro line back
  let scope : Scope := ⟨.intel, Symbols.ofList [], 0⟩
  have letter : (Request.bump.ask (Cursor.start line)).2 = back := by decide
  have spaced : (Request.skipSpaces.ask back).2 = ⟨3, "'ß'".toList⟩ := by decide
  have quoted : ((Request.value scope).ask ⟨3, "'ß'".toList⟩).2 = ⟨7, []⟩ := by decide
  have before : Cursor.seek line 2 = back := by decide
  have behind : Cursor.seek line 9 = ⟨7, []⟩ := by decide
  -- The letter, the space, the quoted letter as a value, and back behind the first letter.
  have scan : Scan line [2, 7, 3, 2, 0] back := by
    have step := (@start line).ask .bump
    rw [letter] at step
    have step := step.ask .skipSpaces
    rw [spaced] at step
    have step := step.ask (.value scope)
    rw [quoted] at step
    have step := step.setPos (.inl (show 2 ∈ [7, 3, 2, 0] by decide))
    rwa [before] at step
  obtain ⟨valid, -, asked, sought⟩ := between_characters scan
  obtain ⟨answered, passes⟩ := asked .skipSpaces
  have ended := sought 9 (.inr (by decide))
  rw [spaced] at answered passes
  rw [behind] at ended
  exact ⟨scan, valid, by decide, answered, passes, ended⟩

end Scan

end CrossAsm
