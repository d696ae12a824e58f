import CrossAsm.Proofs.Expression.Tree
import CrossAsm.Proofs.Source.Settled

/-! Where an ORG takes the location in a finished program. An expression with a name that is no label
of the text leaves the location where it is, and text behind the expression is passed over; neither is
an error, unlike in data. -/

namespace CrossAsm

/-- The location that an ORG properly asks for: the value of its expression, which has to be known,
with nothing but blanks or a comment behind it. -/
def Scope.origin? (s : Scope) (expression : Cursor) : Option UInt32 :=
  match s.eval expression with
  | .ok (v, after) => if v.undefined || !after.atEnd then none else some (UInt32.ofInt v.toInt)
  | .error _ => none

/-- The labels written in a text. -/
def Statement.labels (statements : List Statement) : List String := statements.filterMap (·.label)

/-- After a pass the names without value are those that are no labels. -/
theorem Placed.Labels.value?_eq_none {placed : List Placed} {after : Symbols}
    (labels : Labels placed ∅ after) (name : String) :
    after.value? name = none ↔ name ∉ Statement.labels (placed.map Placed.statement) := by
  have member : name ∈ Statement.labels (placed.map Placed.statement) ↔
      ∃ p ∈ placed, p.statement.label = some name := by
    simp [Statement.labels, List.mem_filterMap]
  rw [member]
  constructor
  · rintro unknown ⟨p, listed, named⟩
    simp [labels.written p listed name named] at unknown
  · intro unwritten
    rw [Option.eq_none_iff_forall_ne_some]
    intro value found
    rcases labels.only name value found with old | ⟨p, listed, named, -⟩
    · simp [Symbols.value?_empty] at old
    · exact unwritten ⟨p, listed, named⟩

/-- The location behind an ORG with the expression `e` at the cursor, and `rest` behind it. -/
structure Scope.Lands (s : Scope) (labels : List String) (expression : Cursor) (e : Expr)
    (rest : Cursor) (next : UInt32) : Prop where
  tree : s.dialect.tree? expression = some (e, rest)
  /-- A name that is no label leaves the location where it is. -/
  stays : (∃ name ∈ e.names, name ∉ labels) → next = s.location
  moves : (∀ name ∈ e.names, name ∈ labels) → ∃ n, e.value s = some n ∧ next = UInt32.ofInt n
  obeyed : s.origin? expression = some next ↔
    (∀ name ∈ e.names, name ∈ labels) ∧ rest.atEnd = true

theorem Scope.exists_lands {s : Scope} {labels : List String} {expression after : Cursor} {v : Value}
    (unknown : ∀ name, s.symbols.value? name = none ↔ name ∉ labels)
    (read : s.eval expression = .ok (v, after)) :
    ∃ e, s.Lands labels expression e after
      (if v.undefined then s.location else UInt32.ofInt v.toInt) := by
  obtain ⟨e, tree, gives⟩ := exists_tree_of_eval read
  have waits : v.undefined = true ↔ ∃ name ∈ e.names, name ∉ labels := by
    simpa only [unknown] using gives.waits
  have final : v.undefined = false ↔ ∀ name ∈ e.names, name ∈ labels := by
    rw [← Bool.not_eq_true, waits]
    push Not
    rfl
  refine ⟨e, tree, ?_, ?_, ?_⟩
  · intro missing
    rw [if_pos (waits.mpr missing)]
  · intro labelled
    have defined := final.mpr labelled
    exact ⟨v.toInt, gives.value defined, by simp [defined]⟩
  · rw [← final]
    -- The location is right whenever the value is known; only the text behind it may be wrong.
    cases waiting : v.undefined <;> cases ends : after.atEnd <;> simp [origin?, read, waiting, ends]

theorem Action.exists_lands {t : Target} {known : Symbols} {location next : UInt32}
    {expression : Cursor} {labels : List String} {bytes : Option (List UInt8)}
    (unknown : ∀ name, known.value? name = none ↔ name ∉ labels)
    (gives : (origin expression).Gives t known location bytes next) :
    bytes = none ∧ ∃ e rest,
      Scope.Lands ⟨t.config.dialect, known, location⟩ labels expression e rest next := by
  cases gives with
  | stays read waits =>
    obtain ⟨e, lands⟩ := Scope.exists_lands unknown read
    rw [if_pos waits] at lands
    exact ⟨rfl, e, _, lands⟩
  | moves moves =>
    obtain ⟨_, v, after, same, read, final, rfl⟩ := moves
    obtain rfl := Action.origin.inj same
    obtain ⟨e, lands⟩ := Scope.exists_lands unknown read
    rw [if_neg (by simp [final])] at lands
    exact ⟨rfl, e, _, lands⟩

namespace Program

/-- In a finished program every ORG takes the location to the value of its expression, if all names in
it are labels, and otherwise nowhere. It is obeyed only in the first case, and if nothing follows the
expression. -/
theorem origin_lands (t : Target) (text : String) (start : UInt32) (p : Program)
    (finished : assemble t text start = .ok p) :
    ∃ placed : List Placed,
      placed.map Placed.statement = Statement.ofText text ∧
      placed.filterMap Placed.line? = p.lines ∧
      Placed.Course t p.symbols start placed ∧
      ∀ before q after expression, placed = before ++ q :: after →
        q.statement.action = .origin expression →
        ∃ e rest next, q.statement.action.Gives t p.symbols q.location none next ∧
          Placed.Course t p.symbols next after ∧
          Scope.Lands ⟨t.config.dialect, p.symbols, q.location⟩
            (Statement.labels (Statement.ofText text)) expression e rest next := by
  obtain ⟨-, -, passed, clean⟩ := settle_eq_ok finished
  obtain ⟨placed, same, lines, course, labels⟩ := Placed.exists_of_pass passed clean
  -- The last pass started from the labels it found, so only a name that is no label is open in it.
  have unknown := labels.value?_eq_none
  rw [same] at unknown
  refine ⟨placed, same, lines, course, ?_⟩
  rintro before q after expression rfl asked
  obtain ⟨place, course⟩ := course.drop
  cases course with
  | @cons _ next _ gives later =>
    obtain ⟨silent, e, rest, lands⟩ := Action.exists_lands unknown (asked ▸ gives)
    exact ⟨e, rest, next, silent ▸ gives, later, lands⟩

/-- An ORG to a place some way behind a label. -/
theorem origin_lands_behind :
    ∃ p, assemble .mc6800 "AT: NOP\n ORG AT+$10\n NOP" 0x100 = .ok p ∧
      p.lines = [⟨1, 0x100, [0x01], none⟩, ⟨3, 0x110, [0x01], none⟩] ∧
      ∃ placed : List Placed,
        placed.map Placed.statement = Statement.ofText "AT: NOP\n ORG AT+$10\n NOP" ∧
        ∀ before q after expression, placed = before ++ q :: after →
          q.statement.action = .origin expression →
          ∃ e rest next, Placed.Course .mc6800 p.symbols next after ∧
            Scope.Lands ⟨.motorola, p.symbols, q.location⟩ ["AT"] expression e rest next := by
  obtain ⟨p, finished, lines⟩ := exists_of_toOption
    (show (assemble .mc6800 "AT: NOP\n ORG AT+$10\n NOP" 0x100).toOption.map (·.lines) =
      some [⟨1, 0x100, [0x01], none⟩, ⟨3, 0x110, [0x01], none⟩] by decide +kernel)
  have labels : Statement.labels (Statement.ofText "AT: NOP\n ORG AT+$10\n NOP") = ["AT"] := by
    decide +kernel
  obtain ⟨placed, same, -, -, lands⟩ := origin_lands _ _ _ p finished
  rw [labels] at lands
  refine ⟨p, finished, lines, placed, same, ?_⟩
  intro before q after expression split asked
  obtain ⟨e, rest, next, -, later, landed⟩ := lands before q after expression split asked
  exact ⟨e, rest, next, later, landed⟩

/-- Two ORGs that are passed over without an error: one goes to a name that is nowhere a label, the
other has text behind its number. -/
theorem origin_ignored :
    (Statement.ofText " ORG NOWHERE\n NOP\n ORG $200 ]\n NOP").map (·.action) =
        [.origin ⟨4, " NOWHERE".toList⟩, .instruction "NOP", .origin ⟨4, " $200 ]".toList⟩,
          .instruction "NOP"] ∧
      ∃ p, assemble .mc6800 " ORG NOWHERE\n NOP\n ORG $200 ]\n NOP" 0x100 = .ok p ∧
        p.lines = [⟨2, 0x100, [0x01], none⟩, ⟨4, 0x200, [0x01], none⟩] ∧
        Scope.origin? ⟨.motorola, p.symbols, 0x100⟩ ⟨4, " NOWHERE".toList⟩ = none ∧
        Scope.origin? ⟨.motorola, p.symbols, 0x101⟩ ⟨4, " $200 ]".toList⟩ = none := by
  obtain ⟨p, finished, rfl⟩ := exists_of_toOption
    (show (assemble .mc6800 " ORG NOWHERE\n NOP\n ORG $200 ]\n NOP" 0x100).toOption.map id =
      some ⟨0x100, 1, [⟨2, 0x100, [0x01], none⟩, ⟨4, 0x200, [0x01], none⟩], ∅⟩ by decide +kernel)
  exact ⟨by decide +kernel, _, finished, rfl, by decide +kernel, by decide +kernel⟩

end Program

end CrossAsm
