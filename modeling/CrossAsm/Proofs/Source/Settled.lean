import CrossAsm.Proofs.Symbols
import CrossAsm.Proofs.Text.Forward
import CrossAsm.Source.Program

/-! What a finished program is: every statement laid down where it stands with the labels the
program ends with. The relations here say what a statement gives at a location; the pass that
finished the program is then a run of them, and the same pass would find the same program again. -/

namespace CrossAsm

/-- Known numbers between commas, up to the cursor behind the last. -/
inductive Scope.Lists (s : Scope) : Cursor → List Int → Cursor → Prop
  | last {c after : Cursor} {v : Value} (read : s.eval c.skipSpaces = .ok (v, after))
      (known : v.undefined = false) (ends : after.skipSpaces.eat? ',' = none) :
      Lists s c [v.toInt] after.skipSpaces
  | more {c after next last : Cursor} {v : Value} {numbers : List Int}
      (read : s.eval c.skipSpaces = .ok (v, after)) (known : v.undefined = false)
      (goesOn : after.skipSpaces.eat? ',' = some next) (later : Lists s next numbers last) :
      Lists s c (v.toInt :: numbers) last

namespace Action

variable {t : Target} {known : Symbols} {location : UInt32}

/-- Moves the location to a value that is known. -/
def Moves (t : Target) (known : Symbols) (location : UInt32) (action : Action)
    (target : UInt32) : Prop :=
  ∃ expression v after, action = .origin expression ∧
    Scope.eval ⟨t.config.dialect, known, location⟩ expression = .ok (v, after) ∧
    v.undefined = false ∧ target = UInt32.ofInt v.toInt

/-- Gives these bytes, if it gives a line, and leaves the location where the next line goes, with
nothing unknown and no fault in the line. -/
inductive Gives (t : Target) (known : Symbols) (location : UInt32) :
    Action → Option (List UInt8) → UInt32 → Prop
  | nothing : Gives t known location .nothing none location
  | stays {expression after : Cursor} {v : Value}
      (read : Scope.eval ⟨t.config.dialect, known, location⟩ expression = .ok (v, after))
      (unknown : v.undefined = true) : Gives t known location (.origin expression) none location
  | moves {action : Action} {target : UInt32} (moves : action.Moves t known location target) :
      Gives t known location action none target
  | data {width : Nat} {items last : Cursor} {numbers : List Int}
      (lists : Scope.Lists ⟨t.config.dialect, known, location⟩ items numbers last)
      (ends : last.atEnd = true) :
      Gives t known location (.data width items)
        (some (numbers.flatMap (t.config.endian.put width)))
        (location + t.config.cell.span (numbers.flatMap (t.config.endian.put width)).length)
  | instruction {text : String} {bytes : List UInt8}
      (assembles : t.assemble known text location = ⟨location, bytes, none⟩) :
      Gives t known location (.instruction text) (some bytes)
        (location + t.config.cell.span bytes.length)

/-- The text is long enough a bound on the numbers between its commas. -/
theorem lists_of_numbers {scope : Scope} {endian : Endian} {width fuel : Nat} {c last : Cursor}
    {bytes : List UInt8} (enough : c.rest.length < fuel)
    (read : numbers scope endian width fuel c = .ok (bytes, none, last)) :
    ∃ values, scope.Lists c values last ∧ bytes = values.flatMap (endian.put width) := by
  induction fuel generalizing c bytes with
  | zero => omega
  | succ fuel ih =>
    simp only [numbers] at read
    split at read
    · simp at read
    next v after value =>
    split at read
    next ends =>
      cases known : v.undefined with
      | true => simp [known] at read
      | false =>
        simp only [known, Bool.false_eq_true, if_false, Except.ok.injEq, Prod.mk.injEq,
          true_and] at read
        obtain ⟨rfl, rfl⟩ := read
        exact ⟨[v.toInt], .last value known ends, by simp⟩
    next next goesOn =>
      split at read
      · simp at read
      next more later behind rest =>
        cases known : v.undefined with
        | true => simp [known] at read
        | false =>
          simp only [known, Bool.false_eq_true, if_false, Option.none_or, Except.ok.injEq,
            Prod.mk.injEq] at read
          obtain ⟨rfl, rfl, rfl⟩ := read
          -- The comma that was eaten is what the bound loses.
          have shorter : next.rest.length < fuel := by
            have eaten := Cursor.length_of_eat? goesOn
            have spaces := (Cursor.reaches_skipSpaces after).length_le
            have value := (Scope.reaches_of_eval value).length_le
            have start := (Cursor.reaches_skipSpaces c).length_le
            omega
          obtain ⟨values, lists, rfl⟩ := ih shorter rest
          exact ⟨v.toInt :: values, .more value known goesOn lists, by simp⟩

theorem assemble_eq_of_clean {text : String}
    (clean : (t.assemble known text location).fault = none) :
    t.assemble known text location = ⟨location, (t.assemble known text location).bytes, none⟩ := by
  have address : (t.assemble known text location).address = location := by
    simp only [Target.assemble, Machine.assemble]
    split <;> rfl
  generalize t.assemble known text location = a at clean address
  cases a
  subst clean address
  rfl

/-- A statement that runs without a fault in its line gives what its action says. -/
theorem gives_of_run {action : Action} {number : Nat} {line : Option Line} {next : UInt32}
    (ran : action.run t known number location = .ok (line, next))
    (clean : ∀ l ∈ line, l.fault = none) :
    ∃ bytes, action.Gives t known location bytes next ∧
      line = bytes.map fun bytes => ⟨number, location, bytes, none⟩ := by
  cases action with
  | nothing =>
    simp only [run, Except.ok.injEq, Prod.mk.injEq] at ran
    obtain ⟨rfl, rfl⟩ := ran
    exact ⟨none, .nothing, rfl⟩
  | unknownDirective => simp [run] at ran
  | origin expression =>
    simp only [run] at ran
    split at ran
    · simp at ran
    next v after read =>
      simp only [Except.ok.injEq, Prod.mk.injEq] at ran
      obtain ⟨rfl, rfl⟩ := ran
      cases known : v.undefined with
      | true => exact ⟨none, .stays read known, rfl⟩
      | false => exact ⟨none, .moves ⟨expression, v, after, rfl, read, known, rfl⟩, rfl⟩
  | data width items =>
    simp only [run] at ran
    split at ran
    · simp at ran
    next bytes fault after read =>
      split at ran
      next ends =>
        simp only [Except.ok.injEq, Prod.mk.injEq] at ran
        obtain ⟨rfl, rfl⟩ := ran
        obtain rfl : fault = none := clean _ rfl
        obtain ⟨values, lists, rfl⟩ := lists_of_numbers (Nat.lt_succ_self _) read
        exact ⟨some _, .data lists ends, rfl⟩
      · simp at ran
  | instruction text =>
    simp only [run] at ran
    split at ran
    · simp at ran
    · simp only [Except.ok.injEq, Prod.mk.injEq] at ran
      obtain ⟨rfl, rfl⟩ := ran
      have whole : (t.assemble known text location).fault = none := clean _ rfl
      exact ⟨some _, .instruction (assemble_eq_of_clean whole), by simp [whole]⟩

/-- Behind a statement stands the next cell, unless it moves the location. -/
theorem Gives.next_eq {action : Action} {bytes : Option (List UInt8)} {next : UInt32}
    (gives : action.Gives t known location bytes next)
    (fixed : ∀ target, ¬action.Moves t known location target) :
    next = location + t.config.cell.span (bytes.getD []).length := by
  have unmoved : location = location + t.config.cell.span 0 := by
    cases t.config.cell <;> simp [Cell.span, Cell.bytes]
  cases gives with
  | nothing => exact unmoved
  | stays read unknown => exact unmoved
  | moves moves => exact absurd moves (fixed next)
  | data lists ends => rfl
  | instruction assembles => rfl

end Action

theorem Statement.define_eq_ok {s : Statement} {location : UInt32} {before after : Symbols}
    (defined : s.define location before = .ok after) :
    s.label = none ∧ after = before ∨
      ∃ name, s.label = some name ∧ before.value? name = none ∧
        after = before.define name location := by
  simp only [define] at defined
  split at defined
  next unlabelled => exact .inl ⟨unlabelled, (Except.ok.inj defined).symm⟩
  next name labelled =>
    split at defined
    · simp at defined
    next fresh => exact .inr ⟨name, labelled, by simpa using fresh, (Except.ok.inj defined).symm⟩

/-- A pass that succeeds defines the first label, lays the first statement down and goes on behind
it. -/
theorem pass_cons_eq_ok {t : Target} {known before after : Symbols} {s : Statement}
    {rest : List Statement} {location : UInt32} {lines : List Line}
    (passed : pass t known (s :: rest) location before = .ok (lines, after)) :
    ∃ middle line next more, s.define location before = .ok middle ∧
      s.action.run t known s.number location = .ok (line, next) ∧
      pass t known rest next middle = .ok (more, after) ∧ lines = line.toList ++ more := by
  simp only [pass] at passed
  split at passed
  · simp at passed
  next middle defined =>
  split at passed
  · simp at passed
  next line next ran =>
  split at passed
  · simp at passed
  next more labels later =>
    simp only [Except.ok.injEq, Prod.mk.injEq] at passed
    obtain ⟨rfl, rfl⟩ := passed
    exact ⟨middle, line, next, more, defined, ran, later, rfl⟩

/-- A statement where it stands, with the bytes of its line if it gives one. -/
structure Placed where
  statement : Statement
  location : UInt32
  bytes : Option (List UInt8)

namespace Placed

def line? (p : Placed) : Option Line :=
  p.bytes.map fun bytes => ⟨p.statement.number, p.location, bytes, none⟩

/-- Does it move the location to a known value? -/
def Moves (t : Target) (known : Symbols) (p : Placed) : Prop :=
  ∃ target, p.statement.action.Moves t known p.location target

/-- Statements that stand one behind the other, the first at the given location. -/
inductive Course (t : Target) (known : Symbols) : UInt32 → List Placed → Prop
  | nil (location : UInt32) : Course t known location []
  | cons {p : Placed} {next : UInt32} {rest : List Placed}
      (gives : p.statement.action.Gives t known p.location p.bytes next)
      (later : Course t known next rest) : Course t known p.location (p :: rest)

/-- The labels name the places where they are written, and nothing else has a value but what had
one before. -/
structure Labels (placed : List Placed) (before after : Symbols) : Prop where
  written : ∀ p ∈ placed, ∀ name, p.statement.label = some name →
    after.value? name = some p.location
  kept : ∀ name value, before.value? name = some value → after.value? name = some value
  only : ∀ name value, after.value? name = some value →
    before.value? name = some value ∨
      ∃ p ∈ placed, p.statement.label = some name ∧ p.location = value

theorem Labels.nil (labels : Symbols) : Labels [] labels labels where
  written := by simp
  kept := fun _ _ found => found
  only := fun _ _ found => .inl found

/-- One statement's own label in front of the labels behind it. -/
theorem Labels.cons {p : Placed} {rest : List Placed} {before middle after : Symbols}
    (defined : p.statement.define p.location before = .ok middle)
    (later : Labels rest middle after) : Labels (p :: rest) before after := by
  rcases Statement.define_eq_ok defined with ⟨unlabelled, rfl⟩ | ⟨name, labelled, unknown, rfl⟩
  · refine ⟨?_, later.kept, ?_⟩
    · intro q member name named
      rcases List.mem_cons.mp member with rfl | behind
      · simp [unlabelled] at named
      · exact later.written q behind name named
    · intro name value found
      rcases later.only name value found with old | ⟨q, behind, written⟩
      · exact .inl old
      · exact .inr ⟨q, List.mem_cons_of_mem _ behind, written⟩
  · refine ⟨?_, ?_, ?_⟩
    · intro q member other named
      rcases List.mem_cons.mp member with rfl | behind
      · obtain rfl : name = other := Option.some.inj (labelled.symm.trans named)
        exact later.kept _ _ (by rw [Symbols.value?_define, if_pos rfl])
      · exact later.written q behind other named
    · intro other value found
      have differs : other ≠ name := by
        rintro rfl
        simp [unknown] at found
      exact later.kept _ _ (by rw [Symbols.value?_define, if_neg differs, found])
    · intro other value found
      rcases later.only other value found with old | ⟨q, behind, written⟩
      · rw [Symbols.value?_define] at old
        split at old
        next same =>
          exact .inr ⟨p, List.mem_cons_self .., same ▸ labelled, Option.some.inj old⟩
        next => exact .inl old
      · exact .inr ⟨q, List.mem_cons_of_mem _ behind, written⟩

variable {t : Target} {known : Symbols}

/-- A pass whose lines have no fault lays its statements down one behind the other. -/
theorem exists_of_pass {statements : List Statement} {location : UInt32} {before after : Symbols}
    {lines : List Line}
    (passed : pass t known statements location before = .ok (lines, after))
    (clean : ∀ l ∈ lines, l.fault = none) :
    ∃ placed, placed.map statement = statements ∧ placed.filterMap line? = lines ∧
      Course t known location placed ∧ Labels placed before after := by
  induction statements generalizing location before lines with
  | nil =>
    simp only [pass, Except.ok.injEq, Prod.mk.injEq] at passed
    obtain ⟨rfl, rfl⟩ := passed
    exact ⟨[], rfl, rfl, .nil location, .nil before⟩
  | cons s rest ih =>
    obtain ⟨middle, line, next, more, defined, ran, later, rfl⟩ := pass_cons_eq_ok passed
    have here : ∀ l ∈ line, l.fault = none := by
      intro l member
      exact clean l (List.mem_append_left _ (Option.mem_toList.mpr member))
    obtain ⟨bytes, gives, rfl⟩ := Action.gives_of_run ran here
    obtain ⟨placed, same, given, course, labelled⟩ :=
      ih later fun l member => clean l (List.mem_append_right _ member)
    refine ⟨⟨s, location, bytes⟩ :: placed, ?_, ?_, ?_, ?_⟩
    · rw [List.map_cons, same]
    · rw [List.filterMap_cons, given]
      cases bytes <;> rfl
    · exact Course.cons (p := ⟨s, location, bytes⟩) gives course
    · exact Labels.cons (p := ⟨s, location, bytes⟩) defined labelled

/-- Statements that give no line and move nothing leave the next one where they stand. -/
theorem Course.location_eq {location : UInt32} {between after : List Placed} {q : Placed}
    (course : Course t known location (between ++ q :: after))
    (blank : ∀ r ∈ between, r.line? = none) (fixed : ∀ r ∈ between, ¬r.Moves t known) :
    q.location = location := by
  induction between generalizing location with
  | nil =>
    cases course with
    | cons gives later => rfl
  | cons r between ih =>
    cases course with
    | cons gives later =>
      have unmoved := gives.next_eq fun target moves => fixed r (List.mem_cons_self ..) ⟨target, moves⟩
      have empty : r.bytes = none := by
        simpa [line?] using blank r (List.mem_cons_self ..)
      rw [ih later (fun s member => blank s (List.mem_cons_of_mem _ member))
        fun s member => fixed s (List.mem_cons_of_mem _ member), unmoved, empty]
      cases t.config.cell <;> simp [Cell.span, Cell.bytes]

theorem Course.drop {location : UInt32} {before after : List Placed}
    (course : Course t known location (before ++ after)) :
    ∃ next, Course t known next after := by
  induction before generalizing location with
  | nil => exact ⟨location, course⟩
  | cons p before ih =>
    cases course with
    | cons gives later => exact ih later

/-- A line stands behind the one before it, unless the location is moved between them. -/
theorem Course.address_eq {location : UInt32} {before between after : List Placed} {p q : Placed}
    {l l' : Line} (course : Course t known location (before ++ p :: (between ++ q :: after)))
    (first : p.line? = some l) (second : q.line? = some l')
    (blank : ∀ r ∈ between, r.line? = none) (fixed : ∀ r ∈ between, ¬r.Moves t known) :
    l'.address = l.address + t.config.cell.span l.bytes.length := by
  obtain ⟨place, course⟩ := course.drop
  simp only [line?, Option.map_eq_some_iff] at first second
  obtain ⟨bytes, given, rfl⟩ := first
  obtain ⟨_, _, rfl⟩ := second
  cases course with
  | cons gives later =>
    have unmoved : ∀ target, ¬p.statement.action.Moves t known p.location target := by
      rintro target ⟨expression, v, behind, action, -⟩
      rw [given, action] at gives
      cases gives
    rw [later.location_eq blank fixed, gives.next_eq unmoved, given]
    rfl

end Placed

namespace Program

/-- Settling ends with a pass that finds the labels it started from, and no fault in its lines. -/
theorem settle_eq_ok {t : Target} {statements : List Statement} {start : UInt32} {passes : Nat}
    {known : Symbols} {p : Program}
    (settled : settle t statements start passes known = .ok p) :
    p.start = start ∧ p.cellBytes = t.config.cell.bytes ∧
      pass t p.symbols statements start ∅ = .ok (p.lines, p.symbols) ∧
      ∀ l ∈ p.lines, l.fault = none := by
  induction passes generalizing known with
  | zero => simp [settle] at settled
  | succ passes ih =>
    simp only [settle] at settled
    split at settled
    · simp at settled
    next lines defined passed =>
    split at settled
    next same =>
      split at settled
      · simp at settled
      next clean =>
        obtain rfl := Except.ok.inj settled
        refine ⟨rfl, rfl, same ▸ passed, ?_⟩
        intro l member
        simpa using List.findSome?_eq_none_iff.mp clean l member
    next => exact ih settled

/-- A text whose only pass finds no labels and no fault is a program at once. -/
theorem assemble_of_pass {t : Target} {text : String} {start : UInt32} {lines : List Line}
    (passed : pass t ∅ (Statement.ofText text) start ∅ = .ok (lines, ∅))
    (clean : ∀ l ∈ lines, l.fault = none) :
    assemble t text start = .ok ⟨start, t.config.cell.bytes, lines, ∅⟩ := by
  have faultless : (lines.findSome? fun l => l.fault.map (SourceError.fault l.number)) = none := by
    rw [List.findSome?_eq_none_iff]
    intro l member
    rw [clean l member, Option.map_none]
  simp only [assemble, maxPasses, settle, passed, if_true, faultless]

/-- Something found in the program that a text gives. -/
theorem exists_of_toOption {α : Type} {result : Except SourceError Program} {f : Program → α} {x : α}
    (found : result.toOption.map f = some x) : ∃ p, result = .ok p ∧ f p = x := by
  cases result with
  | error e => simp [Except.toOption] at found
  | ok p => exact ⟨p, rfl, Option.some.inj found⟩

/-- A finished program is a fixed point: a pass with its labels gives its lines and its labels
again. In that pass every statement stands where the one before it ends, with nothing faulty, and
every label has the location where it is written. -/
theorem assemble_fixed (t : Target) (text : String) (start : UInt32) (p : Program)
    (finished : assemble t text start = .ok p) :
    pass t p.symbols (Statement.ofText text) start ∅ = .ok (p.lines, p.symbols) ∧
      (∀ l ∈ p.lines, l.fault = none) ∧
      ∃ placed : List Placed,
        placed.map Placed.statement = Statement.ofText text ∧
        placed.filterMap Placed.line? = p.lines ∧
        Placed.Course t p.symbols start placed ∧
        (∀ name value, p.symbols.value? name = some value ↔
          ∃ q ∈ placed, q.statement.label = some name ∧ q.location = value) ∧
        ∀ before q between r after l l', placed = before ++ q :: (between ++ r :: after) →
          q.line? = some l → r.line? = some l' → (∀ s ∈ between, s.line? = none) →
          (∀ s ∈ between, ¬s.Moves t p.symbols) →
          l'.address = l.address + t.config.cell.span l.bytes.length := by
  obtain ⟨-, -, passed, clean⟩ := settle_eq_ok finished
  obtain ⟨placed, same, lines, course, labels⟩ := Placed.exists_of_pass passed clean
  refine ⟨passed, clean, placed, same, lines, course, ?_, ?_⟩
  · intro name value
    constructor
    · intro found
      rcases labels.only name value found with old | written
      · simp [Symbols.value?_empty] at old
      · exact written
    · rintro ⟨q, member, named, rfl⟩
      exact labels.written q member name named
  · rintro before q between r after l l' rfl first second blank fixed
    exact course.address_eq first second blank fixed

/-- A label used before it is written, behind a moved location. -/
theorem assemble_fixed_forward :
    ∃ p, assemble .mc6800 " LDAA AT\n ORG $200\nAT: BRA AT\n DB 1,AT/16" 0x100 = .ok p ∧
      p.lines = [⟨1, 0x100, [0xB6, 0x02, 0x00], none⟩, ⟨3, 0x200, [0x20, 0xFE], none⟩,
        ⟨4, 0x202, [0x01, 0x20], none⟩] ∧
      pass .mc6800 p.symbols
        (Statement.ofText " LDAA AT\n ORG $200\nAT: BRA AT\n DB 1,AT/16") 0x100 ∅ =
        .ok (p.lines, p.symbols) := by
  have lines : (assemble .mc6800 " LDAA AT\n ORG $200\nAT: BRA AT\n DB 1,AT/16"
      0x100).toOption.map (·.lines) =
      some [⟨1, 0x100, [0xB6, 0x02, 0x00], none⟩, ⟨3, 0x200, [0x20, 0xFE], none⟩,
        ⟨4, 0x202, [0x01, 0x20], none⟩] := by decide +kernel
  cases finished : assemble .mc6800 " LDAA AT\n ORG $200\nAT: BRA AT\n DB 1,AT/16" 0x100 with
  | error e => simp [finished, Except.toOption] at lines
  | ok p =>
    rw [finished] at lines
    exact ⟨p, rfl, Option.some.inj lines, (assemble_fixed _ _ _ p finished).1⟩

end Program

end CrossAsm
