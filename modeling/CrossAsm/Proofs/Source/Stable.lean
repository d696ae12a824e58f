import CrossAsm.Proofs.Expression.Tree
import CrossAsm.Proofs.Resolution.Length
import CrossAsm.Proofs.Source.Disassembly

/-! Labels that settle at once. Where the length of a statement does not depend on what its names
stand for, every pass reaches each statement at the same location, whatever labels it starts from, and
so every pass finds the same labels. -/

namespace CrossAsm

/-! ### Expressions under two tables -/

/-- The value of an expression depends on the names in it and on the location. -/
theorem Expr.value_congr {s other : Scope} {e : Expr} (location : other.location = s.location)
    (names : ∀ name ∈ e.names, other.symbols.value? name = s.symbols.value? name) :
    e.value other = e.value s := by
  induction e with
  | number n => rfl
  | char ch => rfl
  | symbol name => rw [value, value, names name (by simp [Expr.names])]
  | here => rw [value, value, location]
  | signed sign operand ih => rw [value, value, ih names]
  | binary op left right first second =>
    rw [value, value, first fun name member => names name (by simp [Expr.names, member]),
      second fun name member => names name (by simp [Expr.names, member])]

namespace Scope

variable {s other : Scope} {c after after' : Cursor} {v v' : Value}

/-- An expression is read just as far under every table. -/
theorem after_eq_of_eval (read : s.eval c = .ok (v, after)) (again : other.eval c = .ok (v', after'))
    (dialect : other.dialect = s.dialect) : after' = after := by
  obtain ⟨e, tree, -⟩ := exists_tree_of_eval read
  obtain ⟨e', tree', -⟩ := exists_tree_of_eval again
  rw [dialect, tree] at tree'
  simpa using (congrArg (Option.map Prod.snd) tree').symm

/-- An expression without names is known, and has one value under every table. -/
theorem eval_of_nameless (read : s.eval c = .ok (v, after)) (again : other.eval c = .ok (v', after'))
    (dialect : other.dialect = s.dialect) (location : other.location = s.location)
    (nameless : (s.dialect.tree? c).all (fun (e, _) => e.names.isEmpty) = true) :
    v.undefined = false ∧ v'.undefined = false ∧ v'.toInt = v.toInt := by
  obtain ⟨e, tree, gives⟩ := exists_tree_of_eval read
  obtain ⟨e', tree', gives'⟩ := exists_tree_of_eval again
  rw [dialect, tree] at tree'
  obtain ⟨rfl, -⟩ := Prod.mk.inj (Option.some.inj tree')
  have bare : e.names = [] := by simpa [tree] using nameless
  have known : v.undefined = false := by simpa [bare] using gives.waits
  have known' : v'.undefined = false := by simpa [bare] using gives'.waits
  have same : e.value other = e.value s := Expr.value_congr location (by simp [bare])
  rw [gives.value known, gives'.value known'] at same
  exact ⟨known, known', Option.some.inj same⟩

end Scope

/-! ### Statements under two tables -/

namespace Action

/-- Is the location moved, if at all, to an expression without names? -/
def isNameless (d : Dialect) : Action → Bool
  | origin expression => (d.tree? expression).all fun (e, _) => e.names.isEmpty
  | _ => true

/-- As many numbers are read from a list under every table. -/
theorem length_numbers_eq {s other : Scope} {endian : Endian} {width fuel : Nat} {c last last' : Cursor}
    {bytes bytes' : List UInt8} {fault fault' : Option Fault}
    (read : numbers s endian width fuel c = .ok (bytes, fault, last))
    (again : numbers other endian width fuel c = .ok (bytes', fault', last'))
    (dialect : other.dialect = s.dialect) : bytes'.length = bytes.length := by
  induction fuel generalizing c last last' bytes bytes' fault fault' with
  | zero =>
    simp only [numbers, Except.ok.injEq, Prod.mk.injEq] at read again
    rw [← read.1, ← again.1]
  | succ fuel ih =>
    simp only [numbers] at read again
    split at read
    · simp at read
    next v after value =>
    split at again
    · simp at again
    next v' after' value' =>
    -- Both tables stop behind the same number, so both see the same comma or none.
    obtain rfl := Scope.after_eq_of_eval value value' dialect
    split at read
    next ends =>
      simp only [ends, Except.ok.injEq, Prod.mk.injEq] at read again
      rw [← read.1, ← again.1, Endian.length_put, Endian.length_put]
    next goesOn =>
      simp only [goesOn] at again
      split at read
      · simp at read
      next rest =>
      split at again
      · simp at again
      next rest' =>
        simp only [Except.ok.injEq, Prod.mk.injEq] at read again
        rw [← read.1, ← again.1, List.length_append, List.length_append, Endian.length_put,
          Endian.length_put, ih rest rest']

end Action

namespace Target

/-- The targets whose instructions have the same length whatever their symbols stand for. -/
def isRegular : Target → Bool
  | z80 | tms32010 => true
  | _ => false

variable {t : Target} {symbols others : Symbols} {line : String} {address : UInt32}

theorem check_hard (regular : t.isRegular = true) (entry : Entry t.Mode)
    (ops : List (Operand t.Mode t.Reg)) (cause : Cause)
    (rejected : t.machine.check entry ops = some cause) : cause ≠ .undefinedSymbol := by
  cases t with
  | z80 =>
    change Z80.check entry ops = some cause at rejected
    unfold Z80.check at rejected
    dsimp only at rejected
    split at rejected
    · exact Option.some.inj rejected ▸ nofun
    · simp at rejected
  | tms32010 =>
    change Tms32010.check entry ops = some cause at rejected
    unfold Tms32010.check at rejected
    split at rejected
    · exact Option.some.inj rejected ▸ nofun
    · simp at rejected
  | mc6800 | mc6801 | hd6301 | ns32000 => simp [isRegular] at regular

/-- An instruction that a pass accepts has the same length under every table that another pass accepts
it under. -/
theorem length_assemble_of_soft (regular : t.isRegular = true)
    (filled : (Cursor.start line).skipSpaces.atEnd = false)
    (soft : ∀ f, (t.assemble symbols line address).fault = some f → f.isSoft = true)
    (again : ∀ f, (t.assemble others line address).fault = some f → f.isSoft = true) :
    (t.assemble others line address).bytes.length = (t.assemble symbols line address).bytes.length := by
  -- A line that cannot be read has a hard fault, so both tables get as far as encoding it.
  have read {symbols : Symbols}
      (soft : ∀ f, (t.assemble symbols line address).fault = some f → f.isSoft = true) :
      ∃ page entry ops, t.machine.parseLine symbols line address = .ok (some (page, entry, ops)) := by
    rcases t.machine.parsed_or_error filled with parsed | ⟨f, failed⟩
    · exact parsed
    · have hard := Machine.hard_of_parseLine (check_hard regular) failed
      have waits := soft f (by simp [assemble, Machine.assemble, failed])
      simp [hard] at waits
  obtain ⟨page, entry, ops, parsed⟩ := read soft
  obtain ⟨page', entry', ops', parsed'⟩ := read again
  cases t with
  | z80 =>
    exact Machine.length_assemble_of_settles parsed parsed' Z80.resolving Z80.registerResolves
      Z80.customResolves rfl Z80.fixes (fun _ _ _ _ => rfl) fun _ _ => rfl
  | tms32010 =>
    exact Machine.length_assemble_of_settles parsed parsed' Tms32010.resolving
      Tms32010.registerResolves Tms32010.customResolves rfl Tms32010.fixes (fun _ _ _ _ => rfl)
      fun _ _ => rfl
  | mc6800 | mc6801 | hd6301 | ns32000 => simp [isRegular] at regular

end Target

/-- A statement leaves the location at the same place under every table. -/
theorem Action.next_eq_of_run {t : Target} (regular : t.isRegular = true) {known others : Symbols}
    {number : Nat} {location next next' : UInt32} {action : Action} {line line' : Option Line}
    (nameless : action.isNameless t.config.dialect = true) (written : ∃ c, action = Action.read c)
    (ran : action.run t known number location = .ok (line, next))
    (again : action.run t others number location = .ok (line', next')) : next' = next := by
  cases action with
  | nothing =>
    simp only [run, Except.ok.injEq, Prod.mk.injEq] at ran again
    rw [← ran.2, ← again.2]
  | unknownDirective => simp [run] at ran
  | origin expression =>
    simp only [run] at ran again
    split at ran
    · simp at ran
    next v after read =>
    split at again
    · simp at again
    next v' after' read' =>
      -- Without names there is nothing to wait for, and one value.
      obtain ⟨final, final', same⟩ := Scope.eval_of_nameless read read' rfl rfl nameless
      simp only [final, final', same, Bool.false_eq_true, if_false, Except.ok.injEq,
        Prod.mk.injEq] at ran again
      rw [← ran.2, ← again.2]
  | data width items =>
    simp only [run] at ran again
    split at ran
    · simp at ran
    next read =>
    split at again
    · simp at again
    next read' =>
      have length := length_numbers_eq read read' rfl
      split at ran
      · split at again
        · simp only [Except.ok.injEq, Prod.mk.injEq] at ran again
          rw [← ran.2, ← again.2, length]
        · simp at again
      · simp at ran
  | instruction text =>
    obtain ⟨c, read⟩ := written
    have filled := Action.filled_of_read read.symm
    simp only [run] at ran again
    -- Both passes go on behind the line, so neither has more against it than an open symbol.
    have soft {fault : Option Fault} (kept : (fault.filter fun f => !f.isSoft) = none) (f : Fault)
        (is : fault = some f) : f.isSoft = true := by
      simpa [is, Option.filter] using kept
    split at ran
    · simp at ran
    next kept =>
    split at again
    · simp at again
    next kept' =>
      have length := Target.length_assemble_of_soft regular filled (soft kept) (soft kept')
      simp only [Except.ok.injEq, Prod.mk.injEq] at ran again
      rw [← ran.2, ← again.2, length]

/-! ### Passes -/

/-- All passes over the same statements find the same labels. -/
theorem labels_eq_of_pass {t : Target} (regular : t.isRegular = true) {known others : Symbols}
    {statements : List Statement} {location : UInt32} {before labels labels' : Symbols}
    {lines lines' : List Line}
    (nameless : ∀ s ∈ statements, s.action.isNameless t.config.dialect = true)
    (written : ∀ s ∈ statements, ∃ c, s.action = Action.read c)
    (passed : pass t known statements location before = .ok (lines, labels))
    (again : pass t others statements location before = .ok (lines', labels')) : labels' = labels := by
  induction statements generalizing location before lines lines' with
  | nil =>
    simp only [pass, Except.ok.injEq, Prod.mk.injEq] at passed again
    rw [← passed.2, ← again.2]
  | cons s rest ih =>
    obtain ⟨middle, line, next, more, defined, ran, later, -⟩ := pass_cons_eq_ok passed
    obtain ⟨middle', line', next', more', defined', ran', later', -⟩ := pass_cons_eq_ok again
    -- The labels so far and the location are the same in both passes, and so is the next label.
    obtain rfl := Except.ok.inj (defined.symm.trans defined')
    obtain rfl := Action.next_eq_of_run regular (nameless s (by simp)) (written s (by simp)) ran ran'
    exact ih (fun s member => nameless s (by simp [member]))
      (fun s member => written s (by simp [member])) later later'

/-- Whatever is wrong with a statement is reported at its line. -/
theorem Action.line?_of_run {t : Target} {known : Symbols} {number : Nat} {location : UInt32}
    {action : Action} {e : SourceError} (failed : action.run t known number location = .error e) :
    e.line? = some number := by
  cases action with
  | nothing => simp [run] at failed
  | unknownDirective => exact Except.error.inj failed ▸ rfl
  | origin expression =>
    simp only [run] at failed
    split at failed
    · exact Except.error.inj failed ▸ rfl
    · simp at failed
  | data width items =>
    simp only [run] at failed
    split at failed
    · exact Except.error.inj failed ▸ rfl
    · split at failed
      · simp at failed
      · exact Except.error.inj failed ▸ rfl
  | instruction text =>
    simp only [run] at failed
    split at failed
    · exact Except.error.inj failed ▸ rfl
    · simp at failed

theorem Statement.line?_of_define {s : Statement} {location : UInt32} {before : Symbols}
    {e : SourceError} (failed : s.define location before = .error e) : e.line? = some s.number := by
  simp only [define] at failed
  split at failed
  · simp at failed
  · split at failed
    · exact Except.error.inj failed ▸ rfl
    · simp at failed

theorem exists_line_of_pass {t : Target} {known : Symbols} {statements : List Statement}
    {location : UInt32} {before : Symbols} {e : SourceError}
    (failed : pass t known statements location before = .error e) :
    ∃ s ∈ statements, e.line? = some s.number := by
  induction statements generalizing location before with
  | nil => simp [pass] at failed
  | cons s rest ih =>
    simp only [pass] at failed
    split at failed
    next duplicate =>
      obtain rfl := Except.error.inj failed
      exact ⟨s, by simp, Statement.line?_of_define duplicate⟩
    next =>
      split at failed
      next stopped =>
        obtain rfl := Except.error.inj failed
        exact ⟨s, by simp, Action.line?_of_run stopped⟩
      next =>
        split at failed
        next later =>
          obtain rfl := Except.error.inj failed
          obtain ⟨s, member, line⟩ := ih later
          exact ⟨s, by simp [member], line⟩
        next => simp at failed

namespace Program

/-- Settling fails at a line, or because of labels that its next passes still move. -/
theorem line?_or_moves {t : Target} {statements : List Statement} {start : UInt32} {known : Symbols}
    {passes : Nat} {e : SourceError}
    (failed : settle t statements start (passes + 1) known = .error e) :
    e.line?.isSome = true ∨ ∃ lines labels,
      pass t known statements start ∅ = .ok (lines, labels) ∧ labels ≠ known ∧
      settle t statements start passes labels = .error e := by
  simp only [settle] at failed
  split at failed
  next stopped =>
    obtain ⟨s, -, line⟩ := exists_line_of_pass stopped
    rw [← Except.error.inj failed, line]
    exact .inl rfl
  next lines labels passed =>
    split at failed
    next =>
      split at failed
      next fault =>
        obtain ⟨l, -, faulty⟩ := List.exists_of_findSome?_eq_some fault
        obtain ⟨f, -, rfl⟩ := Option.map_eq_some_iff.mp faulty
        exact .inl (Except.error.inj failed ▸ rfl)
      next => simp at failed
    next moved => exact .inr ⟨lines, labels, passed, moved, failed⟩

/-- Where the lengths do not depend on what names stand for and the location is moved to no name, all
passes that finish find the same labels. So the labels never keep moving, and a finished program has
the labels that its first pass found. -/
theorem labels_of_first_pass (t : Target) (regular : t.isRegular = true) (text : String)
    (start : UInt32)
    (nameless : ∀ s ∈ Statement.ofText text, s.action.isNameless t.config.dialect = true) :
    (∀ passes, assemble t text start ≠ .error (.unsettled passes)) ∧
      (∀ known others lines lines' labels labels',
        pass t known (Statement.ofText text) start ∅ = .ok (lines, labels) →
        pass t others (Statement.ofText text) start ∅ = .ok (lines', labels') → labels' = labels) ∧
      ∀ p, assemble t text start = .ok p →
        ∃ lines, pass t ∅ (Statement.ofText text) start ∅ = .ok (lines, p.symbols) := by
  have same {known others : Symbols} {lines lines' : List Line} {labels labels' : Symbols}
      (passed : pass t known (Statement.ofText text) start ∅ = .ok (lines, labels))
      (again : pass t others (Statement.ofText text) start ∅ = .ok (lines', labels')) :
      labels' = labels :=
    labels_eq_of_pass regular nameless (fun s member => Statement.exists_read member) passed again
  refine ⟨?_, fun _ _ _ _ _ _ => same, ?_⟩
  · intro passes moving
    -- The second pass finds what the first one found, so it would have been the last.
    rcases line?_or_moves moving with line | ⟨_, labels, first, -, moving⟩
    · simp [SourceError.line?] at line
    · rcases line?_or_moves moving with line | ⟨_, labels', second, moved, -⟩
      · simp [SourceError.line?] at line
      · exact moved (same first second)
  · intro p finished
    obtain ⟨-, -, passed, -⟩ := settle_eq_ok finished
    -- The first pass cannot have failed, since then there would be no program.
    cases first : pass t ∅ (Statement.ofText text) start ∅ with
    | error e => simp [assemble, maxPasses, settle, first] at finished
    | ok result => exact ⟨result.1, by rw [same first passed]⟩

/-- A label used before it is written, behind a moved location, in an operand and in data. -/
theorem labels_of_first_pass_forward :
    let text := " LD HL,AT\n ORG 200H\nAT: DJNZ AT\n DB 1,AT/16"
    (∀ s ∈ Statement.ofText text, s.action.isNameless Target.z80.config.dialect = true) ∧
      ∃ p lines, assemble .z80 text 0x100 = .ok p ∧ p.symbols.value? "AT" = some 0x200 ∧
        pass .z80 ∅ (Statement.ofText text) 0x100 ∅ = .ok (lines, p.symbols) := by
  intro text
  have nameless :
      ∀ s ∈ Statement.ofText text, s.action.isNameless Target.z80.config.dialect = true := by
    decide +kernel
  obtain ⟨p, finished, value⟩ := exists_of_toOption
    (show (assemble .z80 text 0x100).toOption.map (·.symbols.value? "AT") = some (some 0x200) by
      decide +kernel)
  obtain ⟨lines, first⟩ := (labels_of_first_pass .z80 rfl text 0x100 nameless).2.2 p finished
  exact ⟨nameless, p, lines, finished, value, first⟩

end Program

end CrossAsm
