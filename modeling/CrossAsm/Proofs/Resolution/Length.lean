import CrossAsm.Proofs.Resolution.Targets

/-! The length of an instruction does not depend on the values of symbols where its form is fixed.
Whatever two tables make of a line, both read it as the empty table does, which knows none of the
values. -/

namespace CrossAsm

theorem exists_zip_of_forall₂ {α β γ : Type} {R : α → β → Prop} {xs : List α} {ys : List β}
    (related : List.Forall₂ R xs ys) {zs : List γ} {z : γ} {x : α} (member : (z, x) ∈ zs.zip xs) :
    ∃ y, (z, y) ∈ zs.zip ys ∧ R x y := by
  induction related generalizing zs with
  | nil => simp at member
  | @cons x' y' xs ys first _ ih =>
    cases zs with
    | nil => simp at member
    | cons z' zs =>
      rcases List.mem_cons.mp member with same | later
      · obtain ⟨rfl, rfl⟩ := Prod.mk.inj same
        exact ⟨y', by simp, first⟩
      · obtain ⟨y, present, related⟩ := ih later
        exact ⟨y, by simp [present], related⟩

namespace Machine

variable {Mode Reg : Type} {m : Machine Mode Reg} {symbols others : Symbols} {line : String} {address : UInt32}
  {page page' : Page Mode} {entry entry' : Entry Mode} {ops ops' : List (Operand Mode Reg)}
  (parsed : m.parseLine symbols line address = .ok (some (page, entry, ops)))
  (again : m.parseLine others line address = .ok (some (page', entry', ops')))

include parsed again

/-- The operands of a line without any symbols, next to those under two tables. -/
theorem exists_unresolved {R : Operand Mode Reg → Operand Mode Reg → Prop} (resolving : m.Resolving R)
    (weakens : ∀ op known, R op known → op.Resolves known) :
    ∃ name waiting, List.Forall₂ R waiting ops ∧ List.Forall₂ R waiting ops' ∧
      m.findByName name ops = .ok (page, entry) ∧ m.findByName name ops' = .ok (page', entry') := by
  obtain ⟨-, name, after, ident, rfl, soft, -, found, -⟩ := parseLine_eq_ok_iff.mp parsed
  obtain ⟨-, name', after', ident', rfl, soft', -, found', -⟩ := parseLine_eq_ok_iff.mp again
  obtain ⟨rfl, rfl⟩ : name = name' ∧ after = after' := by
    simpa using ident.symm.trans ident'
  exact ⟨name, _,
    (parseOperands_resolves resolving weakens (Symbols.empty_within symbols) soft).2,
    (parseOperands_resolves resolving weakens (Symbols.empty_within others) soft').2, found, found'⟩

/-- Two tables under which all operands have the modes that they have without symbols give
instructions of one length. -/
theorem length_encode_eq {exposes fixed : Slot Mode → Operand Mode Reg → Bool}
    (registers : m.RegisterResolves) (custom : m.CustomResolves exposes)
    (steady : m.config.steady = true) (fixes : m.Fixes fixed) {name : String}
    {waiting : List (Operand Mode Reg)} (first : List.Forall₂ Operand.Settles waiting ops)
    (second : List.Forall₂ Operand.Settles waiting ops')
    (found : m.findByName name ops = .ok (page, entry))
    (found' : m.findByName name ops' = .ok (page', entry'))
    (forms : ∀ w ∈ entry.slots.zip waiting, fixed w.1 w.2 = true) :
    (m.assemble others line address).bytes.length = (m.assemble symbols line address).bytes.length := by
  have modes {ops : List (Operand Mode Reg)} (settles : List.Forall₂ Operand.Settles waiting ops) :
      m.findByName name ops = m.findByName name waiting :=
    findByName_congr (settles.imp fun _ _ settles => settles.mode) name
  -- The entry is found by the modes, so both tables lead to the same one.
  obtain ⟨rfl, rfl⟩ : page = page' ∧ entry = entry' := by
    rw [modes first, ← modes second, found'] at found
    simpa using found.symm
  simp only [assemble, parsed, again]
  rw [length_encode registers custom steady page second address fixes forms,
    length_encode registers custom steady page first address fixes forms]

/-- Where open values do not change the mode of an operand, the length follows from the forms. -/
theorem length_assemble_of_settles {exposes fixed : Slot Mode → Operand Mode Reg → Bool}
    (resolving : m.Resolving Operand.Settles) (registers : m.RegisterResolves)
    (custom : m.CustomResolves exposes) (steady : m.config.steady = true) (fixes : m.Fixes fixed)
    (respects : ∀ slot op known, op.Settles known → fixed slot known = fixed slot op)
    (forms : ∀ w ∈ entry.slots.zip ops, fixed w.1 w.2 = true) :
    (m.assemble others line address).bytes.length = (m.assemble symbols line address).bytes.length := by
  obtain ⟨name, waiting, first, second, found, found'⟩ :=
    exists_unresolved parsed again resolving fun _ _ settles => settles.toResolves
  refine length_encode_eq parsed again registers custom steady fixes first second found found' ?_
  rintro ⟨slot, op⟩ member
  obtain ⟨known, present, settles⟩ := exists_zip_of_forall₂ first member
  rw [← respects slot op known settles]
  exact forms (slot, known) present

end Machine

namespace M6800

theorem settles_of_forced {op known : Operand Mode Reg} (reads : Reads op known)
    (forced : op.mode = .ext → op.force.isSome = true) : op.Settles known := by
  refine ⟨reads.toResolves, ?_⟩
  rcases reads.mode with same | ⟨-, bare, ext, -⟩
  · exact same
  · simp [ext, bare] at forced

/-- Does an address without index ask for its size? -/
def hasSize (op : Operand Mode Reg) : Bool := op.mode != .dir && op.mode != .ext || op.force.isSome

theorem length_assemble_of_hasSize {variant : Variant} {symbols others : Symbols} {line : String}
    {address : UInt32} {page page' : Page Mode} {entry entry' : Entry Mode}
    {ops ops' : List (Operand Mode Reg)}
    (parsed : (machine variant).parseLine symbols line address = .ok (some (page, entry, ops)))
    (again : (machine variant).parseLine others line address = .ok (some (page', entry', ops')))
    (forms : ∀ w ∈ entry.slots.zip ops, hasSize w.2 = true) :
    ((machine variant).assemble others line address).bytes.length =
      ((machine variant).assemble symbols line address).bytes.length := by
  obtain ⟨name, waiting, first, second, found, found'⟩ := Machine.exists_unresolved parsed again
    (resolving variant) fun _ _ reads => reads.toResolves
  obtain ⟨_, writes⟩ := Machine.writes_of_parseLine parsed
  have operands : (entry.slots.zip ops).map Prod.snd = ops :=
    List.map_snd_zip writes.accepted.length_eq.ge
  -- An open address that becomes direct would have no size asked for.
  have forced : ∀ op ∈ waiting, op.mode = .ext → op.force.isSome = true := by
    intro op member ext
    obtain ⟨known, present, reads⟩ := exists_right_of_forall₂ first member
    rw [← operands] at present
    obtain ⟨w, paired, rfl⟩ := List.mem_map.mp present
    have form := forms w paired
    rw [hasSize, reads.force] at form
    rcases reads.mode with same | ⟨-, -, -, dir⟩
    · simpa [same, ext] using form
    · simpa [dir] using form
  have settles {ops : List (Operand Mode Reg)} (reads : List.Forall₂ Reads waiting ops) :
      List.Forall₂ Operand.Settles waiting ops :=
    (forall₂_mem reads).imp fun op known ⟨member, _, reads⟩ =>
      settles_of_forced reads (forced op member)
  exact Machine.length_encode_eq parsed again (registerResolves variant) (customResolves variant) rfl
    (fixes variant) (settles first) (settles second) found found' fun _ _ => rfl

end M6800

theorem Ns32000.hasSize_settles (slot : Slot Ns32000.Mode) (op known : Operand Ns32000.Mode Ns32000.Reg)
    (settles : op.Settles known) : Ns32000.hasSize slot known = Ns32000.hasSize slot op := by
  simp only [Ns32000.hasSize, Ns32000.takesLadder, settles.mode, settles.force]

namespace Target

/-- Is the form of the operand in this slot fixed by how it is written? A plain address of the 6800
family, and a displacement of the NS32000, has to ask for its size. -/
def fixesForm : (t : Target) → Slot t.Mode → Operand t.Mode t.Reg → Bool
  | mc6800 | mc6801 | hd6301 => fun _ => M6800.hasSize
  | ns32000 => Ns32000.hasSize
  | z80 | tms32010 => fun _ _ => true

/-- Instructions of fixed form are as long under one symbol table as under any other. -/
theorem length_assemble_eq (t : Target) (symbols others : Symbols) (line : String) (address : UInt32)
    (bytes : (t.assemble symbols line address).bytes ≠ [])
    (again : (t.assemble others line address).bytes ≠ [])
    (forms : ∀ page entry ops, t.machine.parseLine symbols line address = .ok (some (page, entry, ops)) →
      ∀ w ∈ entry.slots.zip ops, t.fixesForm w.1 w.2 = true) :
    (t.assemble others line address).bytes.length = (t.assemble symbols line address).bytes.length := by
  obtain ⟨page, entry, ops, parsed⟩ := Machine.exists_parsed bytes
  obtain ⟨page', entry', ops', parsed'⟩ := Machine.exists_parsed again
  have fixed := forms page entry ops parsed
  cases t with
  | mc6800 | mc6801 | hd6301 => exact M6800.length_assemble_of_hasSize parsed parsed' fixed
  | z80 =>
    exact Machine.length_assemble_of_settles parsed parsed' Z80.resolving Z80.registerResolves
      Z80.customResolves rfl Z80.fixes (fun _ _ _ _ => rfl) fixed
  | ns32000 =>
    exact Machine.length_assemble_of_settles parsed parsed' Ns32000.resolving
      Ns32000.registerResolves Ns32000.customResolves rfl Ns32000.fixes Ns32000.hasSize_settles fixed
  | tms32010 =>
    exact Machine.length_assemble_of_settles parsed parsed' Tms32010.resolving
      Tms32010.registerResolves Tms32010.customResolves rfl Tms32010.fixes (fun _ _ _ _ => rfl) fixed

/-- Displacements that ask for their size, under a table that has values for them and under one whose
values do not fit. -/
theorem length_assemble_eq_displacements :
    let small := Symbols.ofList [("A", 5), ("B", 0x10)]
    let large := Symbols.ofList [("A", 0x12345), ("B", 0xFFFFFF)]
    let line := "MOVW <A(R0),@>B"
    (ns32000.assemble small line 0x100).bytes.length = 7 ∧
      (ns32000.assemble large line 0x100).fault ≠ none ∧
      (ns32000.assemble large line 0x100).bytes.length =
        (ns32000.assemble small line 0x100).bytes.length := by
  intro small large line
  refine ⟨by decide, by decide,
    length_assemble_eq ns32000 small large line 0x100 (by decide) (by decide) ?_⟩
  have sized : ((ns32000.machine.parseLine small line 0x100).toOption.join.all fun read =>
      (read.2.1.slots.zip read.2.2).all fun w => ns32000.fixesForm w.1 w.2) = true := by
    decide
  intro page entry ops parsed
  rw [parsed] at sized
  exact List.all_eq_true.mp sized

end Target

end CrossAsm
