import CrossAsm.Proofs.Completeness
import CrossAsm.Proofs.Resolution.Length

/-! Forward references. A line that a larger symbol table makes a clean instruction of should be one
under a smaller table too, with no fault but that a symbol is undefined, so that a first pass can lay it
out. Which operands keep a line from that, target by target: those whose placeholder is looked at before
the value is known, and addresses that no form takes until they are known to be short. -/

namespace CrossAsm

namespace Machine

variable {Mode Reg : Type} {m : Machine Mode Reg} {symbols known : Symbols} {line : String}
  {address : UInt32} {page : Page Mode} {entry : Entry Mode} {ops knowns : List (Operand Mode Reg)}

/-- The line is an instruction, with which nothing is wrong but that a symbol may be undefined. -/
def Waits (m : Machine Mode Reg) (symbols : Symbols) (line : String) (address : UInt32) : Prop :=
  (∃ page entry ops, m.parseLine symbols line address = .ok (some (page, entry, ops))) ∧
    ∀ f, (m.assemble symbols line address).fault = some f → f.cause = .undefinedSymbol

/-! ### Reading the line -/

section Open

variable {R : Operand Mode Reg → Operand Mode Reg → Prop} (resolving : m.Resolving R)
  (weakens : ∀ op known, R op known → op.Resolves known) (within : symbols.Within known)
  (parsed : m.parseLine known line address = .ok (some (page, entry, knowns)))

include resolving weakens within parsed

/-- Under the smaller table the line has the same name and related operands, and it is an instruction
if an entry takes these. -/
theorem exists_open : ∃ name, m.findByName name knowns = .ok (page, entry) ∧
    m.check entry knowns = none ∧ List.Forall₂ R (m.operandsOf symbols line address) knowns ∧
    ∀ page entry ops, m.parseLine symbols line address = .ok (some (page, entry, ops)) ↔
      ops = m.operandsOf symbols line address ∧ m.findByName name ops = .ok (page, entry) ∧
        m.check entry ops = none := by
  obtain ⟨filled, name, after, ident, rfl, soft, ended, found, checked⟩ := parseLine_eq_ok_iff.mp parsed
  obtain ⟨moved, related⟩ := parseOperands_resolves resolving weakens within soft
  have read : m.operandsOf symbols line address = (m.parseOperands symbols address after).1 := by
    simp only [operandsOf, ident]
  rw [read]
  refine ⟨name, found, checked, related, fun page entry ops => ?_⟩
  rw [parseLine_eq_ok_iff]
  constructor
  · rintro ⟨-, name', after', ident', rfl, -, -, found, checked⟩
    obtain ⟨rfl, rfl⟩ : name = name' ∧ after = after' := by simpa using ident.symm.trans ident'
    exact ⟨rfl, found, checked⟩
  · rintro ⟨rfl, found, checked⟩
    refine ⟨filled, name, after, ident, rfl, fun op member => ?_, moved ▸ ended, found, checked⟩
    obtain ⟨known, -, related⟩ := exists_right_of_forall₂ related member
    exact (weakens op known related).soft

end Open

section Settles

variable (resolving : m.Resolving Operand.Settles) (within : symbols.Within known)
  (parsed : m.parseLine known line address = .ok (some (page, entry, knowns)))

include resolving within parsed

/-- Operands of the same modes lead to the same entry. -/
theorem settled_open : List.Forall₂ Operand.Settles (m.operandsOf symbols line address) knowns ∧
    ∀ page' entry' ops, m.parseLine symbols line address = .ok (some (page', entry', ops)) ↔
      ops = m.operandsOf symbols line address ∧ (page', entry') = (page, entry) ∧
        m.check entry ops = none := by
  obtain ⟨name, found, -, paired, reads⟩ :=
    exists_open resolving (fun _ _ settles => settles.toResolves) within parsed
  rw [findByName_congr (paired.imp fun _ _ settles => settles.mode)] at found
  refine ⟨paired, fun page' entry' ops => ?_⟩
  rw [reads]
  constructor
  · rintro ⟨rfl, found', checked'⟩
    obtain ⟨rfl, rfl⟩ : page = page' ∧ entry = entry' := by simpa using found.symm.trans found'
    exact ⟨rfl, rfl, checked'⟩
  · rintro ⟨rfl, same, checked'⟩
    obtain ⟨rfl, rfl⟩ := Prod.mk.inj same
    exact ⟨rfl, found, checked'⟩

end Settles

/-! ### Faults -/

theorem undefined_of_soft {op : Operand Mode Reg} (soft : op.hardFault? = none) {f : Fault}
    (fault : op.fault = some f) : f.cause = .undefinedSymbol := by
  simpa [Operand.hardFault?, fault, Fault.isSoft] using soft

/-- Where no placeholder is looked at, only the open values are reported. -/
theorem undefined_of_settles (registers : m.RegisterResolves)
    {exposes : Slot Mode → Operand Mode Reg → Bool} (custom : m.CustomResolves exposes)
    (steady : m.config.steady = true) (zero : m.config.holdsZero = true)
    (parsed : m.parseLine symbols line address = .ok (some (page, entry, ops)))
    (paired : List.Forall₂ Operand.Settles ops knowns)
    (clean : (m.encode page entry knowns address).fault = none)
    (hidden : ∀ w ∈ entry.slots.zip ops, (m.shape w.1.mode == .custom && exposes w.1 w.2) = false)
    {f : Fault} (fault : (m.assemble symbols line address).fault = some f) :
    f.cause = .undefinedSymbol := by
  simp only [assemble, parsed] at fault
  rw [fault_encode registers custom steady page paired address zero hidden clean] at fault
  obtain ⟨op, member, fault⟩ := List.exists_of_findSome?_eq_some fault
  obtain ⟨known, -, settles⟩ := exists_right_of_forall₂ paired member
  exact undefined_of_soft settles.soft fault

/-- What registers and operands of a target's own kind are rejected for is never that a symbol is
undefined. -/
structure RejectsHard (m : Machine Mode Reg) : Prop where
  register : ∀ mode op cause, m.registerField mode op = .error cause → cause ≠ .undefinedSymbol
  custom : ∀ entry slot op d cause, (m.encodeCustom entry slot op d).2 = some cause →
    cause ≠ .undefinedSymbol

section Rejects

variable (hard : m.RejectsHard)

include hard

theorem encodeOperand_hard (entry : Entry Mode) (slot : Slot Mode) (op : Operand Mode Reg) {d : Draft}
    {cause : Cause} (rejected : (m.encodeOperand entry slot op d).2 = some cause) :
    cause ≠ .undefinedSymbol := by
  have register {d : Draft} {cause : Cause} (rejected : (m.encodeRegister slot op d).2 = some cause) :
      cause ≠ .undefinedSymbol := by
    unfold encodeRegister at rejected
    split at rejected
    · simp at rejected
    next found =>
      obtain rfl := Option.some.inj rejected
      exact hard.register slot.mode op _ found
  have embedded {fits : Bool} {given : Cause}
      (rejected : (encodeEmbedded slot op fits given d).2 = some cause)
      (proper : given ≠ .undefinedSymbol) : cause ≠ .undefinedSymbol := by
    unfold encodeEmbedded at rejected
    split at rejected
    · simp at rejected
    · exact Option.some.inj rejected ▸ proper
  have number {op : Operand Mode Reg} {stage : Stage} {bytes : Nat} {fits : Bool} {d : Draft}
      (rejected : (encodeNumber stage op bytes fits d).2 = some cause) : cause ≠ .undefinedSymbol := by
    unfold encodeNumber at rejected
    split at rejected
    · simp at rejected
    · exact Option.some.inj rejected ▸ nofun
  -- Every shape rejects by one of these, or by a cause that it names.
  unfold encodeOperand at rejected
  cases shape : m.shape slot.mode with
  | implied => simp [shape] at rejected
  | register => exact register (by simpa only [shape] using rejected)
  | embedded signed =>
    simp only [shape] at rejected
    exact embedded rejected nofun
  | bit =>
    simp only [shape] at rejected
    exact embedded rejected nofun
  | immediate width =>
    simp only [shape] at rejected
    split at rejected
    · exact Option.some.inj rejected ▸ nofun
    · exact number rejected
  | absolute width =>
    simp only [shape] at rejected
    split at rejected
    · exact Option.some.inj rejected ▸ nofun
    · exact number rejected
  | relative width =>
    simp only [shape] at rejected
    split at rejected
    · exact Option.some.inj rejected ▸ nofun
    · simp at rejected
  | indexed disp signed =>
    simp only [shape] at rejected
    split at rejected
    next cause' first =>
      split at first
      · exact register (first.trans rejected)
      · simp at first
    · exact Option.some.inj rejected ▸ nofun
    · exact number rejected
  | ladder relative => simp [shape] at rejected
  | custom => exact hard.custom entry slot op d cause (by simpa only [shape] using rejected)

/-- An operand that is rejected whatever comes before it leaves a fault that is not soft. -/
theorem encodeOperands_rejects {slot : Slot Mode} {op : Operand Mode Reg}
    (rejects : ∀ d, (m.encodeOperand entry slot op d).2 ≠ none) {slots : List (Slot Mode)}
    (member : (slot, op) ∈ slots.zip ops) (d : Draft) :
    ∃ f, (m.encodeOperands entry slots ops d).2 = some f ∧ f.cause ≠ .undefinedSymbol := by
  induction slots generalizing ops d with
  | nil => simp at member
  | cons slot' slots ih =>
    cases ops with
    | nil => simp at member
    | cons op' ops =>
      simp only [encodeOperands]
      -- The first fault counts; it is the one looked for unless an earlier operand is rejected.
      cases cause : (m.encodeOperand entry slot' op' d).2 with
      | some cause' =>
        exact ⟨cause'.located op'.column, rfl, encodeOperand_hard hard entry slot' op' cause⟩
      | none =>
        rcases List.mem_cons.mp member with same | later
        · obtain ⟨rfl, rfl⟩ := Prod.mk.inj same
          exact absurd cause (rejects d)
        · exact ih later _

theorem not_waits_of_rejects (parsed : m.parseLine symbols line address = .ok (some (page, entry, ops)))
    {slot : Slot Mode} {op : Operand Mode Reg} (member : (slot, op) ∈ entry.slots.zip ops)
    (rejects : ∀ d, (m.encodeOperand entry slot op d).2 ≠ none) : ¬ m.Waits symbols line address := by
  rintro ⟨-, soft⟩
  obtain ⟨f, early, hardly⟩ := encodeOperands_rejects hard rejects member (m.draft page entry address)
  refine hardly (soft f ?_)
  simp only [assemble, parsed, encode, early, Option.some_or]

end Rejects

section Settles

variable (resolving : m.Resolving Operand.Settles) (within : symbols.Within known)
  (parsed : m.parseLine known line address = .ok (some (page, entry, knowns)))
  {looks : Slot Mode → Operand Mode Reg → Bool}

include resolving within parsed

/-- Where open values do not change the mode of an operand, an instruction waits for them if neither the
check nor the encoding looks at a placeholder. -/
theorem waits_of_hidden {exposes : Slot Mode → Operand Mode Reg → Bool} (registers : m.RegisterResolves)
    (custom : m.CustomResolves exposes) (steady : m.config.steady = true)
    (zero : m.config.holdsZero = true)
    (clean : (m.encode page entry knowns address).fault = none)
    (hides : ∀ slot op, looks slot op = false →
      (m.shape slot.mode == .custom && exposes slot op) = false)
    (checks : ∀ ops, List.Forall₂ Operand.Settles ops knowns →
      (∀ w ∈ entry.slots.zip ops, looks w.1 w.2 = false) → m.check entry ops = none)
    (hidden : ∀ w ∈ entry.slots.zip (m.operandsOf symbols line address), looks w.1 w.2 = false) :
    m.Waits symbols line address := by
  obtain ⟨paired, reads⟩ := settled_open resolving within parsed
  have parsed' := (reads page entry _).mpr ⟨rfl, rfl, checks _ paired hidden⟩
  refine ⟨⟨page, entry, _, parsed'⟩, fun f fault => ?_⟩
  exact undefined_of_settles registers custom steady zero parsed' paired clean
    (fun w member => hides w.1 w.2 (hidden w member)) fault

/-- An instruction does not wait where a placeholder is looked at and found wrong. -/
theorem hidden_of_waits (hard : m.RejectsHard)
    (rejects : ∀ ops, ∀ w ∈ entry.slots.zip ops, looks w.1 w.2 = true →
      m.check entry ops ≠ none ∨ ∀ d, (m.encodeOperand entry w.1 w.2 d).2 ≠ none)
    (waits : m.Waits symbols line address) {w : Slot Mode × Operand Mode Reg}
    (member : w ∈ entry.slots.zip (m.operandsOf symbols line address)) : looks w.1 w.2 = false := by
  obtain ⟨-, reads⟩ := settled_open resolving within parsed
  by_contra seen
  obtain ⟨page', entry', ops, parsed'⟩ := waits.1
  obtain ⟨rfl, same, checked⟩ := (reads page' entry' ops).mp parsed'
  obtain ⟨rfl, rfl⟩ := Prod.mk.inj same
  rcases rejects _ w member (by simpa using seen) with refused | rejected
  · exact refused checked
  · exact not_waits_of_rejects hard parsed' member rejected waits

end Settles

end Machine

theorem map_mode_eq {Mode Reg : Type} {ops knowns : List (Operand Mode Reg)}
    (paired : List.Forall₂ Operand.Settles ops knowns) : knowns.map (·.mode) = ops.map (·.mode) := by
  induction paired with
  | nil => rfl
  | cons first _ ih => rw [List.map_cons, List.map_cons, first.mode, ih]

/-! ### Z80 -/

namespace Z80

/-- The placeholder of an interrupt mode is looked at, and that of a displacement where a jump takes
none. -/
def looksAt (slot : Slot Mode) (op : Operand Mode Reg) : Bool :=
  op.undefined &&
    match slot.mode with
    | .imMode => op.value < 0 || 2 < op.value
    | .jpIx | .jpIy => op.value != 0
    | _ => false

theorem cause_of_customField {mode : Mode} {op : Operand Mode Reg} {cause : Cause}
    (rejected : customField mode op = .error cause) : cause = .illegalConstant := by
  unfold customField at rejected
  repeat' split at rejected
  all_goals simp_all

theorem rejectsHard : machine.RejectsHard where
  register mode op cause rejected := by
    change registerField mode op = .error cause at rejected
    simp only [registerField] at rejected
    repeat' split at rejected
    all_goals
      simp only [reduceCtorEq, Except.error.injEq] at rejected
      try (subst rejected; decide)
  custom entry slot op d cause rejected := by
    change (encodeCustom entry slot op d).2 = some cause at rejected
    unfold encodeCustom at rejected
    split at rejected
    · simp at rejected
    next refused =>
      obtain rfl := Option.some.inj rejected
      rw [cause_of_customField refused]
      decide

theorem exposes_of_looksAt {slot : Slot Mode} {op : Operand Mode Reg} (hidden : looksAt slot op = false) :
    (machine.shape slot.mode == .custom && exposes slot op) = false := by
  by_cases custom : shape slot.mode = .custom
  · rcases mode_of_custom custom with mode | mode
    · simp [exposes, mode]
    · rw [looksAt, mode] at hidden
      rw [exposes, mode]
      simpa using fun _ => hidden
  · exact Bool.and_eq_false_imp.mpr fun same => absurd (beq_iff_eq.mp same) custom

theorem check_of_hidden {page : Page Mode} {entry : Entry Mode} (own : (page, entry) ∈ machine.ownEntries)
    {ops knowns : List (Operand Mode Reg)} (paired : List.Forall₂ Operand.Settles ops knowns)
    (lengths : entry.slots.length = ops.length) (checked : check entry knowns = none)
    (hidden : ∀ w ∈ entry.slots.zip ops, looksAt w.1 w.2 = false) : check entry ops = none := by
  have modes := map_mode_eq paired
  have halts : knowns.all (·.mode == .indHl) = ops.all (·.mode == .indHl) := by
    simpa only [List.all_map, Function.comp_def] using congrArg (List.all · (· == .indHl)) modes
  simp only [check, paired.length_eq, halts, ite_eq_right_iff, reduceCtorEq, imp_false, Bool.or_eq_true,
    not_or] at checked ⊢
  refine ⟨checked.1, fun jumping => checked.2 ?_⟩
  simp only [Bool.and_eq_true, List.any_eq_true, Bool.or_eq_true, beq_iff_eq] at jumping ⊢
  obtain ⟨⟨s, member, jump⟩, op, among, moved⟩ := jumping
  refine ⟨⟨s, member, jump⟩, ?_⟩
  -- A jump has no other operand, so this is the one in its slot.
  have slots : entry.slots = [s] := jump_of_own own member jump
  obtain ⟨only, rfl⟩ := List.length_eq_one_iff.mp (lengths.symm.trans (congrArg List.length slots))
  obtain rfl := List.mem_singleton.mp among
  obtain ⟨known, present, settles⟩ := exists_right_of_forall₂ paired among
  have final : op.undefined = false := by
    by_contra waits
    have unseen := hidden (s, op) (by simp [slots])
    rcases jump with jump | jump
    · simp [looksAt, jump, waits, moved] at unseen
    · simp [looksAt, jump, waits, moved] at unseen
  exact ⟨known, present, settles.final final ▸ moved⟩

theorem rejects_of_looksAt {entry : Entry Mode} {ops : List (Operand Mode Reg)}
    {w : Slot Mode × Operand Mode Reg} (member : w ∈ entry.slots.zip ops)
    (seen : looksAt w.1 w.2 = true) :
    check entry ops ≠ none ∨ ∀ d, (machine.encodeOperand entry w.1 w.2 d).2 ≠ none := by
  obtain ⟨slot, op⟩ := w
  obtain ⟨owned, among⟩ := List.of_mem_zip member
  have jumping (jump : slot.mode = .jpIx ∨ slot.mode = .jpIy) (moved : (op.value != 0) = true) :
      check entry ops ≠ none := by
    have jumps : (entry.slots.any fun slot => slot.mode == .jpIx || slot.mode == .jpIy) = true :=
      List.any_eq_true.mpr ⟨slot, owned, by simpa using jump⟩
    have some_ : ops.any (·.value != 0) = true := List.any_eq_true.mpr ⟨op, among, moved⟩
    simp [check, jumps, some_]
  simp only [looksAt, Bool.and_eq_true] at seen
  obtain ⟨-, placed⟩ := seen
  split at placed
  next mode =>
    right
    intro d clean
    have encoded : machine.encodeOperand entry slot op d = encodeCustom entry slot op d := by
      simp only [Machine.encodeOperand, machine, shape, mode]
    rw [encoded, encodeCustom, customField, mode, if_neg (by decide)] at clean
    simp only [Bool.or_eq_true, decide_eq_true_eq] at placed
    split at clean
    next accepted =>
      split at accepted
      all_goals first | omega | simp at accepted
    · simp at clean
  next mode => exact .inl (jumping (.inl mode) placed)
  next mode => exact .inl (jumping (.inr mode) placed)
  · simp at placed

end Z80

/-! ### TMS32010 -/

namespace Tms32010

theorem rejectsHard : machine.RejectsHard where
  register mode op cause rejected := by
    change registerField mode op = .error cause at rejected
    unfold registerField at rejected
    split at rejected
    · simp at rejected
    · simp at rejected
    · exact Except.error.inj rejected ▸ nofun
  custom entry slot op d cause rejected := by
    change (encodeCustom entry slot op d).2 = some cause at rejected
    unfold encodeCustom at rejected
    repeat' split at rejected
    all_goals
      simp only [reduceCtorEq, Option.some.injEq] at rejected
      try exact rejected ▸ nofun

theorem check_of_settles {entry : Entry Mode} {ops knowns : List (Operand Mode Reg)}
    (paired : List.Forall₂ Operand.Settles ops knowns) (checked : check entry knowns = none) :
    check entry ops = none := by
  have indirect : knowns.any (·.mode == .ind) = ops.any (·.mode == .ind) := by
    simpa only [List.any_map, Function.comp_def] using
      congrArg (List.any · (· == .ind)) (map_mode_eq paired)
  rwa [check, indirect, ← check] at checked

theorem rejects_of_exposes {entry : Entry Mode} {slot : Slot Mode} {op : Operand Mode Reg}
    (seen : exposes slot op = true) (d : Draft) : (machine.encodeOperand entry slot op d).2 ≠ none := by
  simp only [exposes, Bool.and_eq_true] at seen
  obtain ⟨-, placed⟩ := seen
  split at placed
  next mode =>
    simp only [Bool.not_eq_true'] at placed
    simp [Machine.encodeOperand, machine, shape, encodeCustom, mode, placed]
  next mode =>
    simp only [Bool.not_eq_true'] at placed
    simp [Machine.encodeOperand, machine, shape, encodeCustom, mode, placed]
  · simp at placed

end Tms32010

/-! ### 6800 family -/

namespace M6800

/-- An instruction with a bit number or a mask takes its address as direct only, and so not before it is
known. -/
def outgrows (entry : Entry Mode) (slot : Slot Mode) (op : Operand Mode Reg) : Bool :=
  1 < entry.slots.length && !accepts slot.mode op.mode

/-- A name that takes an address alone takes it as extended, if not as direct only for now; one that takes
a second operand never does. -/
def reaches (own : List (Page Mode × Entry Mode)) (hit : Page Mode × Entry Mode) : Bool :=
  match hit.2.slots with
  | [] => true
  | [s] => !accepts s.mode .dir || own.any fun other => other.2.name == hit.2.name &&
      other.2.slots.map (accepts ·.mode .ext) == [true]
  | _ => own.all fun other => other.2.name != hit.2.name || other.2.slots.all (!accepts ·.mode .ext)

/-- Only the entries of the same name count. -/
theorem reaches_of_group {group own : List (Page Mode × Entry Mode)} {hit : Page Mode × Entry Mode}
    (within : group ⊆ own) (whole : ∀ other ∈ own, other.2.name = hit.2.name → other ∈ group)
    (reached : reaches group hit = true) : reaches own hit = true := by
  unfold reaches at reached ⊢
  split
  · rfl
  next s slots =>
    simp only [slots, Bool.or_eq_true, List.any_eq_true] at reached ⊢
    exact reached.imp_right fun ⟨other, member, extended⟩ => ⟨other, within member, extended⟩
  next several =>
    split at reached
    next none => exact absurd none (by assumption)
    next s single => exact absurd single (several s)
    · simp only [List.all_eq_true, Bool.or_eq_true, bne_iff_ne] at reached ⊢
      intro other member
      by_cases same : other.2.name = hit.2.name
      · exact reached other (whole other member same)
      · exact .inl same

-- The members of the family share one table, so its names are looked at once.
set_option maxRecDepth 20000 in
theorem groups_reach : ∀ group ∈ parts (byKey Machine.nameKey) table,
    ∀ variant ∈ [Variant.mc6800, .mc6801, .hd6301],
      let own := group.filter fun hit => (machine variant).enabled hit.1
      own.all (reaches own) = true := by decide

theorem table_reaches (variant : Variant) :
    (machine variant).ownEntries.all (reaches (machine variant).ownEntries) = true := by
  rw [List.all_eq_true]
  intro hit own
  obtain ⟨listed, enabled⟩ := (machine variant).mem_ownEntries.mp own
  obtain ⟨group, among, inside, within, whole⟩ := Machine.exists_part_of_name (show hit ∈ table from listed)
  have reached := List.all_eq_true.mp (groups_reach group among variant (by cases variant <;> simp)) hit
    (List.mem_filter.mpr ⟨inside, enabled⟩)
  refine reaches_of_group (fun other member => ?_) (fun other member same => ?_) reached
  · obtain ⟨present, enabled⟩ := List.mem_filter.mp member
    exact (machine variant).mem_ownEntries.mpr ⟨within present, enabled⟩
  · obtain ⟨listed, enabled⟩ := (machine variant).mem_ownEntries.mp member
    exact List.mem_filter.mpr ⟨whole other listed same, enabled⟩

section Reaches

variable {variant : Variant} {hit : Page Mode × Entry Mode}
  (own : hit ∈ (machine variant).ownEntries)

include own

/-- An address that is taken alone is taken before it is known. -/
theorem exists_extended {s : Slot Mode} (slots : hit.2.slots = [s]) (direct : accepts s.mode .dir = true) :
    ∃ other ∈ (machine variant).ownEntries, other.2.name = hit.2.name ∧
      ∃ s', other.2.slots = [s'] ∧ accepts s'.mode .ext = true := by
  have reached := List.all_eq_true.mp (table_reaches variant) hit own
  simp only [reaches, slots, direct, Bool.not_true, Bool.false_or, List.any_eq_true, Bool.and_eq_true,
    beq_iff_eq] at reached
  obtain ⟨other, member, same, extended⟩ := reached
  obtain ⟨s', single, extended'⟩ := List.map_eq_singleton_iff.mp extended
  exact ⟨other, member, same, s', single, extended'⟩

/-- Next to a second operand no address is taken as extended. -/
theorem not_extended (two : 1 < hit.2.slots.length) {other : Page Mode × Entry Mode}
    (member : other ∈ (machine variant).ownEntries) (same : other.2.name = hit.2.name)
    {s : Slot Mode} (slot : s ∈ other.2.slots) : accepts s.mode .ext = false := by
  have reached := List.all_eq_true.mp (table_reaches variant) hit own
  unfold reaches at reached
  split at reached
  next none => simp [none] at two
  next single => simp [single] at two
  · have none := List.all_eq_true.mp reached other member
    simp only [same, bne_self_eq_false, Bool.false_or, List.all_eq_true] at none
    simpa using none s slot

end Reaches

/-- An address by itself that is not known yet has no fault but that. -/
theorem fault_encode_open {variant : Variant} {hit : Page Mode × Entry Mode}
    (own : hit ∈ (machine variant).ownEntries) {s : Slot Mode} (slots : hit.2.slots = [s])
    (extended : accepts s.mode .ext = true) {op : Operand Mode Reg} (waits : op.undefined = true)
    (address : UInt32) : ((machine variant).encode hit.1 hit.2 [op] address).fault = op.fault := by
  obtain ⟨written, -⟩ := slot_of_own own (s := s) (by simp [slots])
  have mode : s.mode = .extended ∨ s.mode = .rel := by
    cases mode : s.mode <;> simp_all [accepts, M6800.written]
  -- A zero stands for the address, and no distance for the one to its target.
  obtain ⟨field, encoded, clean⟩ : ∃ field, (machine variant).encodeOperands hit.2 hit.2.slots [op]
        ((machine variant).draft hit.1 hit.2 address) =
        (((machine variant).draft hit.1 hit.2 address).extend .payload field op.column, none) ∧
      ∀ base, (Extension.laid config base ⟨.payload, field, op.column⟩).2 = none := by
    rcases mode with mode | mode
    · refine ⟨.number 0 2 .big, ?_, fun _ => rfl⟩
      simp [slots, Machine.encodeOperands, Machine.encodeOperand, machine, shape, mode, Width.bytes?,
        Machine.encodeNumber, waits, Draft.emit, Machine.draft, config]
    · refine ⟨.relative op.value 1 true, ?_, fun _ => rfl⟩
      simp [slots, Machine.encodeOperands, Machine.encodeOperand, machine, shape, mode, Width.bytes?,
        waits]
  have silent : (((machine variant).draft hit.1 hit.2 address).extend .payload field op.column).fault? =
      none := by
    apply Draft.fault?_eq_none _ rfl
    intro e member
    obtain rfl := List.mem_singleton.mp member
    exact clean _
  simp [Machine.encode, encoded, silent]

theorem check_eq {ops knowns : List (Operand Mode Reg)} (paired : List.Forall₂ Reads ops knowns)
    (entry : Entry Mode) : check entry knowns = check entry ops := by
  have forced (slots : List (Slot Mode)) : widened slots knowns = widened slots ops := by
    induction paired generalizing slots with
    | nil => rfl
    | cons first _ ih =>
      cases slots with
      | nil => rfl
      | cons slot slots => simp only [widened, first.force, ih]
  rw [check, forced, ← check]

section Line

variable {variant : Variant} {symbols known : Symbols} {line : String} {address : UInt32}
  {page : Page Mode} {entry : Entry Mode} {knowns : List (Operand Mode Reg)}

/-- An address by itself that turns out to be direct is an extended one until then. -/
theorem waits_of_direct {name : String} {op : Operand Mode Reg} {s : Slot Mode}
    (own : (page, entry) ∈ (machine variant).ownEntries) (same : Text.upper name = entry.name)
    (slots : entry.slots = [s]) (direct : accepts s.mode .dir = true)
    (waits : op.undefined = true) (bare : op.force = none) (ext : op.mode = .ext)
    (soft : op.hardFault? = none)
    (reads : ∀ page entry, (machine variant).findByName name [op] = .ok (page, entry) →
      check entry [op] = none → (machine variant).parseLine symbols line address =
        .ok (some (page, entry, [op]))) :
    (machine variant).Waits symbols line address := by
  obtain ⟨other, member, named, s', single, extended⟩ := exists_extended own slots direct
  have admits : (machine variant).admits other.2.slots [op] = true := by
    rw [single, Machine.admits, ext, Machine.admits, Bool.and_true]
    exact extended
  obtain ⟨first, among, found, -, taken, -⟩ := (machine variant).findByName_eq_ok table_ordered member
    (same.trans named.symm) admits
  -- Whichever entry comes first has one slot, and it takes an extended address.
  obtain ⟨taker, more, accepted, rest, shaped⟩ :=
    List.forall₂_cons_right_iff.mp (Machine.forall₂_of_admits taken)
  obtain rfl := List.forall₂_nil_right_iff.mp rest
  have checked : check first.2 [op] = none := by simp [check, shaped, widened, bare]
  have parsed := reads first.1 first.2 found checked
  refine ⟨⟨first.1, first.2, [op], parsed⟩, fun f fault => ?_⟩
  simp only [Machine.assemble, parsed] at fault
  rw [fault_encode_open among shaped (ext ▸ accepted) waits] at fault
  exact Machine.undefined_of_soft soft fault

theorem waits_iff (within : symbols.Within known)
    (parsed : (machine variant).parseLine known line address = .ok (some (page, entry, knowns)))
    (clean : ((machine variant).encode page entry knowns address).fault = none) :
    (machine variant).Waits symbols line address ↔
      ∀ w ∈ entry.slots.zip ((machine variant).operandsOf symbols line address),
        outgrows entry w.1 w.2 = false := by
  obtain ⟨name, found, checked, paired, reads⟩ :=
    Machine.exists_open (resolving variant) (fun _ _ reads => reads.toResolves) within parsed
  obtain ⟨own, same, admits⟩ := Machine.found_of_findByName found
  have accepted := Machine.forall₂_of_admits admits
  have lengths : entry.slots.length = ((machine variant).operandsOf symbols line address).length :=
    accepted.length_eq.trans paired.length_eq.symm
  generalize (machine variant).operandsOf symbols line address = ops at paired reads lengths ⊢
  constructor
  · rintro ⟨⟨page', entry', ops', parsed'⟩, -⟩ ⟨slot, op⟩ member
    obtain ⟨rfl, found', -⟩ := (reads page' entry' ops').mp parsed'
    obtain ⟨own', same', admits'⟩ := Machine.found_of_findByName found'
    by_contra outgrown
    simp only [outgrows, Bool.and_eq_false_iff, decide_eq_false_iff_not, not_or, not_not,
      Bool.not_eq_false', Bool.not_eq_true] at outgrown
    obtain ⟨two, refused⟩ := outgrown
    -- The operand was direct when known, so it is extended now, which no entry of this name takes.
    obtain ⟨known, present, related⟩ := exists_zip_of_forall₂ paired member
    have fits : accepts slot.mode known.mode = true := (List.forall₂_iff_zip.mp accepted).2 present
    rcases related.mode with kept | ⟨-, -, ext, -⟩
    · simp [kept, refused] at fits
    · obtain ⟨taker, among, takes⟩ := exists_left_of_forall₂ (Machine.forall₂_of_admits admits')
        (List.of_mem_zip member).2
      have never := not_extended own two own' (same'.trans same.symm) among
      rw [ext] at takes
      exact absurd (takes.symm.trans never) nofun
  · intro hidden
    by_cases settled : List.Forall₂ Operand.Settles ops knowns
    · rw [Machine.findByName_congr (settled.imp fun _ _ settles => settles.mode)] at found
      have parsed' := (reads page entry ops).mpr ⟨rfl, found, (check_eq paired entry).symm.trans checked⟩
      refine ⟨⟨page, entry, ops, parsed'⟩, fun f fault => ?_⟩
      exact Machine.undefined_of_settles (registerResolves variant) (customResolves variant) rfl rfl parsed'
        settled clean (fun _ _ => Bool.and_false _) fault
    · -- Some mode changes, which none does next to a second operand.
      have few : ¬ 1 < entry.slots.length := by
        refine fun two => settled ((forall₂_mem paired).imp fun op known ⟨member, _, related⟩ =>
          settles_of_forced related fun ext => ?_)
        rw [← List.map_snd_zip lengths.ge] at member
        obtain ⟨⟨slot, op⟩, zipped, rfl⟩ := List.mem_map.mp member
        have never := not_extended own two own rfl (List.of_mem_zip zipped).1
        have unseen := hidden (slot, op) zipped
        simp only at ext
        simp [outgrows, two, ext, never] at unseen
      cases paired with
      | nil => exact absurd .nil settled
      | @cons op known ops knowns related more =>
        obtain ⟨s, slots, accepts_, rest, shaped⟩ := List.forall₂_cons_right_iff.mp accepted
        have none : slots = [] ∧ ops = [] := by
          rw [shaped] at few lengths
          simp only [List.length_cons, Nat.add_right_cancel_iff] at few lengths
          constructor
          · exact List.length_eq_zero_iff.mp (by omega)
          · exact List.length_eq_zero_iff.mp (by omega)
        obtain ⟨rfl, rfl⟩ := none
        rcases related.mode with kept | ⟨waits, bare, ext, dir⟩
        · cases more
          exact absurd (.cons ⟨related.toResolves, kept⟩ .nil) settled
        · exact waits_of_direct own same.symm shaped (dir ▸ accepts_) waits bare ext related.soft
            fun page entry found checked => (reads page entry _).mpr ⟨rfl, found, checked⟩

end Line

end M6800

/-! ### All targets -/

namespace Target

/-- Does the operand keep the line from waiting for its value? -/
def looksAt : (t : Target) → Entry t.Mode → Slot t.Mode → Operand t.Mode t.Reg → Bool
  | mc6800 | mc6801 | hd6301 => M6800.outgrows
  | z80 => fun _ => Z80.looksAt
  | ns32000 => fun _ _ _ => false
  | tms32010 => fun _ => Tms32010.exposes

theorem waits_iff_hidden {t : Target} {symbols known : Symbols} {line : String} {address : UInt32}
    {page : Page t.Mode} {entry : Entry t.Mode} {knowns : List (Operand t.Mode t.Reg)}
    (within : symbols.Within known)
    (parsed : t.machine.parseLine known line address = .ok (some (page, entry, knowns)))
    (clean : (t.machine.encode page entry knowns address).fault = none) :
    t.machine.Waits symbols line address ↔
      ∀ w ∈ entry.slots.zip (t.machine.operandsOf symbols line address),
        t.looksAt entry w.1 w.2 = false := by
  obtain ⟨name, writes⟩ := Machine.writes_of_parseLine parsed
  cases t with
  | mc6800 | mc6801 | hd6301 => exact M6800.waits_iff within parsed clean
  | z80 =>
    constructor
    · intro waits w member
      exact Machine.hidden_of_waits Z80.resolving within parsed Z80.rejectsHard
        (fun _ _ member seen => Z80.rejects_of_looksAt member seen) waits member
    · apply Machine.waits_of_hidden Z80.resolving within parsed Z80.registerResolves Z80.customResolves
        rfl rfl clean (fun _ _ => Z80.exposes_of_looksAt)
      intro ops paired hidden
      exact Z80.check_of_hidden writes.own paired (writes.accepted.length_eq.trans paired.length_eq.symm)
        writes.checked hidden
  | ns32000 =>
    refine ⟨fun _ _ _ => rfl, ?_⟩
    exact Machine.waits_of_hidden Ns32000.resolving within parsed Ns32000.registerResolves
      Ns32000.customResolves rfl (by decide) clean (fun _ _ _ => Bool.and_false _) fun _ _ _ => rfl
  | tms32010 =>
    constructor
    · intro waits w member
      exact Machine.hidden_of_waits Tms32010.resolving within parsed Tms32010.rejectsHard
        (fun _ _ _ seen => .inr (Tms32010.rejects_of_exposes seen)) waits member
    · apply Machine.waits_of_hidden Tms32010.resolving within parsed Tms32010.registerResolves
        Tms32010.customResolves rfl rfl clean fun _ _ hidden => Bool.and_eq_false_iff.mpr (.inr hidden)
      intro ops paired _
      exact Tms32010.check_of_settles paired writes.checked

/-- A line that is a clean instruction under a larger symbol table waits for its symbols, as an
instruction with no fault but that one is undefined, exactly if no operand is judged by a placeholder: an
interrupt mode, a next register or a store shift outside its range, a displacement behind a jump, or an
address that is taken as direct only. -/
theorem assemble_waits_iff (t : Target) (symbols known : Symbols) (line : String) (address : UInt32)
    (within : symbols.Within known) (bytes : (t.assemble known line address).bytes ≠ [])
    (clean : (t.assemble known line address).fault = none) :
    ((t.assemble symbols line address).bytes ≠ [] ∧
      ∀ f, (t.assemble symbols line address).fault = some f → f.cause = .undefinedSymbol) ↔
    ∀ page entry ops, t.machine.parseLine known line address = .ok (some (page, entry, ops)) →
      ∀ w ∈ entry.slots.zip (t.machine.operandsOf symbols line address),
        t.looksAt entry w.1 w.2 = false := by
  obtain ⟨page, entry, knowns, parsed⟩ := Machine.exists_parsed bytes
  have encoded : (t.machine.encode page entry knowns address).fault = none := by
    simpa only [assemble, Machine.assemble, parsed] using clean
  have waits := waits_iff_hidden within parsed encoded
  constructor
  · rintro ⟨filled, soft⟩ page' entry' ops parsed'
    obtain ⟨rfl, rfl, rfl⟩ : page = page' ∧ entry = entry' ∧ knowns = ops := by
      simpa using parsed.symm.trans parsed'
    exact waits.mp ⟨Machine.exists_parsed filled, soft⟩
  · intro hidden
    obtain ⟨⟨page', entry', ops, parsed'⟩, soft⟩ := waits.mpr (hidden page entry knowns parsed)
    obtain ⟨name, writes⟩ := Machine.writes_of_parseLine parsed'
    exact ⟨ne_nil_of_writes writes, soft⟩

/-- An address that turns out to be direct is extended until then, and the line waits for it. -/
theorem assemble_waits_iff_direct :
    let known := Symbols.ofList [("X", 5)]
    (hd6301.assemble known "LDAA X" 0).bytes = [0x96, 5] ∧
      (hd6301.assemble ∅ "LDAA X" 0).bytes = [0xB6, 0, 0] ∧
      ((hd6301.assemble ∅ "LDAA X" 0).bytes ≠ [] ∧
        ∀ f, (hd6301.assemble ∅ "LDAA X" 0).fault = some f → f.cause = .undefinedSymbol) := by
  intro known
  refine ⟨by decide, by decide,
    (assemble_waits_iff hd6301 ∅ known "LDAA X" 0 (Symbols.empty_within known) (by decide)
      (by decide)).mpr ?_⟩
  have hidden : ((hd6301.machine.parseLine known "LDAA X" 0).toOption.join.all fun read =>
      (read.2.1.slots.zip (hd6301.machine.operandsOf ∅ "LDAA X" 0)).all
        fun w => !hd6301.looksAt read.2.1 w.1 w.2) = true := by decide
  intro page entry ops parsed w member
  rw [parsed] at hidden
  simpa using List.all_eq_true.mp hidden w member

/-- An interrupt mode is refused for its placeholder, although the instruction is in order once the
symbol is known. -/
theorem interrupt_mode_judged_by_placeholder :
    let known := Symbols.ofList [("X", 1)]
    Symbols.Within ∅ known ∧ z80.assemble known "IM X-1" 0 = ⟨0, [0xED, 0x46], none⟩ ∧
      z80.assemble ∅ "IM X-1" 0 = ⟨0, [0xED, 0x46], some ⟨.illegalConstant, 3⟩⟩ :=
  ⟨Symbols.empty_within _, by decide, by decide⟩

end Target

end CrossAsm
