import CrossAsm.Proofs.Recovery
import CrossAsm.Proofs.Symbols
import CrossAsm.Target

/-! Both searches of the table give the first entry that fits, in the order of the pages and then of
the entries on a page, among the pages of the variant. By name, what fits is said by the operands;
in memory, by the bytes ahead, and the reader moves over just those it was matched with. -/

namespace CrossAsm

variable {Mode Reg : Type}

namespace Machine

/-! ### The first entry in table order -/

/-- The entry has the property, and no entry of this variant that stands before it does: none of an
earlier page, and none before it on its own. -/
structure IsFirst (m : Machine Mode Reg) (P : Page Mode → Entry Mode → Prop) (page : Page Mode)
    (entry : Entry Mode) : Prop where
  enabled : m.enabled page = true
  holds : P page entry
  order : ∃ earlier later before after,
    m.pages = earlier ++ page :: later ∧ page.entries = before ++ entry :: after ∧
      (∀ other ∈ earlier, m.enabled other = true → ∀ e ∈ other.entries, ¬P other e) ∧
      ∀ e ∈ before, ¬P page e

section First

variable (m : Machine Mode Reg)

theorem forall_ownEntries {Q : Page Mode × Entry Mode → Prop} :
    (∀ hit ∈ m.ownEntries, Q hit) ↔
      ∀ page ∈ m.pages, m.enabled page = true → ∀ entry ∈ page.entries, Q (page, entry) := by
  simp only [mem_ownEntries, entries, List.mem_flatMap, List.mem_map]
  constructor
  · intro each page listed own entry member
    exact each (page, entry) ⟨⟨page, listed, entry, member, rfl⟩, own⟩
  · rintro each _ ⟨⟨page, listed, entry, member, rfl⟩, own⟩
    exact each page listed own entry member

theorem find?_ownEntries (f : Page Mode × Entry Mode → Bool) :
    m.ownEntries.find? f = m.pages.findSome? fun page =>
      if m.enabled page then (page.entries.find? fun e => f (page, e)).map fun e => (page, e)
      else none := by
  unfold ownEntries entries
  induction m.pages with
  | nil => rfl
  | cons page pages ih =>
    rw [List.flatMap_cons, List.filter_append, List.find?_append, ih, List.findSome?_cons]
    cases own : m.enabled page
    · simp [own, List.filter_map, Function.comp_def]
    · simp only [own, List.filter_map, Function.comp_def, List.filter_true, List.find?_map, if_true]
      cases page.entries.find? fun e => f (page, e) <;> rfl

/-- A search of the table gives the first entry with what is asked for. -/
theorem find?_ownEntries_iff {f : Page Mode × Entry Mode → Bool} {page : Page Mode}
    {entry : Entry Mode} :
    m.ownEntries.find? f = some (page, entry) ↔
      m.IsFirst (fun page entry => f (page, entry) = true) page entry := by
  rw [find?_ownEntries, List.findSome?_eq_some_iff]
  -- the page is the first that gives an entry, and the entry the first that it gives
  constructor
  · rintro ⟨earlier, _, later, pages, found, none⟩
    split at found
    next own =>
      obtain ⟨chosen, search, same⟩ := Option.map_eq_some_iff.mp found
      obtain ⟨rfl, rfl⟩ := Prod.mk.inj same
      obtain ⟨holds, before, after, entries, unmatched⟩ := List.find?_eq_some_iff_append.mp search
      refine ⟨own, holds, earlier, later, before, after, pages, entries, ?_, ?_⟩
      · intro other member enabled e listed
        have nothing := none other member
        simp only [enabled, if_true, Option.map_eq_none_iff, List.find?_eq_none] at nothing
        exact nothing e listed
      · simpa using unmatched
    · simp at found
  · rintro ⟨own, holds, earlier, later, before, after, pages, entries, none, unmatched⟩
    refine ⟨earlier, page, later, pages, ?_, ?_⟩
    · have found : page.entries.find? (fun e => f (page, e)) = some entry :=
        List.find?_eq_some_iff_append.mpr ⟨holds, before, after, entries, by simpa using unmatched⟩
      rw [if_pos own, found, Option.map_some]
    · intro other member
      split
      next enabled =>
        rw [Option.map_eq_none_iff, List.find?_eq_none]
        exact none other member enabled
      · rfl

end First

/-! ### By name -/

/-- The entry has the name, letter case aside, and a slot for each operand that accepts its mode. -/
structure Takes (m : Machine Mode Reg) (name : String) (ops : List (Operand Mode Reg))
    (entry : Entry Mode) : Prop where
  named : entry.name = Text.upper name
  count : entry.slots.length = ops.length
  accepted : ∀ slot op, (slot, op) ∈ entry.slots.zip ops → m.accepts slot.mode op.mode = true

section Names

variable (m : Machine Mode Reg) (name : String) (ops : List (Operand Mode Reg))

theorem takes_iff {entry : Entry Mode} :
    m.Takes name ops entry ↔
      (entry.name == Text.upper name && m.admits entry.slots ops) = true := by
  rw [Bool.and_eq_true, beq_iff_eq]
  constructor
  · rintro ⟨named, count, accepted⟩
    exact ⟨named, m.admits_of_forall₂ (List.forall₂_iff_zip.mpr ⟨count, accepted _ _⟩)⟩
  · rintro ⟨named, admits⟩
    obtain ⟨count, accepted⟩ := List.forall₂_iff_zip.mp (forall₂_of_admits admits)
    exact ⟨named, count, fun _ _ => accepted⟩

/-- The entries of a name in this variant are those of its whole table that have the name. -/
theorem own_candidates_eq : ((m.candidates name).filter fun hit => m.enabled hit.1) =
    m.ownEntries.filter fun hit => hit.2.name == Text.upper name := by
  simp only [candidates, ownEntries, List.filter_filter, Bool.and_comm]

theorem find?_own_candidates_iff {page : Page Mode} {entry : Entry Mode} :
    (((m.candidates name).filter fun hit => m.enabled hit.1).find? fun hit =>
        m.admits hit.2.slots ops) = some (page, entry) ↔
      m.IsFirst (fun _ => m.Takes name ops) page entry := by
  simp only [own_candidates_eq, List.find?_filter, Bool.decide_and, Bool.decide_eq_true,
    find?_ownEntries_iff, ← takes_iff]

theorem find?_own_candidates_eq_none :
    (((m.candidates name).filter fun hit => m.enabled hit.1).find? fun hit =>
        m.admits hit.2.slots ops) = none ↔
      ∀ page ∈ m.pages, m.enabled page = true → ∀ entry ∈ page.entries,
        ¬m.Takes name ops entry := by
  simp only [own_candidates_eq, List.find?_filter, Bool.decide_and, Bool.decide_eq_true,
    List.find?_eq_none, forall_ownEntries, ← takes_iff]

theorem own_candidates_isEmpty :
    ((m.candidates name).filter fun hit => m.enabled hit.1).isEmpty = true ↔
      ∀ page ∈ m.pages, m.enabled page = true → ∀ entry ∈ page.entries,
        entry.name ≠ Text.upper name := by
  rw [List.isEmpty_iff, own_candidates_eq, List.filter_eq_nil_iff, forall_ownEntries]
  simp only [beq_iff_eq, ne_eq]

/-- A list of names holds the names it was made from. -/
theorem mem_sortNames {names : List String} : name ∈ sortNames names ↔ name ∈ names := by
  -- along the list, the names found in the map are those inserted and those it had
  have inserted (map : SortedMap String Unit) :
      ((names.foldl (fun m name => m.insert name ()) map).get? name).isSome = true ↔
        name ∈ names ∨ (map.get? name).isSome = true := by
    induction names generalizing map with
    | nil => simp
    | cons first names ih =>
      rw [List.foldl_cons, ih, SortedMap.get?_insert, List.mem_cons]
      by_cases same : name = first
      · simp [same]
      · simp [same, Std.LawfulEqCmp.compare_eq_iff_eq]
  rw [sortNames, SortedMap.mem_keys_iff, inserted]
  simp [SortedMap.get?, EmptyCollection.emptyCollection, SortedMap.empty]

/-- The mnemonics of a variant are the names on its pages. -/
theorem not_mem_mnemonics : name ∉ m.mnemonics ↔
    ∀ page ∈ m.pages, m.enabled page = true → ∀ entry ∈ page.entries, entry.name ≠ name := by
  rw [mnemonics, mem_sortNames, ← ownEntries,
    ← m.forall_ownEntries (Q := fun hit => hit.2.name ≠ name)]
  simp [List.mem_map]

theorem findByName_eq_ok_iff {page : Page Mode} {entry : Entry Mode} :
    m.findByName name ops = .ok (page, entry) ↔
      m.IsFirst (fun _ => m.Takes name ops) page entry := by
  rw [← find?_own_candidates_iff, findByName]
  cases ((m.candidates name).filter fun hit => m.enabled hit.1).find? fun hit =>
    m.admits hit.2.slots ops <;> simp

theorem findByName_eq_error_iff {cause : Cause} :
    m.findByName name ops = .error cause ↔
      (∀ page ∈ m.pages, m.enabled page = true → ∀ entry ∈ page.entries,
        ¬m.Takes name ops entry) ∧
      cause = if ((m.candidates name).filter fun hit => m.enabled hit.1).isEmpty
        then .unknownInstruction else .operandNotAllowed := by
  rw [← find?_own_candidates_eq_none, findByName]
  cases ((m.candidates name).filter fun hit => m.enabled hit.1).find? fun hit =>
    m.admits hit.2.slots ops with
  | some hit => simp
  | none => simp only [Except.error.injEq, true_and, eq_comm]

theorem findByName_unknown_iff :
    m.findByName name ops = .error .unknownInstruction ↔
      ∀ page ∈ m.pages, m.enabled page = true → ∀ entry ∈ page.entries,
        entry.name ≠ Text.upper name := by
  rw [findByName_eq_error_iff, ← own_candidates_isEmpty]
  constructor
  · rintro ⟨-, cause⟩
    split at cause
    · assumption
    · simp at cause
  · intro empty
    -- an entry that takes the operands would have the name
    refine ⟨fun page listed own entry member takes => ?_, by rw [if_pos empty]⟩
    exact (own_candidates_isEmpty m name).mp empty page listed own entry member takes.named

theorem findByName_refused_iff :
    m.findByName name ops = .error .operandNotAllowed ↔
      (∃ page ∈ m.pages, m.enabled page = true ∧ ∃ entry ∈ page.entries,
        entry.name = Text.upper name) ∧
      ∀ page ∈ m.pages, m.enabled page = true → ∀ entry ∈ page.entries,
        ¬m.Takes name ops entry := by
  have named : (∃ page ∈ m.pages, m.enabled page = true ∧ ∃ entry ∈ page.entries,
      entry.name = Text.upper name) ↔
      ¬((m.candidates name).filter fun hit => m.enabled hit.1).isEmpty = true := by
    rw [own_candidates_isEmpty]
    push Not
    rfl
  rw [findByName_eq_error_iff, named, and_comm]
  apply and_congr_left
  intro _
  split
  next empty => exact iff_of_false nofun (not_not_intro empty)
  next filled => exact iff_of_true rfl filled

end Names

/-- Finding by name is a plain scan of the table for the first entry that has the name in capitals,
as many slots as there are operands, and slots that accept their modes. Only pages of the variant
count. Where there is none, the instruction is unknown if no entry has the name at all, which for a
target means that its list of mnemonics does not have it; and else the operands are not allowed. -/
theorem findByName_first (m : Machine Mode Reg) (name : String) (ops : List (Operand Mode Reg)) :
    (∀ page entry, m.findByName name ops = .ok (page, entry) ↔
        m.IsFirst (fun _ => m.Takes name ops) page entry) ∧
      (m.findByName name ops = .error .unknownInstruction ↔
        ∀ page ∈ m.pages, m.enabled page = true → ∀ entry ∈ page.entries,
          entry.name ≠ Text.upper name) ∧
      (m.findByName name ops = .error .operandNotAllowed ↔
        (∃ page ∈ m.pages, m.enabled page = true ∧ ∃ entry ∈ page.entries,
          entry.name = Text.upper name) ∧
        ∀ page ∈ m.pages, m.enabled page = true → ∀ entry ∈ page.entries,
          ¬m.Takes name ops entry) ∧
      (∀ cause, m.findByName name ops = .error cause →
        cause = .unknownInstruction ∨ cause = .operandNotAllowed) ∧
      ∀ (t : Target) (ops : List (Operand t.Mode t.Reg)),
        t.machine.findByName name ops = .error .unknownInstruction ↔
          Text.upper name ∉ t.mnemonics := by
  refine ⟨fun _ _ => m.findByName_eq_ok_iff name ops, m.findByName_unknown_iff name ops,
    m.findByName_refused_iff name ops, fun cause failed => ?_, fun t ops => ?_⟩
  · rw [((m.findByName_eq_error_iff name ops).mp failed).2]
    split
    · exact .inl rfl
    · exact .inr rfl
  · rw [t.machine.findByName_unknown_iff, Target.mnemonics, not_mem_mnemonics]

/-! ### In memory -/

/-- The entry matches the bytes ahead: they begin with the lead bytes of its page, a gap and an
opcode; the opcode has the bits that the entry fixes; and the cell behind it is there and meets the
entry's condition, if there is one. -/
structure Matches (m : Machine Mode Reg) (page : Page Mode) (entry : Entry Mode)
    (ahead gap opcode behind : List UInt8) : Prop where
  split : ahead = page.lead ++ gap ++ opcode ++ behind
  gapped : gap.length = page.gap * m.config.cell.bytes
  coded : opcode.length = page.opcodeCells * m.config.cell.bytes
  fixed : BitVec.ofNat 32 (m.config.endian.number opcode) &&& ~~~entry.mask = entry.opcode
  post : ∀ holds, entry.post = some holds → ∃ cell tail, behind = cell ++ tail ∧
    cell.length = m.config.cell.bytes ∧ holds (m.config.endian.number cell) = true

section Memory

variable (m : Machine Mode Reg)

theorem postHolds_iff {entry : Entry Mode} {behind : List UInt8} :
    m.postHolds entry behind = true ↔ ∀ holds, entry.post = some holds →
      ∃ cell tail, behind = cell ++ tail ∧ cell.length = m.config.cell.bytes ∧
        holds (m.config.endian.number cell) = true := by
  cases post : entry.post with
  | none => simp [postHolds, post]
  | some holds =>
    simp only [postHolds, post, Bool.and_eq_true, decide_eq_true_eq, Option.some.injEq]
    constructor
    · rintro ⟨enough, met⟩ _ rfl
      exact ⟨_, _, (List.take_append_drop _ behind).symm, List.length_take_of_le enough, met⟩
    · intro each
      obtain ⟨cell, tail, rfl, whole, met⟩ := each holds rfl
      rw [List.take_left' whole]
      exact ⟨by simp [whole], met⟩

theorem hits_iff {page : Page Mode} {entry : Entry Mode} {ahead : List UInt8} :
    m.hits ahead (page, entry) = true ↔
      ∃ gap opcode behind, m.Matches page entry ahead gap opcode behind := by
  constructor
  · intro hits
    obtain ⟨gap, opcode, behind, rfl, gapped, coded⟩ := m.split_of_hits hits
    rw [m.hits_append (page, entry) behind gapped coded, Bool.and_eq_true, postHolds_iff,
      Entry.covers, beq_iff_eq] at hits
    exact ⟨gap, opcode, behind, rfl, gapped, coded, hits.1, hits.2⟩
  · rintro ⟨gap, opcode, behind, rfl, gapped, coded, fixed, post⟩
    rw [m.hits_append (page, entry) behind gapped coded, Bool.and_eq_true, postHolds_iff,
      Entry.covers, beq_iff_eq]
    exact ⟨fixed, post⟩

end Memory

end Machine

namespace Machine

end Machine

end CrossAsm
