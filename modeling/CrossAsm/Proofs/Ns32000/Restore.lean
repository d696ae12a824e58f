import CrossAsm.Proofs.Ns32000.Recovery
import CrossAsm.Proofs.Ns32000.Syntax
import CrossAsm.Proofs.Shortest

/-! Operands of decoded NS32000 instructions. The text of each is read as an operand that is laid
down in the bytes it was decoded from, but for displacements, which take their shortest form. -/

namespace CrossAsm.Ns32000

open Text

/-! ### Displacements as they are stored -/

/-- What a displacement is added to: a register, nothing, or the address of the instruction. -/
inductive Kind where
  | plain
  | absolute
  | relative
deriving DecidableEq, Repr

/-- The displacement of an operand of this mode. -/
def kind? : Mode → Option Kind
  | .regRel | .space | .dispAbs => some .plain
  | .abs => some .absolute
  | .pcrel | .disp => some .relative
  | _ => none

/-- A displacement found in an instruction, and how many bytes it takes up there. -/
structure Displacement where
  kind : Kind
  value : Int
  bytes : Nat
deriving DecidableEq, Repr

namespace Displacement

/-- No shorter rung holds the displacement. -/
def IsShortest (x : Displacement) : Prop :=
  ∀ rung ∈ ladder, rung.holds x.value = true → x.bytes ≤ rung.bytes

/-- Absolute addresses are not negative, and targets lie in the address space. -/
def InReach (address : UInt32) (x : Displacement) : Prop :=
  (x.kind = .absolute → 0 ≤ x.value) ∧
    (x.kind = .relative → 0 ≤ address.toNat + x.value ∧ address.toNat + x.value < 0x1000000)

instance (x : Displacement) : Decidable x.IsShortest :=
  inferInstanceAs (Decidable (∀ rung ∈ ladder, rung.holds x.value = true → x.bytes ≤ rung.bytes))

instance (address : UInt32) (x : Displacement) : Decidable (x.InReach address) :=
  inferInstanceAs (Decidable (_ ∧ _))

end Displacement

/-- The displacement that a reading found. -/
def displacementOf? {entry : Entry Mode} (r : Reading machine entry) : Option Displacement :=
  r.operand.bind fun op => (kind? op.mode).map fun kind =>
    { kind, value := r.start.readLadder.1, bytes := r.stop.bytes.length - r.start.bytes.length }

/-- The displacements of the instruction that memory begins with, in the order they are read. -/
def displacements (address : UInt32) (rest : List UInt8) : List Displacement :=
  match machine.findByOpcode rest with
  | none => []
  | some found =>
    let (slots, d) := machine.readIndexes found.entry.slots (machine.decoding found address rest)
    (machine.readings found.entry slots d).filterMap displacementOf?

theorem displacements_eq {rest : List UInt8} {hit : Page Mode × Entry Mode}
    (found : machine.ownEntries.find? (machine.hits rest) = some hit) (address : UInt32) :
    displacements address rest = (machine.course hit rest address).filterMap displacementOf? := by
  have search : machine.findByOpcode rest = some (machine.foundAt hit rest) := by
    rw [Machine.findByOpcode_eq, found, Option.map_some]
  simp only [displacements, search]
  rfl

/-- Bytes that are laid down again: never more of them, and the same ones exactly where the form
they had was the shortest. -/
structure Repacks (old new : List UInt8) (shortest : Prop) : Prop where
  length_le : new.length ≤ old.length
  same : shortest → new = old
  shortest : new.length = old.length → shortest

namespace Repacks

theorem refl {shortest : Prop} (bytes : List UInt8) (holds : shortest) :
    Repacks bytes bytes shortest :=
  ⟨Nat.le_refl _, fun _ => rfl, fun _ => holds⟩

theorem append {old₁ old₂ new₁ new₂ : List UInt8} {first second : Prop}
    (left : Repacks old₁ new₁ first) (right : Repacks old₂ new₂ second) :
    Repacks (old₁ ++ old₂) (new₁ ++ new₂) (first ∧ second) := by
  have lengths := And.intro left.length_le right.length_le
  refine ⟨?_, fun both => by rw [left.same both.1, right.same both.2], fun total => ?_⟩
  · simp only [List.length_append]
    omega
  · simp only [List.length_append] at total
    exact ⟨left.shortest (by omega), right.shortest (by omega)⟩

theorem prepend {old new : List UInt8} {shortest : Prop} (head : List UInt8)
    (repacks : Repacks old new shortest) : Repacks (head ++ old) (head ++ new) shortest := by
  have lengths := repacks.length_le
  refine ⟨?_, fun holds => by rw [repacks.same holds], fun total => repacks.shortest ?_⟩
  · simpa using lengths
  · simpa using total

theorem eq_iff {old new : List UInt8} {shortest : Prop} (repacks : Repacks old new shortest) :
    new = old ↔ shortest :=
  ⟨fun same => repacks.shortest (by rw [same]), repacks.same⟩

end Repacks

/-- A displacement that was read, with its bytes and those it is laid down in again. -/
structure Relaid (d : Decoding) (v : Int) (taken new : List UInt8) : Prop where
  ahead : taken <+: d.rest
  read : d.readLadder = (v, d.past taken.length)
  low : -0x20000000 ≤ v
  high : v < 0x20000000
  repacks : ∀ kind, Repacks taken new (Displacement.IsShortest ⟨kind, v, taken.length⟩)
  laid : ∀ (q : Operand Mode Reg) (relative : Bool) (base : Int), q.force = none →
    q.undefined = false → v = (if relative then q.value - base else q.value) →
      (displacement q relative).laid config base = (new, none)
  back : ∀ (d' : Decoding) (more : List UInt8), d'.config = config → d'.rest = new ++ more →
    d'.readLadder = (v, d'.past new.length)

theorem ladder_ascending : Ladder.ascending config.ladder = true := by decide

theorem ladder_capped : ∀ rung ∈ config.ladder, rung.capped = true := by decide

theorem ladder_range : ∀ rung ∈ config.ladder, -0x20000000 ≤ rung.min ∧ rung.max < 0x20000000 := by
  decide

theorem exists_relaid {d : Decoding} (same : d.config = config)
    (clean : d.readLadder.2.fault = none) : ∃ v taken new, Relaid d v taken new := by
  obtain ⟨rung, member, v, more, holds, ahead, read⟩ := Decoding.exists_rung_of_readLadder
    (same ▸ ladder_readable) (same ▸ ladder_capped) clean
  rw [same] at member
  obtain ⟨s, among, found, inside, shorter⟩ :=
    Ladder.exists_shortest ladder_ascending member holds
  have shaped (r : Rung) (own : r ∈ config.ladder) : r.shaped = true :=
    Rung.shaped_of_formed (Ladder.formed_of_readable ladder_readable own)
  have old := Rung.length_encode (shaped rung member) v
  have new := Rung.length_encode (shaped s among) v
  have range := ladder_range rung member
  have bounds : rung.min ≤ v ∧ v ≤ rung.max := by simpa [Rung.holds] using holds
  refine ⟨v, rung.encode v, s.encode v, ?_⟩
  exact
    { ahead := ⟨more, ahead.symm⟩
      read
      low := by omega
      high := by omega
      repacks := fun kind => by
        refine ⟨?_, fun shortest => ?_, fun lengths => ?_⟩
        · rcases shorter with rfl | shorter <;> omega
        · have least := shortest s among inside
          rcases shorter with rfl | shorter
          · rfl
          · simp only [old] at least
            omega
        · intro other own fits
          obtain ⟨first, -, search, -, least⟩ := Ladder.exists_shortest ladder_ascending own fits
          obtain rfl : s = first := Option.some.inj (found.symm.trans search)
          simp only
          rcases least with rfl | least <;> omega
      laid := fun q relative base unforced known measured => by
        have plain : displacement q relative =
            ⟨.payload, .ladder q.value relative none false, q.column⟩ := by
          rw [displacement, unforced, known]
        rw [plain]
        exact Extension.laid_shortest ladder_ascending ladder_zero measured found .payload q.column
      back := fun d' more same ahead =>
        Decoding.readLadder_encode (same ▸ ladder_readable) (same ▸ among) inside ahead }

/-- Which rung is the shortest does not depend on the kind of displacement. -/
theorem Relaid.repacks_of_kind {d : Decoding} {v : Int} {taken new : List UInt8}
    (relaid : Relaid d v taken new) {mode : Mode} {kind : Kind} (present : kind? mode = some kind) :
    Repacks taken new (∀ kind, kind? mode = some kind →
      Displacement.IsShortest ⟨kind, v, taken.length⟩) where
  length_le := (relaid.repacks kind).length_le
  same shortest := (relaid.repacks kind).same (shortest kind present)
  shortest lengths other _ := (relaid.repacks other).shortest lengths

/-! ### What comes back -/

/-- The operand that a slot gives back for one that is written. -/
def decodedAs (mode : Mode) (q : Operand Mode Reg) : Operand Mode Reg :=
  match mode with
  | .genA => if q.mode = .imm then { q with mode := .pcrel } else q
  | .quick | .disp | .dispAbs => { q with mode }
  | _ => q

theorem decodedAs_column (mode : Mode) (q : Operand Mode Reg) (column : Nat) :
    decodedAs mode { q with column } = { decodedAs mode q with column } := by
  unfold decodedAs
  split
  · split <;> rfl
  all_goals rfl

theorem decodedAs_index (mode : Mode) (q : Operand Mode Reg) (index : Option Reg) (indexSize : Size) :
    decodedAs mode { q with index, indexSize } = { decodedAs mode q with index, indexSize } := by
  unfold decodedAs
  split
  · split <;> rfl
  all_goals rfl

/-- What comes back is the operand as it is decoded, in a column of its own. -/
def ComesBack (slot : Slot Mode) (q back : Operand Mode Reg) : Prop :=
  back = { decodedAs slot.mode q with column := back.column }

theorem formatOperand_column (rendering : Rendering) (op : Operand Mode Reg) (column : Nat) :
    formatOperand rendering { op with column } = formatOperand rendering op := rfl

/-! ### General operands -/

/-- The field of a general operand that is read without a fault. -/
theorem field_of_clean {entry : Entry Mode} {mode : Mode} {gen : Nat} {indexed : Bool} {d : Decoding}
    (clean : (decodeBase entry mode gen indexed d).2.fault = none) :
    gen < 8 ∨ (∃ k < 8, gen = 8 + k) ∨ (gen = genImmediate ∧ indexed = false) ∨
      gen = genAbsolute ∨ gen = genTos ∨ (gen = genSpace + 3 ∧ mode = .genA) ∨
      ∃ k < 4, gen = genSpace + k ∧ ¬(k = 3 ∧ mode = .genA) := by
  unfold decodeBase at clean
  dsimp only at clean
  split at clean
  next small => exact .inl small
  split at clean
  next large small => exact .inr (.inl ⟨gen - 8, by omega, by omega⟩)
  split at clean
  next immediate => exact .inr (.inr (.inl (by simpa using immediate)))
  split at clean
  next absolute => exact .inr (.inr (.inr (.inl absolute)))
  split at clean
  next top => exact .inr (.inr (.inr (.inr (.inl top))))
  split at clean
  next target => exact .inr (.inr (.inr (.inr (.inr (.inl target)))))
  split at clean
  next other space =>
    simp only [genSpace, genScaled] at space other ⊢
    refine .inr (.inr (.inr (.inr (.inr (.inr ⟨gen - 24, by omega, by omega, ?_⟩)))))
    rintro ⟨three, address⟩
    exact other ⟨by omega, address⟩
  · exact absurd clean (Decoding.fail_fault_ne_none _ _)

section Rebuilds

variable (entry : Entry Mode) (mode : Mode) (gen : Nat) (indexed : Bool) (rendering : Rendering)
  (base : Int) (d : Decoding)

/-- The operand `q` is what stands in an instruction for a field, its index aside. It can be
written, and what is laid down for it is read back as it was. -/
structure Rebuilds (n : Nat) (q : Operand Mode Reg) : Prop where
  accepted : accepts mode q.mode = true
  plain : Plain q
  field : genOf mode q = gen
  fits : isImmediate mode q → indexed = false ∧ Width.sized.bytes? entry.size = some n ∧
    (q.undefined || fitsSigned q.value (8 * n) || fitsUnsigned q.value (8 * n)) = true
  clean : ∀ e ∈ tailOf mode n q, e.narrow = true ∧ (e.laid config base).2 = none
  text : ParsesPlain rendering.scope (formatOperand rendering (decodedAs mode q)).toList q
  found : ∃ taken, taken <+: d.rest ∧ decodeBase entry mode gen indexed d =
      (some { decodedAs mode q with column := d.bytes.length }, d.past taken.length) ∧
    Repacks taken (Extension.stageOf config base .payload (tailOf mode n q))
      (∀ kind, kind? (decodedAs mode q).mode = some kind →
        Displacement.IsShortest ⟨kind, d.readLadder.1, taken.length⟩)
  back : ∀ (d' : Decoding) (more : List UInt8), d'.config = config → d'.base = base →
    d'.rest = Extension.stageOf config base .payload (tailOf mode n q) ++ more →
      decodeBase entry mode gen indexed d' =
        (some { decodedAs mode q with column := d'.bytes.length },
          d'.past (Extension.stageOf config base .payload (tailOf mode n q)).length)

/-- Some operand stands for the field, in whatever column it is written. -/
def Rebuilt : Prop :=
  ∃ (n : Nat) (q : Operand Mode Reg), ∀ column,
    Rebuilds entry mode gen indexed rendering base d n { q with column }

variable {entry mode gen indexed rendering base d} {n : Nat} {q : Operand Mode Reg}

/-- An operand that stands in the field alone. -/
theorem rebuilds_of_field (accepted : accepts mode q.mode = true) (plain : Plain q)
    (field : genOf mode q = gen) (other : q.mode ≠ .imm)
    (text : ParsesPlain rendering.scope (formatOperand rendering (decodedAs mode q)).toList q)
    (bare : tailOf mode n q = []) (still : kind? (decodedAs mode q).mode = none)
    (decodes : ∀ d', decodeBase entry mode gen indexed d' =
      (some { decodedAs mode q with column := d'.bytes.length }, d')) :
    Rebuilds entry mode gen indexed rendering base d n q where
  accepted
  plain
  field
  fits immediate := absurd immediate.1 other
  clean := by simp [bare]
  text
  found := by
    refine ⟨[], List.nil_prefix, by simpa using decodes d, ?_⟩
    rw [bare]
    exact .refl [] (by simp [still])
  back d' more _ _ _ := by
    rw [bare]
    simpa using decodes d'

/-- An operand with a displacement. -/
theorem rebuilds_of_relaid {v : Int} {taken new : List UInt8} (relaid : Relaid d v taken new)
    (same : d.config = config) (measured : d.base = base)
    (accepted : accepts mode q.mode = true) (plain : Plain q) (field : genOf mode q = gen)
    (addressed : ¬isImmediate mode q)
    (text : ParsesPlain rendering.scope (formatOperand rendering (decodedAs mode q)).toList q)
    {relative : Bool} (tail : tailOf mode n q = [displacement q relative])
    {kind : Kind} (present : kind? (decodedAs mode q).mode = some kind)
    (unforced : q.force = none) (known : q.undefined = false)
    (value : v = if relative then q.value - base else q.value)
    (decodes : ∀ (d' : Decoding) (k : Nat), d'.config = config → d'.base = base →
      d'.readLadder = (v, d'.past k) → decodeBase entry mode gen indexed d' =
        (some { decodedAs mode q with column := d'.bytes.length }, d'.past k)) :
    Rebuilds entry mode gen indexed rendering base d n q := by
  have laid := relaid.laid q relative base unforced known value
  have stage : Extension.stageOf config base .payload (tailOf mode n q) = new := by
    rw [tail, Extension.stageOf_singleton, laid]
    exact if_pos rfl
  exact
    { accepted
      plain
      field
      fits := fun immediate => absurd immediate addressed
      clean := by
        intro e member
        rw [tail, List.mem_singleton] at member
        subst member
        exact ⟨rfl, by rw [laid]⟩
      text
      found := by
        refine ⟨taken, relaid.ahead, decodes d _ same measured relaid.read, ?_⟩
        rw [stage, relaid.read]
        exact relaid.repacks_of_kind present
      back := fun d' more same measured ahead => by
        rw [stage] at ahead ⊢
        exact decodes d' _ same measured (relaid.back d' more same ahead) }

theorem decodedAs_of_ne (general : isGen mode = true) (other : q.mode ≠ .imm) :
    decodedAs mode q = q := by
  rcases mode_of_isGen general with rfl | rfl | rfl
  · rfl
  · rfl
  · exact if_neg other

theorem general_of_lt : ∀ k < 8, ∃ reg, Ns32000.general[k]? = some reg ∧
    reg.isGeneral = true ∧ reg.number = k := by decide

theorem spaces_of_lt : ∀ k < 4, ∃ reg, spaces[k]? = some reg ∧
    reg.isGeneral = false ∧ reg.number = k := by decide

/-- A target in the address space is what its distance leads to. -/
theorem target_eq {d' : Decoding} {k : Nat} {v : Int} (same : d'.config = config)
    (low : 0 ≤ d'.base + v) (high : d'.base + v < 0x1000000) :
    (d'.past k).target v = d'.base + v := by
  have still : (d'.past k).base = d'.base := by simp [Decoding.base, same, config]
  rw [Decoding.target, still, Decoding.past_config, same]
  exact Int.emod_eq_of_lt low high

section Fields

variable (style : Style) (address : UInt32)

theorem signed_displacement {v : Int} (low : -0x20000000 ≤ v) (high : v < 0x20000000) :
    Signed (machine.rendering ∅ style address).scope
      ((machine.rendering ∅ style address).num v).toList v :=
  signed_num rfl (by omega) (by omega)

/-- A displacement from a register as it is written. -/
theorem parses_displaced {v : Int} (low : -0x20000000 ≤ v) (high : v < 0x20000000) {mode : Mode}
    {reg : Reg} (among : mode = if reg.isGeneral then .regRel else .space) (column : Nat) :
    ParsesPlain (machine.rendering ∅ style address).scope
      (formatOperand (machine.rendering ∅ style address)
        { mode, value := v, reg := some reg, column }).toList
      { mode, value := v, reg := some reg, column } := by
  have parses := parses_based (signed_displacement style address low high)
    ((machine.rendering ∅ style address).names_case (isWord_name reg))
  have text : (formatOperand (machine.rendering ∅ style address)
      { mode, value := v, reg := some reg, column }).toList =
        ((machine.rendering ∅ style address).num v).toList ++
          '(' :: ((machine.rendering ∅ style address).case reg.name).toList ++ [')'] := by
    cases general : reg.isGeneral <;> rw [general] at among <;> subst among <;>
      simp [formatOperand]
  rw [text, among]
  exact parses.moved column

section Bare

variable (general : isGen mode = true)

include general

theorem rebuilt_register (small : gen < 8) (allowed : refuses mode gen = false) :
    Rebuilt entry mode gen indexed (machine.rendering ∅ style address) base d := by
  obtain ⟨reg, found, among, number⟩ := general_of_lt gen small
  have accepted : accepts mode .reg = true := by
    rcases mode_of_isGen general with rfl | rfl | rfl
    · rfl
    · rfl
    · simp [refuses, small] at allowed
  refine ⟨0, { mode := .reg, reg := some reg, column := 0 }, fun column => ?_⟩
  have same : decodedAs mode { mode := .reg, reg := some reg, column } =
      { mode := .reg, reg := some reg, column } := decodedAs_of_ne general (by simp)
  refine rebuilds_of_field (q := { mode := .reg, reg := some reg, column }) accepted
    (plain_of_mode rfl (by simp)) number (by simp) ?_ rfl ?_ fun d' => ?_
  · rw [same]
    exact (parses_register among (Rendering.names_case _ (isWord_name reg))).moved column
  · rw [same]
    rfl
  · rw [same, decodeBase_reg small, found]

theorem rebuilt_top : Rebuilt entry mode genTos indexed (machine.rendering ∅ style address) base d := by
  have accepted : accepts mode .tos = true := by
    rcases mode_of_isGen general with rfl | rfl | rfl <;> rfl
  refine ⟨0, { mode := .tos, column := 0 }, fun column => ?_⟩
  have same : decodedAs mode { mode := .tos, column } = { mode := .tos, column } :=
    decodedAs_of_ne general nofun
  refine rebuilds_of_field (q := { mode := .tos, column }) accepted (plain_of_mode rfl nofun) rfl
    nofun ?_ rfl ?_ fun d' => ?_
  · rw [same]
    exact (parses_top (Rendering.names_case _ (by decide))).moved column
  · rw [same]
    rfl
  · rw [same, decodeBase_tos]

end Bare

section Displaced

variable (general : isGen mode = true) (same : d.config = config) (measured : d.base = base)
  (clean : d.readLadder.2.fault = none)

include general same measured clean

theorem rebuilt_regRel {k : Nat} (small : k < 8) :
    Rebuilt entry mode (8 + k) indexed (machine.rendering ∅ style address) base d := by
  obtain ⟨v, taken, new, relaid⟩ := exists_relaid same clean
  obtain ⟨reg, found, among, number⟩ := general_of_lt k small
  have accepted : accepts mode .regRel = true := by
    rcases mode_of_isGen general with rfl | rfl | rfl <;> rfl
  refine ⟨0, { mode := .regRel, value := v, reg := some reg, column := 0 }, fun column => ?_⟩
  have kept : decodedAs mode { mode := .regRel, value := v, reg := some reg, column } =
      { mode := .regRel, value := v, reg := some reg, column } := decodedAs_of_ne general nofun
  refine rebuilds_of_relaid (q := { mode := .regRel, value := v, reg := some reg, column }) relaid
    same measured accepted (plain_of_mode rfl nofun) (congrArg (8 + ·) number)
    (fun immediate => nomatch immediate.1) ?_ rfl (by rw [kept]; rfl) rfl rfl rfl
    fun d' k' _ _ reads => ?_
  · rw [kept]
    exact parses_displaced style address relaid.low relaid.high (by rw [among]; rfl) column
  · rw [kept, decodeBase_regRel small, decodeDisp, reads, found]

theorem rebuilt_space {k : Nat} (small : k < 4) (other : ¬(k = 3 ∧ mode = .genA)) :
    Rebuilt entry mode (genSpace + k) indexed (machine.rendering ∅ style address) base d := by
  obtain ⟨v, taken, new, relaid⟩ := exists_relaid same clean
  obtain ⟨reg, found, among, number⟩ := spaces_of_lt k small
  have accepted : accepts mode .space = true := by
    rcases mode_of_isGen general with rfl | rfl | rfl <;> rfl
  refine ⟨0, { mode := .space, value := v, reg := some reg, column := 0 }, fun column => ?_⟩
  have kept : decodedAs mode { mode := .space, value := v, reg := some reg, column } =
      { mode := .space, value := v, reg := some reg, column } := decodedAs_of_ne general nofun
  refine rebuilds_of_relaid (q := { mode := .space, value := v, reg := some reg, column }) relaid
    same measured accepted ⟨rfl, fun _ => show reg.number < 4 by omega⟩ (congrArg (genSpace + ·) number)
    (fun immediate => nomatch immediate.1) ?_ rfl (by rw [kept]; rfl) rfl rfl rfl
    fun d' k' _ _ reads => ?_
  · rw [kept]
    exact parses_displaced style address relaid.low relaid.high (by rw [among]; rfl) column
  · rw [kept, decodeBase_space small other, decodeDisp, reads, found]

theorem rebuilt_absolute (above : 0 ≤ d.readLadder.1) :
    Rebuilt entry mode genAbsolute indexed (machine.rendering ∅ style address) base d := by
  obtain ⟨v, taken, new, relaid⟩ := exists_relaid same clean
  rw [relaid.read] at above
  have high := relaid.high
  have accepted : accepts mode .abs = true := by
    rcases mode_of_isGen general with rfl | rfl | rfl <;> rfl
  refine ⟨0, { mode := .abs, value := v, column := 0 }, fun column => ?_⟩
  have kept : decodedAs mode { mode := .abs, value := v, column } =
      { mode := .abs, value := v, column } := decodedAs_of_ne general nofun
  refine rebuilds_of_relaid (q := { mode := .abs, value := v, column }) relaid same measured
    accepted (plain_of_mode rfl nofun) rfl (fun immediate => nomatch immediate.1) ?_ rfl
    (by rw [kept]; rfl) rfl rfl rfl fun d' k' _ _ reads => ?_
  · rw [kept]
    have place := (machine.rendering ∅ style address).denotes_place rfl above (by simp only; omega)
    have parses := (parses_absolute (signed_of_denotes rfl place)).moved column
    simpa [formatOperand] using parses
  · rw [kept, decodeBase_absolute, decodeDisp, reads]

omit general in
theorem rebuilt_target (above : 0 ≤ base + d.readLadder.1)
    (below : base + d.readLadder.1 < 0x1000000) :
    Rebuilt entry .genA (genSpace + 3) indexed (machine.rendering ∅ style address) base d := by
  obtain ⟨v, taken, new, relaid⟩ := exists_relaid same clean
  rw [relaid.read] at above below
  refine ⟨0, { mode := .imm, value := base + v, column := 0 }, fun column => ?_⟩
  refine rebuilds_of_relaid (q := { mode := .imm, value := base + v, column }) relaid same measured
    rfl (plain_of_mode rfl nofun) rfl (fun immediate => immediate.2 rfl) ?_
    (show _ = [displacement _ true] from rfl) rfl rfl rfl (by simp)
    fun d' k' same measured reads => ?_
  · have place := (machine.rendering ∅ style address).denotes_target rfl above
      (by simp only at below ⊢; omega)
    exact (parses_number (signed_of_denotes rfl place)).moved column
  · rw [← measured] at above below ⊢
    rw [decodeBase_pcrel, reads, target_eq same above below]
    rfl

end Displaced

theorem rebuilt_immediate {n : Nat} (sized : Width.sized.bytes? entry.size = some n)
    (clean : (d.readIn .big n).2.fault = none) :
    Rebuilt entry .gen genImmediate false (machine.rendering ∅ style address) base d := by
  have enough := Decoding.enough_of_readIn clean
  have short := Machine.Width.bytes?_le sized
  have read := d.readIn_eq .big enough short
  have count := List.length_take_of_le enough
  have back := @Endian.put_number .big (d.rest.take n) (by omega)
  have bound := Endian.big.number_lt (d.rest.take n)
  rw [count] at back bound
  have word : twoPow (8 * n) ≤ 0x100000000 := twoPow_le (n := 32) (by omega)
  have signed : Signed (machine.rendering ∅ style address).scope
      ((machine.rendering ∅ style address).num (Endian.big.number (d.rest.take n))).toList
      (Endian.big.number (d.rest.take n)) := signed_num rfl (by omega) (by omega)
  refine ⟨n, { mode := .imm, value := Endian.big.number (d.rest.take n), column := 0 },
    fun column => ?_⟩
  have tail : Extension.stageOf config base .payload (tailOf .gen n
      { mode := .imm, value := Endian.big.number (d.rest.take n), column }) = d.rest.take n := by
    simp only [tailOf, reduceCtorEq, if_false, Extension.stageOf_singleton, if_true,
      Extension.laid_number, back]
  exact
    { accepted := rfl
      plain := plain_of_mode rfl (by simp)
      field := rfl
      fits := fun _ => by
        refine ⟨rfl, sized, ?_⟩
        have inside : fitsUnsigned (Endian.big.number (d.rest.take n) : Int) (8 * n) = true := by
          rw [fitsUnsigned_iff (by omega)]
          omega
        simp [inside]
      clean := by
        intro e member
        rw [List.mem_singleton.mp member]
        exact ⟨by simpa [Extension.narrow] using short, rfl⟩
      text := (parses_number signed).moved column
      found := by
        refine ⟨d.rest.take n, List.take_prefix _ _, ?_, ?_⟩
        · rw [decodeBase_immediate sized, read, count]
          rfl
        · rw [tail]
          exact .refl _ fun kind => by simp [kind?, decodedAs]
      back := fun d' more _ _ ahead => by
        rw [tail] at ahead ⊢
        rw [decodeBase_immediate sized, d'.readIn_eq .big (by rw [ahead, List.length_append]; omega)
          short, ahead, List.take_left' count, count]
        rfl }

/-- A general operand that is read without a fault can be written. -/
theorem rebuilt_of_clean (general : isGen mode = true) (sized : mode = .gen →
      ∃ n, Width.sized.bytes? entry.size = some n) (same : d.config = config)
    (measured : d.base = base) (allowed : refuses mode gen = false)
    (clean : (decodeBase entry mode gen indexed d).2.fault = none)
    (reach : ∀ op kind, (decodeBase entry mode gen indexed d).1 = some op →
      kind? op.mode = some kind → (kind = .absolute → 0 ≤ d.readLadder.1) ∧
        (kind = .relative → 0 ≤ base + d.readLadder.1 ∧ base + d.readLadder.1 < 0x1000000)) :
    Rebuilt entry mode gen indexed (machine.rendering ∅ style address) base d := by
  rcases field_of_clean clean with small | ⟨k, small, rfl⟩ | ⟨rfl, rfl⟩ | rfl | rfl | ⟨rfl, rfl⟩ |
    ⟨k, small, rfl, other⟩
  · exact rebuilt_register style address general small allowed
  · rw [decodeBase_regRel small] at clean
    exact rebuilt_regRel style address general same measured clean small
  · obtain rfl : mode = .gen := by
      rcases mode_of_isGen general with rfl | rfl | rfl
      · rfl
      · simp [refuses] at allowed
      · simp [refuses] at allowed
    obtain ⟨n, sized⟩ := sized rfl
    rw [decodeBase_immediate sized] at clean
    exact rebuilt_immediate style address sized clean
  · rw [decodeBase_absolute] at clean reach
    exact rebuilt_absolute style address general same measured clean ((reach _ _ rfl rfl).1 rfl)
  · exact rebuilt_top style address general
  · rw [decodeBase_pcrel] at clean reach
    obtain ⟨above, below⟩ := (reach _ _ rfl rfl).2 rfl
    exact rebuilt_target style address same measured clean above below
  · rw [decodeBase_space small other] at clean
    exact rebuilt_space style address general same measured clean small other

end Fields

end Rebuilds

/-! ### Indexes -/

/-- The operand with an index, if there is one. -/
def indexing (q : Operand Mode Reg) : Option (Reg × Size) → Operand Mode Reg
  | none => q
  | some (index, indexSize) => { q with index := some index, indexSize }

section Indexing

variable (mode : Mode) (q : Operand Mode Reg) (scaled : Option (Reg × Size))

theorem decodedAs_indexing : decodedAs mode (indexing q scaled) = indexing (decodedAs mode q) scaled := by
  cases scaled with
  | none => rfl
  | some scaled => exact decodedAs_index mode q _ _

theorem indexing_column (column : Nat) :
    indexing { q with column } scaled = { indexing q scaled with column } := by
  cases scaled <;> rfl

theorem genOf_indexing : genOf mode (indexing q scaled) = genOf mode q := by cases scaled <;> rfl

theorem tailOf_indexing (n : Nat) : tailOf mode n (indexing q scaled) = tailOf mode n q := by
  cases scaled <;> rfl

theorem mode_indexing : (indexing q scaled).mode = q.mode := by cases scaled <;> rfl

end Indexing

/-- The index is a general register with a size that can be written. -/
def IsScale (scaled : Option (Reg × Size)) : Prop :=
  ∀ index size, scaled = some (index, size) → index.isGeneral = true ∧
    ∃ code, scaleCode? size = some code

theorem scaleCode?_scaleOf (field : Nat) : ∃ code, scaleCode? (scaleOf field) = some code := by
  unfold scaleOf
  split <;> exact ⟨_, rfl⟩

theorem scaleOf_inj : ∀ a < 32, ∀ b < 32, genScaled ≤ a → genScaled ≤ b → scaleOf a = scaleOf b →
    a = b := by decide

theorem general_number : ∀ reg : Reg, reg.isGeneral = true → general[reg.number]? = some reg := by
  intro reg
  cases reg <;> decide

theorem formed_indexing {q : Operand Mode Reg} {scaled : Option (Reg × Size)} (plain : Plain q)
    (proper : IsScale scaled) : Formed (indexing q scaled) := by
  refine ⟨fun space => ?_, fun index found => ?_⟩
  · rw [mode_indexing] at space
    have small := plain.space space
    cases scaled <;> exact small
  · cases scaled with
    | none => exact absurd found (by simp [indexing, plain.unindexed])
    | some scaled =>
      obtain rfl : scaled.1 = index := by simpa [indexing] using found
      exact (proper scaled.1 scaled.2 rfl).2

/-- The text of an operand with its index. -/
theorem parses_indexing {rendering : Rendering} {op q : Operand Mode Reg}
    {scaled : Option (Reg × Size)} (bare : op.index = none)
    (text : ParsesPlain rendering.scope (formatOperand rendering op).toList q)
    (proper : IsScale scaled) : machine.ParsesAs rendering.scope
      (formatOperand rendering (indexing op scaled)).toList (indexing q scaled) := by
  cases scaled with
  | none => exact text.parses
  | some scaled =>
    obtain ⟨index, size⟩ := scaled
    obtain ⟨general, code, known⟩ := proper index size rfl
    have parses := text.parses_scaled general (rendering.names_case (isWord_name index)) known
      (rendering.names_case (isWord_scaleLetter size))
    have suffix : (formatOperand rendering (indexing op (some (index, size)))).toList =
        (formatOperand rendering op).toList ++
          '[' :: (rendering.case index.name).toList ++
          ':' :: (rendering.case (scaleLetter size)).toList ++ [']'] := by
      simp only [formatOperand, indexing, bare]
      simp
    rw [suffix]
    exact parses

theorem decodedAs_unindexed (mode : Mode) {q : Operand Mode Reg} (unindexed : q.index = none) :
    (decodedAs mode q).index = none := by
  unfold decodedAs
  split
  · split <;> exact unindexed
  all_goals exact unindexed

section Indexed

variable {entry : Entry Mode} {slot : Slot Mode} {gen n : Nat} {rendering : Rendering} {base : Int}
  {d : Decoding} {q : Operand Mode Reg} {scaled : Option (Reg × Size)}
  (rebuilds : Rebuilds entry slot.mode gen scaled.isSome rendering base d n q)
  (proper : IsScale scaled)

include rebuilds proper

variable (general : isGen slot.mode = true) (wide : slot.width = 5)
  (allowed : refuses slot.mode gen = false)

include general wide allowed

/-- An operand with its index comes back as it was. -/
theorem returns_indexing (room : Nat) : machine.Returns base ComesBack entry slot (indexing q scaled)
    room (pieceOf gen (tailOf slot.mode n q) (indexing q scaled)) none := by
  have formed := formed_indexing rebuilds.plain proper
  have accepted : accepts slot.mode (indexing q scaled).mode = true := by
    rw [mode_indexing]
    exact rebuilds.accepted
  have behind := behind_tailOf q slot.mode n
  have small : gen < genScaled := by
    have small := genOf_lt formed slot.mode
    rwa [genOf_indexing, rebuilds.field] at small
  have indexed : (indexing q scaled).index.isSome = scaled.isSome := by
    cases scaled with
    | none => simp [indexing, rebuilds.plain.unindexed]
    | some scaled => rfl
  have fits : isImmediate slot.mode (indexing q scaled) → (indexing q scaled).index = none ∧
      Width.sized.bytes? entry.size = some n ∧ ((indexing q scaled).undefined ||
        fitsSigned (indexing q scaled).value (8 * n) ||
        fitsUnsigned (indexing q scaled).value (8 * n)) = true := by
    intro immediate
    rw [isImmediate, mode_indexing] at immediate
    obtain ⟨unindexed, sized, small⟩ := rebuilds.fits immediate
    obtain rfl : scaled = none := by simpa using unindexed
    exact ⟨rebuilds.plain.unindexed, sized, small⟩
  have lays := lays_general accepted general formed fits room
  rw [genOf_indexing, tailOf_indexing, rebuilds.field] at lays
  apply returns_pieceOf behind lays general wide small allowed formed
  intro d' more same ahead
  -- That something comes back does not depend on where displacements are measured from.
  obtain ⟨back, found⟩ := exists_decodeBase rebuilds.accepted general rebuilds.plain.formed
    scaled.isSome (fun immediate => ⟨(rebuilds.fits immediate).1, (rebuilds.fits immediate).2.1⟩)
    same ahead
  rw [rebuilds.field] at found
  refine ⟨back, by rw [indexed]; exact found, fun measured => ?_⟩
  have exactly := rebuilds.back d' more same measured ahead
  rw [found] at exactly
  obtain rfl : back = _ := Option.some.inj (congrArg Prod.fst exactly)
  rw [ComesBack, decodedAs_indexing]
  cases scaled with
  | none => simp [indexedAs, indexing, rebuilds.plain.unindexed]
  | some scaled =>
    have number := general_number scaled.1 (proper scaled.1 scaled.2 rfl).1
    simp [indexedAs, indexing, number]

end Indexed

end CrossAsm.Ns32000
