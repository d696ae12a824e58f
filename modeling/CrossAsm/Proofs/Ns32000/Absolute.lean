import CrossAsm.Proofs.Ns32000.Faithful
import CrossAsm.Proofs.Ns32000.RoundTrip

/-! Absolute addresses of the NS32000. Their displacements are signed, but they are shown without a
sign, in 32 bits. Assembled again, one that is not negative is as it was. A negative one is too large
for every rung of the ladder: it is refused, and nothing but zero is laid down for it. -/

namespace CrossAsm.Ns32000

/-- Some rung of the ladder holds the number. -/
def isHeld (v : Int) : Bool := ladder.any (·.holds v)

theorem isHeld_iff {v : Int} : isHeld v = true ↔ -0x1F000000 ≤ v ∧ v < 0x20000000 := by
  simp only [isHeld, ladder, Rung.holds, List.any_cons, List.any_nil, Bool.or_false, Bool.or_eq_true,
    decide_eq_true_eq]
  omega

/-- Why a displacement that was found in an instruction is refused, once it was shown and read again.
A target is shown where it lies in the address space, and measured from the instruction. -/
def Displacement.refusal? (address : UInt32) (x : Displacement) : Option Cause :=
  match x.kind with
  | .plain => none
  | .absolute => if x.value < 0 then some .overflowRange else none
  | .relative =>
    if isHeld ((address.toNat + x.value) % 2 ^ 24 - address.toNat) then none else some .operandTooFar

/-- The displacements of the absolute addresses of the instruction that memory begins with. -/
def absolutes (address : UInt32) (rest : List UInt8) : List Int :=
  (displacements address rest).filterMap fun x => if x.kind = .absolute then some x.value else none

/-! ### Displacements that are laid down again -/

/-- What is laid down for a number: itself if some rung holds it. -/
def stored (v : Int) : Int := if isHeld v then v else 0

section Laid

variable {q : Operand Mode Reg} (unforced : q.force = none) (known : q.undefined = false)
  (relative : Bool) (base : Int)

include unforced known

theorem laid_displacement : ∃ rung ∈ config.ladder,
    let v := if relative then q.value - base else q.value
    rung.holds (stored v) = true ∧ (displacement q relative).laid config base =
      (rung.encode (stored v),
        if isHeld v then none else some (if relative then .operandTooFar else .overflowRange)) := by
  have plain : displacement q relative =
      ⟨.payload, .ladder q.value relative none false, q.column⟩ := by
    rw [displacement, unforced, known]
  rw [plain]
  generalize measured : (if relative then q.value - base else q.value) = v
  by_cases held : isHeld v = true
  · obtain ⟨rung, member, holds⟩ := List.any_eq_true.mp held
    obtain ⟨first, among, found, own, -⟩ := Ladder.exists_shortest ladder_ascending member holds
    refine ⟨first, among, ?_⟩
    simp only [stored, held, if_true]
    exact ⟨own, Extension.laid_shortest ladder_ascending ladder_zero measured.symm found .payload
      q.column⟩
  · obtain ⟨rung, member, laid⟩ := @Extension.exists_laid_eq config ladder_full base q.value v relative
      false measured .payload none q.column
    have free : ¬rung.holds v = true := fun holds => held (List.any_eq_true.mpr ⟨rung, member, holds⟩)
    refine ⟨rung, member, ?_⟩
    simp only [stored, if_neg held]
    rw [if_neg free] at laid
    exact ⟨ladder_zero rung member, laid⟩

theorem readLadder_displacement {d : Decoding} {more : List UInt8} (same : d.config = config)
    (ahead : d.rest = ((displacement q relative).laid config base).1 ++ more) :
    d.readLadder = (stored (if relative then q.value - base else q.value),
      d.past ((displacement q relative).laid config base).1.length) := by
  obtain ⟨rung, member, holds, laid⟩ := laid_displacement unforced known relative base
  rw [laid] at ahead ⊢
  exact Decoding.readLadder_encode (same ▸ ladder_readable) (same ▸ member) holds ahead

theorem faultOf_displacement :
    (Extension.faultOf config base [displacement q relative]).map (·.cause) =
      if isHeld (if relative then q.value - base else q.value) then none
      else some (if relative then .operandTooFar else .overflowRange) := by
  obtain ⟨rung, -, -, laid⟩ := laid_displacement unforced known relative base
  simp only [Extension.faultOf, List.findSome?_singleton, laid]
  generalize (if relative then q.value - base else q.value) = v
  cases isHeld v <;> rfl

end Laid

/-! ### Displacements that were read -/

/-- The displacement of an operand that is an absolute address. -/
def absolute? (op : Operand Mode Reg) : Option Int := if op.mode = .abs then some op.value else none

section Reading

variable {entry : Entry Mode}

/-- What has a displacement is read from the ladder. -/
theorem value_of_decodeBase {mode : Mode} {gen : Nat} {indexed : Bool} {d : Decoding}
    (clean : (decodeBase entry mode gen indexed d).2.fault = none) {op : Operand Mode Reg}
    (read : (decodeBase entry mode gen indexed d).1 = some op) {kind : Kind}
    (present : kind? op.mode = some kind) :
    (decodeBase entry mode gen indexed d).2 = d.readLadder.2 ∧ op.value =
      if kind = .relative then d.readLadder.2.target d.readLadder.1 else d.readLadder.1 := by
  rcases field_of_clean clean with small | ⟨k, small, rfl⟩ | ⟨rfl, rfl⟩ | rfl | rfl | ⟨rfl, rfl⟩ |
    ⟨k, small, rfl, other⟩
  · rw [decodeBase_reg small] at read
    obtain rfl := Option.some.inj read
    cases present
  · rw [decodeBase_regRel small] at read ⊢
    obtain rfl := Option.some.inj read
    cases present
    exact ⟨rfl, rfl⟩
  · cases sized : Width.sized.bytes? entry.size with
    | none => simp [decodeBase, genImmediate, sized] at read
    | some n =>
      rw [decodeBase_immediate sized] at read
      obtain rfl := Option.some.inj read
      cases present
  · rw [decodeBase_absolute] at read ⊢
    obtain rfl := Option.some.inj read
    cases present
    exact ⟨rfl, rfl⟩
  · rw [decodeBase_tos] at read
    obtain rfl := Option.some.inj read
    cases present
  · rw [decodeBase_pcrel] at read ⊢
    obtain rfl := Option.some.inj read
    cases present
    exact ⟨rfl, rfl⟩
  · rw [decodeBase_space small other] at read ⊢
    obtain rfl := Option.some.inj read
    cases present
    exact ⟨rfl, rfl⟩

variable {r : Reading machine entry} (category : isCategory r.slot.mode = true)

include category

/-- Displacements stand in general operands, or by themselves. -/
theorem slot_of_kind {op : Operand Mode Reg} (read : r.operand = some op) {kind : Kind}
    (present : kind? op.mode = some kind) : isGen r.slot.mode = true ∨
      r.slot.mode = .disp ∧ kind = .relative ∨ r.slot.mode = .dispAbs ∧ kind = .plain := by
  simp only [isCategory, Bool.or_eq_true, beq_iff_eq] at category
  rcases category with ((((general | quick) | disp) | constant) | list) | list
  · exact .inl general
  · have decoded : machine.decodeOperand entry r.slot r.index r.start = _ :=
      Machine.decodeOperand_embedded r.index (show machine.shape r.slot.mode = .embedded true by
        rw [quick]; rfl)
    rw [Reading.operand, decoded] at read
    obtain rfl := Option.some.inj read
    simp [quick, kind?] at present
  · have shape : machine.shape r.slot.mode = .ladder true := by rw [disp]; rfl
    simp only [Reading.operand, Machine.decodeOperand, shape, Option.some.injEq] at read
    subst read
    exact .inr (.inl ⟨disp, by simpa [disp, kind?] using present.symm⟩)
  · have shape : machine.shape r.slot.mode = .ladder false := by rw [constant]; rfl
    simp only [Reading.operand, Machine.decodeOperand, shape, Option.some.injEq] at read
    subst read
    exact .inr (.inr ⟨constant, by simpa [constant, kind?] using present.symm⟩)
  all_goals
    simp only [Reading.operand, Machine.decodeOperand, list, machine, shape, decodeCustom,
      Option.some.injEq] at read
    subst read
    cases present

variable (clean : r.stop.fault = none)

include clean

theorem value_of_kind {op : Operand Mode Reg} (read : r.operand = some op) {kind : Kind}
    (present : kind? op.mode = some kind) :
    r.stop = r.start.readLadder.2 ∧ op.value = if kind = .relative
      then r.start.readLadder.2.target r.start.readLadder.1 else r.start.readLadder.1 := by
  rcases slot_of_kind category read present with general | ⟨mode, rfl⟩ | ⟨mode, rfl⟩
  · obtain ⟨gen, scaled, -, -, -, -, decoded, silent⟩ := exists_base general clean
    rw [Reading.operand, decoded] at read
    rw [Reading.stop, decoded]
    obtain ⟨back, found, rfl⟩ := Option.map_eq_some_iff.mp read
    rw [mode_indexing] at present
    obtain ⟨stop, value⟩ := value_of_decodeBase silent found present
    refine ⟨stop, Eq.trans ?_ value⟩
    cases scaled <;> rfl
  · have shape : machine.shape r.slot.mode = .ladder true := by rw [mode]; rfl
    simp only [Reading.operand, Reading.stop, Machine.decodeOperand, shape, Option.some.injEq]
      at read ⊢
    subst read
    exact ⟨trivial, rfl⟩
  · have shape : machine.shape r.slot.mode = .ladder false := by rw [mode]; rfl
    simp only [Reading.operand, Reading.stop, Machine.decodeOperand, shape, Option.some.injEq]
      at read ⊢
    subst read
    exact ⟨trivial, rfl⟩

theorem isHeld_of_displacement (same : r.start.config = config) {x : Displacement}
    (stands : displacementOf? r = some x) : isHeld x.value = true := by
  simp only [displacementOf?, Option.bind_eq_some_iff, Option.map_eq_some_iff] at stands
  obtain ⟨op, read, kind, present, rfl⟩ := stands
  obtain ⟨stop, -⟩ := value_of_kind category clean read present
  rw [stop] at clean
  obtain ⟨rung, member, v, more, holds, -, found⟩ := Decoding.exists_rung_of_readLadder
    (same ▸ ladder_readable) (same ▸ ladder_capped) clean
  rw [found]
  rw [same] at member
  exact List.any_eq_true.mpr ⟨rung, member, holds⟩

theorem absolute_of_displacement : ((displacementOf? r).bind fun x =>
    if x.kind = .absolute then some x.value else none) = r.operand.bind absolute? := by
  cases read : r.operand with
  | none => simp [displacementOf?, read]
  | some op =>
    by_cases mode : op.mode = .abs
    · have present : kind? op.mode = some .absolute := by rw [mode]; rfl
      obtain ⟨-, value⟩ := value_of_kind category clean read present
      simp only [displacementOf?, read, Option.bind_some, present, Option.map_some, if_true, absolute?,
        if_pos mode, value]
      rfl
    · have other : kind? op.mode ≠ some .absolute := by
        cases form : op.mode <;> simp_all [kind?]
      cases present : kind? op.mode with
      | none => simp [displacementOf?, read, present, absolute?, mode]
      | some kind =>
        have apart : kind ≠ .absolute := fun same => other (by rw [present, same])
        simp [displacementOf?, read, present, absolute?, mode, apart]

end Reading

/-- The absolute addresses of an instruction are among the operands that it is decoded to. -/
theorem absolutes_eq {rest : List UInt8} {hit : Page Mode × Entry Mode}
    (found : machine.ownEntries.find? (machine.hits rest) = some hit) {address : UInt32}
    (clean : (machine.finish hit rest address).fault = none) : absolutes address rest =
      (machine.course hit rest address).filterMap fun r => r.operand.bind absolute? := by
  rw [absolutes, displacements_eq found, List.filterMap_filterMap]
  apply List.filterMap_congr
  intro r member
  obtain ⟨present, -, -, -, stop⟩ := mem_course member
  have proper := proper_of_own (List.mem_of_find?_eq_some found) present
  exact absolute_of_displacement proper.category (stop.fault clean)

/-! ### Operands that are written and read again -/

/-- An absolute address comes back as what is laid down for it, and nothing else comes back as one. -/
def Keeps (_ : Slot Mode) (q back : Operand Mode Reg) : Prop :=
  absolute? back = (absolute? q).map stored

/-- The operand that a reading found is written as `q`. What is laid down for `q` is refused where
the displacement is, and gives an absolute address back unless it is negative. -/
structure Recasts {entry : Entry Mode} (rendering : Rendering) (address : UInt32)
    (r : Reading machine entry) (q : Operand Mode Reg) : Prop where
  accepted : accepts r.slot.mode q.mode = true
  text : ∃ op, r.operand = some op ∧
    machine.ParsesAs rendering.scope (formatOperand rendering op).toList q
  kept : (absolute? q).map stored = (r.operand.bind absolute?).map (max · 0)
  pieces : ∀ column room, ∃ piece,
    machine.Returns address.toNat Keeps entry r.slot { q with column } room piece none ∧
      (∀ e ∈ piece.extensions, e.narrow = true) ∧
      (Extension.faultOf config address.toNat piece.extensions).map (·.cause) =
        (displacementOf? r).bind (·.refusal? address)

theorem absolute?_decodedAs {mode : Mode} {q : Operand Mode Reg}
    (accepted : accepts mode q.mode = true) : absolute? (decodedAs mode q) = absolute? q := by
  cases mode with
  | genA =>
    by_cases immediate : q.mode = .imm <;> simp [decodedAs, absolute?, immediate]
  | quick | disp | dispAbs =>
    have immediate : q.mode = .imm := by simpa [accepts] using accepted
    simp [decodedAs, absolute?, immediate]
  | _ => rfl

theorem absolute?_indexing (q : Operand Mode Reg) (scaled : Option (Reg × Size)) :
    absolute? (indexing q scaled) = absolute? q := by
  cases scaled <;> rfl

theorem absolute?_indexedAs (q back : Operand Mode Reg) :
    absolute? (indexedAs q back) = absolute? back := by
  unfold indexedAs
  split <;> rfl

theorem narrow_pieceOf {gen : Nat} {tail : List Extension} {op : Operand Mode Reg}
    (narrow : ∀ e ∈ tail, e.narrow = true) :
    ∀ e ∈ (pieceOf gen tail op).extensions, e.narrow = true := by
  intro e member
  unfold pieceOf at member
  split at member
  · rcases List.mem_append.mp member with own | last
    · exact narrow e own
    · rw [List.mem_singleton.mp last]
      rfl
  · exact narrow e member

/-- The byte of an index is never refused. -/
theorem faultOf_pieceOf (gen : Nat) (tail : List Extension) (op : Operand Mode Reg) (base : Int) :
    Extension.faultOf config base (pieceOf gen tail op).extensions =
      Extension.faultOf config base tail := by
  unfold pieceOf
  split
  · simp [Extension.faultOf, List.findSome?_append, Extension.laid_number]
  · rfl

theorem Displacement.refusal?_of_inReach {address : UInt32} {x : Displacement}
    (held : isHeld x.value = true) (reach : x.InReach address) : x.refusal? address = none := by
  cases kind : x.kind with
  | plain => simp [refusal?, kind]
  | absolute =>
    have above := reach.1 kind
    simp only [refusal?, kind]
    exact if_neg (by omega)
  | relative =>
    obtain ⟨low, high⟩ := reach.2 kind
    have whole : (address.toNat + x.value) % 2 ^ 24 - address.toNat = x.value := by omega
    simp only [refusal?, kind, whole, held, if_true]

/-- A target as it is shown: in the address space, wherever it was measured to lie. -/
theorem parses_target (style : Style) (address : UInt32) (place : Int) :
    let rendering := machine.rendering ∅ style address
    ParsesPlain rendering.scope (rendering.target (place % 2 ^ 24)).toList
      { mode := .imm, value := place % 2 ^ 24, column := 0 } := by
  intro rendering
  have low : 0 ≤ place % 2 ^ 24 := Int.emod_nonneg _ (by decide)
  have high : place % 2 ^ 24 < 2 ^ 24 := Int.emod_lt_of_pos _ (by decide)
  exact parses_number (signed_of_denotes rfl (rendering.denotes_target rfl low (by omega)))

section Recasts

variable {entry : Entry Mode} {r : Reading machine entry} {style : Style} {address : UInt32}
  (category : isCategory r.slot.mode = true) (same : r.start.config = config)
  (clean : r.stop.fault = none)

include category same clean

/-- What is in reach takes its place again. -/
theorem recasts_of_renews {rendering : Rendering} {q : Operand Mode Reg}
    (reach : ∀ x, displacementOf? r = some x → x.InReach address)
    (renews : Renews rendering address.toNat r q) : Recasts rendering address r q := by
  have back := absolute?_decodedAs renews.accepted
  have read : r.operand.bind absolute? = absolute? q := by
    rw [renews.operand, Option.bind_some, ← back]
    rfl
  -- An absolute address in reach is held by the ladder and not negative, so it stays as it is.
  have found (v : Int) (absolute : absolute? q = some v) : stored v = v ∧ max v 0 = v := by
    have value := absolute_of_displacement category clean
    rw [read, absolute] at value
    obtain ⟨x, stands, chosen⟩ := Option.bind_eq_some_iff.mp value
    obtain ⟨kind, rfl⟩ : x.kind = .absolute ∧ x.value = v := by simpa using chosen
    have held := isHeld_of_displacement category clean same stands
    have above := (reach x stands).1 kind
    exact ⟨if_pos held, max_eq_left above⟩
  have whole : (absolute? q).map stored = absolute? q := by
    cases absolute : absolute? q with
    | none => rfl
    | some v => rw [Option.map_some, (found v absolute).1]
  exact
    { accepted := renews.accepted
      text := ⟨_, renews.operand, renews.parses⟩
      kept := by
        rw [whole, read]
        cases absolute : absolute? q with
        | none => rfl
        | some v => rw [Option.map_some, (found v absolute).2]
      pieces := fun column room => by
        obtain ⟨piece, returns, retakes⟩ := renews.pieces column room
        refine ⟨piece, returns.imp fun again comes => ?_, fun e member => (retakes.clean e member).1, ?_⟩
        · rw [show again = _ from comes, Keeps, decodedAs_column]
          exact (absolute?_decodedAs renews.accepted).trans whole.symm
        · rw [Extension.faultOf_eq_none fun e member => (retakes.clean e member).2]
          cases stands : displacementOf? r with
          | none => rfl
          | some x =>
            have held := isHeld_of_displacement category clean same stands
            exact (Displacement.refusal?_of_inReach held (reach x stands)).symm }

omit category in
/-- The target of a branch is shown in the address space, and measured from the instruction. -/
theorem exists_recasts_branch (mode : r.slot.mode = .disp) (measured : r.start.base = address.toNat) :
    ∃ q, Recasts (machine.rendering ∅ style address) address r q := by
  have shape : machine.shape r.slot.mode = .ladder true := by rw [mode]; rfl
  have decoded (d : Decoding) (index : Option UInt8) : machine.decodeOperand entry r.slot index d =
      (some { mode := .disp, value := d.readLadder.2.target d.readLadder.1, column := d.bytes.length },
        d.readLadder.2) := by
    simp only [Machine.decodeOperand, shape, if_true]
    rw [mode]
  rw [Reading.stop, decoded] at clean
  obtain ⟨v, taken, new, relaid⟩ := exists_relaid same clean
  let target : Int := (address.toNat + v) % 2 ^ 24
  have read : r.operand = some { mode := .disp, value := target, column := r.start.bytes.length } := by
    rw [Reading.operand, decoded, relaid.read, target_of_base same measured]
  refine ⟨{ mode := .imm, value := target, column := 0 }, ?_⟩
  exact
    { accepted := by rw [mode]; rfl
      text := ⟨_, read, (parses_target style address _).parses⟩
      kept := by rw [read]; rfl
      pieces := fun column room => by
        let q : Operand Mode Reg := { mode := .imm, value := target, column }
        refine ⟨{ extensions := [displacement q true] }, returns_behind (fun d _ _ => ?_) ?_ ?_ _ ?_,
          ?_, ?_⟩
        · simp only [Machine.encodeOperand, shape, d.extend_eq_lay r.slot]
          rfl
        · intro e member
          rw [List.mem_singleton.mp member]
          rfl
        · rw [mode]
          rfl
        · intro d more same _ ahead
          have alone : Piece.bytes { extensions := [displacement q true] } config address.toNat
              .payload = ((displacement q true).laid config address.toNat).1 :=
            (Extension.stageOf_singleton ..).trans (if_pos rfl)
          rw [alone] at ahead ⊢
          rw [decoded, readLadder_displacement rfl rfl true address.toNat same ahead]
          exact ⟨_, rfl, fun _ => rfl⟩
        · intro e member
          rw [List.mem_singleton.mp member]
          rfl
        · rw [faultOf_displacement rfl rfl true address.toNat]
          simp only [displacementOf?, read, Option.bind_some, kind?, Option.map_some,
            Displacement.refusal?, relaid.read]
          rfl }

omit category same clean in
/-- A general operand whose displacement is laid down again, or refused. -/
theorem recasts_displaced (general : isGen r.slot.mode = true) (wide : r.slot.width = 5)
    {rendering : Rendering} {op q : Operand Mode Reg} {scaled : Option (Reg × Size)}
    (proper : IsScale scaled) (read : r.operand = some (indexing op scaled)) (bare : op.index = none)
    (text : ParsesPlain rendering.scope (formatOperand rendering op).toList q)
    (accepted : accepts r.slot.mode q.mode = true) (plain : Plain q)
    (addressed : ¬isImmediate r.slot.mode q) (unforced : q.force = none)
    (known : q.undefined = false) {relative : Bool}
    (tail : ∀ column, tailOf r.slot.mode 0 { q with column } = [displacement { q with column } relative])
    (kept : (absolute? q).map stored = (absolute? op).map (max · 0))
    (finds : ∀ (d : Decoding) (k : Nat) (indexed : Bool), d.readLadder =
        (stored (if relative then q.value - address.toNat else q.value), d.past k) →
      ∃ back, decodeBase entry r.slot.mode (genOf r.slot.mode q) indexed d = (some back, d.past k) ∧
        absolute? back = (absolute? q).map stored)
    (refused : (displacementOf? r).bind (·.refusal? address) =
      if isHeld (if relative then q.value - address.toNat else q.value) then none
      else some (if relative then .operandTooFar else .overflowRange)) :
    Recasts rendering address r (indexing q scaled) where
  accepted := by rwa [mode_indexing]
  text := ⟨_, read, parses_indexing bare text proper⟩
  kept := by rw [read, Option.bind_some, absolute?_indexing, absolute?_indexing, kept]
  pieces column room := by
    let q' : Operand Mode Reg := { q with column }
    have formed : Formed (indexing q' scaled) := formed_indexing ⟨plain.unindexed, plain.space⟩ proper
    have taken : accepts r.slot.mode (indexing q' scaled).mode = true := by rwa [mode_indexing]
    have lays := @lays_general entry r.slot (indexing q' scaled) taken general formed 0
      (fun immediate => by
        rw [isImmediate, mode_indexing] at immediate
        exact absurd immediate addressed) room
    have alone : Extension.stageOf config address.toNat .payload
        (tailOf r.slot.mode 0 (indexing q' scaled)) =
          ((displacement q' relative).laid config address.toNat).1 := by
      rw [tailOf_indexing, tail, Extension.stageOf_singleton]
      exact if_pos rfl
    rw [← indexing_column]
    refine ⟨_, returns_pieceOf (behind_tailOf (indexing q' scaled) r.slot.mode 0) lays general wide
      (genOf_lt formed r.slot.mode) (refuses_genOf taken general) formed fun d more same ahead => ?_,
      narrow_pieceOf fun e member => ?_, ?_⟩
    · -- What is read for the field does not depend on the index.
      rw [alone] at ahead ⊢
      obtain ⟨back, found, absolute⟩ := finds d _ (indexing q' scaled).index.isSome
        (readLadder_displacement unforced known relative address.toNat same ahead)
      refine ⟨back, by rw [genOf_indexing]; exact found, fun _ => ?_⟩
      rw [Keeps, absolute?_indexedAs, absolute?_indexing]
      exact absolute
    · rw [tailOf_indexing, tail, List.mem_singleton] at member
      rw [member]
      rfl
    · rw [faultOf_pieceOf, tailOf_indexing, tail, refused]
      exact @faultOf_displacement q' unforced known relative address.toNat

omit category in
/-- A negative absolute address is shown as a number that no rung holds. -/
theorem exists_recasts_negative (general : isGen r.slot.mode = true) (wide : r.slot.width = 5)
    {scaled : Option (Reg × Size)} (proper : IsScale scaled)
    (decoded : machine.decodeOperand entry r.slot r.index r.start =
      (some (indexing { mode := .abs, value := r.start.readLadder.1, column := r.start.bytes.length }
        scaled), r.start.readLadder.2)) (below : r.start.readLadder.1 < 0) :
    ∃ q, Recasts (machine.rendering ∅ style address) address r q := by
  let rendering := machine.rendering ∅ style address
  have read : r.operand = _ := congrArg Prod.fst decoded
  rw [Reading.stop, decoded] at clean
  obtain ⟨v, taken, new, relaid⟩ := exists_relaid same clean
  have low := relaid.low
  rw [relaid.read] at below read
  -- In 32 bits the number is above all that the ladder holds.
  let shown : Int := v + 0x100000000
  have free : isHeld shown = false := by
    rw [Bool.eq_false_iff, Ne, isHeld_iff]
    simp only [shown] at below ⊢
    omega
  have word : UInt32.ofInt v = UInt32.ofInt shown := by simp [UInt32.ofInt, shown]
  have place := rendering.denotes_place (v := shown) rfl (by omega) (by omega)
  have text : ParsesPlain rendering.scope
      (formatOperand rendering { mode := .abs, value := v, column := r.start.bytes.length }).toList
      { mode := .abs, value := shown, column := 0 } := by
    have parses := parses_absolute (signed_of_denotes rfl place)
    rw [← word] at parses
    simpa [formatOperand] using parses
  refine ⟨_, recasts_displaced general wide proper read rfl text ?_ (plain_of_mode rfl (by simp))
    (fun immediate => by cases immediate.1) rfl rfl
    (fun _ => show _ = [displacement _ false] from rfl) ?_ ?_ ?_⟩
  · rcases mode_of_isGen general with mode | mode | mode <;> rw [mode] <;> rfl
  · simp only [absolute?, if_true, Option.map_some, stored, free, Bool.false_eq_true, if_false]
    rw [max_eq_right (by omega)]
  · intro d k indexed reads
    refine ⟨{ mode := .abs, value := stored shown, column := d.bytes.length }, ?_, rfl⟩
    exact decodeBase_absolute.trans (by rw [decodeDisp, reads]; rfl)
  · simp only [displacementOf?, read, Option.bind_some, mode_indexing, kind?, Option.map_some,
      relaid.read, Displacement.refusal?, if_pos below, Bool.false_eq_true, if_false, free]

omit category in
/-- The target of a general operand is shown in the address space, too. -/
theorem exists_recasts_target (mode : r.slot.mode = .genA) (wide : r.slot.width = 5)
    (measured : r.start.base = address.toNat) {scaled : Option (Reg × Size)} (proper : IsScale scaled)
    (decoded : machine.decodeOperand entry r.slot r.index r.start =
      (some (indexing
        { mode := .pcrel
          value := r.start.readLadder.2.target r.start.readLadder.1
          column := r.start.bytes.length } scaled), r.start.readLadder.2)) :
    ∃ q, Recasts (machine.rendering ∅ style address) address r q := by
  have read : r.operand = _ := congrArg Prod.fst decoded
  rw [Reading.stop, decoded] at clean
  obtain ⟨v, taken, new, relaid⟩ := exists_relaid same clean
  let target : Int := (address.toNat + v) % 2 ^ 24
  rw [relaid.read, target_of_base same measured] at read
  refine ⟨_, recasts_displaced (by rw [mode]; rfl) wide proper read rfl
    (parses_target style address (address.toNat + v)) (by rw [mode]; rfl)
    (plain_of_mode rfl (by simp)) (fun immediate => immediate.2 mode) rfl rfl
    (fun _ => show _ = [displacement _ true] by rw [mode]; rfl) rfl ?_ ?_⟩
  · intro d k indexed reads
    refine ⟨{ mode := .pcrel, value := (d.past k).target (stored (target - address.toNat)),
              column := d.bytes.length }, ?_, rfl⟩
    rw [mode]
    exact decodeBase_pcrel.trans (by rw [reads]; rfl)
  · simp only [displacementOf?, read, Option.bind_some, mode_indexing, kind?, Option.map_some,
      relaid.read, Displacement.refusal?, if_true]

omit category in
/-- A general operand that is not in reach is a negative absolute address or a target. -/
theorem exists_recasts_general (general : isGen r.slot.mode = true) (wide : r.slot.width = 5)
    (measured : r.start.base = address.toNat) {op : Operand Mode Reg} (read : r.operand = some op)
    {kind : Kind} (present : kind? op.mode = some kind) (special : kind ≠ .plain)
    (negative : kind = .absolute → r.start.readLadder.1 < 0) :
    ∃ q, Recasts (machine.rendering ∅ style address) address r q := by
  obtain ⟨gen, scaled, -, -, proper, -, decoded, silent⟩ := exists_base general clean
  rw [Reading.operand, decoded] at read
  obtain ⟨back, found, rfl⟩ := Option.map_eq_some_iff.mp read
  rw [mode_indexing] at present
  rcases field_of_clean silent with small | ⟨k, small, rfl⟩ | ⟨rfl, unindexed⟩ | rfl | rfl |
    ⟨rfl, target⟩ | ⟨k, small, rfl, other⟩
  · rw [decodeBase_reg small] at found
    obtain rfl := Option.some.inj found
    cases present
  · rw [decodeBase_regRel small] at found
    obtain rfl := Option.some.inj found
    cases present
    exact absurd rfl special
  · rw [unindexed] at found
    cases sized : Width.sized.bytes? entry.size with
    | none => simp [decodeBase, genImmediate, sized] at found
    | some n =>
      rw [decodeBase_immediate sized] at found
      obtain rfl := Option.some.inj found
      cases present
  · rw [decodeBase_absolute] at found decoded
    obtain rfl := Option.some.inj found
    cases present
    exact exists_recasts_negative same clean general wide proper decoded (negative rfl)
  · rw [decodeBase_tos] at found
    obtain rfl := Option.some.inj found
    cases present
  · rw [target, decodeBase_pcrel] at decoded
    exact exists_recasts_target same clean target wide measured proper decoded
  · rw [decodeBase_space small other] at found
    obtain rfl := Option.some.inj found
    cases present
    exact absurd rfl special

/-- What is not in reach can be read again nonetheless. -/
theorem exists_recasts_far (proper : Proper entry r.slot) (measured : r.start.base = address.toNat)
    {x : Displacement} (stands : displacementOf? r = some x) (far : ¬x.InReach address) :
    ∃ q, Recasts (machine.rendering ∅ style address) address r q := by
  simp only [displacementOf?, Option.bind_eq_some_iff, Option.map_eq_some_iff] at stands
  obtain ⟨op, read, kind, present, rfl⟩ := stands
  -- A displacement from a register is in reach of everything.
  have special : kind ≠ .plain := by
    rintro rfl
    exact far ⟨by rintro ⟨⟩, by rintro ⟨⟩⟩
  have negative : kind = .absolute → r.start.readLadder.1 < 0 := by
    rintro rfl
    by_contra above
    exact far ⟨fun _ => by simpa using above, by rintro ⟨⟩⟩
  rcases slot_of_kind category read present with general | ⟨mode, -⟩ | ⟨-, plain⟩
  · exact exists_recasts_general same clean general (proper.general general) measured read present
      special negative
  · exact exists_recasts_branch same clean mode measured
  · exact absurd plain special

end Recasts

/-- Whatever an operand was decoded from, its text is read again. -/
theorem exists_recasts {hit : Page Mode × Entry Mode} (own : hit ∈ machine.ownEntries)
    {rest : List UInt8} {address : UInt32}
    (clean : (machine.finish hit rest address).fault = none) (style : Style)
    {r : Reading machine hit.2} (member : r ∈ machine.course hit rest address) :
    ∃ q, Recasts (machine.rendering ∅ style address) address r q := by
  obtain ⟨present, -, same, measured, stop⟩ := mem_course member
  have proper := proper_of_own own present
  have silent := stop.fault clean
  by_cases reach : ∀ x, displacementOf? r = some x → x.InReach address
  · obtain ⟨q, renews⟩ := exists_renews_of_reach own clean style member reach
    exact ⟨q, recasts_of_renews proper.category same silent reach renews⟩
  · simp only [not_forall] at reach
    obtain ⟨x, stands, far⟩ := reach
    exact exists_recasts_far proper.category same silent proper measured stands far

/-! ### Whole instructions -/

section Whole

variable {entry : Entry Mode} {rendering : Rendering} {address : UInt32}
  {rs : List (Reading machine entry)} {qs : List (Operand Mode Reg)}

/-- The first operand that is refused is that of the first displacement that is. -/
theorem exists_pieces_recast (recasts : List.Forall₂ (Recasts rendering address) rs qs)
    {read : List (Operand Mode Reg)} (moved : List.Forall₂ Operand.Moved qs read) (room : Nat) :
    ∃ pieces, Pieces (machine.Returns address.toNat Keeps entry) (rs.map (·.slot)) read room pieces
        none ∧
      (∀ p ∈ pieces, ∀ e ∈ p.2.extensions, e.narrow = true) ∧
      (Extension.faultOf config address.toNat (pieces.flatMap (·.2.extensions))).map (·.cause) =
        (rs.filterMap displacementOf?).findSome? (·.refusal? address) := by
  induction recasts generalizing read room with
  | nil =>
    cases moved
    exact ⟨[], .nil room, by simp, rfl⟩
  | @cons r q rs qs first others ih =>
    cases moved with
    | @cons _ q' _ read same moved =>
      obtain ⟨piece, returns, narrow, fault⟩ := first.pieces q'.column room
      obtain ⟨pieces, more, rest, later⟩ := ih moved (room - piece.gaps)
      rw [show { q with column := q'.column } = q' from same.symm] at returns
      refine ⟨(r.slot, piece) :: pieces, .cons_clean returns more, ?_, ?_⟩
      · intro p member
        rcases List.mem_cons.mp member with rfl | behind
        · exact narrow
        · exact rest p behind
      · -- A fault of the first operand comes before all others.
        have split : Extension.faultOf config address.toNat
            (piece.extensions ++ pieces.flatMap (·.2.extensions)) =
              (Extension.faultOf config address.toNat piece.extensions).or
                (Extension.faultOf config address.toNat (pieces.flatMap (·.2.extensions))) :=
          List.findSome?_append
        rw [List.flatMap_cons, split, Option.map_or, fault, later]
        cases stands : displacementOf? r with
        | none => simp [stands]
        | some x =>
          simp only [Option.bind_some, List.filterMap_cons, stands, List.findSome?_cons]
          cases x.refusal? address <;> rfl

theorem absolutes_of_kept (kept : List.Forall₂ (fun r q => (absolute? q).map stored =
      (r.operand.bind absolute?).map (max · 0)) rs qs) :
    qs.filterMap (fun q => (absolute? q).map stored) =
      (rs.filterMap fun r => r.operand.bind absolute?).map (max · 0) := by
  induction kept with
  | nil => rfl
  | @cons r q rs qs first _ ih =>
    rw [List.filterMap_cons, List.filterMap_cons, first, ih]
    cases r.operand.bind absolute? <;> rfl

theorem absolutes_of_keeps {slots : List (Slot Mode)}
    (back : List.Forall₂ (fun (written : Slot Mode × Operand Mode Reg) r => ∃ back,
      r.operand = some back ∧ Keeps written.1 written.2 back) (slots.zip qs) rs)
    (long : slots.length = qs.length) :
    rs.filterMap (fun r => r.operand.bind absolute?) =
      qs.filterMap fun q => (absolute? q).map stored := by
  induction qs generalizing slots rs with
  | nil =>
    rw [List.zip_nil_right] at back
    cases back
    rfl
  | cons q qs ih =>
    cases slots with
    | nil => cases long
    | cons slot slots =>
      cases back with
      | @cons _ r _ rs first others =>
        obtain ⟨back, found, keeps⟩ := first
        rw [List.filterMap_cons, List.filterMap_cons, found, Option.bind_some,
          show absolute? back = _ from keeps, ih others (Nat.succ.inj long)]

end Whole

/-- What is laid down is decoded in full, with the absolute addresses that were written. -/
theorem decode_recast {hit : Page Mode × Entry Mode} (own : hit ∈ machine.ownEntries)
    {address : UInt32} {read : List (Operand Mode Reg)} {pieces : List (Slot Mode × Piece)}
    (returns : Pieces (machine.Returns address.toNat Keeps hit.2) hit.2.slots read hit.1.gap pieces
      none) (long : hit.2.slots.length = read.length) (style : Style) (suffix : List UInt8) :
    let bytes := machine.layout hit.1 hit.2 pieces address.toNat
    let memory : Memory := ⟨address, bytes ++ suffix, .byte⟩
    let again := (machine.decode ∅ style memory.reader).1
    again.fault = none ∧ again.bytes = bytes ∧
      absolutes address (bytes ++ suffix) = read.filterMap fun q => (absolute? q).map stored := by
  intro bytes memory again
  obtain ⟨-, gapless, plain⟩ := page_of_own own
  obtain ⟨hits, clean, whole, back⟩ := Machine.finish_of_returns returns suffix
    (entryFits_of_own own) gapless plain customFollows address
  have found : machine.ownEntries.find? (machine.hits (bytes ++ suffix)) = some hit :=
    find?_of_hits own hits
  have place : memory.reader.address = address := Memory.address_reader memory
  have decoded : again = _ := congrArg Prod.fst (@Machine.decode_eq _ _ _ ∅ style memory.reader _ found)
  rw [place] at decoded
  refine ⟨by rw [decoded]; exact clean, by rw [decoded]; exact whole, ?_⟩
  rw [absolutes_eq found clean]
  exact absolutes_of_keeps (back rfl rfl) long

/-- What becomes of an instruction once its text is assembled: it is refused where the first of its
displacements is, and its absolute addresses are as they were, but for the negative ones. -/
structure Restored (style : Style) (r : Reader) (out : Assembled) : Prop where
  fault : out.fault.map (·.cause) =
    (displacements r.address r.rest).findSome? (·.refusal? r.address)
  again : ∀ suffix, let memory : Memory := ⟨r.address, out.bytes ++ suffix, .byte⟩
    let again := (machine.decode ∅ style memory.reader).1
    again.fault = none ∧ again.bytes = out.bytes ∧
      absolutes r.address (out.bytes ++ suffix) = (absolutes r.address r.rest).map (max · 0)

theorem assemble_restored (style : Style) {r : Reader} {hit : Page Mode × Entry Mode}
    (found : machine.ownEntries.find? (machine.hits r.rest) = some hit)
    (clean : (machine.finish hit r.rest r.address).fault = none) :
    Restored style r (machine.assemble ∅ (machine.decode ∅ style r).1.text r.address) := by
  have own := List.mem_of_find?_eq_some found
  have slots := machine.slots_course hit r.rest r.address
  obtain ⟨qs, recasts⟩ := exists_forall₂ fun s member => exists_recasts own clean style member
  refine Machine.assemble_text_induction ∅ style found (name_of_own own)
    (Machine.parses_of_reads (recasts.imp fun _ _ recast => recast.text)) ?_
  intro read moved silent name same
  -- Neither the form of an operand nor its number depends on the column it is read in.
  have taken := Operand.forall₂_moved (fun _ _ _ accepted => accepted)
    (recasts.imp fun _ _ recast => recast.accepted) moved
  have kept := Operand.forall₂_moved (fun _ _ _ kept => kept)
    (recasts.imp fun _ _ recast => recast.kept) moved
  have accepted : List.Forall₂ (fun slot op => machine.accepts slot.mode op.mode = true)
      hit.2.slots read := by
    rw [← slots]
    exact List.forall₂_map_left_iff.mpr taken
  obtain ⟨pieces, returns, narrow, fault⟩ := exists_pieces_recast recasts moved hit.1.gap
  rw [slots] at returns
  have encoded : machine.encode hit.1 hit.2 read r.address =
      ⟨r.address, machine.layout hit.1 hit.2 pieces r.address.toNat,
        Extension.faultOf config r.address.toNat (pieces.flatMap (·.2.extensions))⟩ :=
    Machine.encode_eq_of_fixed rfl (Machine.opcodeLength_le_of_entryFits (entryFits_of_own own))
      (returns.imp fun _ _ _ _ _ related => related.lays) narrow rfl silent
  refine ⟨hit, findByName_own own same accepted, rfl, ?_⟩
  rw [encoded]
  refine ⟨?_, fun suffix => ?_⟩
  · rw [displacements_eq found]
    exact fault
  · rw [absolutes_eq found clean, ← absolutes_of_kept kept]
    exact decode_recast own returns accepted.length_eq style suffix

end CrossAsm.Ns32000

namespace CrossAsm.Target

/-- The NS32000 assembles the text of what it decodes unless one of its displacements is refused. An
absolute address is refused if it is negative, and a target if it is too far away from where it lies
in the address space. Absolute addresses that are not negative come back as they were, and the others
as zero. -/
theorem ns32000_restores_absolutes (style : Style) (r : Reader)
    (clean : (ns32000.decode ∅ style r).1.fault = none) :
    let out := ns32000.assemble ∅ (ns32000.decode ∅ style r).1.text r.address
    out.fault.map (·.cause) =
        (Ns32000.displacements r.address r.rest).findSome? (·.refusal? r.address) ∧
      ∀ suffix, let memory : Memory := ⟨r.address, out.bytes ++ suffix, .byte⟩
        let again := (ns32000.decode ∅ style memory.reader).1
        again.fault = none ∧ again.bytes = out.bytes ∧
          Ns32000.absolutes r.address (out.bytes ++ suffix) =
            (Ns32000.absolutes r.address r.rest).map (max · 0) := by
  obtain ⟨hit, found⟩ := Machine.exists_hit_of_decode clean
  have decoded := Machine.decode_eq ∅ style found
  have silent : (Ns32000.machine.finish hit r.rest r.address).fault = none := by
    rw [← clean]
    exact (congrArg (·.1.fault) decoded).symm
  have restored : Ns32000.Restored style r
      (ns32000.assemble ∅ (ns32000.decode ∅ style r).1.text r.address) :=
    Ns32000.assemble_restored style found silent
  -- From here on it does not matter what was assembled.
  generalize ns32000.assemble ∅ (ns32000.decode ∅ style r).1.text r.address = out at restored ⊢
  exact ⟨restored.fault, restored.again⟩

/-- Two absolute addresses in one instruction. The first is stored in two bytes where one holds it,
and comes back; the second is negative, and does not. -/
theorem ns32000_restores_absolutes_move :
    let r : Reader := Memory.reader ⟨0x1000, [0x57, 0xAD, 0x80, 0x10, 0x7F], .byte⟩
    let out := ns32000.assemble ∅ (ns32000.decode ∅ {} r).1.text r.address
    Ns32000.absolutes r.address r.rest = [0x10, -1] ∧
      out.fault.map (·.cause) = some .overflowRange ∧
      Ns32000.absolutes r.address (out.bytes ++ []) = [0x10, 0] := by
  intro r out
  have stands : Ns32000.absolutes r.address r.rest = [0x10, -1] := by decide
  have refused : (Ns32000.displacements r.address r.rest).findSome? (·.refusal? r.address) =
      some .overflowRange := by decide
  obtain ⟨fault, again⟩ := ns32000_restores_absolutes {} r (by decide)
  obtain ⟨-, -, absolutes⟩ := again []
  refine ⟨stands, fault.trans refused, absolutes.trans ?_⟩
  rw [stands]
  rfl

/-- A displacement of one byte. It is shown in 32 bits, and what is shown is refused. -/
theorem ns32000_refuses_negative_absolute :
    let r : Reader := Memory.reader ⟨0x1000, [0x17, 0xA8, 0x7F], .byte⟩
    let item := (ns32000.decode ∅ {} r).1
    item.fault = none ∧ item.text = "MOVD @0xffffffff,R0" ∧
      Ns32000.absolutes 0x1000 r.rest = [-1] ∧
      ns32000.assemble ∅ item.text 0x1000 =
        ⟨0x1000, [0x17, 0xA8, 0xC0, 0, 0, 0], some (Cause.overflowRange.located 5)⟩ := by
  decide

end CrossAsm.Target
