import CrossAsm.Proofs.M6800.RoundTrip
import CrossAsm.Proofs.Recovery

/-! Which form an address takes on the 6800 family: the direct one if the address fits a byte and the
instruction has it, else the extended one, unless the line asks for one of them. -/

namespace CrossAsm.M6800

open Text

/-! ### The text of an address -/

theorem eat?_of_atEnd {c : Cursor} (ended : c.atEnd = true) {ch : Char} (solid : isBlank ch = false)
    (plain : ch ≠ ';') : c.eat? ch = none := by
  apply Cursor.eat?_ne
  intro ahead
  obtain ⟨pos, _ | ⟨first, rest⟩⟩ := c
  · simp at ahead
  · obtain rfl : first = ch := by simpa using ahead
    rw [Machine.atEnd_cons solid plain] at ended
    simp at ended

theorem atEnd_of_ident? {c after : Cursor} {name : String} (named : c.ident? = some (name, after)) :
    c.atEnd = false := by
  obtain ⟨pos, _ | ⟨first, rest⟩⟩ := c
  · simp [Cursor.ident?, Cursor.peekIdent?, Cursor.peek?] at named
  · have start : isIdentStart first = true := by
      by_contra other
      simp [Cursor.ident?, Cursor.peekIdent?, Cursor.peek?, other] at named
    have ident : isIdentChar first = true := by
      simp only [isIdentStart, Bool.or_eq_true] at start
      simp only [isIdentChar, Char.isAlphanum, Bool.or_eq_true]
      rcases start with alpha | underscore
      · exact .inl (.inl (.inl alpha))
      · exact .inl (.inr underscore)
    apply Machine.atEnd_cons (Machine.isBlank_of_isIdentChar ident)
    rintro rfl
    simp [isIdentStart, Char.isAlpha, Char.isUpper, Char.isLower] at start

theorem stops_skipSpaces (c : Cursor) :
    Stops (fun ch => ch == ' ' || ch == '\t') c.skipSpaces.rest := by
  have solid := List.head?_dropWhile_not (fun ch => ch == ' ' || ch == '\t') c.rest
  change ((c.rest.dropWhile fun ch => ch == ' ' || ch == '\t').head?.any _) = false
  cases first : (c.rest.dropWhile fun ch => ch == ' ' || ch == '\t').head? with
  | none => rfl
  | some ch => simpa [first] using solid

/-- The text at the cursor, to the end of the line, is an address: an expression that may be marked as
short or long, neither immediate nor indexed. -/
structure AddressAt (scope : Scope) (c : Cursor) (force : Option Force) (v : Value)
    (after : Cursor) : Prop where
  unmarked : c.eat? '#' = none
  forced : (Force.read c).1 = force
  read : scope.eval (Force.read c).2 = .ok (v, after)
  unindexed : indexSuffix? after = none
  last : after.skipSpaces.atEnd = true

/-- What begins neither a literal nor a name, a sign or a bracket begins no expression. -/
theorem eval_ne_ok {s : Scope} (motorola : s.dialect = .motorola) (pos : Nat) {ch : Char}
    (rest : List Char) (read : Value × Cursor) (atom : Scope.startsAtom ch = true)
    (digit : ch.isDigit = false) (name : isIdentStart ch = false)
    (sigil : Dialect.motorola.sigil? ch = none) (here : ch ≠ '*') :
    s.eval ⟨pos, ch :: rest⟩ ≠ .ok read := by
  have zero : (ch == '0') = false := by
    rw [beq_eq_false_iff_ne]
    rintro rfl
    simp at digit
  have mark : Dialect.motorola.radixMark? (ch :: rest) = none := by
    unfold Dialect.radixMark?
    split
    next found =>
      obtain ⟨rfl, rfl⟩ := List.cons.inj found
      simp only [sigil, zero, Bool.false_and, Bool.false_eq_true, if_false]
      split <;> rfl
    · rfl
  have literal : Literal.read? s.dialect ⟨pos, ch :: rest⟩ = none := by
    simp [Literal.read?, motorola, mark, Cursor.peek?, digit]
  have location : (⟨pos, ch :: rest⟩ : Cursor).eat? s.dialect.locationSymbol = none := by
    apply Cursor.eat?_ne
    simpa [motorola, Dialect.locationSymbol] using here
  have ident : (⟨pos, ch :: rest⟩ : Cursor).ident? = none := by
    simp [Cursor.ident?, Cursor.peekIdent?, Cursor.peek?, name]
  have depth : Scope.depth ⟨pos, ch :: rest⟩ = 2 * rest.length + 2 + 1 + 1 := rfl
  simp only [Scope.eval, depth, Scope.binary, s.unary_atom _ _ atom, Scope.atom, literal, location,
    ident]
  simp

/-- No expression begins with a blank, a comment or a comma. -/
theorem solid_of_eval {s : Scope} (motorola : s.dialect = .motorola) {pos : Nat} {ch : Char}
    {rest : List Char} {read : Value × Cursor} (unspaced : (ch == ' ' || ch == '\t') = false)
    (ok : s.eval ⟨pos, ch :: rest⟩ = .ok read) : isBlank ch = false ∧ ch ≠ ';' ∧ ch ≠ ',' := by
  by_contra other
  have code : ch.toNat < 33 ∨ 126 < ch.toNat ∨ ch.toNat = 59 ∨ ch.toNat = 44 := by
    by_cases blank : isBlank ch = true
    · simp only [isBlank, Bool.or_eq_true, Bool.and_eq_true, decide_eq_true_eq, beq_iff_eq] at blank
      omega
    · rcases Decidable.eq_or_ne ch ';' with rfl | semicolon
      · decide
      · rcases Decidable.eq_or_ne ch ',' with rfl | comma
        · decide
        · exact absurd ⟨by simpa using blank, semicolon, comma⟩ other
  have differs (c : Char) (mark : 33 ≤ c.toNat ∧ c.toNat ≤ 126 ∧ c.toNat ≠ 59 ∧ c.toNat ≠ 44) :
      ch ≠ c := by
    rintro rfl
    omega
  have sign : sign? ch = none := by
    simp [sign?, differs '-' (by decide), differs '+' (by decide), differs '~' (by decide),
      differs '!' (by decide)]
  have bracket : closing? ch = none := by
    simp [closing?, differs '(' (by decide), differs '[' (by decide)]
  have sigil : Dialect.motorola.sigil? ch = none := by
    simp [Dialect.sigil?, differs '$' (by decide), differs '%' (by decide), differs '@' (by decide)]
  have digit : ch.isDigit = false := by
    rw [Bool.eq_false_iff, ne_eq, isDigit_iff]
    omega
  have name : isIdentStart ch = false := by
    rw [isIdentStart, Bool.or_eq_false_iff, Bool.eq_false_iff, ne_eq, isAlpha_iff]
    exact ⟨by omega, by simpa using differs '_' (by decide)⟩
  have atom : Scope.startsAtom ch = true := by
    simpa [Scope.startsAtom, unspaced, sign, bracket] using differs '\x27' (by decide)
  exact eval_ne_ok motorola pos rest read atom digit name sigil (differs '*' (by decide)) ok

section Text

variable {scope : Scope} (motorola : scope.dialect = .motorola) {c : Cursor} {force : Option Force}
  {v : Value} {after : Cursor} (written : AddressAt scope c force v after)

include motorola written

/-- An address begins with a character that neither ends the line nor parts operands. -/
theorem exists_first_of_address (reached : Stops (fun ch => ch == ' ' || ch == '\t') c.rest) :
    ∃ ch rest, c = ⟨c.pos, ch :: rest⟩ ∧ isBlank ch = false ∧ ch ≠ ';' ∧ ch ≠ ',' := by
  obtain ⟨pos, text⟩ := c
  cases text with
  | nil =>
    have read := written.read
    simp [Force.read, Cursor.eat?, Cursor.peek?, Scope.eval, Scope.depth, Scope.binary, Scope.unary,
      Cursor.skipSpaces, Cursor.skipWhile] at read
  | cons ch rest =>
    refine ⟨ch, rest, rfl, ?_⟩
    rcases Decidable.eq_or_ne ch '<' with rfl | short
    · decide
    rcases Decidable.eq_or_ne ch '>' with rfl | long
    · decide
    have bare : Force.read ⟨pos, ch :: rest⟩ = (none, ⟨pos, ch :: rest⟩) := by
      simp [Force.read, Cursor.eat?, Cursor.peek?, short, long]
    exact solid_of_eval motorola (stops_cons.mp reached) (bare ▸ written.read)

theorem parseOperand_address (reached : Stops (fun ch => ch == ' ' || ch == '\t') c.rest) :
    parseOperand scope c = (addressOperand c.pos force v, after) := by
  obtain ⟨ch, rest, begins, -, -, comma⟩ := exists_first_of_address motorola written reached
  have inner : c.peek? ≠ some ',' := by
    rw [begins]
    simpa [Cursor.peek?] using comma
  have shape : Force.read c = (force, (Force.read c).2) := by rw [← written.forced]
  simp only [parseOperand, written.unmarked, inner, if_false]
  rw [shape]
  simp only [written.read, written.unindexed]

end Text

section Line

variable (variant : Variant) {symbols : Symbols} {line : String} {address : UInt32} {name : String}
  {after stop : Cursor} {force : Option Force} {v : Value}
  (named : (Cursor.start line).skipSpaces.ident? = some (name, after))
  (written : AddressAt ⟨.motorola, symbols, address⟩ after.skipSpaces force v stop)

include written

theorem parseOperands_address :
    ((machine variant).parseOperands symbols address after).1 =
      [addressOperand after.skipSpaces.pos force v] ∧
    ((addressOperand after.skipSpaces.pos force v).hardFault? = none →
      ((machine variant).parseOperands symbols address after).2.atEnd = true) := by
  have reached := stops_skipSpaces after
  obtain ⟨ch, rest, begins, solid, comment, -⟩ := exists_first_of_address rfl written reached
  have filled : after.skipSpaces.atEnd = false := by
    rw [begins]
    exact Machine.atEnd_cons solid comment
  have parsed : (machine variant).parseOperand ⟨.motorola, symbols, address⟩ after.skipSpaces =
      (addressOperand after.skipSpaces.pos force v, stop) := parseOperand_address rfl written reached
  have alone : stop.skipSpaces.eat? ',' = none := eat?_of_atEnd written.last rfl (by decide)
  have motorola : (machine variant).config.dialect = .motorola := rfl
  simp only [Machine.parseOperands, filled, Bool.false_eq_true, if_false, Machine.parseList,
    Cursor.skipSpaces_stops reached, motorola, parsed, alone]
  split
  next hard => exact ⟨rfl, fun soft => by simp [soft] at hard⟩
  · exact ⟨rfl, fun _ => written.last⟩

include named

/-- A line whose address cannot be read gives no bytes. -/
theorem parseLine_of_hard {f : Fault}
    (hard : (addressOperand after.skipSpaces.pos force v).hardFault? = some f) :
    (machine variant).parseLine symbols line address = .error f := by
  have filled := atEnd_of_ident? named
  have read := (parseOperands_address variant written).1
  simp only [Machine.parseLine, filled, Bool.false_eq_true, if_false, named, read,
    List.findSome?_cons, hard]

/-- A line is an instruction of the entry that takes its address, as long as that form is not narrower
than the one it asks for. -/
theorem parseLine_of_found
    (soft : (addressOperand after.skipSpaces.pos force v).hardFault? = none)
    {hit : Page Mode × Entry Mode} (found : (machine variant).findByName name
      [addressOperand after.skipSpaces.pos force v] = .ok hit) :
    (machine variant).parseLine symbols line address =
      match check hit.2 [addressOperand after.skipSpaces.pos force v] with
      | some cause => .error (cause.located after.skipSpaces.pos)
      | none => .ok (some (hit.1, hit.2, [addressOperand after.skipSpaces.pos force v])) := by
  have filled := atEnd_of_ident? named
  obtain ⟨read, ended⟩ := parseOperands_address variant written
  have column : (addressOperand after.skipSpaces.pos force v).column = after.skipSpaces.pos := by
    unfold addressOperand
    dsimp only
    split <;> rfl
  simp only [Machine.parseLine, filled, Bool.false_eq_true, if_false, named, read,
    List.findSome?_cons, List.findSome?_nil, soft, ended soft, Bool.not_true, found,
    List.head?_cons, Option.map_some, Option.getD_some, column]
  rfl

end Line

/-! ### Forms of an instruction -/

/-- The opcode of the form of an instruction with one operand of this mode. -/
def form? (variant : Variant) (name : String) (mode : Mode) : Option UInt8 :=
  ((machine variant).ownEntries.find? fun hit =>
    hit.2.name == upper name && hit.2.slots == [.bare mode]).map
    fun hit => UInt8.ofNat hit.2.opcode.toNat

theorem exists_hit_of_form? {variant : Variant} {name : String} {mode : Mode} {opcode : UInt8}
    (found : form? variant name mode = some opcode) :
    ∃ hit ∈ (machine variant).ownEntries, upper name = hit.2.name ∧ hit.2.slots = [.bare mode] ∧
      UInt8.ofNat hit.2.opcode.toNat = opcode := by
  obtain ⟨hit, first, rfl⟩ := Option.map_eq_some_iff.mp found
  have matched := List.find?_some first
  simp only [Bool.and_eq_true, beq_iff_eq] at matched
  exact ⟨hit, List.mem_of_find?_eq_some first, matched.1.symm, matched.2, rfl⟩

theorem slots_ne_of_form? {variant : Variant} {name : String} {mode : Mode}
    (none : form? variant name mode = none) {hit : Page Mode × Entry Mode}
    (own : hit ∈ (machine variant).ownEntries) (same : upper name = hit.2.name) :
    hit.2.slots ≠ [.bare mode] := by
  intro slots
  have absent := List.find?_eq_none.mp (Option.map_eq_none_iff.mp none) hit own
  simp [same, slots] at absent

/-- Where an instruction has a direct form, it has an extended one. -/
def widens (variant : Variant) : Bool :=
  let extended := (machine variant).ownEntries.filter (·.2.slots == [.bare .extended])
  (machine variant).ownEntries.all fun hit =>
    hit.2.slots != [.bare .direct] || extended.any (·.2.name == hit.2.name)

set_option maxRecDepth 20000 in
theorem widens_all (variant : Variant) : widens variant = true := by
  cases variant <;> decide

/-- No other form takes a direct address under the name of an extended form. -/
def exclusive (hit : Page Mode × Entry Mode) : Bool :=
  hit.2.slots == [.bare .direct] || hit.2.slots == [.bare .extended] ||
    !Machine.mayAdmit accepts (fun _ => [.dir]) hit.2.slots [.bare .extended] ||
    table.all fun other => other.2.slots != [.bare .extended] || other.2.name != hit.2.name

set_option maxRecDepth 20000 in
theorem table_exclusive : table.all exclusive = true := by decide

theorem exists_extended_form {variant : Variant} {name : String}
    (formed : form? variant name .direct ≠ none ∨ form? variant name .extended ≠ none) :
    ∃ opcode, form? variant name .extended = some opcode := by
  rcases formed with direct | extended
  · obtain ⟨opcode, found⟩ := Option.ne_none_iff_exists'.mp direct
    obtain ⟨hit, own, same, slots, -⟩ := exists_hit_of_form? found
    have wide := List.all_eq_true.mp (widens_all variant) hit own
    simp only [slots, bne_self_eq_false, Bool.false_or, List.any_eq_true, List.mem_filter,
      beq_iff_eq] at wide
    obtain ⟨other, ⟨member, form⟩, named⟩ := wide
    apply Option.ne_none_iff_exists'.mp
    intro none
    exact slots_ne_of_form? none member (same.trans named.symm) form
  · exact Option.ne_none_iff_exists'.mp extended

section Search

variable {variant : Variant} {name : String} {hit : Page Mode × Entry Mode}
  (own : hit ∈ (machine variant).ownEntries) (same : upper name = hit.2.name)
  {op : Operand Mode Reg}

include own same

theorem findByName_direct (slots : hit.2.slots = [.bare .direct]) (dir : op.mode = .dir) :
    (machine variant).findByName name [op] = .ok hit := by
  apply findByName_of_suits own same
  rw [slots]
  exact .cons ⟨by simp [Slot.bare, written, dir], by simp [Slot.bare]⟩ .nil

theorem findByName_extended (slots : hit.2.slots = [.bare .extended]) (ext : op.mode = .ext)
    (force : op.force ≠ some .short) : (machine variant).findByName name [op] = .ok hit := by
  apply findByName_of_suits own same
  rw [slots]
  exact .cons ⟨by simp [Slot.bare, written, ext], fun _ => force⟩ .nil

/-- An address that fits a byte is taken by the extended form where there is no direct one. -/
theorem findByName_widened (slots : hit.2.slots = [.bare .extended]) (dir : op.mode = .dir)
    (none : form? variant name .direct = none) : (machine variant).findByName name [op] = .ok hit := by
  have admits : (machine variant).admits hit.2.slots [op] = true := by
    rw [slots]
    simp [Machine.admits, machine, accepts, Slot.bare, dir]
  obtain ⟨first, member, found, named, admitted, order⟩ :=
    (machine variant).findByName_eq_ok table_ordered own same admits
  have extended : first.2.slots = [.bare .extended] := by
    have listed := ((machine variant).mem_ownEntries.mp member).1
    have only := List.all_eq_true.mp table_exclusive first listed
    have taken : Machine.mayAdmit accepts (fun _ => [.dir]) first.2.slots [.bare .extended] = true :=
      (machine variant).mayAdmit_of_admits (.cons (by simp [dir]) .nil) admitted
    have direct := slots_ne_of_form? none member (same.trans named.symm)
    have shared : (table.all fun other =>
        other.2.slots != [.bare .extended] || other.2.name != first.2.name) = false := by
      rw [List.all_eq_false]
      exact ⟨hit, ((machine variant).mem_ownEntries.mp own).1, by simp [slots, named]⟩
    simpa [exclusive, direct, taken, shared] using only
  rcases order with rfl | apart
  · exact found
  · rw [extended, slots, named] at apart
    simp [Machine.mayAdmit, Slot.bare, written, accepts] at apart

end Search

/-! ### Encodings of an address -/

theorem put_one (k : Nat) : Endian.big.put 1 k = [UInt8.ofNat k] := by
  rw [← Endian.big.put_byte]
  apply Endian.put_congr _ (by decide)
  simp [twoPow]

/-- An address behind the opcode, with a zero in its place if it does not fit. -/
theorem encode_absolute {variant : Variant} {hit : Page Mode × Entry Mode}
    (own : hit ∈ (machine variant).ownEntries) {mode : Mode} (slots : hit.2.slots = [.bare mode])
    {width : Width} {n : Nat} (shaped : shape mode = .absolute width)
    (sized : width.bytes? hit.2.size = some n) (short : n ≤ 2) {op : Operand Mode Reg}
    (known : op.undefined = false) (clean : op.fault = none) (address : UInt32) :
    (machine variant).encode hit.1 hit.2 [op] address =
      if fitsUnsigned op.value (8 * n) then
        ⟨address, UInt8.ofNat hit.2.opcode.toNat :: Endian.big.put n op.value, none⟩
      else
        ⟨address, UInt8.ofNat hit.2.opcode.toNat :: Endian.big.put n 0,
          some (Cause.overflowRange.located op.column)⟩ := by
  obtain ⟨lead, gapless, cells⟩ := page_of_own own
  let piece (value : Int) : Piece := { extensions := [⟨.payload, .number value n .big, op.column⟩] }
  have laid (value : Int) (base : Int) :
      (machine variant).layout hit.1 hit.2 [(.bare mode, piece value)] base =
        UInt8.ofNat hit.2.opcode.toNat :: Endian.big.put n value := by
    have code : (machine variant).config.endian.put
        (hit.1.opcodeCells * (machine variant).config.cell.bytes) hit.2.opcode.toNat =
          [UInt8.ofNat hit.2.opcode.toNat] := by
      rw [cells]
      exact put_one _
    simp [Machine.layout, lead, code, piece, Piece.bytes, Extension.stageOf_singleton,
      Extension.laid_number, placeAll]
  have lays (value : Int) (cause : Option Cause)
      (encoded : ∀ d : Draft, d.config = config →
        (machine variant).encodeOperand hit.2 (.bare mode) op d =
          (d.emit .payload value n op.column, cause)) :
      Pieces ((machine variant).Lays hit.2) hit.2.slots [op] hit.1.gap
        [(.bare mode, piece value)] (cause.map (·.located op.column)) := by
    have first : (machine variant).Lays hit.2 (.bare mode) op hit.1.gap (piece value) cause := by
      intro d same _
      rw [encoded d same, Draft.emit, same, d.extend_eq_lay (Slot.bare mode)]
      rfl
    have all := Pieces.cons first (Pieces.nil _)
    rwa [Option.or_none, ← slots] at all
  have encoded (d : Draft) (same : d.config = config) :
      (machine variant).encodeOperand hit.2 (.bare mode) op d =
        if fitsUnsigned op.value (8 * n) then (d.emit .payload op.value n op.column, none)
        else (d.emit .payload 0 n op.column, some .overflowRange) := by
    have bits : min (8 * n) d.config.addressBits = 8 * n := by
      rw [same]
      change min (8 * n) 16 = 8 * n
      omega
    have absolute : (machine variant).shape (Slot.bare mode).mode = .absolute width := shaped
    simp only [Machine.encodeOperand, absolute, sized, bits, Machine.encodeNumber, known,
      Bool.false_or, Bool.false_eq_true, if_false]
  split
  next fits =>
    have pieces := lays op.value none fun d same => by rw [encoded d same, if_pos fits]
    -- No displacement is measured, so any base does that the length of the bytes leads to.
    obtain ⟨base, settled⟩ : ∃ base, ((machine variant).draft hit.1 hit.2 address).base
        (UInt8.ofNat hit.2.opcode.toNat :: Endian.big.put n op.value).length = base := ⟨_, rfl⟩
    rw [← laid op.value base] at settled ⊢
    refine Machine.encode_eq_of_clean rfl ?_ pieces ?_ ?_ settled (by simpa using clean)
    · rw [cells]
      exact (by decide : 1 * Cell.byte.bytes ≤ 4)
    · simp only [List.mem_singleton, forall_eq, piece, Extension.narrow, decide_eq_true_eq]
      omega
    · simp [piece, Extension.laid_number]
  next wide =>
    have pieces := lays 0 (some .overflowRange) fun d same => by rw [encoded d same, if_neg wide]
    obtain ⟨base, late, assembled⟩ := Machine.encode_eq address rfl pieces
    rw [assembled, laid]
    rfl

/-- The extended encoding of an address, with a zero in its place if it does not fit. -/
def extendedForm (opcode : UInt8) (v : Int) : List UInt8 × Option Cause :=
  if 0 ≤ v ∧ v ≤ 0xFFFF then ([opcode, UInt8.ofNat (v.toNat / 256), UInt8.ofNat v.toNat], none)
  else ([opcode, 0, 0], some .overflowRange)

/-- The bytes and the fault that an address leads to, given the opcodes of its instruction's forms:
the direct form where it is there and holds the address, and the extended form otherwise, unless one
of them is asked for. -/
def selection (direct : Option UInt8) (extended : UInt8) (force : Option Force) (v : Int) :
    List UInt8 × Option Cause :=
  match force, direct with
  | none, some opcode =>
    if 0 ≤ v ∧ v ≤ 0xFF then ([opcode, UInt8.ofNat v.toNat], none) else extendedForm extended v
  | none, none | some .long, _ => extendedForm extended v
  | some .short, direct =>
    if 0 ≤ v ∧ v ≤ 0xFF then
      match direct with
      | some opcode => ([opcode, UInt8.ofNat v.toNat], none)
      | none => ([], some .operandNotAllowed)
    else ([], some .overflowRange)

theorem encode_direct {variant : Variant} {hit : Page Mode × Entry Mode}
    (own : hit ∈ (machine variant).ownEntries) (slots : hit.2.slots = [.bare .direct])
    {op : Operand Mode Reg} (known : op.undefined = false) (clean : op.fault = none)
    (low : 0 ≤ op.value) (high : op.value ≤ 0xFF) (address : UInt32) :
    (machine variant).encode hit.1 hit.2 [op] address =
      ⟨address, [UInt8.ofNat hit.2.opcode.toNat, UInt8.ofNat op.value.toNat], none⟩ := by
  have fits : fitsUnsigned op.value (8 * 1) = true := by
    rw [fitsUnsigned_iff (by decide)]
    exact ⟨low, by simp [twoPow]; omega⟩
  rw [encode_absolute own slots rfl rfl (by decide) known clean, if_pos fits,
    ← put_one op.value.toNat, Int.toNat_of_nonneg low]

theorem encode_extended {variant : Variant} {hit : Page Mode × Entry Mode}
    (own : hit ∈ (machine variant).ownEntries) (slots : hit.2.slots = [.bare .extended])
    {op : Operand Mode Reg} (known : op.undefined = false) (clean : op.fault = none)
    (address : UInt32) :
    (machine variant).encode hit.1 hit.2 [op] address =
      ⟨address, (extendedForm (UInt8.ofNat hit.2.opcode.toNat) op.value).1,
        (extendedForm (UInt8.ofNat hit.2.opcode.toNat) op.value).2.map (·.located op.column)⟩ := by
  have range : fitsUnsigned op.value (8 * 2) = true ↔ 0 ≤ op.value ∧ op.value ≤ 0xFFFF := by
    rw [fitsUnsigned_iff (by decide)]
    simp only [twoPow]
    omega
  rw [encode_absolute own slots rfl rfl (by decide) known clean, extendedForm]
  by_cases inside : 0 ≤ op.value ∧ op.value ≤ 0xFFFF
  · have word : (op.value % 0x100000000).toNat = op.value.toNat := by omega
    rw [if_pos (range.mpr inside), if_pos inside]
    simp [Endian.put, Endian.bytes, Endian.toLittle, word]
  · rw [if_neg (mt range.mp inside), if_neg inside]
    rfl

/-! ### Lines with an address -/

/-- An address that no form is too narrow for. -/
def addressOf (column : Nat) (force : Option Force) (v : Int) : Operand Mode Reg where
  mode :=
    match force with
    | some .short => .dir
    | some .long => .ext
    | none => if 0 ≤ v ∧ v ≤ 0xFF then .dir else .ext
  value := v
  force
  column

theorem fitsUnsigned_byte (v : Int) : fitsUnsigned v 8 = decide (0 ≤ v ∧ v ≤ 0xFF) := by
  rw [Bool.eq_iff_iff, fitsUnsigned_iff (by decide), decide_eq_true_eq]
  simp only [twoPow]
  omega

theorem addressOperand_known {v : Value} (known : v.undefined = false) (column : Nat)
    (force : Option Force) (fits : force = some .short → 0 ≤ v.toInt ∧ v.toInt ≤ 0xFF) :
    addressOperand column force v = addressOf column force v.toInt := by
  rcases force with _ | _ | _
  · simp [addressOperand, addressOf, Operand.withValue, known, fitsUnsigned_byte]
  · simp [addressOperand, addressOf, Operand.withValue, known, fitsUnsigned_byte, fits rfl]
  · simp [addressOperand, addressOf, Operand.withValue, known]

theorem hardFault?_of_wide {v : Value} (known : v.undefined = false) (column : Nat)
    (wide : ¬(0 ≤ v.toInt ∧ v.toInt ≤ 0xFF)) :
    (addressOperand column (some .short) v).hardFault? =
      some (Cause.overflowRange.located column) := by
  simp only [addressOperand, known, fitsUnsigned_byte, wide]
  rfl

section Assembled

variable {variant : Variant} {symbols : Symbols} {line : String} {address : UInt32} {name : String}
  {after stop : Cursor} {force : Option Force} {v : Value}
  (named : (Cursor.start line).skipSpaces.ident? = some (name, after))
  (written : AddressAt ⟨.motorola, symbols, address⟩ after.skipSpaces force v stop)
  (known : v.undefined = false) {hit : Page Mode × Entry Mode}

include named written known

/-- A line that forces an address into a byte too small for it gives no bytes. -/
theorem assemble_forced_wide (short : force = some .short) (wide : ¬(0 ≤ v.toInt ∧ v.toInt ≤ 0xFF)) :
    (machine variant).assemble symbols line address =
      ⟨address, [], some (Cause.overflowRange.located after.skipSpaces.pos)⟩ := by
  have hard := hardFault?_of_wide known after.skipSpaces.pos wide
  rw [← short] at hard
  rw [Machine.assemble, parseLine_of_hard variant named written hard]

/-- A known address that the form asked for holds goes to the entry that takes it. -/
theorem assemble_of_found (fits : force = some .short → 0 ≤ v.toInt ∧ v.toInt ≤ 0xFF)
    (found : (machine variant).findByName name
      [addressOf after.skipSpaces.pos force v.toInt] = .ok hit) :
    (machine variant).assemble symbols line address =
      match check hit.2 [addressOf after.skipSpaces.pos force v.toInt] with
      | some cause => ⟨address, [], some (cause.located after.skipSpaces.pos)⟩
      | none => (machine variant).encode hit.1 hit.2
          [addressOf after.skipSpaces.pos force v.toInt] address := by
  have read := addressOperand_known known after.skipSpaces.pos force fits
  rw [← read] at found ⊢
  rw [Machine.assemble, parseLine_of_found variant named written (by rw [read]; rfl) found]
  cases check hit.2 [addressOperand after.skipSpaces.pos force v] <;> rfl

variable (own : hit ∈ (machine variant).ownEntries)

include own

theorem assemble_direct (slots : hit.2.slots = [.bare .direct])
    (byte : 0 ≤ v.toInt ∧ v.toInt ≤ 0xFF)
    (found : (machine variant).findByName name
      [addressOf after.skipSpaces.pos force v.toInt] = .ok hit) :
    (machine variant).assemble symbols line address =
      ⟨address, [UInt8.ofNat hit.2.opcode.toNat, UInt8.ofNat v.toInt.toNat], none⟩ := by
  have checked : check hit.2 [addressOf after.skipSpaces.pos force v.toInt] = none := by
    simp [check, widened, slots, Slot.bare]
  rw [assemble_of_found named written known (fun _ => byte) found, checked]
  exact encode_direct own slots rfl rfl byte.1 byte.2 address

theorem assemble_extended (slots : hit.2.slots = [.bare .extended])
    (unforced : force ≠ some .short)
    (found : (machine variant).findByName name
      [addressOf after.skipSpaces.pos force v.toInt] = .ok hit) :
    (machine variant).assemble symbols line address =
      ⟨address, (extendedForm (UInt8.ofNat hit.2.opcode.toNat) v.toInt).1,
        (extendedForm (UInt8.ofNat hit.2.opcode.toNat) v.toInt).2.map
          (·.located after.skipSpaces.pos)⟩ := by
  have checked : check hit.2 [addressOf after.skipSpaces.pos force v.toInt] = none := by
    simp [check, widened, slots, Slot.bare, addressOf, unforced]
  rw [assemble_of_found named written known (fun short => absurd short unforced) found, checked]
  exact encode_extended own slots rfl rfl address

/-- Where the long form is asked for, no other is chosen. -/
theorem slots_of_long (same : upper name = hit.2.name) (slots : hit.2.slots = [.bare .extended])
    (long : force = some .long) {page : Page Mode} {entry : Entry Mode}
    {ops : List (Operand Mode Reg)}
    (parsed : (machine variant).parseLine symbols line address = .ok (some (page, entry, ops))) :
    entry.slots = [.bare .extended] := by
  subst long
  have read := addressOperand_known known after.skipSpaces.pos (some .long) (by simp)
  have found : (machine variant).findByName name
      [addressOf after.skipSpaces.pos (some .long) v.toInt] = .ok hit :=
    findByName_extended own same slots rfl (by simp [addressOf])
  rw [← read] at found
  rw [parseLine_of_found variant named written (by rw [read]; rfl) found] at parsed
  split at parsed
  · simp at parsed
  · simp only [Except.ok.injEq, Option.some.injEq, Prod.mk.injEq] at parsed
    rw [← parsed.2.1, slots]

end Assembled

/-- A line with a mnemonic and an address whose value is known becomes the smallest form that holds
the address, or the form it asks for. -/
theorem assemble_address (variant : Variant) (symbols : Symbols) (line : String) (address : UInt32)
    {name : String} {after stop : Cursor} {force : Option Force} {v : Value}
    (named : (Cursor.start line).skipSpaces.ident? = some (name, after))
    (written : AddressAt ⟨.motorola, symbols, address⟩ after.skipSpaces force v stop)
    (known : v.undefined = false)
    (formed : form? variant name .direct ≠ none ∨ form? variant name .extended ≠ none) :
    ∃ extended, form? variant name .extended = some extended ∧
      (machine variant).assemble symbols line address =
        ⟨address, (selection (form? variant name .direct) extended force v.toInt).1,
          (selection (form? variant name .direct) extended force v.toInt).2.map
            (·.located after.skipSpaces.pos)⟩ ∧
      (force = some .long → ∀ page entry ops, (machine variant).parseLine symbols line address =
        .ok (some (page, entry, ops)) → entry.slots = [.bare .extended]) := by
  obtain ⟨extended, form⟩ := exists_extended_form formed
  obtain ⟨hit, own, same, slots, rfl⟩ := exists_hit_of_form? form
  refine ⟨_, form, ?_, fun long page entry ops parsed => ?_⟩
  swap
  · exact slots_of_long named written known own same slots long parsed
  -- The extended form takes what is not asked to be short and has no direct form to go to.
  have wide (ext : (addressOf after.skipSpaces.pos force v.toInt).mode = .ext)
      (unforced : force ≠ some .short) := assemble_extended named written known own slots unforced
    (findByName_extended own same slots ext unforced)
  cases direct : form? variant name .direct with
  | some opcode =>
    obtain ⟨shorter, ownShorter, sameShorter, slotsShorter, rfl⟩ := exists_hit_of_form? direct
    have narrow (dir : (addressOf after.skipSpaces.pos force v.toInt).mode = .dir)
        (byte : 0 ≤ v.toInt ∧ v.toInt ≤ 0xFF) :=
      assemble_direct named written known ownShorter slotsShorter byte
        (findByName_direct ownShorter sameShorter slotsShorter dir)
    rcases force with _ | _ | _
    · by_cases byte : 0 ≤ v.toInt ∧ v.toInt ≤ 0xFF
      · simpa [selection, byte] using narrow (if_pos byte) byte
      · simpa [selection, byte] using wide (if_neg byte) (by simp)
    · by_cases byte : 0 ≤ v.toInt ∧ v.toInt ≤ 0xFF
      · simpa [selection, byte] using narrow rfl byte
      · simpa [selection, byte] using assemble_forced_wide named written known rfl byte
    · exact wide rfl (by simp)
  | none =>
    have widened (dir : (addressOf after.skipSpaces.pos force v.toInt).mode = .dir) :=
      findByName_widened own same slots dir direct
    rcases force with _ | _ | _
    · by_cases byte : 0 ≤ v.toInt ∧ v.toInt ≤ 0xFF
      · exact assemble_extended named written known own slots (by simp) (widened (if_pos byte))
      · exact wide (if_neg byte) (by simp)
    · by_cases byte : 0 ≤ v.toInt ∧ v.toInt ≤ 0xFF
      · rw [assemble_of_found named written known (fun _ => byte) (widened rfl)]
        simp [check, M6800.widened, slots, Slot.bare, addressOf, selection, byte]
      · simpa [selection, byte] using assemble_forced_wide named written known rfl byte
    · exact wide rfl (by simp)

/-- One line on two members of the family, of which only the later has the direct form. -/
theorem assemble_address_jsr :
    let line := "JSR <$12"
    let after : Cursor := ⟨3, [' ', '<', '$', '1', '2']⟩
    (Cursor.start line).skipSpaces.ident? = some ("JSR", after) ∧
      AddressAt ⟨.motorola, ∅, 0x100⟩ after.skipSpaces (some .short) (.known 0x12) ⟨8, []⟩ ∧
      form? .mc6800 "JSR" .direct = none ∧ form? .mc6801 "JSR" .direct = some 0x9D ∧
      (machine .mc6800).assemble ∅ line 0x100 = ⟨0x100, [], some ⟨.operandNotAllowed, 4⟩⟩ ∧
      (machine .mc6801).assemble ∅ line 0x100 = ⟨0x100, [0x9D, 0x12], none⟩ := by
  intro line after
  have named : (Cursor.start line).skipSpaces.ident? = some ("JSR", after) := by decide
  have written : AddressAt ⟨.motorola, ∅, 0x100⟩ after.skipSpaces (some .short) (.known 0x12) ⟨8, []⟩ :=
    ⟨by decide, by decide, by decide, by decide, by decide⟩
  have older : form? .mc6800 "JSR" .direct = none := by decide
  have newer : form? .mc6801 "JSR" .direct = some 0x9D := by decide
  refine ⟨named, written, older, newer, ?_, ?_⟩
  · obtain ⟨extended, -, assembled, -⟩ := assemble_address .mc6800 ∅ line 0x100 named written rfl
      (.inr (by decide))
    rw [assembled, older]
    rfl
  · obtain ⟨extended, -, assembled, -⟩ := assemble_address .mc6801 ∅ line 0x100 named written rfl
      (.inl (by rw [newer]; simp))
    rw [assembled, newer]
    rfl

end CrossAsm.M6800
