import CrossAsm.Proofs.Completeness
import CrossAsm.Proofs.Source.Settled

/-! Disassembling what was assembled. The instructions of a program without directives stand one
behind the other, so its image is their bytes, and a sweep over the image meets each of them at its
first byte. -/

namespace CrossAsm

/-! ### Statements of code -/

/-- Does the action move the location or lay down data? -/
def Action.isDirective : Action → Bool
  | .origin _ | .data _ _ => true
  | _ => false

theorem Cursor.atEnd_skipSpaces (c : Cursor) : c.skipSpaces.atEnd = c.atEnd := by
  have blank (rest : List Char) : (rest.dropWhile fun ch => ch == ' ' || ch == '\t').dropWhile
      Text.isBlank = rest.dropWhile Text.isBlank := by
    induction rest with
    | nil => rfl
    | cons ch rest ih =>
      by_cases space : (ch == ' ' || ch == '\t') = true
      · have isBlank : Text.isBlank ch = true := by
          rcases Bool.or_eq_true_iff.mp space with one | one <;> rw [beq_iff_eq.mp one] <;> decide
        simp only [List.dropWhile_cons, space, isBlank, if_true, ih]
      · simp only [List.dropWhile_cons, space, Bool.false_eq_true, if_false]
  simp only [atEnd, skipSpaces, skipWhile, blank]

/-- An instruction has something on its line. -/
theorem Action.filled_of_read {c : Cursor} {text : String} (read : Action.read c = .instruction text) :
    (Cursor.start text).skipSpaces.atEnd = false := by
  rw [Cursor.atEnd_skipSpaces]
  unfold Action.read at read
  split at read
  · simp at read
  next filled =>
    dsimp only at read
    split at read
    next action found =>
      obtain ⟨⟨name, after⟩, -, directive⟩ := Option.bind_eq_some_iff.mp found
      unfold directive? at directive
      split at directive <;> simp_all
    · split at read
      · simp at read
      · obtain rfl := Action.instruction.inj read
        simpa [Cursor.start, Cursor.atEnd] using filled

/-- A statement of code leaves the location or lays an instruction down. -/
theorem Action.Gives.code {t : Target} {known : Symbols} {location next : UInt32} {action : Action}
    {bytes : Option (List UInt8)} (gives : action.Gives t known location bytes next)
    (plain : action.isDirective = false) :
    (bytes = none ∧ next = location) ∨
      ∃ text code, action = .instruction text ∧ bytes = some code ∧
        t.assemble known text location = ⟨location, code, none⟩ ∧
        next = location + t.config.cell.span code.length := by
  cases gives with
  | nothing => exact .inl ⟨rfl, rfl⟩
  | stays read unknown => simp [isDirective] at plain
  | moves moves =>
    obtain ⟨expression, v, after, rfl, -⟩ := moves
    simp [isDirective] at plain
  | data lists ends => simp [isDirective] at plain
  | instruction assembles => exact .inr ⟨_, _, rfl, rfl, assembles, rfl⟩

theorem Statement.exists_of_readLines {s : Statement} {number : Nat} {lines : List String}
    (member : s ∈ readLines number lines) : ∃ line ∈ lines, s = read s.number line := by
  induction lines generalizing number with
  | nil => simp [readLines] at member
  | cons line rest ih =>
    rcases List.mem_cons.mp member with rfl | later
    · refine ⟨line, by simp, ?_⟩
      unfold read
      dsimp only
      split <;> rfl
    · obtain ⟨line, listed, same⟩ := ih later
      exact ⟨line, by simp [listed], same⟩

theorem Statement.exists_read {s : Statement} {text : String} (member : s ∈ ofText text) :
    ∃ c, s.action = Action.read c := by
  obtain ⟨line, -, same⟩ := exists_of_readLines member
  rw [same]
  unfold Statement.read
  dsimp only
  split <;> exact ⟨_, rfl⟩

/-! ### Instructions one behind the other -/

/-- The bytes of the line are a complete instruction at its address, whatever follows them. -/
structure Line.Stands (t : Target) (l : Line) : Prop where
  leads : ∀ suffix, ∃ first, Machine.isName first.2.name = true ∧
    t.machine.LeadsTo l.bytes suffix l.address first
  filled : l.bytes ≠ []
  whole : t.config.cell.bytes ∣ l.bytes.length

/-- Instructions that stand one behind the other, the first at the given location. -/
inductive Contiguous (t : Target) : UInt32 → List Line → Prop
  | nil (location : UInt32) : Contiguous t location []
  | cons {l : Line} {rest : List Line} (stands : l.Stands t)
      (later : Contiguous t (l.address + t.config.cell.span l.bytes.length) rest) :
      Contiguous t l.address (l :: rest)

/-- What a statement of code gives is a complete instruction, or nothing. -/
theorem Placed.Course.contiguous {t : Target} {known : Symbols} {location : UInt32}
    {placed : List Placed} (course : Placed.Course t known location placed)
    (code : ∀ p ∈ placed, p.statement.action.isDirective = false ∧
      ∃ c, p.statement.action = Action.read c) :
    Contiguous t location (placed.filterMap line?) := by
  induction course with
  | nil location => exact .nil location
  | @cons p next rest gives later ih =>
    obtain ⟨plain, c, read⟩ := code p (by simp)
    have behind := ih fun q member => code q (by simp [member])
    rcases gives.code plain with ⟨empty, rfl⟩ | ⟨text, bytes, action, given, assembles, rfl⟩
    · have blank : p.line? = none := by rw [line?, empty, Option.map_none]
      rwa [List.filterMap_cons_none blank]
    · have line : p.line? = some ⟨p.statement.number, p.location, bytes, none⟩ := by
        rw [line?, given, Option.map_some]
      obtain ⟨name, hit, ops, writes⟩ := Machine.exists_writes_of_clean
        (Action.filled_of_read (read.symm.trans action))
        (show (t.machine.assemble known text p.location).fault = none from congrArg _ assembles)
      rw [List.filterMap_cons_some line]
      refine .cons (l := ⟨p.statement.number, p.location, bytes, none⟩) ⟨fun suffix => ?_, ?_, ?_⟩
        behind
      · obtain ⟨first, -, proper, leads, -⟩ := Target.exists_leadsTo writes suffix
        rw [assembles] at leads
        exact ⟨first, proper, leads⟩
      · have filled := Target.ne_nil_of_writes writes
        rwa [assembles] at filled
      · have whole := Target.whole_of_writes writes
        rwa [assembles] at whole

theorem Cell.span_of_dvd {cell : Cell} {n : Nat} (whole : cell.bytes ∣ n) :
    cell.span n = UInt32.ofNat (n / cell.bytes) := by
  have positive := cell.bytes_pos
  obtain ⟨k, rfl⟩ := whole
  have up : (cell.bytes * k + cell.bytes - 1) / cell.bytes = k := by
    rw [Nat.add_sub_assoc positive, Nat.mul_add_div positive,
      Nat.div_eq_of_lt (Nat.sub_lt positive Nat.one_pos), Nat.add_zero]
  rw [span, up, Nat.mul_div_cancel_left k positive]

theorem Reader.address_skip {r : Reader} {n : Nat} (inside : n ≤ r.rest.length)
    (whole : r.cell.bytes ∣ n) : (r.skip n).address = r.address + r.cell.span n := by
  rw [Cell.span_of_dvd whole, address_skip_of_dvd inside whole]

theorem Program.overlay_length (image bytes : List UInt8) :
    overlay image image.length bytes = image ++ bytes := by
  simp [overlay, List.rightpad]

/-- The next line stands behind the cells of this one. -/
theorem Line.Stands.exists_next {t : Target} {l : Line} (stands : l.Stands t) {start : UInt32}
    {cells : Nat} (located : l.address = start + UInt32.ofNat cells) :
    ∃ count, l.bytes.length = count * t.config.cell.bytes ∧
      l.address + t.config.cell.span l.bytes.length = start + UInt32.ofNat (cells + count) := by
  obtain ⟨count, length⟩ := stands.whole
  refine ⟨count, by rw [length, Nat.mul_comm], ?_⟩
  rw [located, Cell.span_of_dvd stands.whole, length,
    Nat.mul_div_cancel_left _ t.config.cell.bytes_pos, UInt32.ofNat_add, UInt32.add_assoc]

namespace Contiguous

variable {t : Target} {location : UInt32} {lines : List Line}
  (contiguous : Contiguous t location lines)

include contiguous

theorem length_dropLast_lt (some : lines ≠ []) :
    (lines.dropLast.flatMap (·.bytes)).length < (lines.flatMap (·.bytes)).length := by
  induction contiguous with
  | nil location => exact absurd rfl some
  | @cons l rest stands later ih =>
    have filled := List.length_pos_iff.mpr stands.filled
    rcases eq_or_ne rest [] with rfl | more
    · simpa using filled
    · simpa [List.dropLast_cons_of_ne_nil more] using ih more

/-- Each line is placed at the end of the image so far, as long as every line begins inside the
address space. -/
theorem place_eq_of_begins {start : UInt32} {cells : Nat} {image img : List UInt8}
    (located : location = start + UInt32.ofNat cells)
    (full : image.length = cells * t.config.cell.bytes)
    (begins : lines ≠ [] → image.length + (lines.dropLast.flatMap (·.bytes)).length <
      0x100000000 * t.config.cell.bytes)
    (placed : Program.place start t.config.cell.bytes image lines = .ok img) :
    img = image ++ lines.flatMap (·.bytes) := by
  induction contiguous generalizing image cells with
  | nil location => simpa [Program.place] using placed.symm
  | @cons l rest stands later ih =>
    obtain ⟨count, length, next⟩ := stands.exists_next located
    have begins := begins (by simp)
    have once : cells < 0x100000000 := by
      apply Nat.lt_of_mul_lt_mul_right (a := t.config.cell.bytes)
      omega
    have offset : (l.address - start).toNat * t.config.cell.bytes = image.length := by
      rw [located, add_sub_cancel_left, UInt32.toNat_ofNat_of_lt' once, full]
    rw [Program.place] at placed
    split at placed
    · simp at placed
    · rw [offset, Program.overlay_length] at placed
      rw [@ih (cells + count) (image ++ l.bytes) next ?_ ?_ placed, List.flatMap_cons,
        List.append_assoc]
      · rw [List.length_append, full, length, Nat.add_mul]
      · intro more
        rw [List.dropLast_cons_of_ne_nil more, List.flatMap_cons, List.length_append] at begins
        rw [List.length_append]
        omega

/-- Each line is placed at the end of the image so far, as long as no address comes up twice. -/
theorem place_eq {start : UInt32} {cells : Nat} {image img : List UInt8}
    (located : location = start + UInt32.ofNat cells)
    (full : image.length = cells * t.config.cell.bytes)
    (short : image.length + (lines.flatMap (·.bytes)).length ≤ 0x100000000 * t.config.cell.bytes)
    (placed : Program.place start t.config.cell.bytes image lines = .ok img) :
    img = image ++ lines.flatMap (·.bytes) := by
  refine contiguous.place_eq_of_begins located full (fun some => ?_) placed
  have last := contiguous.length_dropLast_lt some
  omega

/-- A sweep decodes the instructions one by one. -/
theorem sweep_eq {r : Reader} (cell : r.cell = t.config.cell)
    (aligned : t.config.cell.bytes ∣ r.offset) (located : r.address = location)
    (ahead : r.rest = lines.flatMap (·.bytes)) {fuel : Nat} (enough : r.rest.length ≤ fuel)
    (symbols : Symbols) (style : Style) :
    (t.machine.sweep symbols style fuel r).1.map (fun d => (d.address, d.bytes, d.fault)) =
      lines.map fun l => (l.address, l.bytes, none) := by
  induction contiguous generalizing r fuel with
  | nil location =>
    have empty : r.rest = [] := ahead
    cases fuel <;> simp [Machine.sweep, Reader.hasNext, empty]
  | @cons l rest stands later ih =>
    have positive : 0 < t.config.cell.bytes := by cases t <;> decide
    have filled := List.length_pos_iff.mpr stands.filled
    rw [List.flatMap_cons] at ahead
    have length := congrArg List.length ahead
    rw [List.length_append] at length
    obtain ⟨fuel, rfl⟩ : ∃ n, fuel = n + 1 := ⟨fuel - 1, by omega⟩
    obtain ⟨first, proper, leads⟩ := stands.leads (rest.flatMap (·.bytes))
    obtain ⟨address, clean, bytes, moved, -⟩ := Machine.decode_of_leadsTo
      (by rw [located]; exact leads) ahead proper symbols style
    have next : r.hasNext = true := by
      rw [Reader.hasNext, Bool.not_eq_true', List.isEmpty_eq_false_iff, ← List.length_pos_iff]
      omega
    have behind : (r.skip l.bytes.length).rest = rest.flatMap (·.bytes) := by
      simp [Reader.skip, ahead]
    have offset : (r.skip l.bytes.length).offset = r.offset + l.bytes.length := by
      rw [Reader.skip, length, Nat.min_eq_left (Nat.le_add_right _ _)]
    have place : (r.skip l.bytes.length).address =
        l.address + t.config.cell.span l.bytes.length := by
      rw [Reader.address_skip (by omega) (cell ▸ stands.whole), located, cell]
    have others := @ih (r.skip l.bytes.length) cell (offset ▸ Nat.dvd_add aligned stands.whole) place
      behind fuel (by rw [behind]; omega)
    simp only [Machine.sweep, next, if_true, moved, List.map_cons, others, address, located, bytes,
      clean]

end Contiguous

namespace Program

/-- A text of so many instructions of one byte. -/
def idle : Nat → List Char
  | 0 => []
  | n + 1 => ' ' :: 'N' :: 'O' :: 'P' :: '\n' :: idle n

theorem ofText_idle (n : Nat) :
    Statement.ofText (String.ofList (idle n)) = Statement.readLines 1 (List.replicate n " NOP") := by
  have split : Text.splitLines (idle n) = List.replicate n [' ', 'N', 'O', 'P'] := by
    induction n with
    | zero => rfl
    | succ n ih => simp [idle, Text.splitLines, ih, List.replicate_succ]
  rw [Statement.ofText, Text.lines, String.toList_ofList, split, List.map_replicate]

theorem action_idle {n number : Nat} {s : Statement}
    (member : s ∈ Statement.readLines number (List.replicate n " NOP")) :
    s.action = .instruction "NOP" := by
  induction n generalizing number with
  | zero => simp [Statement.readLines] at member
  | succ n ih =>
    rcases List.mem_cons.mp member with rfl | later
    · rfl
    · exact ih later

theorem pass_idle (n number : Nat) (location : UInt32) :
    ∃ lines, pass .mc6800 ∅ (Statement.readLines number (List.replicate n " NOP")) location ∅ =
        .ok (lines, ∅) ∧ lines.length = n ∧ ∀ l ∈ lines, l.fault = none ∧ l.bytes.length = 1 := by
  induction n generalizing number location with
  | zero => exact ⟨[], rfl, rfl, by simp⟩
  | succ n ih =>
    obtain ⟨lines, passed, length, clean⟩ := ih (number + 1) (location + 1)
    have assembled : Target.mc6800.assemble ∅ "NOP" location = ⟨location, [1], none⟩ := rfl
    have ran : Action.run .mc6800 ∅ number location (.instruction "NOP") =
        .ok (some ⟨number, location, [1], none⟩, location + 1) := by
      simp only [Action.run, assembled]
      rfl
    have read : Statement.read number " NOP" = ⟨number, none, .instruction "NOP"⟩ := rfl
    refine ⟨⟨number, location, [1], none⟩ :: lines, ?_, by rw [List.length_cons, length], ?_⟩
    · rw [List.replicate_succ, Statement.readLines, read, pass]
      simp only [Statement.define, ran, passed, Option.toList_some, List.singleton_append]
    · simpa using clean

/-- Lines of one byte from address 0 on leave no more bytes than there are addresses. -/
theorem exists_place {lines : List Line} (single : ∀ l ∈ lines, l.bytes.length = 1)
    {image : List UInt8} (bound : image.length ≤ 0x100000000) :
    ∃ img, place 0 1 image lines = .ok img ∧ img.length ≤ 0x100000000 := by
  induction lines generalizing image with
  | nil => exact ⟨image, rfl, bound⟩
  | cons l lines ih =>
    have above : ¬l.address < 0 := UInt32.not_lt_zero
    have last := (l.address - 0).toNat_lt
    rw [place, if_neg above]
    refine ih (fun other member => single other (by simp [member])) ?_
    simp only [overlay, List.rightpad, List.length_append, List.length_take, List.length_replicate,
      List.length_drop, single l (by simp)]
    omega

theorem length_sweep_le {Mode Reg : Type} (m : Machine Mode Reg) (symbols : Symbols) (style : Style)
    (fuel : Nat) (r : Reader) : (m.sweep symbols style fuel r).1.length ≤ fuel := by
  induction fuel generalizing r with
  | zero => exact Nat.le_refl 0
  | succ fuel ih =>
    rw [Machine.sweep]
    split
    · exact Nat.succ_le_succ (ih _)
    · exact Nat.zero_le _

/-- Beyond as many instructions as there are addresses, an image has lost some. -/
theorem decodeAll_lt_of_overlong {n : Nat} (long : 0x100000000 < n) :
    ∃ p img, assemble .mc6800 (String.ofList (idle n)) 0 = .ok p ∧ p.image = .ok img ∧
      (∀ s ∈ Statement.ofText (String.ofList (idle n)), s.action.isDirective = false) ∧
      ∀ symbols style, (Target.mc6800.decodeAll symbols style
        (Memory.reader ⟨0, img, .byte⟩)).1.length < p.lines.length := by
  obtain ⟨lines, passed, length, clean⟩ := pass_idle n 1 0
  obtain ⟨img, laid, bound⟩ := @exists_place lines (fun l member => (clean l member).2) [] (by simp)
  refine ⟨⟨0, 1, lines, ∅⟩, img, ?_, laid, ?_, fun symbols style => ?_⟩
  · rw [← ofText_idle] at passed
    exact assemble_of_pass passed fun l member => (clean l member).1
  · intro s member
    rw [action_idle (ofText_idle n ▸ member)]
    rfl
  · have swept := length_sweep_le Target.mc6800.machine symbols style img.length
      (Memory.reader ⟨0, img, .byte⟩)
    rw [length]
    exact Nat.lt_of_le_of_lt (Nat.le_trans swept bound) long

end Program

end CrossAsm
