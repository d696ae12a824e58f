import CrossAsm.Proofs.Ladder

/-! What displacements are measured from. However an instruction is put together, its bytes are those
of its head and of its extensions, stage by stage and in the order they were added, and each extension
is as long as the layout made it. So the base that the layout measures from is the one that the
finished bytes have, and every displacement in them leads to its target. -/

namespace CrossAsm

namespace Draft

/-- A step in putting an instruction together. -/
inductive Call where
  /-- Takes over the form of a page, and an opcode. Extensions already there stay. -/
  | start (lead : List UInt8) (gap opcodeCells : Nat) (opcode : BitVec 32)
  | embed (field : BitVec 32) (pos width : Nat)
  | setOpcode (opcode : BitVec 32)
  | emit (stage : Stage) (value : Int) (bytes column : Nat)
  | emitIn (endian : Endian) (stage : Stage) (value : Int) (bytes column : Nat)
  | relative (stage : Stage) (target : Int) (bytes : Nat) (undefined : Bool) (column : Nat)
  | ladder (stage : Stage) (value : Int) (relative : Bool) (force : Option Force)
      (undefined : Bool) (column : Nat)

namespace Call

def apply (d : Draft) : Call → Draft
  | start lead gap opcodeCells opcode => { d with lead, gap, opcodeCells, opcode }
  | embed field pos width => d.embed field pos width
  | setOpcode opcode => d.setOpcode opcode
  | emit stage value bytes column => d.emit stage value bytes column
  | emitIn endian stage value bytes column => d.extend stage (.number value bytes endian) column
  | relative stage target bytes undefined column =>
    d.extend stage (.relative target bytes undefined) column
  | ladder stage value measured force undefined column =>
    d.extend stage (.ladder value measured force undefined) column

/-- The extension that a call adds. -/
def extension? (config : Config) : Call → Option Extension
  | emit stage value bytes column => some ⟨stage, .number value bytes config.endian, column⟩
  | emitIn endian stage value bytes column => some ⟨stage, .number value bytes endian, column⟩
  | relative stage target bytes undefined column =>
    some ⟨stage, .relative target bytes undefined, column⟩
  | ladder stage value measured force undefined column =>
    some ⟨stage, .ladder value measured force undefined, column⟩
  | _ => none

theorem apply_frame (d : Draft) (c : Call) :
    (c.apply d).address = d.address ∧ (c.apply d).config = d.config ∧
      (c.apply d).extensions = d.extensions ++ (c.extension? d.config).toList := by
  cases c <;> simp [apply, extension?, Draft.embed, Draft.setOpcode, Draft.emit, Draft.extend]

end Call

/-- The instruction that calls put together, one after the other. -/
def built (address : UInt32) (config : Config) (calls : List Call) : Draft :=
  calls.foldl Call.apply { address, config }

theorem built_frame (address : UInt32) (config : Config) (calls : List Call) :
    (built address config calls).address = address ∧ (built address config calls).config = config ∧
      (built address config calls).extensions = calls.filterMap (Call.extension? config) := by
  have run (d : Draft) :
      (calls.foldl Call.apply d).address = d.address ∧
      (calls.foldl Call.apply d).config = d.config ∧
      (calls.foldl Call.apply d).extensions =
        d.extensions ++ calls.filterMap (Call.extension? d.config) := by
    induction calls generalizing d with
    | nil => simp
    | cons c calls ih =>
      obtain ⟨address, config, extensions⟩ := c.apply_frame d
      obtain ⟨place, same, more⟩ := ih (c.apply d)
      refine ⟨place.trans address, same.trans config, ?_⟩
      rw [List.foldl_cons, more, extensions, config, List.append_assoc]
      cases added : c.extension? d.config <;> simp [added]
  exact run { address, config }

end Draft

namespace Rung

/-- The rung has at most four bytes, and everything it holds is in the two's complement range of the
bits behind its tag. -/
structure Framed (r : Rung) : Prop where
  word : r.bytes ≤ 4
  inside : ∀ v, r.holds v = true → -(twoPow r.bits : Int) ≤ 2 * v ∧ 2 * v < twoPow r.bits

/-- The bits behind the tag are those of the number, whatever the tag is. -/
theorem signExtend_encode {r : Rung} (framed : r.Framed) {v : Int} (holds : r.holds v = true) :
    signExtend (Endian.big.number (r.encode v)) r.bits = v := by
  obtain ⟨low, high⟩ := framed.inside v holds
  have divides : (twoPow r.bits : Int) ∣ twoPow (8 * r.bytes) := by
    rw [twoPow_eq, twoPow_eq]
    exact Int.natCast_dvd_natCast.mpr (Nat.pow_dvd_pow 2 (Nat.sub_le _ _))
  -- The tag stands above these bits, so it is gone modulo them.
  have kept : (Endian.big.number (r.encode v) : Int) % twoPow r.bits = v % twoPow r.bits := by
    rw [encode, Endian.number_put _ _ framed.word, Int.emod_emod_of_dvd _ divides, Int.add_comm,
      Int.add_mul_emod_self_right, Int.emod_emod_of_dvd _ (dvd_refl _)]
  rw [signExtend, ← Int.emod_bmod, kept, Int.emod_bmod]
  apply Int.bmod_eq_of_le <;> omega

end Rung

namespace Extension

/-- A field of fixed width has from one to four bytes. -/
def proper (e : Extension) : Bool :=
  match e.field with
  | .number _ bytes _ | .relative _ bytes _ => 1 ≤ bytes ∧ bytes ≤ 4
  | .ladder .. => true

/-- The sizes an extension may have: its width, or the size of a rung. -/
def Sized (ladder : List Rung) (e : Extension) (n : Nat) : Prop :=
  match e.field with
  | .number _ bytes _ | .relative _ bytes _ => n = bytes
  | .ladder .. => (∃ rung ∈ ladder, rung.bytes = n) ∨ ladder = [] ∧ n = 0

/-- The bytes of a plain number. -/
def Keeps (e : Extension) (chunk : List UInt8) : Prop :=
  match e.field with
  | .number value bytes endian => chunk = endian.put bytes value
  | _ => True

/-- A known displacement in these bytes, measured from `base`, leads to its target. On the ladder it
stands behind the tag of a rung as long as the bytes are. -/
def Leads (config : Config) (base : Int) (e : Extension) (chunk : List UInt8) : Prop :=
  match e.field with
  | .relative target bytes false =>
    base + signExtend (config.endian.number chunk) (8 * bytes) = target
  | .ladder target true _ false =>
    ∃ rung ∈ config.ladder, rung.bytes = chunk.length ∧
      base + signExtend (Endian.big.number chunk) rung.bits = target
  | _ => True

variable {config : Config} {base : Int} {e : Extension} {n : Nat}

theorem sized_ladder_size (ladder : List Rung) (v : Int) (force : Option Force) (undefined : Bool) :
    (∃ rung ∈ ladder, rung.bytes = Ladder.size ladder v force undefined) ∨
      ladder = [] ∧ Ladder.size ladder v force undefined = 0 := by
  by_cases full : ladder = []
  · right
    subst full
    refine ⟨rfl, ?_⟩
    rcases force with _ | _ | _ <;> cases undefined <;> rfl
  · exact .inl (Ladder.exists_size full v force undefined)

theorem sized_initialSize (ladder : List Rung) (e : Extension) :
    e.Sized ladder (e.initialSize ladder) := by
  obtain ⟨stage, field, column⟩ := e
  cases field with
  | number value bytes endian => rfl
  | relative target bytes undefined => rfl
  | ladder value relative force undefined =>
    cases relative <;> exact sized_ladder_size ladder _ force undefined

theorem Sized.grownSize {ladder : List Rung} (sized : e.Sized ladder n) (base : Int) :
    e.Sized ladder (e.grownSize ladder base n) := by
  obtain ⟨stage, field, column⟩ := e
  cases field with
  | number value bytes endian => exact sized
  | relative target bytes undefined => exact sized
  | ladder value relative force undefined =>
    cases relative with
    | false => exact sized
    | true =>
      -- The larger of two sizes is one of them.
      have asked := sized_ladder_size ladder (value - base) force undefined
      change (∃ rung ∈ ladder, rung.bytes = max n _) ∨ ladder = [] ∧ max n _ = 0
      rcases Nat.le_total n (Ladder.size ladder (value - base) force undefined) with less | more
      · rwa [Nat.max_eq_right less]
      · rwa [Nat.max_eq_left more]

theorem narrow_of_proper (proper : e.proper = true) : e.narrow = true := by
  obtain ⟨stage, field, column⟩ := e
  cases field <;> simp_all [Extension.proper, narrow]

/-- An extension is as long as its size, in order or not. -/
theorem length_render_of_sized (word : ∀ rung ∈ config.ladder, rung.bytes ≤ 4)
    (proper : e.proper = true) (sized : e.Sized config.ladder n) :
    (e.render config base n).1.length = n := by
  have narrow := narrow_of_proper proper
  obtain ⟨stage, field, column⟩ := e
  cases field with
  | number value bytes endian =>
    obtain rfl : n = bytes := sized
    have short : n ≤ 4 := by simpa [Extension.narrow] using narrow
    simp [render, short]
  | relative target bytes undefined =>
    obtain rfl : n = bytes := sized
    have short : n ≤ 4 := by simpa [Extension.narrow] using narrow
    simp [render, short]
  | ladder value relative force undefined =>
    cases found : config.ladder.find? (·.bytes == n) with
    | none => simp [render, found]
    | some rung =>
      have same : rung.bytes = n := by simpa using List.find?_some found
      have length (v : Int) : (rung.encode v).length = n := by
        rw [Rung.encode, Endian.length_put, Nat.min_eq_left
          (word rung (List.mem_of_find?_eq_some found)), same]
      simp only [render, found]
      generalize (if undefined then 0 else if relative then value - base else value) = v
      split <;> exact length _

/-- A displacement that is in order leads to its target. -/
theorem leads_of_clean (framed : ∀ rung ∈ config.ladder, rung.Framed) (proper : e.proper = true)
    (clean : (e.render config base n).2 = none) : e.Leads config base (e.render config base n).1 := by
  obtain ⟨stage, field, column⟩ := e
  cases field with
  | number value bytes endian => trivial
  | relative target bytes undefined =>
    cases undefined with
    | true => trivial
    | false =>
      obtain ⟨positive, short⟩ : 1 ≤ bytes ∧ bytes ≤ 4 := by simpa [Extension.proper] using proper
      have fits : fitsSigned (target - base) (8 * bytes) = true := by simpa [render] using clean
      have stored : signExtend (config.endian.number (config.endian.put bytes (target - base)))
          (8 * bytes) = target - base := by
        apply signExtend_of_fitsSigned (by omega) fits
        rw [config.endian.number_put _ short, Int.emod_emod_of_dvd _ (dvd_refl _)]
      simp only [Leads, render, Bool.false_eq_true, if_false, stored, add_sub_cancel]
  | ladder value relative force undefined =>
    cases relative with
    | false => trivial
    | true =>
      cases undefined with
      | true => trivial
      | false =>
        obtain ⟨rung, member, -, holds, encoded⟩ :=
          exists_rung_of_clean stage (v := value - base) rfl clean
        have frame := framed rung member
        refine ⟨rung, member, ?_, ?_⟩
        · rw [encoded, Rung.encode, Endian.length_put, Nat.min_eq_left frame.word]
        · rw [encoded, Rung.signExtend_encode frame holds, add_sub_cancel]

end Extension

namespace Draft

/-- Every round of growth leaves each extension a size that it may have. -/
theorem sized_grow {d : Draft} {sizes : List Nat}
    (sized : List.Forall₂ (Extension.Sized d.config.ladder) d.extensions sizes) :
    List.Forall₂ (Extension.Sized d.config.ladder) d.extensions (d.grow sizes) := by
  unfold grow
  generalize d.base (d.length sizes) = base
  generalize d.extensions = exts at sized
  induction sized with
  | nil => exact .nil
  | cons first _ ih => exact .cons (first.grownSize base) ih

theorem sized_sizes (d : Draft) :
    List.Forall₂ (Extension.Sized d.config.ladder) d.extensions d.sizes := by
  have rounds (n : Nat) : List.Forall₂ (Extension.Sized d.config.ladder) d.extensions
      (Nat.repeat d.grow n (d.extensions.map (Extension.initialSize d.config.ladder))) := by
    induction n with
    | zero =>
      rw [Nat.repeat, List.forall₂_map_right_iff, List.forall₂_same]
      exact fun e _ => Extension.sized_initialSize d.config.ladder e
    | succ n ih => exact sized_grow ih
  exact rounds _

/-- The bytes of the chunks in one stage, in their order. -/
def inStage (stage : Stage) (chunks : List (Extension × List UInt8)) : List UInt8 :=
  chunks.flatMap fun c => if c.1.stage = stage then c.2 else []

/-- The instruction with its extensions cut into chunks, one for each in the order they were
added. -/
structure Cut (d : Draft) (chunks : List (Extension × List UInt8)) : Prop where
  extensions : chunks.map (·.1) = d.extensions
  lengths : chunks.map (·.2.length) = d.sizes
  sized : ∀ c ∈ chunks, c.1.Sized d.config.ladder c.2.length
  keeps : ∀ c ∈ chunks, c.1.Keeps c.2
  bytes : d.bytes = d.lead ++ inStage .gap chunks ++
    d.config.endian.put d.opcodeBytes d.opcode.toNat ++ inStage .index chunks ++
    inStage .payload chunks
  length : d.bytes.length = d.lead.length + d.opcodeBytes + (chunks.map (·.2.length)).foldr (· + ·) 0
  leads : d.fault? = none → ∀ c ∈ chunks, c.1.Leads d.config (d.base d.bytes.length) c.2

theorem exists_cut {d : Draft} (framed : ∀ rung ∈ d.config.ladder, rung.Framed)
    (proper : ∀ e ∈ d.extensions, e.proper = true) (short : d.opcodeBytes ≤ 4) :
    ∃ chunks, d.Cut chunks := by
  obtain ⟨size, sizes, -⟩ := d.exists_sizes
  have sized : ∀ e ∈ d.extensions, e.Sized d.config.ladder (size e) := by
    have all := d.sized_sizes
    rwa [sizes, List.forall₂_map_right_iff, List.forall₂_same] at all
  have long : ∀ e ∈ d.extensions, (e.render d.config d.finalBase (size e)).1.length = size e :=
    fun e member => Extension.length_render_of_sized (fun rung own => (framed rung own).word)
      (proper e member) (sized e member)
  have bytes := bytes_of_sizes sizes
  -- The layout measured from the length that its sizes give, and that is the length of the bytes.
  have length : d.bytes.length = d.length d.sizes := by
    have shared := Extension.length_shown d.config d.finalBase size d.extensions
    rw [List.map_congr_left long, ← sizes] at shared
    rw [Draft.length, ← shared, bytes]
    simp only [List.length_append, Endian.length_put, Nat.min_eq_left short]
    omega
  have lengths : (d.extensions.map fun e => (e.render d.config d.finalBase (size e)).1.length) =
      d.sizes := by
    rw [sizes]
    exact List.map_congr_left long
  refine ⟨d.extensions.map fun e => (e, (e.render d.config d.finalBase (size e)).1),
    { extensions := by simp [Function.comp_def]
      lengths := by simpa [Function.comp_def] using lengths
      sized := ?_, keeps := ?_
      bytes := by simpa only [inStage, List.flatMap_map, Extension.shown] using bytes
      length := by
        rw [length, Draft.length, ← lengths, List.map_map]
        rfl
      leads := ?_ }⟩
  · rintro c member
    obtain ⟨e, present, rfl⟩ := List.mem_map.mp member
    rw [long e present]
    exact sized e present
  · rintro c member
    obtain ⟨⟨stage, field, column⟩, present, rfl⟩ := List.mem_map.mp member
    cases field with
    | number value bytes endian => rfl
    | relative target bytes undefined => trivial
    | ladder value relative force undefined => trivial
  · rintro clean c member
    obtain ⟨e, present, rfl⟩ := List.mem_map.mp member
    rw [length]
    exact Extension.leads_of_clean framed (proper e present)
      ((fault?_eq_none_iff sizes).mp clean e present)

/-- However an instruction is put together, it has the bytes of its head and of its extensions, stage
by stage in the order they were added. Where nothing is reported, every known displacement in it,
added to the base that the finished bytes have, gives its target. -/
theorem built_cut (address : UInt32) (config : Config) (calls : List Call)
    (framed : ∀ rung ∈ config.ladder, rung.Framed)
    (proper : ∀ e ∈ calls.filterMap (Call.extension? config), e.proper = true)
    (short : (built address config calls).opcodeBytes ≤ 4) :
    (built address config calls).address = address ∧
      (built address config calls).config = config ∧
      ∃ chunks, (built address config calls).Cut chunks ∧
        chunks.map (·.1) = calls.filterMap (Call.extension? config) := by
  obtain ⟨place, same, extensions⟩ := built_frame address config calls
  obtain ⟨chunks, cut⟩ := exists_cut (by rw [same]; exact framed) (by rw [extensions]; exact proper)
    short
  exact ⟨place, same, chunks, cut, cut.extensions.trans extensions⟩

/-- A target one too far for the short rung, whose longer form brings it within reach of that again,
with extensions in every stage around it. -/
theorem built_cut_grown :
    let config : Config :=
      { endian := .big, ladder := [⟨1, 0, 1, -64, 63⟩, ⟨2, 2, 2, -8192, 8191⟩] }
    let calls : List Call :=
      [.start [0xDD] 1 1 0x20, .embed 3 0 2, .relative .payload 0x1010 1 false 2,
        .ladder .payload 0x1046 true none false 5, .emit .gap 5 1 9, .emit .index 0x12 1 11]
    let d := built 0x1000 config calls
    d.bytes = [0xDD, 0x05, 0x23, 0x12, 0x09, 0x80, 0x3F] ∧ d.fault? = none ∧
      ∃ chunks, d.Cut chunks ∧ chunks.map (·.1) = calls.filterMap (Call.extension? config) := by
  intro config calls d
  have framed : ∀ rung ∈ config.ladder, rung.Framed := by
    have ends : ∀ rung ∈ config.ladder, rung.bytes ≤ 4 ∧
        -(twoPow rung.bits : Int) ≤ 2 * rung.min ∧ 2 * rung.max < twoPow rung.bits := by decide
    intro rung member
    obtain ⟨word, low, high⟩ := ends rung member
    refine ⟨word, fun v holds => ?_⟩
    simp only [Rung.holds, decide_eq_true_eq] at holds
    omega
  exact ⟨by decide, by decide, (built_cut 0x1000 config calls framed (by decide) (by decide)).2.2⟩

end Draft

end CrossAsm
