import CrossAsm.Layout
import CrossAsm.Proofs.Field

/-! The layout of an instruction. Every extension has a size of its own, and the bytes of each stage
are those of the extensions one by one. Where displacements are measured from the start of the
instruction, or none has a variable length, the sizes are found in one round. -/

namespace CrossAsm

variable {Mode : Type}

namespace Extension

/-- The bytes of one stage when every extension has a size of its own. -/
def shown (config : Config) (base : Int) (size : Extension → Nat) (stage : Stage)
    (exts : List Extension) : List UInt8 :=
  exts.flatMap fun e => if e.stage = stage then (e.render config base (size e)).1 else []

section Shown

variable (config : Config) (base : Int) (size : Extension → Nat) (stage : Stage)

@[simp] theorem shown_nil : shown config base size stage [] = [] := rfl

@[simp] theorem shown_append (left right : List Extension) :
    shown config base size stage (left ++ right) =
      shown config base size stage left ++ shown config base size stage right := by
  simp [shown]

theorem shown_singleton (e : Extension) : shown config base size stage [e] =
    if e.stage = stage then (e.render config base (size e)).1 else [] := by
  simp [shown]

/-- The three stages share the extensions out among them, whatever their sizes. -/
theorem length_shown (exts : List Extension) :
    (shown config base size .gap exts).length + (shown config base size .index exts).length +
        (shown config base size .payload exts).length =
      (exts.map fun e => (e.render config base (size e)).1.length).foldr (· + ·) 0 := by
  induction exts with
  | nil => rfl
  | cons e exts ih =>
    have split := fun stage => shown_append config base size stage [e] exts
    simp only [List.singleton_append] at split
    simp only [split, List.length_append, List.map_cons, List.foldr_cons, shown_singleton, ← ih]
    cases e.stage <;> simp <;> omega

variable {config base}

/-- A displacement on the ladder that is in order stands on a rung that holds it. -/
theorem exists_rung_of_clean {value : Int} {relative : Bool} {force : Option Force}
    {undefined : Bool} {column n : Nat} {v : Int}
    (measured : v = if undefined then 0 else if relative then value - base else value)
    (clean : (render config base ⟨stage, .ladder value relative force undefined, column⟩ n).2 =
      none) :
    ∃ rung ∈ config.ladder, rung.bytes = n ∧ rung.holds v = true ∧
      (render config base ⟨stage, .ladder value relative force undefined, column⟩ n).1 =
        rung.encode v := by
  simp only [render, ← measured] at clean ⊢
  cases found : config.ladder.find? (·.bytes == n) with
  | none => simp [found] at clean
  | some rung =>
    have size : rung.bytes = n := by simpa using List.find?_some found
    cases inside : rung.holds v with
    | false => simp [found, inside] at clean
    | true => exact ⟨rung, List.mem_of_find?_eq_some found, size, inside, by simp [inside]⟩

end Shown

/-- The size of an extension once displacements are measured from `base`. -/
def settled (ladder : List Rung) (base : Int) (e : Extension) : Nat :=
  e.grownSize ladder base (e.initialSize ladder)

/-- The bytes of an extension and what is wrong with it, at its settled size. -/
def laid (config : Config) (base : Int) (e : Extension) : List UInt8 × Option Cause :=
  e.render config base (e.settled config.ladder base)

theorem laid_number (config : Config) (base : Int) (stage : Stage) (value : Int) (bytes : Nat)
    (endian : Endian) (column : Nat) :
    laid config base ⟨stage, .number value bytes endian, column⟩ = (endian.put bytes value, none) :=
  rfl

/-- The bytes of one stage. -/
def stageOf (config : Config) (base : Int) (stage : Stage) (exts : List Extension) : List UInt8 :=
  exts.flatMap fun e => if e.stage = stage then (e.laid config base).1 else []

@[simp] theorem stageOf_nil (config : Config) (base : Int) (stage : Stage) :
    stageOf config base stage [] = [] := rfl

@[simp] theorem stageOf_append (config : Config) (base : Int) (stage : Stage)
    (left right : List Extension) :
    stageOf config base stage (left ++ right) =
      stageOf config base stage left ++ stageOf config base stage right :=
  shown_append config base _ stage left right

theorem stageOf_singleton (config : Config) (base : Int) (stage : Stage) (e : Extension) :
    stageOf config base stage [e] = if e.stage = stage then (e.laid config base).1 else [] :=
  shown_singleton config base _ stage e

theorem grownSize_settled (ladder : List Rung) (base : Int) (e : Extension) :
    e.grownSize ladder base (e.settled ladder base) = e.settled ladder base := by
  unfold settled grownSize
  split <;> simp

theorem grownSize_no_ladder (base : Int) (e : Extension) (size : Nat) :
    e.grownSize [] base size = size := by
  unfold grownSize
  split
  next value force undefined _ =>
    have nothing : Ladder.size [] (value - base) force undefined = 0 := by
      rcases force with _ | _ | _ <;> cases undefined <;> rfl
    simp [nothing]
  · rfl

/-- May the size of the extension depend on its value? -/
def flexible (e : Extension) : Bool :=
  match e.field with
  | .ladder .. => true
  | _ => false

theorem grownSize_of_rigid {ladder : List Rung} {base : Int} {e : Extension} {size : Nat}
    (rigid : e.flexible = false) : e.grownSize ladder base size = size := by
  obtain ⟨stage, field, column⟩ := e
  cases field with
  | number value bytes endian => rfl
  | relative target bytes undefined => rfl
  | ladder value relative force undefined => simp [flexible] at rigid

/-- A field of at most four bytes. -/
def narrow (e : Extension) : Bool :=
  match e.field with
  | .number _ bytes _ => bytes ≤ 4
  | .relative _ bytes _ => bytes ≤ 4
  | .ladder .. => true

theorem length_laid {config : Config} (flat : config.ladder = []) (base : Int) {e : Extension}
    (narrow : e.narrow = true) : (e.laid config base).1.length = e.initialSize [] := by
  obtain ⟨stage, field, column⟩ := e
  rw [laid, settled, flat, grownSize_no_ladder]
  cases field with
  | number value bytes endian =>
    have four : bytes ≤ 4 := by simpa [Extension.narrow] using narrow
    simp [render, initialSize, four]
  | relative target bytes undefined =>
    have four : bytes ≤ 4 := by simpa [Extension.narrow] using narrow
    simp [render, initialSize, four]
  | ladder value relative force undefined => simp [render, flat]

theorem length_stages (config : Config) (base : Int) (exts : List Extension) :
    (stageOf config base .gap exts).length + (stageOf config base .index exts).length +
        (stageOf config base .payload exts).length =
      (exts.map fun e => (e.laid config base).1.length).foldr (· + ·) 0 :=
  length_shown config base _ exts

end Extension

/-- The first fault among extensions measured from `base`. -/
def Extension.faultOf (config : Config) (base : Int) (exts : List Extension) : Option Fault :=
  exts.findSome? fun e => (e.laid config base).2.map (·.located e.column)

theorem Extension.faultOf_eq_none {config : Config} {base : Int} {exts : List Extension}
    (clean : ∀ e ∈ exts, (e.laid config base).2 = none) : faultOf config base exts = none := by
  rw [faultOf, List.findSome?_eq_none_iff]
  intro e member
  rw [clean e member, Option.map_none]

/-- Sizes never move the place displacements are measured from. -/
def Config.steady (c : Config) : Bool := c.origin = .start || c.ladder.isEmpty

namespace Draft

/-- Where the displacements of the finished instruction are measured from. -/
def finalBase (d : Draft) : Int := d.base (d.length d.sizes)

private theorem zipWith_map_self {α β γ : Type} (f : α → β → γ) (g : α → β) (xs : List α) :
    xs.zipWith f (xs.map g) = xs.map fun x => f x (g x) := by
  induction xs with
  | nil => rfl
  | cons x xs ih => simp [ih]

/-- Every extension has a size of its own, and only displacements on the ladder may grow. -/
theorem exists_sizes (d : Draft) : ∃ size : Extension → Nat, d.sizes = d.extensions.map size ∧
    ∀ e, e.flexible = false → size e = e.initialSize d.config.ladder := by
  have rounds (n : Nat) : ∃ size : Extension → Nat,
      Nat.repeat d.grow n (d.extensions.map (Extension.initialSize d.config.ladder)) =
          d.extensions.map size ∧
        ∀ e, e.flexible = false → size e = e.initialSize d.config.ladder := by
    induction n with
    | zero => exact ⟨_, rfl, fun _ _ => rfl⟩
    | succ n ih =>
      obtain ⟨size, same, rigid⟩ := ih
      refine ⟨_, by rw [Nat.repeat, same, grow, zipWith_map_self], ?_⟩
      intro e fixed
      rw [Extension.grownSize_of_rigid fixed, rigid e fixed]
  exact rounds _

theorem chunks_of_sizes {d : Draft} {size : Extension → Nat}
    (sizes : d.sizes = d.extensions.map size) :
    d.chunks = d.extensions.map fun e => (e, e.render d.config d.finalBase (size e)) := by
  change d.extensions.zipWith (fun e size => (e, e.render d.config d.finalBase size)) d.sizes = _
  rw [sizes, zipWith_map_self]

/-- An instruction is its opcode with the bytes of every extension, in order or not. -/
theorem bytes_of_sizes {d : Draft} {size : Extension → Nat}
    (sizes : d.sizes = d.extensions.map size) :
    d.bytes = d.lead ++ Extension.shown d.config d.finalBase size .gap d.extensions ++
      d.config.endian.put d.opcodeBytes d.opcode.toNat ++
      Extension.shown d.config d.finalBase size .index d.extensions ++
      Extension.shown d.config d.finalBase size .payload d.extensions := by
  simp only [bytes, stageBytes, chunks_of_sizes sizes, List.flatMap_map]
  rfl

/-- An instruction has no fault exactly if none of its extensions has one. -/
theorem fault?_eq_none_iff {d : Draft} {size : Extension → Nat}
    (sizes : d.sizes = d.extensions.map size) :
    d.fault? = none ↔ ∀ e ∈ d.extensions, (e.render d.config d.finalBase (size e)).2 = none := by
  simp [fault?, chunks_of_sizes sizes, List.findSome?_eq_none_iff]

/-- An instruction in order is its opcode with the bytes of every extension, all in order. -/
theorem exists_shown (d : Draft) (clean : d.fault? = none) : ∃ size : Extension → Nat,
    d.sizes = d.extensions.map size ∧
      (∀ e, e.flexible = false → size e = e.initialSize d.config.ladder) ∧
      (∀ e ∈ d.extensions, (e.render d.config d.finalBase (size e)).2 = none) ∧
      d.bytes = d.lead ++ Extension.shown d.config d.finalBase size .gap d.extensions ++
        d.config.endian.put d.opcodeBytes d.opcode.toNat ++
        Extension.shown d.config d.finalBase size .index d.extensions ++
        Extension.shown d.config d.finalBase size .payload d.extensions := by
  obtain ⟨size, sizes, rigid⟩ := d.exists_sizes
  exact ⟨size, sizes, rigid, (fault?_eq_none_iff sizes).mp clean, bytes_of_sizes sizes⟩

theorem sizes_eq (d : Draft) (steady : d.config.steady) :
    d.sizes = d.extensions.map (Extension.settled d.config.ladder d.finalBase) := by
  simp only [Config.steady, Bool.or_eq_true, decide_eq_true_eq, List.isEmpty_iff] at steady
  rcases steady with start | none
  · have fixed (n : Nat) : d.base n = d.finalBase := by simp [finalBase, base, start]
    have rounds (n : Nat) :
        Nat.repeat d.grow (n + 1) (d.extensions.map (Extension.initialSize d.config.ladder)) =
          d.extensions.map (Extension.settled d.config.ladder d.finalBase) := by
      induction n with
      | zero =>
        simp only [Nat.repeat, grow, fixed, zipWith_map_self]
        rfl
      | succ n ih =>
        rw [Nat.repeat, ih, grow, fixed, zipWith_map_self]
        simp only [Extension.grownSize_settled]
    rw [sizes, rounds]
  · have unchanged : Extension.settled [] d.finalBase = Extension.initialSize [] := by
      funext e
      exact Extension.grownSize_no_ladder d.finalBase e _
    simp only [sizes, none, List.length_nil, Nat.repeat, grow, zipWith_map_self, unchanged,
      Extension.grownSize_no_ladder]

theorem chunks_eq (d : Draft) (steady : d.config.steady) :
    d.chunks = d.extensions.map fun e => (e, e.laid d.config d.finalBase) := by
  change d.extensions.zipWith (fun e size => (e, e.render d.config d.finalBase size)) d.sizes = _
  rw [sizes_eq d steady, zipWith_map_self]
  rfl

theorem stageBytes_eq (d : Draft) (steady : d.config.steady) (stage : Stage) :
    d.stageBytes stage = Extension.stageOf d.config d.finalBase stage d.extensions := by
  rw [stageBytes, chunks_eq d steady, List.flatMap_map]
  rfl

/-- The bytes when displacements are measured from `base`. -/
def bytesAt (d : Draft) (base : Int) : List UInt8 :=
  d.lead ++ Extension.stageOf d.config base .gap d.extensions ++
    d.config.endian.put d.opcodeBytes d.opcode.toNat ++
    Extension.stageOf d.config base .index d.extensions ++
    Extension.stageOf d.config base .payload d.extensions

/-- The finished bytes, stage by stage. -/
theorem bytes_eq (d : Draft) (steady : d.config.steady) :
    d.bytes = d.bytesAt d.finalBase := by
  simp only [bytes, bytesAt, stageBytes_eq d steady]

/-- The first fault of a finished instruction is that of its extensions. -/
theorem fault?_eq (d : Draft) (steady : d.config.steady) :
    d.fault? = Extension.faultOf d.config d.finalBase d.extensions := by
  rw [fault?, chunks_eq d steady, List.findSome?_map]
  rfl

theorem fault?_eq_none (d : Draft) (steady : d.config.steady)
    (clean : ∀ e ∈ d.extensions, (e.laid d.config d.finalBase).2 = none) : d.fault? = none := by
  rw [fault?_eq d steady, Extension.faultOf_eq_none clean]

/-- Displacements are measured from `base` if the bytes that this gives lead to it. -/
theorem finalBase_eq {d : Draft} {base : Int} (steady : d.config.steady)
    (narrow : ∀ e ∈ d.extensions, e.narrow = true) (short : d.opcodeBytes ≤ 4)
    (fixed : d.base (d.bytesAt base).length = base) : d.finalBase = base := by
  rw [← fixed]
  simp only [Config.steady, Bool.or_eq_true, decide_eq_true_eq, List.isEmpty_iff] at steady
  rcases steady with start | flat
  · simp [finalBase, Draft.base, start]
  · have sizes : d.sizes = d.extensions.map fun e => (e.laid d.config base).1.length := by
      rw [d.sizes_eq (by simp [Config.steady, flat])]
      apply List.map_congr_left
      intro e member
      rw [Extension.length_laid flat base (narrow e member), flat]
      exact Extension.grownSize_no_ladder _ e _
    have total : d.length d.sizes = (d.bytesAt base).length := by
      rw [length, sizes, ← Extension.length_stages]
      simp only [bytesAt, List.length_append, Endian.length_put, Nat.min_eq_left short]
      omega
    rw [finalBase, total]

/-! ### Laying operands down -/

/-- The draft with a field in the opcode and extensions behind those it has. -/
def lay (d : Draft) (slot : Slot Mode) (field : BitVec 32) (exts : List Extension) : Draft :=
  { d with opcode := d.opcode ||| slot.place field, extensions := d.extensions ++ exts }

theorem embed_eq_lay (d : Draft) (slot : Slot Mode) (field : BitVec 32) :
    d.embed field slot.pos slot.width = d.lay slot field [] := by
  simp [embed, lay, Slot.place]

theorem extend_eq_lay (d : Draft) (slot : Slot Mode) (stage : Stage) (field : Field)
    (column : Nat) : d.extend stage field column = d.lay slot 0#32 [⟨stage, field, column⟩] := by
  simp [extend, lay]

theorem eq_lay (d : Draft) (slot : Slot Mode) : d = d.lay slot 0#32 [] := by
  simp [lay]

section Frame

variable (d : Draft) (slot : Slot Mode) (field : BitVec 32) (exts : List Extension)

@[simp] theorem lay_config : (d.lay slot field exts).config = d.config := rfl

@[simp] theorem lay_address : (d.lay slot field exts).address = d.address := rfl

@[simp] theorem lay_lead : (d.lay slot field exts).lead = d.lead := rfl

@[simp] theorem lay_gap : (d.lay slot field exts).gap = d.gap := rfl

@[simp] theorem lay_opcodeCells : (d.lay slot field exts).opcodeCells = d.opcodeCells := rfl

@[simp] theorem lay_opcode : (d.lay slot field exts).opcode = d.opcode ||| slot.place field := rfl

@[simp] theorem lay_extensions : (d.lay slot field exts).extensions = d.extensions ++ exts := rfl

end Frame

end Draft

end CrossAsm
