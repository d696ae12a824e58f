import CrossAsm.Proofs.Source.Origin
import CrossAsm.Proofs.Symbols.History
import CrossAsm.Proofs.Symbols.Reload

/-! The label table that is written for a finished program. It lists names by the addresses they are
shown for, so of the labels at one address only the first is in it. The others are lost for whoever
reads the table back. -/

namespace CrossAsm

namespace Symbols

variable {defs : List (String × UInt32)} {name : String} {address : UInt32}

theorem mem_shown_iff {s : Symbols} :
    (name, address) ∈ s.shown ↔ s.name? address = some name := by
  rw [name?, ← SortedMap.mem_toList_iff (e := (address, name))]
  simp [shown]

/-- Where no name is defined twice, a name has the value of its definition. -/
theorem value?_ofList_iff (once : (defs.map (·.1)).Nodup) :
    (ofList defs).value? name = some address ↔ (name, address) ∈ defs := by
  refine ⟨mem_of_value?_ofList, fun defined => ?_⟩
  induction defs using List.reverseRecOn with
  | nil => simp at defined
  | append_singleton defs d ih =>
    rw [List.map_append, List.nodup_append] at once
    rw [ofList_concat, value?_define]
    rcases List.mem_append.mp defined with earlier | last
    · have other : name ≠ d.1 := once.2.2 name (List.mem_map_of_mem earlier) d.1 (by simp)
      rw [if_neg other, ih once.1 earlier]
    · obtain rfl := List.mem_singleton.mp last
      rw [if_pos rfl]

/-- Where no name is defined twice, the first name defined at an address is the one shown for it. -/
theorem name?_ofList_eq (once : (defs.map (·.1)).Nodup) (address : UInt32) :
    (ofList defs).name? address = (defs.find? (·.2 == address)).map (·.1) := by
  induction defs using List.reverseRecOn with
  | nil => rfl
  | append_singleton defs d ih =>
    rw [List.map_append, List.nodup_append] at once
    rw [ofList_concat, (consistent_ofList defs).name?_define_eq, ih once.1, List.find?_append]
    -- A name that is new is shown nowhere, so its definition takes no name away.
    have unseen : (defs.find? (·.2 == address)).map (·.1) ≠ some d.1 := by
      intro shown
      obtain ⟨e, found, same⟩ := Option.map_eq_some_iff.mp shown
      exact once.2.2 e.1 (List.mem_map_of_mem (List.mem_of_find?_eq_some found)) d.1 (by simp) same
    by_cases here : address = d.2
    · rw [if_pos here, ← here, ih once.1]
      cases defs.find? (·.2 == address) <;> simp [here]
    · rw [if_neg here, if_neg unseen]
      cases defs.find? (·.2 == address) <;> simp [Ne.symm here]

theorem mem_shown_ofList_iff (once : (defs.map (·.1)).Nodup) :
    (name, address) ∈ (ofList defs).shown ↔
      defs.find? (·.2 == address) = some (name, address) := by
  rw [mem_shown_iff, name?_ofList_eq once, Option.map_eq_some_iff]
  constructor
  · rintro ⟨d, found, rfl⟩
    have place : d.2 = address := by simpa using List.find?_some found
    rw [found, ← place]
  · intro found
    exact ⟨_, found, rfl⟩

/-- What is shown was defined, so it is everything if no definition is missing. -/
theorem shown_perm_iff_subset (once : (defs.map (·.1)).Nodup) :
    (ofList defs).shown.Perm defs ↔ defs ⊆ (ofList defs).shown := by
  refine ⟨fun all => all.symm.subset, fun covered => ?_⟩
  refine (List.perm_ext_iff_of_nodup (nodup_shown defs).of_map once.of_map).mpr fun d => ?_
  exact ⟨fun listed => List.mem_of_find?_eq_some ((mem_shown_ofList_iff once).mp listed), @covered d⟩

/-- All definitions are shown exactly if no two of them are at one address. -/
theorem shown_perm_iff (once : (defs.map (·.1)).Nodup) :
    (ofList defs).shown.Perm defs ↔ (defs.map (·.2)).Nodup := by
  constructor
  · intro all
    refine (all.map (·.2)).nodup_iff.mp ?_
    rw [shown, List.map_map, List.Nodup, List.pairwise_map]
    exact (ofList defs).names.increasing.imp fun less => UInt32.ne_of_lt (Std.compare_eq_lt.mp less)
  · intro apart
    rw [shown_perm_iff_subset once]
    rintro ⟨name, address⟩ defined
    -- Some definition at the address is found, and the addresses tell definitions apart.
    have taken : (defs.find? (·.2 == address)).isSome = true :=
      List.find?_isSome.mpr ⟨(name, address), defined, beq_self_eq_true address⟩
    obtain ⟨d, found⟩ := Option.isSome_iff_exists.mp taken
    have place : d.2 = address := by simpa using List.find?_some found
    rw [mem_shown_ofList_iff once, found,
      List.inj_on_of_nodup_map apart (List.mem_of_find?_eq_some found) defined place]

/-- The table read back from its text has the shown names. It gives every name its value exactly if
no two definitions are at one address. -/
theorem exists_reloaded (once : (defs.map (·.1)).Nodup) :
    ∃ loaded, ofText? (ofList defs).json.text = some loaded ∧
      (∀ name address, loaded.value? name = some address ↔ (name, address) ∈ (ofList defs).shown) ∧
      ((∀ name ∈ defs.map (·.1), loaded.value? name = (ofList defs).value? name) ↔
        (defs.map (·.2)).Nodup) := by
  have read (name : String) (address : UInt32) :
      (ofList (ofList defs).shown).value? name = some address ↔ (name, address) ∈ (ofList defs).shown :=
    value?_ofList_iff (nodup_shown defs)
  refine ⟨ofList (ofList defs).shown, by rw [ofText?, definitions?_json, Option.map_some], read, ?_⟩
  rw [← shown_perm_iff once, shown_perm_iff_subset once]
  constructor
  · rintro kept ⟨name, address⟩ defined
    rw [← read, kept name (List.mem_map_of_mem defined), value?_ofList_iff once]
    exact defined
  · intro all name defined
    obtain ⟨⟨name, address⟩, member, rfl⟩ := List.mem_map.mp defined
    rw [(read name address).mpr (all member), (value?_ofList_iff once).mpr member]

/-- Definitions that have their values in a table are given by their names. -/
theorem eq_filterMap_of_valued {s : Symbols} (valued : ∀ d ∈ defs, s.value? d.1 = some d.2) :
    defs = (defs.map (·.1)).filterMap fun name => (s.value? name).map (name, ·) := by
  induction defs with
  | nil => rfl
  | cons d defs ih =>
    obtain ⟨here, later⟩ := List.forall_mem_cons.mp valued
    simp [here, ← ih later]

end Symbols

/-- A pass defines the labels of its statements one after the other, each under a new name. -/
theorem exists_definitions_of_pass {t : Target} {known before after : Symbols}
    {statements : List Statement} {location : UInt32} {lines : List Line}
    (passed : pass t known statements location before = .ok (lines, after)) :
    ∃ defs : List (String × UInt32), defs.map (·.1) = Statement.labels statements ∧
      after = defs.foldl (fun s d => s.define d.1 d.2) before ∧
      (defs.map (·.1)).Nodup ∧ ∀ d ∈ defs, before.value? d.1 = none := by
  induction statements generalizing location before lines with
  | nil =>
    simp only [pass, Except.ok.injEq, Prod.mk.injEq] at passed
    exact ⟨[], rfl, passed.2.symm, by simp, by simp⟩
  | cons s rest ih =>
    obtain ⟨middle, line, next, more, defined, -, later, -⟩ := pass_cons_eq_ok passed
    obtain ⟨defs, names, rfl, once, fresh⟩ := ih later
    rcases Statement.define_eq_ok defined with ⟨unlabelled, rfl⟩ | ⟨name, labelled, new, rfl⟩
    · exact ⟨defs, by simp [Statement.labels, unlabelled, names], rfl, once, fresh⟩
    · -- What is new after this label was new before it, and is not this label.
      have apart : ∀ d ∈ defs, d.1 ≠ name ∧ before.value? d.1 = none := by
        intro d member
        have unknown := fresh d member
        rw [Symbols.value?_define] at unknown
        split at unknown
        · simp at unknown
        next other => exact ⟨other, unknown⟩
      refine ⟨(name, location) :: defs, by simp [Statement.labels, labelled, names], rfl, ?_, ?_⟩
      · rw [List.map_cons, List.nodup_cons]
        refine ⟨fun again => ?_, once⟩
        obtain ⟨d, member, same⟩ := List.mem_map.mp again
        exact (apart d member).1 same
      · exact List.forall_mem_cons.mpr ⟨new, fun d member => (apart d member).2⟩

namespace Placed

/-- The label of a statement, if it has one, with the location where it stands. -/
def label? (p : Placed) : Option (String × UInt32) := p.statement.label.map (·, p.location)

theorem map_label? (placed : List Placed) :
    (placed.filterMap label?).map (·.1) = Statement.labels (placed.map statement) := by
  simp only [Statement.labels, List.map_filterMap, List.filterMap_map]
  refine List.filterMap_congr fun p _ => ?_
  cases p with
  | mk s location bytes => cases named : s.label <;> simp [label?, named]

theorem mem_label?_iff {placed : List Placed} {name : String} {address : UInt32} :
    (name, address) ∈ placed.filterMap label? ↔
      ∃ p ∈ placed, p.statement.label = some name ∧ p.location = address := by
  simp [label?, List.mem_filterMap]

/-- The table after a pass is made of the labels where they stand. -/
theorem Labels.eq_ofList {t : Target} {known after : Symbols} {placed : List Placed}
    {location : UInt32} {lines : List Line} (labels : Labels placed ∅ after)
    (passed : pass t known (placed.map statement) location ∅ = .ok (lines, after)) :
    after = Symbols.ofList (placed.filterMap label?) ∧
      ((placed.filterMap label?).map (·.1)).Nodup := by
  obtain ⟨defs, names, made, once, -⟩ := exists_definitions_of_pass passed
  have table : after = Symbols.ofList defs := made
  have valued : ∀ d ∈ defs, after.value? d.1 = some d.2 := by
    intro d member
    rw [table]
    exact (Symbols.value?_ofList_iff once).mpr member
  have written : ∀ d ∈ placed.filterMap label?, after.value? d.1 = some d.2 := by
    intro d member
    obtain ⟨p, listed, named, place⟩ := mem_label?_iff.mp member
    rw [← place]
    exact labels.written p listed d.1 named
  -- Both lists have the labels of the text as names, and the values of the table.
  have same : defs = placed.filterMap label? := by
    rw [Symbols.eq_filterMap_of_valued valued, Symbols.eq_filterMap_of_valued written, names,
      map_label?]
  exact ⟨same ▸ table, same ▸ once⟩

end Placed

namespace Program

/-- Every label of a finished program has one value, the location where it stands. The written table
lists the first label at each address and nothing else. It is complete, and gives every label its
value when it is read back, exactly if no two labels stand at one address. -/
theorem labels_listed_iff (t : Target) (text : String) (start : UInt32) (p : Program)
    (finished : assemble t text start = .ok p) :
    ∃ placed : List Placed,
      placed.map Placed.statement = Statement.ofText text ∧
      Placed.Course t p.symbols start placed ∧
      let labels := placed.filterMap Placed.label?
      labels.map (·.1) = Statement.labels (Statement.ofText text) ∧ (labels.map (·.1)).Nodup ∧
      (∀ name address, p.symbols.value? name = some address ↔ (name, address) ∈ labels) ∧
      (∀ name address, (name, address) ∈ p.symbols.shown ↔
        labels.find? (·.2 == address) = some (name, address)) ∧
      (p.symbols.shown.map (·.1)).Nodup ∧
      (p.symbols.shown.Perm labels ↔ (labels.map (·.2)).Nodup) ∧
      ∃ loaded, Symbols.ofText? p.symbols.json.text = some loaded ∧
        (∀ name address, loaded.value? name = some address ↔ (name, address) ∈ p.symbols.shown) ∧
        ((∀ name ∈ labels.map (·.1), loaded.value? name = p.symbols.value? name) ↔
          (labels.map (·.2)).Nodup) := by
  obtain ⟨-, -, passed, clean⟩ := settle_eq_ok finished
  obtain ⟨placed, same, -, course, labels⟩ := Placed.exists_of_pass passed clean
  obtain ⟨table, once⟩ := labels.eq_ofList (same.symm ▸ passed)
  refine ⟨placed, same, course, same ▸ Placed.map_label? placed, once, ?_⟩
  rw [table]
  exact ⟨fun _ _ => Symbols.value?_ofList_iff once, fun _ _ => Symbols.mem_shown_ofList_iff once,
    Symbols.nodup_shown _, Symbols.shown_perm_iff once, Symbols.exists_reloaded once⟩

/-- Two labels at two addresses, the second used before it stands. -/
theorem labels_listed_apart :
    ∃ p loaded, assemble .mc6800 "A: BRA B\nB: NOP\n" 0x100 = .ok p ∧
      p.symbols.shown = [("A", 0x100), ("B", 0x102)] ∧
      Symbols.ofText? p.symbols.json.text = some loaded ∧
      loaded.value? "A" = some 0x100 ∧ loaded.value? "B" = some 0x102 := by
  obtain ⟨p, finished, listed⟩ := exists_of_toOption
    (show (assemble .mc6800 "A: BRA B\nB: NOP\n" 0x100).toOption.map (·.symbols.shown) =
      some [("A", 0x100), ("B", 0x102)] by decide +kernel)
  obtain ⟨placed, -, -, -, -, -, -, -, -, loaded, read, values, -⟩ :=
    labels_listed_iff _ _ _ p finished
  exact ⟨p, loaded, finished, listed, read, (values _ _).mpr (by simp [listed]),
    (values _ _).mpr (by simp [listed])⟩

/-- A label on a line of its own and one on the line below: the table has the first alone, and the
second has no value in it. -/
theorem second_label_unlisted :
    Statement.labels (Statement.ofText "A:\nB: NOP\n") = ["A", "B"] ∧
      ∃ p loaded, assemble .mc6800 "A:\nB: NOP\n" 0x100 = .ok p ∧
        p.symbols.value? "A" = some 0x100 ∧ p.symbols.value? "B" = some 0x100 ∧
        p.symbols.shown = [("A", 0x100)] ∧
        Symbols.ofText? p.symbols.json.text = some loaded ∧
        loaded.value? "A" = some 0x100 ∧ loaded.value? "B" = none := by
  obtain ⟨p, finished, rfl⟩ := exists_of_toOption
    (show (assemble .mc6800 "A:\nB: NOP\n" 0x100).toOption.map id =
      some ⟨0x100, 1, [⟨2, 0x100, [0x01], none⟩], .ofList [("A", 0x100), ("B", 0x100)]⟩
      by decide +kernel)
  refine ⟨by decide +kernel, _, .ofList [("A", 0x100)], finished, ?_⟩
  decide +kernel

end Program

end CrossAsm
