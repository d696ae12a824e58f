import CrossAsm.Proofs.Symbols

/-! The symbol table after a history of definitions. A name has the value it was given last. The name
shown for an address is the first one given there, for as long as it stays. When it moves away the
address is without a name until something is defined there again, even where another name still has
the address as its value. -/

namespace CrossAsm

namespace SortedMap

variable {κ α : Type} [Ord κ] [Std.TransOrd κ] [Std.LawfulEqOrd κ] {m : SortedMap κ α} {k : κ}
  {e : κ × α}

theorem mem_toList_iff : e ∈ m.toList ↔ m.get? e.1 = some e.2 := by
  constructor
  · exact get?_of_mem
  · intro found
    have known : e.1 ∈ m.toList.map (·.1) := mem_keys_iff.mpr (by rw [found, Option.isSome_some])
    obtain ⟨other, listed, key⟩ := List.mem_map.mp known
    have value : some other.2 = some e.2 := by
      rw [← get?_of_mem listed, ← found]
      exact congrArg m.get? key
    obtain rfl : other = e := Prod.ext key (Option.some.inj value)
    exact listed

theorem isSome_floor?_iff :
    (m.floor? k).isSome = true ↔ ∃ l, (m.get? l).isSome = true ∧ (compare l k).isLE = true := by
  rw [floor?, List.getLast?_isSome]
  constructor
  · intro some
    obtain ⟨e, member⟩ := List.exists_mem_of_ne_nil _ some
    obtain ⟨listed, below⟩ := List.mem_filter.mp member
    exact ⟨e.1, by rw [get?_of_mem listed, Option.isSome_some], below⟩
  · rintro ⟨l, known, below⟩
    obtain ⟨e, listed, rfl⟩ := List.mem_map.mp (mem_keys_iff.mpr known)
    exact List.ne_nil_of_mem (List.mem_filter.mpr ⟨listed, below⟩)

/-- Entries increase, so the last one at or below a key has the greatest key there. -/
theorem floor?_greatest (found : m.floor? k = some e) {l : κ} (known : (m.get? l).isSome = true)
    (below : (compare l k).isLE = true) : (compare l e.1).isLE = true := by
  obtain ⟨other, listed, rfl⟩ := List.mem_map.mp (mem_keys_iff.mpr known)
  have member : other ∈ m.toList.filter fun e => (compare e.1 k).isLE :=
    List.mem_filter.mpr ⟨listed, below⟩
  have ordered : Increasing (m.toList.filter fun e => (compare e.1 k).isLE) :=
    m.increasing.filter _
  obtain ⟨front, split⟩ := List.getLast?_eq_some_iff.mp found
  rw [split] at member ordered
  rcases List.mem_append.mp member with earlier | last
  · have less := (List.pairwise_append.mp ordered).2.2 other earlier e (List.mem_singleton_self e)
    rw [less]
    rfl
  · rw [List.mem_singleton.mp last, Std.ReflOrd.compare_self]
    rfl

/-- The floor of a key is the entry with the greatest key at or below it. -/
theorem floor?_eq_some_iff : m.floor? k = some e ↔
    m.get? e.1 = some e.2 ∧ (compare e.1 k).isLE = true ∧
      ∀ l, (m.get? l).isSome = true → (compare l k).isLE = true → (compare l e.1).isLE = true := by
  constructor
  · intro found
    obtain ⟨listed, below⟩ := get?_of_floor? found
    exact ⟨listed, below, fun _ => floor?_greatest found⟩
  · rintro ⟨listed, below, greatest⟩
    have known : (m.get? e.1).isSome = true := by rw [listed, Option.isSome_some]
    obtain ⟨other, found⟩ := Option.isSome_iff_exists.mp (isSome_floor?_iff.mpr ⟨e.1, known, below⟩)
    obtain ⟨held, under⟩ := get?_of_floor? found
    -- There is a floor, and each of the two keys is at or below the other.
    have lower := greatest other.1 (by rw [held, Option.isSome_some]) under
    have upper := floor?_greatest found known below
    have key : other.1 = e.1 :=
      Std.LawfulEqCmp.eq_of_compare (Std.OrientedCmp.isLE_antisymm lower upper)
    have value : some other.2 = some e.2 := by rw [← held, ← listed, key]
    rw [found, Prod.ext key (Option.some.inj value)]

end SortedMap

namespace Symbols

/-! ### The nearest name -/

section Nearest

variable {s : Symbols} {address : UInt32}

theorem isSome_nearest?_iff :
    (s.nearest? address).isSome = true ↔ ∃ below ≤ address, (s.name? below).isSome = true := by
  rw [nearest?, Option.isSome_map, SortedMap.isSome_floor?_iff]
  constructor
  · rintro ⟨below, named, order⟩
    exact ⟨below, Std.isLE_compare.mp order, named⟩
  · rintro ⟨below, order, named⟩
    exact ⟨below, named, Std.isLE_compare.mpr order⟩

/-- The nearest name is the one shown for the greatest address at or below, and the distance leads
back to it. -/
theorem nearest?_eq_some_iff {name : String} {distance : UInt32} :
    s.nearest? address = some (name, distance) ↔
      distance ≤ address ∧ s.name? (address - distance) = some name ∧
        ∀ below ≤ address, (s.name? below).isSome = true → below ≤ address - distance := by
  have back (a b : UInt32) : a - (a - b) = b := by grind
  have floor (place : UInt32) : s.names.floor? address = some (place, name) ↔
      s.name? place = some name ∧ place ≤ address ∧
        ∀ below ≤ address, (s.name? below).isSome = true → below ≤ place := by
    simp only [SortedMap.floor?_eq_some_iff, Std.isLE_compare]
    constructor
    · rintro ⟨shown, order, greatest⟩
      exact ⟨shown, order, fun below under named => greatest below named under⟩
    · rintro ⟨shown, order, greatest⟩
      exact ⟨shown, order, fun below named under => greatest below under named⟩
  rw [nearest?, Option.map_eq_some_iff]
  constructor
  · rintro ⟨⟨place, shown⟩, found, same⟩
    obtain ⟨rfl, rfl⟩ := Prod.mk.inj same
    obtain ⟨named, order, greatest⟩ := (floor place).mp found
    rw [back]
    exact ⟨UInt32.sub_le order, named, greatest⟩
  · rintro ⟨order, named, greatest⟩
    exact ⟨(address - distance, name), (floor _).mpr ⟨named, UInt32.sub_le order, greatest⟩,
      by rw [back]⟩

end Nearest

/-! ### One definition -/

/-- A definition gives its address a name, unless it has one, and takes the defined name away from
the address it was shown for. -/
theorem Consistent.name?_define_eq {s : Symbols} (consistent : s.Consistent) (name : String)
    (value address : UInt32) :
    (s.define name value).name? address =
      if address = value then some ((s.name? value).getD name)
      else if s.name? address = some name then none
      else s.name? address := by
  have inserted {names : SortedMap UInt32 String}
      (cleared : ∀ a, names.get? a = if s.name? a = some name then none else s.name? a) :
      (names.insertIfNew value name).get? address =
        if address = value then some ((s.name? value).getD name)
        else if s.name? address = some name then none
        else s.name? address := by
    simp only [SortedMap.get?_insertIfNew, Std.LawfulEqCmp.compare_eq_iff_eq, cleared]
    by_cases own : s.name? value = some name
    · rw [if_pos own, own, Option.getD_none, Option.getD_some]
    · rw [if_neg own]
  -- A name is shown only for its value, so it is gone once it is erased there.
  unfold Symbols.define
  dsimp only
  split
  next old had =>
    have only {a : UInt32} (shown : s.name? a = some name) : a = old :=
      Option.some.inj ((consistent a name shown).symm.trans had)
    split
    next here =>
      refine inserted fun a => ?_
      rw [SortedMap.get?_erase]
      by_cases same : a = old
      · rw [same, if_pos Std.ReflCmp.compare_self, if_pos here]
      · rw [if_neg fun equal => same (Std.LawfulEqCmp.eq_of_compare equal),
          if_neg fun shown => same (only shown)]
        rfl
    next hidden =>
      refine inserted fun a => ?_
      rw [if_neg fun shown => hidden (only shown ▸ shown)]
      rfl
  next new =>
    refine inserted fun a => ?_
    rw [if_neg fun shown => ?_]
    · rfl
    · exact Option.some_ne_none _ ((consistent a name shown).symm.trans new)

/-! ### A history -/

section History

variable (defs : List (String × UInt32))

/-- Names that are listed are listed once: each has one value. -/
theorem nodup_shown : ((ofList defs).shown.map (·.1)).Nodup := by
  have consistent := consistent_ofList defs
  rw [shown, List.map_map, List.Nodup, List.pairwise_map]
  refine (ofList defs).names.increasing.imp_of_mem fun {a b} first second less same => ?_
  have place : a.1 = b.1 := by
    have one := consistent a.1 a.2 (SortedMap.get?_of_mem first)
    have two := consistent b.1 b.2 (SortedMap.get?_of_mem second)
    have name : a.2 = b.2 := same
    rw [name, two] at one
    exact (Option.some.inj one).symm
  rw [place, Std.ReflOrd.compare_self] at less
  exact nomatch less

/-- A definition leaves an address without a name if it is made elsewhere, and the address had none
before or had the one that is defined. -/
theorem name?_concat_eq_none_iff (d : String × UInt32) (address : UInt32) :
    (ofList (defs ++ [d])).name? address = none ↔
      d.2 ≠ address ∧
        ((ofList defs).name? address = some d.1 ∨ (ofList defs).name? address = none) := by
  rw [ofList_concat, (consistent_ofList defs).name?_define_eq]
  by_cases here : address = d.2
  · simp [here]
  · rw [if_neg here]
    by_cases own : (ofList defs).name? address = some d.1
    · simp [own, Ne.symm here]
    · simp [own, Ne.symm here]

/-- An address is without a name exactly if nothing was ever defined there, or if the name shown for
it moved away and nothing has been defined there since. -/
theorem name?_eq_none_iff (address : UInt32) :
    (ofList defs).name? address = none ↔
      (∀ d ∈ defs, d.2 ≠ address) ∨
        ∃ before moved after, defs = before ++ moved :: after ∧
          (ofList before).name? address = some moved.1 ∧ moved.2 ≠ address ∧
          ∀ d ∈ after, d.2 ≠ address := by
  -- By induction on the last definition, since it decides what is shown.
  induction defs using List.reverseRecOn with
  | nil => exact iff_of_true rfl (.inl nofun)
  | append_singleton defs d ih =>
    rw [name?_concat_eq_none_iff]
    constructor
    · rintro ⟨apart, own | unnamed⟩
      · exact .inr ⟨defs, d, [], rfl, own, apart, nofun⟩
      · have last : ∀ e ∈ [d], e.2 ≠ address := List.forall_mem_singleton.mpr apart
        rcases ih.mp unnamed with never | ⟨before, moved, after, rfl, shown, away, since⟩
        · exact .inl (List.forall_mem_append.mpr ⟨never, last⟩)
        · exact .inr ⟨before, moved, after ++ [d], by simp, shown, away,
            List.forall_mem_append.mpr ⟨since, last⟩⟩
    · rintro (never | ⟨before, moved, after, split, shown, away, since⟩)
      · obtain ⟨earlier, last⟩ := List.forall_mem_append.mp never
        exact ⟨last d (List.mem_singleton_self d), .inr (ih.mpr (.inl earlier))⟩
      -- The name moved away in the last definition, or it had moved away before it.
      · rcases after.eq_nil_or_concat with rfl | ⟨after, final, rfl⟩
        · obtain ⟨rfl, rfl⟩ := List.append_singleton_inj.mp split
          exact ⟨away, .inl shown⟩
        · rw [List.concat_eq_append] at split since
          obtain ⟨rfl, rfl⟩ := List.append_singleton_inj.mp
            (split.trans (List.append_assoc before (moved :: after) [final]).symm)
          obtain ⟨earlier, last⟩ := List.forall_mem_append.mp since
          exact ⟨last d (List.mem_singleton_self d),
            .inr (ih.mpr (.inr ⟨before, moved, after, rfl, shown, away, earlier⟩))⟩

/-- Where nothing more is defined at an address, the names with this value are those that had it and
are not defined again. -/
theorem value?_append_iff {before after : List (String × UInt32)} {name : String} {address : UInt32}
    (elsewhere : ∀ d ∈ after, d.2 ≠ address) :
    (ofList (before ++ after)).value? name = some address ↔
      (ofList before).value? name = some address ∧ ∀ d ∈ after, d.1 ≠ name := by
  -- A name has the value it was given in the later definitions, if any of them is of it.
  have last : (ofList (before ++ after)).value? name =
      ((ofList after).value? name).or ((ofList before).value? name) := by
    rw [value?_ofList, value?_ofList, value?_ofList, List.reverse_append, List.lookup_append]
  have again : (ofList after).value? name = none ↔ ∀ d ∈ after, d.1 ≠ name := by
    simp only [value?_ofList, List.lookup_eq_none_iff, List.mem_reverse, bne_iff_ne]
    exact forall₂_congr fun _ _ => ne_comm
  rw [last, ← again]
  cases found : (ofList after).value? name with
  | none => simp
  | some value =>
    have other : value ≠ address := elsewhere _ (mem_of_value?_ofList found)
    simp [other]

end History

/-- Whatever was defined: a name has its last value, a name shown for an address has the address as
its value, the shown names are listed once each in the order of their addresses, and the nearest name
is the one shown at the greatest address that has one and is not above. -/
theorem lookups_ofList (defs : List (String × UInt32)) :
    (∀ name, (ofList defs).value? name = defs.reverse.lookup name) ∧
      (∀ address name, (ofList defs).name? address = some name →
        (ofList defs).value? name = some address) ∧
      (((ofList defs).shown.map (·.1)).Nodup ∧ ((ofList defs).shown.map (·.2)).Pairwise (· < ·) ∧
        ∀ name address,
          (name, address) ∈ (ofList defs).shown ↔ (ofList defs).name? address = some name) ∧
      ∀ address,
        (((ofList defs).nearest? address).isSome = true ↔
          ∃ below ≤ address, ((ofList defs).name? below).isSome = true) ∧
        ∀ name distance, (ofList defs).nearest? address = some (name, distance) ↔
          distance ≤ address ∧ (ofList defs).name? (address - distance) = some name ∧
            ∀ below ≤ address, ((ofList defs).name? below).isSome = true →
              below ≤ address - distance := by
  refine ⟨value?_ofList defs, consistent_ofList defs, ⟨nodup_shown defs, ?_, ?_⟩, fun address => ?_⟩
  · rw [shown, List.map_map, List.pairwise_map]
    exact (ofList defs).names.increasing.imp Std.compare_eq_lt.mp
  · intro name address
    have listed := @SortedMap.mem_toList_iff _ _ _ _ _ (ofList defs).names (address, name)
    rw [shown, name?, ← listed]
    simp
  · exact ⟨isSome_nearest?_iff, fun _ _ => nearest?_eq_some_iff⟩

/-- A symbol is not found at its address exactly if another name was shown there, moved elsewhere, and
since then nothing was defined there and the symbol itself was not defined again. -/
theorem name_lost_iff (defs : List (String × UInt32)) (name : String) (address : UInt32) :
    ((ofList defs).value? name = some address ∧ (ofList defs).name? address = none) ↔
      ∃ before first elsewhere after, defs = before ++ (first, elsewhere) :: after ∧
        ((ofList before).value? name = some address ∧
          (ofList before).name? address = some first ∧ first ≠ name) ∧
        elsewhere ≠ address ∧ ∀ d ∈ after, d.1 ≠ name ∧ d.2 ≠ address := by
  constructor
  -- The symbol keeps the address only if the definitions from the move on are neither of it nor there.
  · rintro ⟨valued, unnamed⟩
    rcases (name?_eq_none_iff defs address).mp unnamed with
      never | ⟨before, ⟨first, elsewhere⟩, after, rfl, shown, away, since⟩
    · exact absurd rfl (never _ (mem_of_value?_ofList valued))
    · have apart : ∀ d ∈ (first, elsewhere) :: after, d.2 ≠ address :=
        List.forall_mem_cons.mpr ⟨away, since⟩
      obtain ⟨had, again⟩ := (value?_append_iff apart).mp valued
      obtain ⟨other, later⟩ := List.forall_mem_cons.mp again
      exact ⟨before, first, elsewhere, after, rfl, ⟨had, shown, other⟩, away,
        fun d member => ⟨later d member, since d member⟩⟩
  · rintro ⟨before, first, elsewhere, after, rfl, ⟨valued, shown, other⟩, away, since⟩
    have apart : ∀ d ∈ (first, elsewhere) :: after, d.2 ≠ address :=
      List.forall_mem_cons.mpr ⟨away, fun d member => (since d member).2⟩
    have again : ∀ d ∈ (first, elsewhere) :: after, d.1 ≠ name :=
      List.forall_mem_cons.mpr ⟨other, fun d member => (since d member).1⟩
    refine ⟨(value?_append_iff apart).mpr ⟨valued, again⟩, ?_⟩
    exact (name?_eq_none_iff _ address).mpr
      (.inr ⟨before, (first, elsewhere), after, rfl, shown, away, fun d member => (since d member).2⟩)

/-- Two names at one address, of which the one that is shown moves away. -/
theorem name_lost_by_move :
    let s := ofList [("A", 1), ("B", 1), ("A", 2)]
    s.value? "B" = some 1 ∧ s.name? 1 = none := by
  decide

end Symbols

end CrossAsm
