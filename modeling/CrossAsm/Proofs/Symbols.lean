import CrossAsm.Symbols
import Mathlib.Data.List.Induction

/-! What a lookup gives after a definition: the new value under its own name, and the old one under
every other. The two directions of the table agree: a name shown for an address has that address as
its value. -/

namespace CrossAsm

variable {κ α : Type} [Ord κ] [Std.TransOrd κ] [Std.LawfulEqOrd κ]

namespace SortedMap

omit [Std.TransOrd κ] in
private theorem find?_insertEntry (k l : κ) (v : α) (entries : List (κ × α)) :
    ((insertEntry k v entries).find? fun e => compare l e.1 == .eq).map Prod.snd =
      if compare l k = .eq then some v
      else (entries.find? fun e => compare l e.1 == .eq).map Prod.snd := by
  induction entries with
  | nil => by_cases same : compare l k = .eq <;> simp [insertEntry, same]
  | cons head rest ih =>
    simp only [insertEntry]
    split
    next => by_cases same : compare l k = .eq <;> simp [same]
    next equal =>
      have key : k = head.1 := Std.LawfulEqCmp.eq_of_compare equal
      by_cases same : compare l k = .eq <;> simp [same, ← key]
    next greater =>
      by_cases here : compare l head.1 = .eq
      · have key : l = head.1 := Std.LawfulEqCmp.eq_of_compare here
        -- The entry met first has the looked-up key, which is then not the inserted one.
        have other : compare l k ≠ .eq := by
          intro same
          have both : l = k := Std.LawfulEqCmp.eq_of_compare same
          rw [← both, here] at greater
          exact absurd greater (by simp)
        simp [here, other]
      · simp only [List.find?_cons, beq_eq_false_iff_ne.mpr here]
        exact ih

theorem get?_insert (m : SortedMap κ α) (k l : κ) (v : α) :
    (m.insert k v).get? l = if compare l k = .eq then some v else m.get? l :=
  find?_insertEntry k l v m.toList

omit [Std.TransOrd κ] in
theorem get?_erase (m : SortedMap κ α) (k l : κ) :
    (m.erase k).get? l = if compare l k = .eq then none else m.get? l := by
  simp only [get?, erase, List.find?_filter]
  split
  next same =>
    have key : l = k := Std.LawfulEqCmp.eq_of_compare same
    simp [key]
  next differs =>
    -- An entry with the key `l` is not the erased one, so both searches accept the same entries.
    congr 2
    funext e
    by_cases here : compare l e.1 = .eq
    · have key : l = e.1 := Std.LawfulEqCmp.eq_of_compare here
      have apart : compare k e.1 ≠ .eq := by
        intro same
        have both : k = e.1 := Std.LawfulEqCmp.eq_of_compare same
        exact differs (by simp [key, both])
      simp [here, apart]
    · simp [here]

theorem get?_insertIfNew (m : SortedMap κ α) (k l : κ) (v : α) :
    (m.insertIfNew k v).get? l =
      if compare l k = .eq then some ((m.get? k).getD v) else m.get? l := by
  unfold insertIfNew
  split
  next present =>
    obtain ⟨old, found⟩ := Option.isSome_iff_exists.mp present
    split
    next same =>
      have key : l = k := Std.LawfulEqCmp.eq_of_compare same
      simp [key, found]
    · rfl
  next absent =>
    have new : m.get? k = none := by simpa using absent
    rw [get?_insert, new, Option.getD_none]

/-- Keys increase, so the entry of a key is the only one. -/
theorem get?_of_mem {m : SortedMap κ α} {e : κ × α} (member : e ∈ m.toList) :
    m.get? e.1 = some e.2 := by
  obtain ⟨entries, increasing⟩ := m
  simp only [get?]
  induction entries with
  | nil => simp at member
  | cons head rest ih =>
    obtain ⟨above, increasing⟩ := List.pairwise_cons.mp increasing
    rcases List.mem_cons.mp member with rfl | later
    · simp
    · have less := above e later
      have apart : (compare e.1 head.1 == .eq) = false := by
        rw [Std.OrientedCmp.gt_of_lt less]
        rfl
      rw [List.find?_cons, apart]
      exact ih increasing later

theorem mem_keys_iff {m : SortedMap κ α} {k : κ} :
    k ∈ m.toList.map (·.1) ↔ (m.get? k).isSome = true := by
  constructor
  · intro member
    obtain ⟨e, listed, rfl⟩ := List.mem_map.mp member
    rw [get?_of_mem listed, Option.isSome_some]
  · intro known
    rw [get?, Option.isSome_map, List.find?_isSome] at known
    obtain ⟨e, listed, same⟩ := known
    have key : k = e.1 := Std.LawfulEqCmp.eq_of_compare (beq_iff_eq.mp same)
    exact List.mem_map.mpr ⟨e, listed, key.symm⟩

theorem get?_of_floor? {m : SortedMap κ α} {k : κ} {e : κ × α} (found : m.floor? k = some e) :
    m.get? e.1 = some e.2 ∧ (compare e.1 k).isLE = true := by
  have member := List.mem_filter.mp (List.mem_of_getLast? found)
  exact ⟨get?_of_mem member.1, member.2⟩

end SortedMap

theorem Symbols.value?_define (s : Symbols) (name other : String) (value : UInt32) :
    (s.define name value).value? other = if other = name then some value else s.value? other := by
  rw [define, value?, SortedMap.get?_insert]
  simp only [Std.LawfulEqCmp.compare_eq_iff_eq, value?]

theorem Symbols.value?_empty (name : String) : (∅ : Symbols).value? name = none := rfl

/-! ### Names shown for addresses -/

namespace Symbols

/-- A name shown after a definition is the new one at its value, or was shown before. A name that
moves is no longer shown where it was. -/
theorem name?_define {s : Symbols} {name other : String} {value address : UInt32}
    (shown : (s.define name value).name? address = some other) :
    other = name ∧ address = value ∨
      s.name? address = some other ∧ (other = name → s.value? name ≠ some address) := by
  -- The names that stay shown when this one moves away from its old value.
  have kept {names : SortedMap UInt32 String}
      (stay : ∀ a n, names.get? a = some n →
        s.name? a = some n ∧ (n = name → s.value? name ≠ some a))
      (found : (names.insertIfNew value name).get? address = some other) :
      other = name ∧ address = value ∨
        s.name? address = some other ∧ (other = name → s.value? name ≠ some address) := by
    rw [SortedMap.get?_insertIfNew] at found
    split at found
    next same =>
      have place : address = value := Std.LawfulEqCmp.eq_of_compare same
      cases old : names.get? value with
      | none =>
        rw [old, Option.getD_none] at found
        exact .inl ⟨(Option.some.inj found).symm, place⟩
      | some first =>
        rw [old, Option.getD_some] at found
        rw [place]
        exact .inr (stay value other (old.trans found))
    · exact .inr (stay address other found)
  unfold define at shown
  dsimp only at shown
  split at shown
  next old had =>
    split at shown
    next here =>
      refine kept (fun a n found => ?_) shown
      rw [SortedMap.get?_erase] at found
      split at found
      · simp at found
      next elsewhere =>
        refine ⟨found, fun _ moved => elsewhere ?_⟩
        rw [Option.some.inj (moved.symm.trans had)]
        exact Std.ReflCmp.compare_self
    next hidden =>
      refine kept (fun a n found => ⟨found, ?_⟩) shown
      rintro rfl moved
      obtain rfl := Option.some.inj (moved.symm.trans had)
      exact hidden found
  next new =>
    refine kept (fun a n found => ⟨found, fun _ moved => ?_⟩) shown
    rw [new] at moved
    simp at moved

/-- A name shown for an address has it as its value. -/
def Consistent (s : Symbols) : Prop :=
  ∀ address name, s.name? address = some name → s.value? name = some address

theorem Consistent.define {s : Symbols} (consistent : s.Consistent) (name : String)
    (value : UInt32) : (s.define name value).Consistent := by
  intro address other shown
  rw [value?_define]
  rcases name?_define shown with ⟨rfl, rfl⟩ | ⟨before, moved⟩
  · rw [if_pos rfl]
  · have held := consistent address other before
    rw [if_neg fun same => moved same (same ▸ held), held]

theorem consistent_ofList (defs : List (String × UInt32)) : (ofList defs).Consistent := by
  refine List.foldlRecOn defs _ (fun address name shown => ?_) fun s consistent d _ =>
    consistent.define d.1 d.2
  exact nomatch shown

theorem ofList_concat (defs : List (String × UInt32)) (d : String × UInt32) :
    ofList (defs ++ [d]) = (ofList defs).define d.1 d.2 := by
  simp [ofList]

/-- A name has the value of its last definition. -/
theorem value?_ofList (defs : List (String × UInt32)) (name : String) :
    (ofList defs).value? name = defs.reverse.lookup name := by
  induction defs using List.reverseRecOn with
  | nil => rfl
  | append_singleton defs d ih =>
    rw [ofList_concat, value?_define, ih, List.reverse_concat, List.lookup_cons]
    by_cases same : name = d.1
    · rw [if_pos same, beq_iff_eq.mpr same]
    · rw [if_neg same, beq_eq_false_iff_ne.mpr same]

theorem mem_of_value?_ofList {defs : List (String × UInt32)} {name : String} {value : UInt32}
    (found : (ofList defs).value? name = some value) : (name, value) ∈ defs := by
  rw [value?_ofList, List.lookup_eq_some_iff] at found
  obtain ⟨later, earlier, split, -⟩ := found
  exact List.mem_reverse.mp (split ▸ List.mem_append_right later List.mem_cons_self)

/-- Only names that were defined have a value. -/
theorem exists_of_value?_ofList (defs : List (String × UInt32)) (name : String) :
    ∀ value, (ofList defs).value? name = some value → ∃ d ∈ defs, d.1 = name :=
  fun value found => ⟨(name, value), mem_of_value?_ofList found, rfl⟩

/-- The nearest name stands at or before the address, and the distance leads from it. -/
theorem value?_of_nearest? {s : Symbols} (consistent : s.Consistent) {address distance : UInt32}
    {name : String} (found : s.nearest? address = some (name, distance)) :
    ∃ value, s.value? name = some value ∧ value.toNat + distance.toNat = address.toNat := by
  obtain ⟨⟨value, shown⟩, floor, same⟩ := Option.map_eq_some_iff.mp found
  obtain ⟨rfl, rfl⟩ := Prod.mk.inj same
  obtain ⟨listed, below⟩ := SortedMap.get?_of_floor? floor
  have le : value ≤ address := Std.isLE_compare.mp below
  refine ⟨value, consistent value _ listed, ?_⟩
  have order := UInt32.le_iff_toNat_le.mp le
  rw [UInt32.toNat_sub_of_le _ _ le]
  omega

end Symbols

end CrossAsm
