/-! Finite maps as lists of entries in strictly increasing key order. The order makes the
representation canonical: maps with the same entries are equal. -/

namespace CrossAsm

variable {κ α : Type} [Ord κ]

/-- Each key occurs once, and keys increase. -/
def Increasing (entries : List (κ × α)) : Prop :=
  entries.Pairwise fun a b => compare a.1 b.1 = .lt

structure SortedMap (κ α : Type) [Ord κ] where
  toList : List (κ × α)
  increasing : Increasing toList
deriving DecidableEq

namespace SortedMap

/-- The entries with `k` mapped to `v`, replacing what was there. -/
def insertEntry (k : κ) (v : α) : List (κ × α) → List (κ × α)
  | [] => [(k, v)]
  | e :: rest =>
    match compare k e.1 with
    | .lt => (k, v) :: e :: rest
    | .eq => (k, v) :: rest
    | .gt => e :: insertEntry k v rest

theorem mem_insertEntry {k : κ} {v : α} {entries : List (κ × α)} {e : κ × α}
    (member : e ∈ insertEntry k v entries) : e = (k, v) ∨ e ∈ entries := by
  induction entries with
  | nil => simpa [insertEntry] using member
  | cons head rest ih =>
    simp only [insertEntry] at member
    split at member
    · simpa using member
    · rcases List.mem_cons.mp member with here | later
      · exact .inl here
      · exact .inr (List.mem_cons_of_mem _ later)
    · rcases List.mem_cons.mp member with here | later
      · exact .inr (here ▸ List.mem_cons_self ..)
      · rcases ih later with new | old
        · exact .inl new
        · exact .inr (List.mem_cons_of_mem _ old)

theorem increasing_insertEntry [Std.TransOrd κ] [Std.LawfulEqOrd κ] (k : κ) (v : α)
    {entries : List (κ × α)} (increasing : Increasing entries) :
    Increasing (insertEntry k v entries) := by
  induction entries with
  | nil => simp [insertEntry, Increasing]
  | cons head rest ih =>
    obtain ⟨above, increasing⟩ := List.pairwise_cons.mp increasing
    simp only [insertEntry]
    split
    next less =>
      refine List.pairwise_cons.mpr ⟨?_, List.pairwise_cons.mpr ⟨above, increasing⟩⟩
      intro e member
      rcases List.mem_cons.mp member with rfl | later
      · exact less
      · exact Std.TransCmp.lt_trans less (above e later)
    next equal =>
      have same : k = head.1 := Std.LawfulEqCmp.eq_of_compare equal
      exact List.pairwise_cons.mpr ⟨fun e member => same ▸ above e member, increasing⟩
    next greater =>
      refine List.pairwise_cons.mpr ⟨?_, ih increasing⟩
      intro e member
      rcases mem_insertEntry member with rfl | old
      · exact Std.OrientedCmp.lt_of_gt greater
      · exact above e old

def empty : SortedMap κ α := ⟨[], .nil⟩

instance : EmptyCollection (SortedMap κ α) := ⟨empty⟩

def get? (m : SortedMap κ α) (k : κ) : Option α :=
  (m.toList.find? fun e => compare k e.1 == .eq).map Prod.snd

def size (m : SortedMap κ α) : Nat := m.toList.length

def insert [Std.TransOrd κ] [Std.LawfulEqOrd κ] (m : SortedMap κ α) (k : κ) (v : α) :
    SortedMap κ α :=
  ⟨insertEntry k v m.toList, increasing_insertEntry k v m.increasing⟩

/-- Maps `k` to `v` unless `k` already has a value. -/
def insertIfNew [Std.TransOrd κ] [Std.LawfulEqOrd κ] (m : SortedMap κ α) (k : κ) (v : α) :
    SortedMap κ α :=
  if (m.get? k).isSome then m else m.insert k v

def erase (m : SortedMap κ α) (k : κ) : SortedMap κ α :=
  ⟨m.toList.filter fun e => compare k e.1 != .eq, m.increasing.filter _⟩

/-- The entry with the greatest key at or below `k`. -/
def floor? (m : SortedMap κ α) (k : κ) : Option (κ × α) :=
  (m.toList.filter fun e => (compare e.1 k).isLE).getLast?

end SortedMap

end CrossAsm
