import CrossAsm.Machine.Search
import CrossAsm.Proofs.Field

/-! Finding an entry in memory is a search for the first entry of the table that matches. Which
entries can match one memory is decided by the bits they fix, byte by byte. -/

namespace CrossAsm

variable {Mode Reg : Type}

/-! ### Patterns of fixed bits -/

namespace Pattern

/-- Does every byte have the fixed bits of its place? -/
def fits : List (UInt8 × UInt8) → List UInt8 → Bool
  | [], _ => true
  | (mask, value) :: pattern, b :: rest => b &&& mask == value && fits pattern rest
  | _ :: _, [] => false

/-- Do the patterns agree on the bits that both fix? -/
def overlaps : List (UInt8 × UInt8) → List (UInt8 × UInt8) → Bool
  | (mask, value) :: first, (mask', value') :: second =>
    value &&& mask' == value' &&& mask && overlaps first second
  | _, _ => true

theorem overlaps_of_fits {first second : List (UInt8 × UInt8)} {rest : List UInt8}
    (left : fits first rest = true) (right : fits second rest = true) :
    overlaps first second = true := by
  induction first generalizing second rest with
  | nil => rfl
  | cons a first ih =>
    cases second with
    | nil => rfl
    | cons b second =>
      cases rest with
      | nil => simp [fits] at left
      | cons byte rest =>
        simp only [fits, Bool.and_eq_true, beq_iff_eq] at left right
        simp only [overlaps, Bool.and_eq_true, beq_iff_eq]
        refine ⟨?_, ih left.2 right.2⟩
        rw [← left.1, ← right.1, UInt8.and_assoc, UInt8.and_assoc, UInt8.and_comm a.1 b.1]

/-- Is there a byte with this bit that has the first fixed bits? -/
def mayHave (bit : Bool) (i : Nat) : List (UInt8 × UInt8) → Bool
  | (mask, value) :: _ => !mask.toNat.testBit i || value.toNat.testBit i == bit
  | [] => true

theorem mayHave_of_overlaps {first second : List (UInt8 × UInt8)}
    (agree : overlaps first second = true) (i : Nat) :
    (mayHave true i first = true ∧ mayHave true i second = true) ∨
      (mayHave false i first = true ∧ mayHave false i second = true) := by
  rcases first with _ | ⟨⟨mask, value⟩, first⟩ <;> rcases second with _ | ⟨⟨mask', value'⟩, second⟩
  case cons.cons =>
    simp only [overlaps, Bool.and_eq_true, beq_iff_eq] at agree
    have common : (value.toNat.testBit i && mask'.toNat.testBit i) =
        (value'.toNat.testBit i && mask.toNat.testBit i) := by
      simpa only [UInt8.toNat_and, Nat.testBit_and] using
        congrArg (fun byte : UInt8 => byte.toNat.testBit i) agree.1
    simp only [mayHave]
    grind
  all_goals
    simp only [mayHave]
    grind

theorem fits_append {first second : List (UInt8 × UInt8)} {bytes rest : List UInt8}
    (same : first.length = bytes.length) :
    fits (first ++ second) (bytes ++ rest) = (fits first bytes && fits second rest) := by
  induction first generalizing bytes with
  | nil =>
    cases bytes with
    | nil => rfl
    | cons b bytes => simp at same
  | cons a first ih =>
    cases bytes with
    | nil => simp at same
    | cons b bytes =>
      simp only [List.cons_append, fits, ih (by simpa using same), Bool.and_assoc]

/-- A pattern that fixes all bits of its bytes. -/
def exact (bytes : List UInt8) : List (UInt8 × UInt8) := bytes.map fun b => (0xFF, b)

theorem fits_exact (bytes : List UInt8) : fits (exact bytes) bytes = true := by
  induction bytes with
  | nil => rfl
  | cons b bytes ih =>
    have kept : b &&& 0xFF = b := UInt8.and_neg_one
    simp only [exact, List.map_cons, fits, kept, beq_self_eq_true, Bool.true_and]
    exact ih

/-- A pattern that fixes nothing. -/
def free (count : Nat) : List (UInt8 × UInt8) := List.replicate count (0, 0)

theorem fits_free {bytes : List UInt8} : fits (free bytes.length) bytes = true := by
  induction bytes with
  | nil => rfl
  | cons b bytes ih => simpa [free, List.replicate_succ, fits] using ih

/-- A pattern that fixes the bits of a number under a mask. -/
def masked (e : Endian) (count : Nat) (mask value : BitVec 32) : List (UInt8 × UInt8) :=
  (e.put count mask.toNat).zip (e.put count value.toNat)

theorem fits_little {mask value : Nat} {bytes : List UInt8}
    (agrees : Endian.ofLittle bytes &&& mask = value) :
    fits ((Endian.toLittle bytes.length mask).zip (Endian.toLittle bytes.length value)) bytes =
      true := by
  induction bytes generalizing mask value with
  | nil => rfl
  | cons b bytes ih =>
    have small := b.toNat_lt
    have high : Endian.ofLittle bytes &&& mask / 256 = value / 256 := by
      have quotient : (b.toNat + 256 * Endian.ofLittle bytes) / 256 = Endian.ofLittle bytes := by omega
      rw [← agrees, Endian.ofLittle]
      have split := Nat.and_div_two_pow (a := b.toNat + 256 * Endian.ofLittle bytes) (b := mask) (n := 8)
      rw [split, quotient]
    have low : b &&& UInt8.ofNat mask = UInt8.ofNat value := by
      apply UInt8.toNat_inj.mp
      have remainder : (b.toNat + 256 * Endian.ofLittle bytes) % 256 = b.toNat := by omega
      have split := Nat.and_mod_two_pow (a := b.toNat + 256 * Endian.ofLittle bytes) (b := mask) (n := 8)
      rw [UInt8.toNat_and, UInt8.toNat_ofNat', UInt8.toNat_ofNat', ← agrees, Endian.ofLittle, split,
        remainder]
    simp only [List.length_cons, Endian.toLittle, List.zip_cons_cons, fits, low, beq_self_eq_true,
      Bool.true_and]
    exact ih high

theorem fits_reverse {pattern : List (UInt8 × UInt8)} {bytes : List UInt8}
    (same : pattern.length = bytes.length) :
    fits pattern.reverse bytes.reverse = fits pattern bytes := by
  induction pattern generalizing bytes with
  | nil =>
    cases bytes with
    | nil => rfl
    | cons b bytes => simp at same
  | cons a pattern ih =>
    cases bytes with
    | nil => simp at same
    | cons b bytes =>
      have shorter : pattern.length = bytes.length := by simpa using same
      rw [List.reverse_cons, List.reverse_cons, fits_append (by simpa using shorter), ih shorter]
      simp [fits, Bool.and_comm]

/-- The bytes of a number that has the fixed bits fit the pattern of these bits. -/
theorem fits_masked (e : Endian) {mask value : BitVec 32} {bytes : List UInt8}
    (short : bytes.length ≤ 4) (agrees : BitVec.ofNat 32 (e.number bytes) &&& mask = value) :
    fits (masked e bytes.length mask value) bytes = true := by
  have bound := e.number_lt_word short
  have numbers : e.number bytes &&& mask.toNat = value.toNat := by
    rw [← agrees, BitVec.toNat_and, BitVec.toNat_ofNat, Nat.mod_eq_of_lt bound]
  have word (n : BitVec 32) : ((n.toNat : Int) % 0x100000000).toNat = n.toNat := by
    have small := n.isLt
    omega
  cases e with
  | little =>
    simp only [masked, Endian.put, Endian.bytes, word, Nat.min_eq_left short]
    exact fits_little numbers
  | big =>
    have reversed := @fits_little _ _ bytes.reverse numbers
    rw [← fits_reverse (by simp), List.reverse_reverse] at reversed
    simp only [masked, Endian.put, Endian.bytes, word, Nat.min_eq_left short]
    rwa [List.zip, List.reverse_zipWith (by simp), List.length_reverse] at reversed

end Pattern

namespace Machine

/-! ### The first match -/

variable (m : Machine Mode Reg)

/-- Bytes of a page's opcode. -/
def opcodeLength (page : Page Mode) : Nat := page.opcodeCells * m.config.cell.bytes

/-- Bytes of a page's gap. -/
def gapLength (page : Page Mode) : Nat := page.gap * m.config.cell.bytes

theorem headLength_eq (page : Page Mode) :
    m.headLength page = page.lead.length + m.gapLength page + m.opcodeLength page := by
  simp [headLength, gapLength, opcodeLength, Nat.add_mul, Nat.add_assoc]

/-- What an entry found at the head of `rest` was found with. -/
def foundAt (hit : Page Mode × Entry Mode) (rest : List UInt8) : Found Mode where
  page := hit.1
  entry := hit.2
  opcode := BitVec.ofNat 32 (m.config.endian.number
    ((rest.take (m.headLength hit.1)).drop (hit.1.lead.length + hit.1.gap * m.config.cell.bytes)))
  bytes := rest.take (m.headLength hit.1)
  gapBytes := ((rest.take (m.headLength hit.1)).drop hit.1.lead.length).take
    (hit.1.gap * m.config.cell.bytes)

/-- Does the entry match the memory ahead? -/
def hits (rest : List UInt8) (hit : Page Mode × Entry Mode) : Bool :=
  hit.1.lead.isPrefixOf rest && decide (m.headLength hit.1 ≤ rest.length) &&
    hit.2.covers (m.foundAt hit rest).opcode &&
    m.postHolds hit.2 (rest.drop (m.headLength hit.1))

/-- The entries of this variant, in table order. -/
def ownEntries : List (Page Mode × Entry Mode) := m.entries.filter fun hit => m.enabled hit.1

theorem ownEntries_eq : m.ownEntries =
    (m.pages.filter m.enabled).flatMap fun page => page.entries.map fun entry => (page, entry) := by
  unfold ownEntries entries
  induction m.pages with
  | nil => rfl
  | cons page pages ih =>
    simp only [List.flatMap_cons, List.filter_append, ih, List.filter_map]
    cases own : m.enabled page <;> simp [own, Function.comp_def]

theorem findInPage_eq (page : Page Mode) (rest : List UInt8) :
    m.findInPage page rest = ((page.entries.map fun entry => (page, entry)).find?
      (m.hits rest)).map (m.foundAt · rest) := by
  by_cases matched : (page.lead.isPrefixOf rest && decide (m.headLength page ≤ rest.length)) = true
  · simp only [findInPage, matched, if_true, List.find?_map, Option.map_map]
    congr 1
    simp only [Function.comp_def, hits, matched, Bool.true_and]
    rfl
  · have none : (page.entries.map fun entry => (page, entry)).find? (m.hits rest) = none := by
      simp only [List.find?_map, List.find?_eq_none, Option.map_eq_none_iff, Function.comp_def, hits]
      intro entry _
      simp [matched]
    simp only [findInPage, matched, Bool.false_eq_true, if_false, none, Option.map_none]

/-- Entries are found in table order, and the first that matches is the one found. -/
theorem findByOpcode_eq (rest : List UInt8) :
    m.findByOpcode rest = (m.ownEntries.find? (m.hits rest)).map (m.foundAt · rest) := by
  rw [ownEntries_eq, findByOpcode]
  induction m.pages.filter m.enabled with
  | nil => rfl
  | cons page pages ih =>
    rw [List.findSome?_cons, List.flatMap_cons, List.find?_append, ih, findInPage_eq]
    cases (page.entries.map fun entry => (page, entry)).find? (m.hits rest) <;> rfl

theorem mem_ownEntries {hit : Page Mode × Entry Mode} :
    hit ∈ m.ownEntries ↔ hit ∈ m.entries ∧ m.enabled hit.1 = true := by
  simp [ownEntries]

/-- The parts of a memory in which an entry was found. -/
theorem foundAt_append (hit : Page Mode × Entry Mode) {gap opcode : List UInt8}
    (tail : List UInt8) (gapped : gap.length = m.gapLength hit.1)
    (coded : opcode.length = m.opcodeLength hit.1) :
    m.foundAt hit (hit.1.lead ++ gap ++ opcode ++ tail) =
      { page := hit.1
        entry := hit.2
        opcode := BitVec.ofNat 32 (m.config.endian.number opcode)
        bytes := hit.1.lead ++ gap ++ opcode
        gapBytes := gap } := by
  have whole : (hit.1.lead ++ gap ++ opcode ++ tail).take (m.headLength hit.1) =
      hit.1.lead ++ gap ++ opcode := by
    rw [headLength_eq, ← gapped, ← coded]
    exact List.take_left' (by simp [Nat.add_assoc])
  have behind : (hit.1.lead ++ gap ++ opcode).drop
      (hit.1.lead.length + hit.1.gap * m.config.cell.bytes) = opcode :=
    List.drop_left' (by simp [gapped, gapLength])
  have between : ((hit.1.lead ++ gap ++ opcode).drop hit.1.lead.length).take
      (hit.1.gap * m.config.cell.bytes) = gap := by
    rw [List.append_assoc, List.drop_left]
    exact List.take_left' gapped
  simp only [foundAt, whole, behind, between]

theorem hits_append (hit : Page Mode × Entry Mode) {gap opcode : List UInt8} (tail : List UInt8)
    (gapped : gap.length = m.gapLength hit.1) (coded : opcode.length = m.opcodeLength hit.1) :
    m.hits (hit.1.lead ++ gap ++ opcode ++ tail) hit =
      (hit.2.covers (BitVec.ofNat 32 (m.config.endian.number opcode)) &&
        m.postHolds hit.2 tail) := by
  have leads : hit.1.lead.isPrefixOf (hit.1.lead ++ gap ++ opcode ++ tail) = true := by
    simp [List.append_assoc]
  have long : m.headLength hit.1 ≤ (hit.1.lead ++ gap ++ opcode ++ tail).length := by
    simp [headLength_eq, gapped, coded, Nat.add_assoc]
  have behind : (hit.1.lead ++ gap ++ opcode ++ tail).drop (m.headLength hit.1) = tail := by
    rw [headLength_eq, ← gapped, ← coded]
    exact List.drop_left' (by simp [Nat.add_assoc])
  simp only [hits, leads, long, decide_true, Bool.true_and, foundAt_append m hit tail gapped coded,
    behind]

/-- A memory that an entry matches begins with the entry's bytes. -/
theorem split_of_hits {hit : Page Mode × Entry Mode} {rest : List UInt8}
    (hits : m.hits rest hit = true) :
    ∃ gap opcode tail, rest = hit.1.lead ++ gap ++ opcode ++ tail ∧
      gap.length = m.gapLength hit.1 ∧ opcode.length = m.opcodeLength hit.1 := by
  simp only [Machine.hits, Bool.and_eq_true, decide_eq_true_eq] at hits
  obtain ⟨⟨⟨leads, long⟩, -⟩, -⟩ := hits
  obtain ⟨behind, rfl⟩ := List.isPrefixOf_iff_prefix.mp leads
  rw [headLength_eq, List.length_append] at long
  refine ⟨behind.take (m.gapLength hit.1),
    (behind.drop (m.gapLength hit.1)).take (m.opcodeLength hit.1),
    (behind.drop (m.gapLength hit.1)).drop (m.opcodeLength hit.1), ?_, ?_, ?_⟩
  · simp [List.append_assoc]
  · rw [List.length_take]
    omega
  · rw [List.length_take, List.length_drop]
    omega

/-- The bits that an entry fixes in the bytes of its instructions. -/
def patternOf (hit : Page Mode × Entry Mode) : List (UInt8 × UInt8) :=
  Pattern.exact hit.1.lead ++ Pattern.free (m.gapLength hit.1) ++
    Pattern.masked m.config.endian (m.opcodeLength hit.1) (~~~hit.2.mask) hit.2.opcode

theorem fits_of_hits {hit : Page Mode × Entry Mode} {rest : List UInt8}
    (short : m.opcodeLength hit.1 ≤ 4) (hits : m.hits rest hit = true) :
    Pattern.fits (m.patternOf hit) rest = true := by
  obtain ⟨gap, opcode, tail, rfl, gapped, coded⟩ := m.split_of_hits hits
  rw [hits_append m hit tail gapped coded] at hits
  simp only [Bool.and_eq_true, Entry.covers, beq_iff_eq] at hits
  have code := Pattern.fits_masked m.config.endian (coded ▸ short) hits.1
  have none : Pattern.fits [] tail = true := rfl
  rw [patternOf, ← List.append_nil (_ ++ _ ++ Pattern.masked _ _ _ _), Pattern.fits_append,
    Pattern.fits_append, Pattern.fits_append, Pattern.fits_exact, ← gapped, Pattern.fits_free, ← coded,
    code, none]
  · rfl
  · simp [Pattern.exact]
  · simp [Pattern.exact, Pattern.free, gapped]
  · simp [Pattern.exact, Pattern.free, Pattern.masked, gapped, coded, short]

/-- Entries that match one memory agree on the bits that both fix. -/
theorem overlaps_of_hits {hit other : Page Mode × Entry Mode} {rest : List UInt8}
    (short : m.opcodeLength hit.1 ≤ 4) (shortOther : m.opcodeLength other.1 ≤ 4)
    (hits : m.hits rest hit = true) (hitsOther : m.hits rest other = true) :
    Pattern.overlaps (m.patternOf hit) (m.patternOf other) = true :=
  Pattern.overlaps_of_fits (m.fits_of_hits short hits) (m.fits_of_hits shortOther hitsOther)

end Machine

/-- The first match stands before every other. -/
theorem eq_or_related_of_find? {α : Type} {R : α → α → Prop} {p : α → Bool} {xs : List α} {a b : α}
    (ordered : xs.Pairwise R) (found : xs.find? p = some a) (member : b ∈ xs) (holds : p b = true) :
    a = b ∨ R a b := by
  induction xs with
  | nil => simp at found
  | cons x xs ih =>
    obtain ⟨before, ordered⟩ := List.pairwise_cons.mp ordered
    cases first : p x with
    | true =>
      obtain rfl : x = a := by simpa [first] using found
      rcases List.mem_cons.mp member with rfl | later
      · exact .inl rfl
      · exact .inr (before b later)
    | false =>
      have found : xs.find? p = some a := by simpa [first] using found
      rcases List.mem_cons.mp member with rfl | later
      · simp [first] at holds
      · exact ih ordered found later

/-- A memory that an entry matches leads to it, or to one that stands before it and agrees with it
on the bits that both fix. -/
theorem Machine.exists_first_of_hits {Mode Reg : Type} (m : Machine Mode Reg)
    {R : Page Mode × Entry Mode → Page Mode × Entry Mode → Prop} (ordered : m.entries.Pairwise R)
    (short : ∀ hit ∈ m.ownEntries, m.opcodeLength hit.1 ≤ 4) {hit : Page Mode × Entry Mode}
    {rest : List UInt8} (own : hit ∈ m.ownEntries) (hits : m.hits rest hit = true) :
    ∃ first ∈ m.ownEntries, m.ownEntries.find? (m.hits rest) = some first ∧
      m.hits rest first = true ∧
      (first = hit ∨ R first hit ∧ Pattern.overlaps (m.patternOf first) (m.patternOf hit) = true) := by
  obtain ⟨first, found⟩ : ∃ first, m.ownEntries.find? (m.hits rest) = some first := by
    rw [← Option.isSome_iff_exists, List.find?_isSome]
    exact ⟨hit, own, hits⟩
  have member := List.mem_of_find?_eq_some found
  have matched := List.find?_some found
  refine ⟨first, member, found, matched, ?_⟩
  rcases eq_or_related_of_find? (ordered.filter _) found own hits with same | before
  · exact .inl same
  · exact .inr ⟨before, m.overlaps_of_hits (short first member) (short hit own) matched hits⟩

/-! ### Relations between the entries of a table -/

section Parts

variable {α : Type} {R : α → α → Prop}

/-- The parts that a list falls into by one pair of tests after another. What passes both tests of a
pair goes to both sides. -/
def parts : List ((α → Bool) × (α → Bool)) → List α → List (List α)
  | [], xs => [xs]
  | sides :: tests, xs => parts tests (xs.filter sides.1) ++ parts tests (xs.filter sides.2)

/-- A relation has only to be looked at inside the parts, if it holds wherever a pair of tests tells
two elements apart. -/
theorem pairwise_of_parts {tests : List ((α → Bool) × (α → Bool))} {xs : List α}
    (together : ∀ sides ∈ tests, ∀ a b, ¬R a b →
      (sides.1 a = true ∧ sides.1 b = true) ∨ (sides.2 a = true ∧ sides.2 b = true))
    (inside : ∀ part ∈ parts tests xs, part.Pairwise R) : xs.Pairwise R := by
  induction tests generalizing xs with
  | nil => exact inside xs (List.mem_singleton_self xs)
  | cons sides tests ih =>
    have later := fun other member => together other (List.mem_cons_of_mem sides member)
    have first : (xs.filter sides.1).Pairwise R :=
      ih later fun part member => inside part (List.mem_append_left _ member)
    have second : (xs.filter sides.2).Pairwise R :=
      ih later fun part member => inside part (List.mem_append_right _ member)
    rw [List.pairwise_iff_forall_sublist] at first second ⊢
    intro a b sublist
    by_contra unrelated
    -- the filter of a side that both pass keeps one before the other
    rcases together sides List.mem_cons_self a b unrelated with ⟨left, right⟩ | ⟨left, right⟩
    · exact unrelated (first (by simpa [left, right] using sublist.filter sides.1))
    · exact unrelated (second (by simpa [left, right] using sublist.filter sides.2))

/-- The tests that a number for each element gives, by its low bits. -/
def byKey (key : α → Nat) : List ((α → Bool) × (α → Bool)) :=
  (List.range 6).map fun i => (fun a => (key a).testBit i, fun a => !(key a).testBit i)

theorem pairwise_of_byKey (key : α → Nat) {xs : List α} (same : ∀ a b, ¬R a b → key a = key b)
    (inside : ∀ part ∈ parts (byKey key) xs, part.Pairwise R) : xs.Pairwise R := by
  refine pairwise_of_parts (fun sides member a b unrelated => ?_) inside
  obtain ⟨i, -, rfl⟩ := List.mem_map.mp member
  simp only [same a b unrelated]
  cases (key b).testBit i <;> simp

/-- Where the two tests of every pair are opposites, an element is in a part with all that no test
tells apart from it. -/
theorem exists_part {tests : List ((α → Bool) × (α → Bool))}
    (opposite : ∀ sides ∈ tests, ∀ a, sides.2 a = !sides.1 a) {xs : List α} {x : α} (member : x ∈ xs) :
    ∃ part ∈ parts tests xs, x ∈ part ∧ part ⊆ xs ∧
      ∀ y ∈ xs, (∀ sides ∈ tests, sides.1 y = sides.1 x) → y ∈ part := by
  induction tests generalizing xs with
  | nil => exact ⟨xs, List.mem_singleton_self xs, member, List.Subset.refl xs, fun _ inside _ => inside⟩
  | cons sides tests ih =>
    -- The side that the element passes keeps all that go with it.
    obtain ⟨side, among, passes, keeps⟩ : ∃ side, (∀ part ∈ parts tests (xs.filter side),
        part ∈ parts (sides :: tests) xs) ∧ side x = true ∧
        ∀ y, sides.1 y = sides.1 x → side y = true := by
      cases passes : sides.1 x with
      | true => exact ⟨sides.1, fun _ => List.mem_append_left _, passes, fun _ same => same⟩
      | false =>
        have other (y : α) (fails : sides.1 y = false) : sides.2 y = true := by
          rw [opposite sides List.mem_cons_self, fails, Bool.not_false]
        exact ⟨sides.2, fun _ => List.mem_append_right _, other x passes, other⟩
    obtain ⟨part, listed, inside, within, whole⟩ :=
      ih (fun other later => opposite other (List.mem_cons_of_mem sides later))
        (List.mem_filter.mpr ⟨member, passes⟩)
    refine ⟨part, among part listed, inside, fun y present => ?_, fun y present same => ?_⟩
    · exact (List.mem_filter.mp (within present)).1
    · exact whole y (List.mem_filter.mpr ⟨present, keeps y (same sides List.mem_cons_self)⟩)
        fun other later => same other (List.mem_cons_of_mem sides later)

end Parts

namespace Machine

section Relations

variable {R : Page Mode × Entry Mode → Page Mode × Entry Mode → Prop}
  {table : List (Page Mode × Entry Mode)}

/-- A number for an entry that tells most names apart. -/
def nameKey (hit : Page Mode × Entry Mode) : Nat :=
  hit.2.name.toByteArray.data.toList.foldl (fun key byte => 3 * key + byte.toNat) 0

theorem pairwise_of_name (same : ∀ a b, ¬R a b → a.2.name = b.2.name)
    (inside : ∀ part ∈ parts (byKey nameKey) table, part.Pairwise R) : table.Pairwise R :=
  pairwise_of_byKey nameKey
    (fun a b unrelated => by rw [nameKey, same a b unrelated, ← nameKey]) inside

/-- The entries of a name are in one part. -/
theorem exists_part_of_name {hit : Page Mode × Entry Mode} (member : hit ∈ table) :
    ∃ part ∈ parts (byKey nameKey) table, hit ∈ part ∧ part ⊆ table ∧
      ∀ other ∈ table, other.2.name = hit.2.name → other ∈ part := by
  obtain ⟨part, listed, inside, within, whole⟩ := @exists_part _ (byKey nameKey) (by
    intro sides among a
    obtain ⟨i, -, rfl⟩ := List.mem_map.mp among
    rfl) table hit member
  refine ⟨part, listed, inside, within, fun other present same => whole other present ?_⟩
  intro sides among
  obtain ⟨i, -, rfl⟩ := List.mem_map.mp among
  simp only [nameKey, same]
/-- The tests for these bits of the first byte of an instruction. -/
def byBits (m : Machine Mode Reg) (bits : List Nat) :
    List ((Page Mode × Entry Mode → Bool) × (Page Mode × Entry Mode → Bool)) :=
  bits.map fun i => (fun hit => Pattern.mayHave true i (m.patternOf hit),
    fun hit => Pattern.mayHave false i (m.patternOf hit))

theorem pairwise_of_overlaps (m : Machine Mode Reg) (bits : List Nat)
    (agree : ∀ a b, ¬R a b → Pattern.overlaps (m.patternOf a) (m.patternOf b) = true)
    (inside : ∀ part ∈ parts (m.byBits bits) table, part.Pairwise R) : table.Pairwise R := by
  refine pairwise_of_parts (fun sides member a b unrelated => ?_) inside
  obtain ⟨i, -, rfl⟩ := List.mem_map.mp member
  exact Pattern.mayHave_of_overlaps (agree a b unrelated) i

end Relations

/-! ### Names -/

/-- Could operands written for the second slots be taken by the first? -/
def mayAdmit (accepts : Mode → Mode → Bool) (written : Mode → List Mode) :
    List (Slot Mode) → List (Slot Mode) → Bool
  | [], [] => true
  | s :: ss, t :: ts => (written t.mode).any (accepts s.mode) && mayAdmit accepts written ss ts
  | _, _ => false

theorem mayAdmit_of_admits (m : Machine Mode Reg) {written : Mode → List Mode}
    {slots others : List (Slot Mode)} {ops : List (Operand Mode Reg)}
    (fitting : List.Forall₂ (fun slot op => op.mode ∈ written slot.mode) slots ops)
    (admits : m.admits others ops = true) : mayAdmit m.accepts written others slots = true := by
  induction fitting generalizing others with
  | nil =>
    cases others with
    | nil => rfl
    | cons => simp [Machine.admits] at admits
  | @cons slot op slots ops first _ ih =>
    cases others with
    | nil => simp [Machine.admits] at admits
    | cons other others =>
      simp only [Machine.admits, Bool.and_eq_true] at admits
      simp only [mayAdmit, Bool.and_eq_true, List.any_eq_true]
      exact ⟨⟨op.mode, first, admits.1⟩, ih admits.2⟩

theorem admits_of_forall₂ (m : Machine Mode Reg) {slots : List (Slot Mode)}
    {ops : List (Operand Mode Reg)}
    (accepted : List.Forall₂ (fun slot op => m.accepts slot.mode op.mode = true) slots ops) :
    m.admits slots ops = true := by
  induction accepted with
  | nil => rfl
  | cons first _ ih => simp only [admits, first, ih, Bool.and_self]

/-- A name and operands that an entry takes lead to it, or to one that stands before it. -/
theorem findByName_eq_ok (m : Machine Mode Reg)
    {R : Page Mode × Entry Mode → Page Mode × Entry Mode → Prop} (ordered : m.entries.Pairwise R)
    {hit : Page Mode × Entry Mode} (own : hit ∈ m.ownEntries) {name : String}
    (same : Text.upper name = hit.2.name) {ops : List (Operand Mode Reg)}
    (admits : m.admits hit.2.slots ops = true) :
    ∃ first ∈ m.ownEntries, m.findByName name ops = .ok first ∧ first.2.name = hit.2.name ∧
      m.admits first.2.slots ops = true ∧ (first = hit ∨ R first hit) := by
  have candidate : hit ∈ (m.candidates name).filter fun hit => m.enabled hit.1 := by
    simp only [ownEntries, List.mem_filter] at own
    simp [candidates, List.mem_filter, same, own]
  have sublist : ((m.candidates name).filter fun hit => m.enabled hit.1).Sublist m.entries :=
    List.filter_sublist.trans List.filter_sublist
  cases search : ((m.candidates name).filter fun hit => m.enabled hit.1).find?
      fun hit => m.admits hit.2.slots ops with
  | none => exact absurd admits (List.find?_eq_none.mp search hit candidate)
  | some first =>
    have member := List.mem_of_find?_eq_some search
    have taken := List.find?_some search
    have order := eq_or_related_of_find? (ordered.sublist sublist) search candidate admits
    simp only [candidates, same, List.mem_filter, beq_iff_eq] at member
    refine ⟨first, ?_, ?_, member.1.2, taken, order⟩
    · simp [ownEntries, List.mem_filter, member]
    · simp only [findByName, search]

end Machine

end CrossAsm
