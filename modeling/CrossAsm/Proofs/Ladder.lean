import CrossAsm.Proofs.Layout
import CrossAsm.Proofs.Reading
import CrossAsm.Proofs.Search

/-! Displacements of variable length are read back. No tag of a ladder that can be read begins
another, so the first byte tells the rung, and the number behind the tag is the one laid down. -/

namespace CrossAsm

theorem Endian.number_big_cons (first : UInt8) (rest : List UInt8) :
    Endian.big.number (first :: rest) =
      first.toNat * twoPow (8 * rest.length) + Endian.big.number rest := by
  have general (low : List UInt8) :
      ofLittle (low ++ [first]) = ofLittle low + first.toNat * twoPow (8 * low.length) := by
    induction low with
    | nil => simp [ofLittle]
    | cons b low ih =>
      have split : twoPow (8 * (low.length + 1)) = 256 * twoPow (8 * low.length) := by
        rw [Nat.mul_succ, Nat.add_comm, twoPow_add]
        rfl
      simp only [List.cons_append, ofLittle, ih, List.length_cons, split]
      ring
  simp only [number, List.reverse_cons, general, List.length_reverse]
  omega

namespace Rung

/-- The tag stands in the first byte, in front of bits for a number. -/
def shaped (r : Rung) : Bool :=
  1 ≤ r.bytes ∧ r.bytes ≤ 4 ∧ r.tagBits ≤ 8 ∧ r.tagBits < 8 * r.bytes ∧ r.tag < twoPow r.tagBits

/-- The tag stands in the first byte, and the range in the bits behind the tag. -/
def formed (r : Rung) : Bool :=
  1 ≤ r.bytes ∧ r.bytes ≤ 4 ∧ r.tagBits ≤ 8 ∧ r.tagBits < 8 * r.bytes ∧ r.tag < twoPow r.tagBits ∧
    fitsSigned r.min r.bits ∧ fitsSigned r.max r.bits

/-- Is the tag what the other begins with? -/
def begins (r other : Rung) : Bool :=
  r.tagBits ≤ other.tagBits ∧ other.tag / twoPow (other.tagBits - r.tagBits) = r.tag

variable {r : Rung}

theorem shaped_of_formed (formed : r.formed = true) : r.shaped = true := by
  simp only [Rung.formed, decide_eq_true_eq] at formed
  obtain ⟨one, word, byte, room, tag, -, -⟩ := formed
  simp only [shaped, decide_eq_true_eq]
  exact ⟨one, word, byte, room, tag⟩

theorem fitsSigned_of_holds {v : Int} (formed : r.formed = true) (holds : r.holds v = true) :
    fitsSigned v r.bits = true := by
  simp only [Rung.formed, decide_eq_true_eq] at formed
  obtain ⟨-, -, -, -, -, low, high⟩ := formed
  simp only [Rung.holds, decide_eq_true_eq] at holds
  rw [fitsSigned_iff] at low high ⊢
  omega

theorem begins_of_tags {s : Rung} {first : UInt8} (shorter : r.tagBits ≤ s.tagBits)
    (byte : s.tagBits ≤ 8) (own : r.tags first = true) (other : s.tags first = true) :
    r.begins s = true := by
  simp only [tags, decide_eq_true_eq] at own other
  have widths : twoPow (8 - r.tagBits) =
      twoPow (8 - s.tagBits) * twoPow (s.tagBits - r.tagBits) := by
    rw [← twoPow_add]
    congr 1
    omega
  simp only [begins, decide_eq_true_eq]
  refine ⟨shorter, ?_⟩
  rw [← other, Nat.div_div_eq_div_mul, ← widths, own]

variable (shaped : r.shaped = true)

include shaped

theorem one_le_bytes : 1 ≤ r.bytes := by
  simp only [Rung.shaped, decide_eq_true_eq] at shaped
  exact shaped.1

theorem length_encode (v : Int) : (r.encode v).length = r.bytes := by
  simp only [Rung.shaped, decide_eq_true_eq] at shaped
  rw [encode, Endian.length_put, Nat.min_eq_left shaped.2.1]

/-- The bytes of a displacement, as one number, are the tag above the bits that are kept. -/
theorem number_encode (v : Int) :
    (Endian.big.number (r.encode v) : Int) = r.tag * twoPow r.bits + v % twoPow r.bits := by
  simp only [Rung.shaped, decide_eq_true_eq] at shaped
  obtain ⟨-, word, -, room, tag⟩ := shaped
  have low := Int.emod_nonneg v (by have := twoPow_pos r.bits; omega : (twoPow r.bits : Int) ≠ 0)
  have high := Int.emod_lt_of_pos v (by have := twoPow_pos r.bits; omega : (0 : Int) < twoPow r.bits)
  have whole : twoPow (8 * r.bytes) = twoPow r.tagBits * twoPow r.bits := by
    rw [← twoPow_add]
    congr 1
    rw [bits]
    omega
  have below : (r.tag + 1) * twoPow r.bits ≤ twoPow (8 * r.bytes) := by
    rw [whole]
    exact Nat.mul_le_mul_right _ tag
  have bound : (r.tag : Int) * twoPow r.bits + twoPow r.bits ≤ twoPow (8 * r.bytes) := by
    have cast : (((r.tag + 1) * twoPow r.bits : Nat) : Int) ≤ (twoPow (8 * r.bytes) : Nat) :=
      Int.ofNat_le.mpr below
    push_cast at cast
    linarith
  have positive : (0 : Int) ≤ r.tag * twoPow r.bits := by positivity
  rw [encode, Endian.number_put _ _ word, Int.emod_eq_of_lt (by omega) (by omega)]

/-- The bytes of a displacement, as one number, are cut at the end of the tag. -/
theorem number_div_bits {first : UInt8} {rest : List UInt8} (count : rest.length = r.bytes - 1) :
    Endian.big.number (first :: rest) / twoPow r.bits = first.toNat / twoPow (8 - r.tagBits) := by
  simp only [Rung.shaped, decide_eq_true_eq] at shaped
  obtain ⟨-, -, byte, room, -⟩ := shaped
  have small := Endian.big.number_lt rest
  have cut : twoPow r.bits = twoPow (8 * rest.length) * twoPow (8 - r.tagBits) := by
    rw [← twoPow_add, count]
    congr 1
    rw [bits]
    omega
  rw [Endian.number_big_cons, cut, ← Nat.div_div_eq_div_mul, Nat.add_comm,
    Nat.add_mul_div_right _ _ (twoPow_pos _), Nat.div_eq_of_lt small, Nat.zero_add]

/-- A displacement begins with a byte that has the tag. -/
theorem exists_encode_cons (v : Int) :
    ∃ first rest, r.encode v = first :: rest ∧ r.tags first = true := by
  have length := length_encode shaped v
  have number := number_encode shaped v
  have one := one_le_bytes shaped
  obtain ⟨first, rest, cons⟩ := List.exists_cons_of_length_pos (show 0 < (r.encode v).length by omega)
  refine ⟨first, rest, cons, ?_⟩
  have count : rest.length = r.bytes - 1 := by
    rw [cons, List.length_cons] at length
    omega
  rw [cons] at number
  have low := Int.emod_nonneg v (by have := twoPow_pos r.bits; omega : (twoPow r.bits : Int) ≠ 0)
  have high := Int.emod_lt_of_pos v (by have := twoPow_pos r.bits; omega : (0 : Int) < twoPow r.bits)
  have tag : Endian.big.number (first :: rest) / twoPow r.bits = r.tag := by
    obtain ⟨n, kept⟩ := Int.eq_ofNat_of_zero_le low
    have whole : Endian.big.number (first :: rest) = r.tag * twoPow r.bits + n := by
      rw [kept] at number
      exact_mod_cast number
    rw [whole, Nat.add_comm, Nat.add_mul_div_right _ _ (twoPow_pos _),
      Nat.div_eq_of_lt (by omega), Nat.zero_add]
  simp only [tags, decide_eq_true_eq]
  exact (number_div_bits shaped count).symm.trans tag

theorem decode_encode {v : Int} (fits : fitsSigned v r.bits = true) :
    r.decode (r.encode v) = v := by
  have number := number_encode shaped v
  simp only [Rung.shaped, decide_eq_true_eq] at shaped
  obtain ⟨-, word, -, room, -⟩ := shaped
  have narrow : r.bits ≤ 32 := by
    rw [bits]
    omega
  rw [decode, show Nat.min r.bits 32 = r.bits from Nat.min_eq_left narrow]
  apply signExtend_of_fitsSigned (by rw [bits]; omega) fits
  rw [Int.natCast_emod, Int.emod_emod_of_dvd _ (dvd_refl _), number, Int.add_comm,
    Int.add_mul_emod_self_right, Int.emod_emod_of_dvd _ (dvd_refl _)]

end Rung

namespace Ladder

/-- No tag begins another. -/
def prefixFree (ladder : List Rung) : Bool :=
  decide (ladder.Pairwise fun r s => !r.begins s && !s.begins r)

/-- The rung that was taken is found by its tag. -/
theorem find?_tags {ladder : List Rung} (byte : ∀ s ∈ ladder, s.tagBits ≤ 8)
    (apart : prefixFree ladder = true) {r : Rung} {first : UInt8} (member : r ∈ ladder)
    (tagged : r.tags first = true) : ladder.find? (·.tags first) = some r := by
  obtain ⟨found, search⟩ : ∃ found, ladder.find? (·.tags first) = some found := by
    apply Option.isSome_iff_exists.mp
    rw [List.find?_isSome]
    exact ⟨r, member, tagged⟩
  have same := List.find?_some search
  have present := List.mem_of_find?_eq_some search
  rcases eq_or_related_of_find? (of_decide_eq_true apart) search member tagged with equal | neither
  · rw [search, equal]
  · -- Of two rungs with this first byte, the tag of one begins the tag of the other.
    simp only [Bool.and_eq_true, Bool.not_eq_true'] at neither
    rcases Nat.le_total found.tagBits r.tagBits with shorter | shorter
    · rw [Rung.begins_of_tags shorter (byte r member) same tagged] at neither
      exact absurd neither.1 (by decide)
    · rw [Rung.begins_of_tags shorter (byte found present) tagged same] at neither
      exact absurd neither.2 (by decide)

/-- Every rung has its tag and its range in their places, and no tag begins another. -/
def readable (ladder : List Rung) : Bool :=
  ladder.all Rung.formed && decide (ladder.Pairwise fun r s => !r.begins s && !s.begins r)

variable {ladder : List Rung} (good : readable ladder = true)

include good

theorem formed_of_readable {r : Rung} (member : r ∈ ladder) : r.formed = true := by
  simp only [readable, Bool.and_eq_true, List.all_eq_true] at good
  exact good.1 r member

theorem prefixFree_of_readable : prefixFree ladder = true :=
  (Bool.and_eq_true_iff.mp good).2

end Ladder

/-! ### The rung that is taken -/

theorem Ladder.exists_size {ladder : List Rung} (full : ladder ≠ []) (v : Int)
    (force : Option Force) (undefined : Bool) :
    ∃ rung ∈ ladder, rung.bytes = size ladder v force undefined := by
  have head : ladder.head? = some (ladder.head full) := List.head?_eq_some_head full
  have last : ladder.getLast? = some (ladder.getLast full) := List.getLast?_eq_some_getLast full
  suffices ∃ rung ∈ ladder, rung? ladder v force undefined = some rung by
    obtain ⟨rung, member, taken⟩ := this
    exact ⟨rung, member, by rw [size, taken]⟩
  unfold rung?
  split
  · exact ⟨_, List.head_mem full, head⟩
  · exact ⟨_, List.getLast_mem full, last⟩
  · exact ⟨_, List.getLast_mem full, last⟩
  · cases found : ladder.find? (·.holds v) with
    | none => exact ⟨_, List.getLast_mem full, by rw [Option.none_or, last]⟩
    | some rung => exact ⟨rung, List.mem_of_find?_eq_some found, rfl⟩

/-- A displacement on a ladder stands on one of its rungs. It is the one asked for if the rung holds
it, and 0 otherwise. -/
theorem Extension.exists_laid_eq {config : Config} (full : config.ladder ≠ []) {base value v : Int}
    {relative undefined : Bool}
    (measured : (if undefined then 0 else if relative then value - base else value) = v)
    (stage : Stage) (force : Option Force) (column : Nat) :
    ∃ rung ∈ config.ladder, laid config base ⟨stage, .ladder value relative force undefined, column⟩ =
      if rung.holds v then (rung.encode v, none)
      else (rung.encode 0, some (if relative then .operandTooFar else .overflowRange)) := by
  have sized : ∃ rung ∈ config.ladder, rung.bytes =
      settled config.ladder base ⟨stage, .ladder value relative force undefined, column⟩ := by
    cases relative with
    | false => exact Ladder.exists_size full value force undefined
    | true =>
      simp only [settled, grownSize, initialSize]
      rcases Nat.le_total (Ladder.size config.ladder 0 force undefined)
        (Ladder.size config.ladder (value - base) force undefined) with least | most
      · rw [Nat.max_eq_right least]
        exact Ladder.exists_size full (value - base) force undefined
      · rw [Nat.max_eq_left most]
        exact Ladder.exists_size full 0 force undefined
  obtain ⟨sample, among, bytes⟩ := sized
  obtain ⟨rung, found⟩ : ∃ rung, config.ladder.find? (·.bytes ==
      settled config.ladder base ⟨stage, .ladder value relative force undefined, column⟩) =
        some rung := by
    apply Option.isSome_iff_exists.mp
    rw [List.find?_isSome]
    exact ⟨sample, among, by simpa using bytes⟩
  refine ⟨rung, List.mem_of_find?_eq_some found, ?_⟩
  simp only [laid, render, found, measured]

theorem Extension.exists_rung_of_laid {config : Config} (full : config.ladder ≠ [])
    (zero : ∀ rung ∈ config.ladder, rung.holds 0 = true) (base : Int) (stage : Stage) (value : Int)
    (relative : Bool) (force : Option Force) (undefined : Bool) (column : Nat) :
    let laid := laid config base ⟨stage, .ladder value relative force undefined, column⟩
    ∃ rung ∈ config.ladder, ∃ v, rung.holds v = true ∧ laid.1 = rung.encode v ∧
      (laid.2 = none → v = if undefined then 0 else if relative then value - base else value) := by
  intro laid
  obtain ⟨rung, member, stands⟩ :=
    @exists_laid_eq config full base value _ relative undefined rfl stage force column
  by_cases holds : rung.holds
      (if undefined then 0 else if relative then value - base else value) = true
  · rw [if_pos holds] at stands
    exact ⟨rung, member, _, holds, congrArg Prod.fst stands, fun _ => rfl⟩
  · rw [if_neg holds] at stands
    refine ⟨rung, member, 0, zero rung member, congrArg Prod.fst stands, fun clean => ?_⟩
    exact absurd ((congrArg Prod.snd stands).symm.trans clean) (by simp)

namespace Decoding

theorem past_append {d : Decoding} {chunk more : List UInt8} (ahead : d.rest = chunk ++ more) :
    d.past chunk.length = { d with bytes := d.bytes ++ chunk, rest := more } := by
  simp [past, ahead]

/-- The first byte tells the rung, and the bytes of the rung are taken. A number below the range
of the rung is a fault. -/
theorem readLadder_tagged {d : Decoding} {first : UInt8} {rest : List UInt8} {rung : Rung}
    (ahead : d.rest = first :: rest) (search : d.config.ladder.find? (·.tags first) = some rung)
    (one : 1 ≤ rung.bytes) (enough : rung.bytes ≤ d.rest.length) :
    let v := rung.decode (d.rest.take rung.bytes)
    d.readLadder = (v, if v < rung.min then (d.past rung.bytes).fail .illegalConstant
      else d.past rung.bytes) := by
  have behind : (d.past 1).rest = rest := by
    rw [past_rest, ahead, List.drop_one, List.tail_cons]
  have more : rung.bytes - 1 ≤ (d.past 1).rest.length := by
    rw [ahead, List.length_cons] at enough
    rw [behind]
    omega
  have whole : 1 + (rung.bytes - 1) = rung.bytes := by omega
  have chunk : d.rest.take rung.bytes = first :: rest.take (rung.bytes - 1) := by
    rw [ahead, ← whole, Nat.add_comm, List.take_succ_cons, Nat.add_sub_cancel]
  intro v
  simp only [v, chunk]
  simp only [readLadder, ahead, byte_cons ahead, past_config, search, take_eq _ more, behind,
    past_past, whole]

/-- A displacement laid down on a ladder is read back, whatever the ranges of the other rungs. -/
theorem readLadder_laid {d : Decoding} {r : Rung} {v : Int} {more : List UInt8}
    (shaped : ∀ s ∈ d.config.ladder, s.shaped = true)
    (apart : Ladder.prefixFree d.config.ladder = true) (member : r ∈ d.config.ladder)
    (fits : fitsSigned v r.bits = true) (low : r.min ≤ v) (ahead : d.rest = r.encode v ++ more) :
    d.readLadder = (v, d.past (r.encode v).length) := by
  have own := shaped r member
  have length := Rung.length_encode own v
  obtain ⟨first, rest, cons, tagged⟩ := Rung.exists_encode_cons own v
  have byte (s : Rung) (among : s ∈ d.config.ladder) : s.tagBits ≤ 8 := by
    have placed := shaped s among
    simp only [Rung.shaped, decide_eq_true_eq] at placed
    exact placed.2.2.1
  have chunk : d.rest.take r.bytes = r.encode v := by rw [ahead, List.take_left' length]
  have read := @readLadder_tagged d first (rest ++ more) r (by rw [ahead, cons, List.cons_append])
    (Ladder.find?_tags byte apart member tagged) (Rung.one_le_bytes own)
    (by rw [ahead, List.length_append]; omega)
  simp only [chunk, Rung.decode_encode own fits, if_neg (Int.not_lt.mpr low)] at read
  rw [read, length]

/-- A displacement on a ladder is read back. -/
theorem readLadder_encode {d : Decoding} {r : Rung} {v : Int} {more : List UInt8}
    (good : Ladder.readable d.config.ladder = true) (member : r ∈ d.config.ladder)
    (holds : r.holds v = true) (ahead : d.rest = r.encode v ++ more) :
    d.readLadder = (v, d.past (r.encode v).length) := by
  have formed := Ladder.formed_of_readable good member
  apply readLadder_laid _ (Ladder.prefixFree_of_readable good) member
    (Rung.fitsSigned_of_holds formed holds) _ ahead
  · intro s among
    exact Rung.shaped_of_formed (Ladder.formed_of_readable good among)
  · simp only [Rung.holds, decide_eq_true_eq] at holds
    exact holds.1

end Decoding

end CrossAsm
