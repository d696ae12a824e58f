import CrossAsm.Proofs.Ladder

/-! Displacements of variable length in their shortest form. What is read from a ladder stands on a
rung that holds it, and laying it down again takes the first such rung: no longer one, and the same
bytes exactly if the rung it came from was the shortest. -/

namespace CrossAsm

namespace Rung

/-- The range ends where the bits behind the tag do. -/
def capped (r : Rung) : Bool := r.max + 1 = twoPow (r.bits - 1)

variable {r : Rung} (shaped : r.shaped = true)

include shaped

/-- What is read behind a tag is laid down in the bytes it was read from. -/
theorem encode_decode {first : UInt8} {rest : List UInt8} (tagged : r.tags first = true)
    (count : (first :: rest).length = r.bytes) :
    r.encode (r.decode (first :: rest)) = first :: rest := by
  have cut : Endian.big.number (first :: rest) / twoPow r.bits = r.tag := by
    rw [number_div_bits shaped (by rw [← count]; rfl)]
    simpa [tags] using tagged
  simp only [Rung.shaped, decide_eq_true_eq] at shaped
  obtain ⟨-, word, -, -, -⟩ := shaped
  have narrow : r.bits ≤ 32 := by
    rw [bits]
    omega
  have kept : r.decode (first :: rest) % twoPow r.bits =
      ((Endian.big.number (first :: rest) % twoPow r.bits : Nat) : Int) := by
    rw [decode, show Nat.min r.bits 32 = r.bits from Nat.min_eq_left narrow, signExtend_emod,
      ← Int.natCast_emod, Nat.mod_mod]
  have whole : (r.tag : Int) * twoPow r.bits + r.decode (first :: rest) % twoPow r.bits =
      (Endian.big.number (first :: rest) : Nat) := by
    rw [kept, ← cut]
    exact_mod_cast Nat.div_add_mod' _ _
  rw [encode, whole, ← count]
  exact Endian.put_number _ (by omega)

theorem encode_decode_take {first : UInt8} {stream rest : List UInt8}
    (begins : stream = first :: rest) (tagged : r.tags first = true)
    (enough : r.bytes ≤ stream.length) :
    r.encode (r.decode (stream.take r.bytes)) = stream.take r.bytes := by
  have one := one_le_bytes shaped
  have chunk : stream.take r.bytes = first :: rest.take (r.bytes - 1) := by
    rw [begins, List.take_cons (by omega)]
  rw [chunk]
  apply encode_decode shaped tagged
  rw [← chunk, List.length_take_of_le enough]

theorem fitsSigned_decode (bytes : List UInt8) : fitsSigned (r.decode bytes) r.bits = true := by
  simp only [Rung.shaped, decide_eq_true_eq] at shaped
  obtain ⟨-, -, -, room, -⟩ := shaped
  exact fitsSigned_signExtend _ (show 0 < r.bits by rw [bits]; omega)

theorem holds_decode (capped : r.capped = true) {bytes : List UInt8}
    (low : r.min ≤ r.decode bytes) : r.holds (r.decode bytes) = true := by
  obtain ⟨-, high⟩ := fitsSigned_iff.mp (fitsSigned_decode shaped bytes)
  simp only [Rung.capped, decide_eq_true_eq] at capped
  simp only [holds, decide_eq_true_eq]
  refine ⟨low, ?_⟩
  omega

end Rung

namespace Decoding

/-- A displacement that is read without a fault begins with a tag and is there as a whole. -/
theorem exists_tagged_of_readLadder {d : Decoding} (clean : d.readLadder.2.fault = none) :
    ∃ first rest rung, d.rest = first :: rest ∧
      d.config.ladder.find? (·.tags first) = some rung ∧ rung.bytes - 1 ≤ rest.length := by
  cases ahead : d.rest with
  | nil =>
    simp only [readLadder, ahead] at clean
    exact absurd clean (fail_fault_ne_none d .noMemory)
  | cons first rest =>
    simp only [readLadder, ahead, byte_cons ahead, past_config] at clean
    cases search : d.config.ladder.find? (·.tags first) with
    | none =>
      simp only [search] at clean
      exact absurd clean (fail_fault_ne_none _ _)
    | some rung =>
      simp only [search] at clean
      refine ⟨first, rest, rung, rfl, search, ?_⟩
      have behind : (d.past 1).rest = rest := by
        rw [past_rest, ahead, List.drop_one, List.tail_cons]
      rw [← behind]
      apply enough_of_take
      split at clean
      · exact absurd clean (fail_fault_ne_none _ _)
      · exact clean

/-- What is read from a ladder without a fault stands on a rung that holds it. -/
theorem exists_rung_of_readLadder {d : Decoding}
    (good : Ladder.readable d.config.ladder = true)
    (capped : ∀ rung ∈ d.config.ladder, rung.capped = true)
    (clean : d.readLadder.2.fault = none) :
    ∃ rung ∈ d.config.ladder, ∃ v more, rung.holds v = true ∧ d.rest = rung.encode v ++ more ∧
      d.readLadder = (v, d.past (rung.encode v).length) := by
  obtain ⟨first, rest, rung, ahead, search, more⟩ := exists_tagged_of_readLadder clean
  have member := List.mem_of_find?_eq_some search
  have shaped := Rung.shaped_of_formed (Ladder.formed_of_readable good member)
  have one := Rung.one_le_bytes shaped
  have enough : rung.bytes ≤ d.rest.length := by
    rw [ahead, List.length_cons]
    omega
  have read := readLadder_tagged ahead search one enough
  have low : rung.min ≤ rung.decode (d.rest.take rung.bytes) := by
    by_contra below
    rw [read, if_pos (Int.not_le.mp below)] at clean
    exact fail_fault_ne_none _ _ clean
  have holds := Rung.holds_decode shaped (capped rung member) low
  have split := Rung.encode_decode_take shaped ahead (by simpa using List.find?_some search) enough
  refine ⟨rung, member, _, d.rest.drop rung.bytes, holds, ?_, ?_⟩
  · rw [split, List.take_append_drop]
  · rw [read, if_neg (Int.not_lt.mpr low), Rung.length_encode shaped]

end Decoding

namespace Ladder

/-- The rungs stand from short to long. -/
def ascending (ladder : List Rung) : Bool := decide (ladder.Pairwise fun r s => r.bytes < s.bytes)

variable {ladder : List Rung} (rising : ascending ladder = true)

include rising

/-- Of the rungs that hold a number the first is the shortest. -/
theorem exists_shortest {r : Rung} {v : Int} (member : r ∈ ladder) (holds : r.holds v = true) :
    ∃ s ∈ ladder, ladder.find? (·.holds v) = some s ∧ s.holds v = true ∧
      (s = r ∨ s.bytes < r.bytes) := by
  obtain ⟨s, found⟩ : ∃ s, ladder.find? (·.holds v) = some s := by
    apply Option.isSome_iff_exists.mp
    rw [List.find?_isSome]
    exact ⟨r, member, holds⟩
  exact ⟨s, List.mem_of_find?_eq_some found, found, by simpa using List.find?_some found,
    eq_or_related_of_find? (of_decide_eq_true rising) found member holds⟩

/-- Rungs are told apart by their lengths. -/
theorem find?_bytes {s : Rung} (member : s ∈ ladder) :
    ladder.find? (·.bytes == s.bytes) = some s := by
  obtain ⟨found, search⟩ : ∃ found, ladder.find? (·.bytes == s.bytes) = some found := by
    apply Option.isSome_iff_exists.mp
    rw [List.find?_isSome]
    exact ⟨s, member, by simp⟩
  have same : found.bytes = s.bytes := by simpa using List.find?_some search
  rcases eq_or_related_of_find? (of_decide_eq_true rising) search member (by simp) with rfl | shorter
  · exact search
  · omega

end Ladder

/-- Without a size asked for, a known displacement takes the first rung that holds it. -/
theorem Extension.laid_shortest {config : Config} (rising : Ladder.ascending config.ladder = true)
    (zero : ∀ rung ∈ config.ladder, rung.holds 0 = true) {base value v : Int} {relative : Bool}
    (measured : v = if relative then value - base else value) {s : Rung}
    (found : config.ladder.find? (·.holds v) = some s) (stage : Stage) (column : Nat) :
    laid config base ⟨stage, .ladder value relative none false, column⟩ = (s.encode v, none) := by
  have member := List.mem_of_find?_eq_some found
  have holds : s.holds v = true := by simpa using List.find?_some found
  have size : Ladder.size config.ladder v none false = s.bytes := by
    simp only [Ladder.size, Ladder.rung?, found, Option.some_or]
  have settles : settled config.ladder base ⟨stage, .ladder value relative none false, column⟩ =
      s.bytes := by
    cases relative with
    | false =>
      obtain rfl : v = value := measured
      simpa only [settled, grownSize, initialSize] using size
    | true =>
      obtain rfl : v = value - base := measured
      obtain ⟨least, -, first, -, shorter⟩ := Ladder.exists_shortest rising member (zero s member)
      have start : Ladder.size config.ladder 0 none false = least.bytes := by
        simp only [Ladder.size, Ladder.rung?, first, Option.some_or]
      have below : least.bytes ≤ s.bytes := by
        rcases shorter with rfl | shorter <;> omega
      simp only [settled, grownSize, initialSize, size, start, Nat.max_eq_right below]
  simp only [laid, settles, render, Ladder.find?_bytes rising member, Bool.false_eq_true, if_false,
    ← measured, holds, if_true]

end CrossAsm
