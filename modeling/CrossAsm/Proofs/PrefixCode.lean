import CrossAsm.Proofs.Ns32000.Restore

/-! A ladder is a prefix code: what is laid down on a rung is read back, whatever bytes follow. On
the ladder of the NS32000 every first byte has a rung, so that reading can be undone as well. One
first byte is reserved: it leads to numbers that the last rung has bits for and does not take. -/

namespace CrossAsm

namespace Ladder

/-- The first byte tells the rung, and the bits behind the tag have room for the range. A range may
be empty. -/
structure IsPrefixCode (ladder : List Rung) : Prop where
  shaped : ∀ r ∈ ladder, r.shaped = true
  apart : prefixFree ladder = true
  inside : ∀ r ∈ ladder, ∀ v, r.min ≤ v → v ≤ r.max → fitsSigned v r.bits = true

/-- There are all the bytes that a displacement with the first of them asks for. -/
def enough (ladder : List Rung) (stream : List UInt8) : Bool :=
  stream.head?.any fun first =>
    ladder.all fun r => !r.tags first || decide (r.bytes ≤ stream.length)

theorem le_length_of_enough {ladder : List Rung} {first : UInt8} {rest : List UInt8}
    (whole : enough ladder (first :: rest) = true) {r : Rung} (member : r ∈ ladder)
    (tagged : r.tags first = true) : r.bytes ≤ (first :: rest).length := by
  simp only [enough, List.head?_cons, Option.any_some, List.all_eq_true, Bool.or_eq_true,
    Bool.not_eq_true', decide_eq_true_eq] at whole
  rcases whole r member with other | fits
  · exact absurd (tagged.symm.trans other) (by decide)
  · exact fits

end Ladder

/-- Where a tag of the ladder and all the bytes of its rung are ahead, the number that is read would
be laid down in the bytes that are taken. -/
theorem Decoding.exists_readLadder {d : Decoding} {first : UInt8} {rest : List UInt8}
    (shaped : ∀ r ∈ d.config.ladder, r.shaped = true) (ahead : d.rest = first :: rest)
    (known : ∃ r ∈ d.config.ladder, r.tags first = true)
    (whole : Ladder.enough d.config.ladder d.rest = true) :
    ∃ r ∈ d.config.ladder, ∃ taken more, d.rest = taken ++ more ∧ taken.head? = some first ∧
      taken.length = r.bytes ∧ r.tags first = true ∧ r.encode (r.decode taken) = taken ∧
      d.readLadder = (r.decode taken, if r.decode taken < r.min
        then (d.past r.bytes).fail .illegalConstant else d.past r.bytes) := by
  obtain ⟨r, search⟩ : ∃ r, d.config.ladder.find? (·.tags first) = some r := by
    apply Option.isSome_iff_exists.mp
    rw [List.find?_isSome]
    exact known
  have member := List.mem_of_find?_eq_some search
  have tagged : r.tags first = true := by simpa using List.find?_some search
  have one := Rung.one_le_bytes (shaped r member)
  have enough : r.bytes ≤ d.rest.length := by
    rw [ahead] at whole ⊢
    exact Ladder.le_length_of_enough whole member tagged
  refine ⟨r, member, d.rest.take r.bytes, d.rest.drop r.bytes, (List.take_append_drop _ _).symm,
    ?_, List.length_take_of_le enough, tagged,
    Rung.encode_decode_take (shaped r member) ahead tagged enough,
    readLadder_tagged ahead search one enough⟩
  rw [ahead, List.take_cons (by omega), List.head?_cons]

namespace Ns32000

theorem shaped_of_mem_ladder (r : Rung) (member : r ∈ ladder) : r.shaped = true :=
  Rung.shaped_of_formed (Ladder.formed_of_readable ladder_readable member)

/-- Every byte begins a displacement. -/
theorem exists_tags (first : UInt8) : ∃ r ∈ ladder, r.tags first = true := by
  have byte := first.toNat_lt
  have ranges : first.toNat / 128 = 0 ∨ first.toNat / 64 = 2 ∨ first.toNat / 64 = 3 := by omega
  simp only [ladder, List.exists_mem_cons_iff, Rung.tags]
  rcases ranges with short | middle | long
  · exact .inl (decide_eq_true short)
  · exact .inr (.inl (decide_eq_true middle))
  · exact .inr (.inr (.inl (decide_eq_true long)))

/-- The first byte decides whether a number of the last rung is below its range. -/
theorem signExtend_lt_iff {first low : Nat} (long : first / 64 = 3) (small : low < 0x1000000) :
    signExtend ((first * 0x1000000 + low) % twoPow 30) 30 < -0x1F000000 ↔ first = 0xE0 := by
  have width : twoPow 30 = 0x40000000 := rfl
  rw [signExtend, width, Int.bmod_def]
  omega

/-- The numbers below the range of their rung are those with the reserved first byte. -/
theorem decode_lt_min_iff {r : Rung} (member : r ∈ ladder) {first : UInt8} {rest : List UInt8}
    (tagged : r.tags first = true) (count : (first :: rest).length = r.bytes) :
    r.decode (first :: rest) < r.min ↔ first = 0xE0 := by
  obtain ⟨least, -⟩ := fitsSigned_iff.mp
    (Rung.fitsSigned_decode (shaped_of_mem_ladder r member) (first :: rest))
  have own : first.toNat / twoPow (8 - r.tagBits) = r.tag := of_decide_eq_true tagged
  rw [← UInt8.toNat_inj]
  simp only [ladder, List.mem_cons, List.not_mem_nil, or_false] at member
  -- The ranges of the first two rungs begin where their bits do.
  rcases member with rfl | rfl | rfl
  · have short : first.toNat / 128 = 0 := own
    refine ⟨fun below => absurd least (Int.not_le.mpr below), fun reserved => ?_⟩
    rw [reserved] at short
    exact absurd short (by decide)
  · have middle : first.toNat / 64 = 2 := own
    refine ⟨fun below => absurd least (Int.not_le.mpr below), fun reserved => ?_⟩
    rw [reserved] at middle
    exact absurd middle (by decide)
  · have three : rest.length = 3 := by simpa using count
    have small := Endian.big.number_lt rest
    rw [three] at small
    rw [Rung.decode, Endian.number_big_cons, three]
    exact signExtend_lt_iff own small

/-- What is read from the ladder is laid down again in the bytes that were taken for it. It is in
the range of its rung unless the first byte is the reserved one. -/
theorem exists_rung_of_enough {d : Decoding} {first : UInt8} {rest : List UInt8}
    (same : d.config.ladder = ladder) (ahead : d.rest = first :: rest)
    (whole : Ladder.enough ladder d.rest = true) :
    ∃ r ∈ ladder, ∃ taken more, d.rest = taken ++ more ∧ r.encode d.readLadder.1 = taken ∧
      (r.holds d.readLadder.1 = true ↔ first ≠ 0xE0) ∧
      d.readLadder.2 =
        let after := { d with bytes := d.bytes ++ taken, rest := more }
        if first = 0xE0 then after.fail .illegalConstant else after := by
  obtain ⟨r, member, taken, more, split, head, length, tagged, back, read⟩ :=
    Decoding.exists_readLadder (by rw [same]; exact shaped_of_mem_ladder) ahead
      (by rw [same]; exact exists_tags first) (by rw [same]; exact whole)
  rw [same] at member
  obtain ⟨tail, rfl⟩ : ∃ tail, taken = first :: tail := List.head?_eq_some_iff.mp head
  have low := decode_lt_min_iff member tagged length
  have past : d.past r.bytes = { d with bytes := d.bytes ++ first :: tail, rest := more } := by
    rw [← length]
    exact Decoding.past_append split
  refine ⟨r, member, first :: tail, more, split, by rw [read, back], ?_, ?_⟩
  · simp only [read, ne_eq, ← low, Int.not_lt]
    refine ⟨fun holds => ?_, fun inside => ?_⟩
    · simp only [Rung.holds, decide_eq_true_eq] at holds
      exact holds.1
    · exact Rung.holds_decode (shaped_of_mem_ladder r member) (ladder_capped r member) inside
  · rw [read, past]
    simp only [low]

end Ns32000

/-- Reading is an exact inverse of laying down on a ladder that is a prefix code. On the ladder of
the NS32000 laying down is one of reading, and the reserved first byte alone is a fault. -/
theorem Ladder.reading_inverts_laying :
    (∀ (d : Decoding) (r : Rung) (v : Int) (more : List UInt8),
      IsPrefixCode d.config.ladder → r ∈ d.config.ladder → r.min ≤ v → v ≤ r.max →
      d.rest = r.encode v ++ more →
        (r.encode v).length = r.bytes ∧
        d.readLadder = (v, { d with bytes := d.bytes ++ r.encode v, rest := more })) ∧
    (∀ (d : Decoding) (first : UInt8) (rest : List UInt8),
      d.config.ladder = Ns32000.ladder → d.rest = first :: rest →
      enough Ns32000.ladder d.rest = true →
        ∃ v after, d.readLadder = (v, after) ∧
          after.fault = d.fault.or (if first = 0xE0 then
            some (Cause.illegalConstant.located after.bytes.length) else none) ∧
          ∃ r ∈ Ns32000.ladder, (r.holds v = true ↔ first ≠ 0xE0) ∧
            after.bytes = d.bytes ++ r.encode v ∧ d.rest = r.encode v ++ after.rest) := by
  refine ⟨fun d r v more code member low high ahead => ?_, fun d first rest same ahead whole => ?_⟩
  · have length := Rung.length_encode (code.shaped r member) v
    refine ⟨length, ?_⟩
    rw [Decoding.readLadder_laid code.shaped code.apart member (code.inside r member v low high) low
      ahead, Decoding.past_append ahead]
  · obtain ⟨r, member, taken, more, split, back, holds, after⟩ :=
      Ns32000.exists_rung_of_enough same ahead whole
    have bytes : d.readLadder.2.bytes = d.bytes ++ taken := by rw [after]; split <;> rfl
    have behind : d.readLadder.2.rest = more := by rw [after]; split <;> rfl
    refine ⟨d.readLadder.1, d.readLadder.2, rfl, ?_, r, member, holds, by rw [bytes, back],
      by rw [behind, back, split]⟩
    rw [bytes, after]
    by_cases reserved : first = 0xE0
    · simp only [if_pos reserved, Decoding.fail]
    · simp only [if_neg reserved, Option.or_none]

/-- Three tags of different widths, one of them a whole byte; and the reserved byte of the NS32000
beside the first that is not. -/
theorem Ladder.reading_inverts_laying_mixed :
    let mixed : List Rung :=
      [⟨1, 0, 1, -64, 63⟩, ⟨3, 5, 3, -0x100000, 0xFFFFF⟩, ⟨2, 0xFF, 8, -128, -5⟩]
    let d : Decoding := ⟨{ ladder := mixed }, 0, 0, [], [0x0A], [0xFF, 0xFB, 0x12], none⟩
    let n (first : UInt8) : Decoding :=
      ⟨Ns32000.config, 0, 0, [], [0xEA], [first, 0, 0, 0, 0x12], none⟩
    (IsPrefixCode mixed ∧
        d.readLadder = (-5, { d with bytes := [0x0A, 0xFF, 0xFB], rest := [0x12] })) ∧
      (enough Ns32000.ladder (n 0xE0).rest = true ∧ ∃ v after, (n 0xE0).readLadder = (v, after) ∧
        after.fault = some (Cause.illegalConstant.located after.bytes.length)) ∧
      ∃ v after, (n 0xE1).readLadder = (v, after) ∧ after.fault = none ∧
        ∃ r ∈ Ns32000.ladder, r.holds v = true := by
  intro mixed d n
  have code : IsPrefixCode mixed := by
    refine ⟨by decide, by decide, ?_⟩
    intro r member v low high
    simp only [mixed, List.mem_cons, List.not_mem_nil, or_false] at member
    rw [fitsSigned_iff]
    rcases member with rfl | rfl | rfl <;> simp only [Rung.bits, twoPow] at low high ⊢ <;> omega
  refine ⟨⟨code, ?_⟩, ⟨by decide, ?_⟩, ?_⟩
  · exact (reading_inverts_laying.1 d ⟨2, 0xFF, 8, -128, -5⟩ (-5) [0x12] code (by decide)
      (by decide) (by decide) (by decide)).2
  · obtain ⟨v, after, read, fault, -⟩ :=
      reading_inverts_laying.2 (n 0xE0) 0xE0 [0, 0, 0, 0x12] rfl rfl (by decide)
    exact ⟨v, after, read, fault⟩
  · obtain ⟨v, after, read, fault, r, member, holds, -⟩ :=
      reading_inverts_laying.2 (n 0xE1) 0xE1 [0, 0, 0, 0x12] rfl rfl (by decide)
    exact ⟨v, after, read, fault, r, member, holds.mpr (by decide)⟩

end CrossAsm
