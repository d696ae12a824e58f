import CrossAsm.Proofs.Shortest

/-! How far a displacement on the ladder grows. Measured from the end of the instruction, a target
ahead comes nearer as the instruction grows, so a size asked for by a shorter layout may be more than
the longer one needs. The rounds never pass a rung that reaches and holds the way to the target from
the shortest layout as well. The smallest rung that reaches is taken exactly if it is such a rung, or
the last. -/

namespace CrossAsm

namespace Ladder

/-- The rungs grow in length and range, and every one holds 0. -/
structure Graded (ladder : List Rung) : Prop where
  rising : ascending ladder = true
  nested : ladder.Pairwise fun r s => s.min ≤ r.min ∧ r.max ≤ s.max
  zero : ∀ rung ∈ ladder, rung.holds 0 = true

variable {ladder : List Rung}

/-- Of two rungs the longer has the wider range, and there are no two of one length. -/
theorem Graded.compare (graded : Graded ladder) {r s : Rung} (left : r ∈ ladder)
    (right : s ∈ ladder) (le : r.bytes ≤ s.bytes) :
    (s.min ≤ r.min ∧ r.max ≤ s.max) ∧ (r.bytes = s.bytes → r = s) := by
  have both := (of_decide_eq_true graded.rising).and graded.nested
  refine List.Pairwise.forall_of_forall_of_flip
    (R := fun r s : Rung => r.bytes ≤ s.bytes →
      (s.min ≤ r.min ∧ r.max ≤ s.max) ∧ (r.bytes = s.bytes → r = s))
    (fun r _ _ => ⟨by omega, fun _ => rfl⟩) ?_ ?_ left right le
  · exact both.imp fun ⟨shorter, inside⟩ _ => ⟨inside, fun same => by omega⟩
  · exact both.imp fun ⟨shorter, _⟩ longer => by omega

theorem Graded.holds_of_le (graded : Graded ladder) {r s : Rung} {v : Int} (left : r ∈ ladder)
    (right : s ∈ ladder) (le : r.bytes ≤ s.bytes) (holds : r.holds v = true) :
    s.holds v = true := by
  obtain ⟨⟨low, high⟩, -⟩ := graded.compare left right le
  simp only [Rung.holds, decide_eq_true_eq] at holds ⊢
  omega

theorem Graded.bytes_le_of_getLast? (graded : Graded ladder) {r last : Rung}
    (longest : ladder.getLast? = some last) (member : r ∈ ladder) : r.bytes ≤ last.bytes := by
  obtain ⟨front, rfl⟩ := List.getLast?_eq_some_iff.mp longest
  have rising := (List.pairwise_append.mp (of_decide_eq_true graded.rising)).2.2
  rcases List.mem_append.mp member with before | here
  · exact Nat.le_of_lt (rising r before last (by simp))
  · rw [List.mem_singleton.mp here]

/-- No rung is as long as the last but itself. -/
theorem Graded.eq_of_getLast? (graded : Graded ladder) {r last : Rung}
    (longest : ladder.getLast? = some last) (member : r ∈ ladder) (le : last.bytes ≤ r.bytes) :
    last = r :=
  (graded.compare (List.mem_of_getLast? longest) member le).2
    (Nat.le_antisymm le (graded.bytes_le_of_getLast? longest member))

theorem Graded.bytes_le_of_head? (graded : Graded ladder) {r first : Rung}
    (shortest : ladder.head? = some first) (member : r ∈ ladder) : first.bytes ≤ r.bytes := by
  obtain ⟨rest, rfl⟩ := List.head?_eq_some_iff.mp shortest
  have rising := (List.pairwise_cons.mp (of_decide_eq_true graded.rising)).1
  rcases List.mem_cons.mp member with here | later
  · rw [here]
  · exact Nat.le_of_lt (rising r later)

/-- The size of a known value is that of the shortest rung that holds it, or of the last. -/
theorem Graded.exists_asked (graded : Graded ladder) (full : ladder ≠ []) (v : Int) :
    ∃ asked ∈ ladder, size ladder v none false = asked.bytes ∧
      (asked.holds v = true ∨ ladder.getLast? = some asked) ∧
      ∀ r ∈ ladder, r.holds v = true → asked.bytes ≤ r.bytes := by
  cases found : ladder.find? (·.holds v) with
  | none =>
    have last := List.getLast?_eq_some_getLast full
    have nowhere := List.find?_eq_none.mp found
    refine ⟨_, List.getLast_mem full, ?_, .inr last, fun r member holds => ?_⟩
    · simp only [size, rung?, found, Option.none_or, last]
    · exact absurd holds (by simpa using nowhere r member)
  | some asked =>
    have holds : asked.holds v = true := by simpa using List.find?_some found
    refine ⟨asked, List.mem_of_find?_eq_some found, ?_, .inl holds, fun r member fits => ?_⟩
    · simp only [size, rung?, found, Option.some_or]
    · obtain ⟨least, -, first, -, shorter⟩ := exists_shortest graded.rising member fits
      obtain rfl := Option.some.inj (found.symm.trans first)
      rcases shorter with rfl | shorter <;> omega

theorem Graded.size_zero (graded : Graded ladder) {first : Rung}
    (head : ladder.head? = some first) : size ladder 0 none false = first.bytes := by
  obtain ⟨rest, rfl⟩ := List.head?_eq_some_iff.mp head
  have holds := graded.zero first List.mem_cons_self
  simp [size, rung?, holds]

end Ladder

/-! ### Rounds that only move up the ladder -/

section Rounds

variable {f : Nat → Nat} (inflationary : ∀ n, n ≤ f n)

include inflationary

theorem le_repeat_succ (n rounds : Nat) : f n ≤ Nat.repeat f (rounds + 1) n := by
  induction rounds with
  | zero => exact Nat.le_refl _
  | succ rounds ih => exact Nat.le_trans ih (inflationary _)

theorem le_repeat (n rounds : Nat) : n ≤ Nat.repeat f rounds n := by
  cases rounds with
  | zero => exact Nat.le_refl _
  | succ rounds => exact Nat.le_trans (inflationary n) (le_repeat_succ inflationary n rounds)

/-- A round that changes the size moves it to a rung, which leaves fewer rungs above. So more rounds
than there are rungs end at a size that stays. -/
theorem repeat_settles {ladder : List Rung} (climbs : ∀ n, f n = n ∨ ∃ r ∈ ladder, f n = r.bytes)
    (n : Nat) : f (Nat.repeat f (ladder.length + 1) n) = Nat.repeat f (ladder.length + 1) n := by
  let above (n : Nat) : Nat := (ladder.filter (n < ·.bytes)).length
  have fewer (n : Nat) (moves : f n ≠ n) : above (f n) < above n := by
    obtain ⟨r, member, lands⟩ := (climbs n).resolve_left moves
    have less : n < f n := Nat.lt_of_le_of_ne (inflationary n) (Ne.symm moves)
    have part : (ladder.filter (f n < ·.bytes)).Sublist (ladder.filter (n < ·.bytes)) :=
      List.monotone_filter_right ladder fun s higher => by
        simp only [decide_eq_true_eq] at higher ⊢
        omega
    refine Nat.lt_of_le_of_ne part.length_le fun same => ?_
    -- The rung landed on is above the old size and not above the new one.
    have here : r ∈ ladder.filter (n < ·.bytes) := by
      simp only [List.mem_filter, decide_eq_true_eq]
      exact ⟨member, by omega⟩
    rw [← part.eq_of_length same, List.mem_filter, decide_eq_true_eq] at here
    omega
  have run (rounds : Nat) : f (Nat.repeat f rounds n) = Nat.repeat f rounds n ∨
      above (Nat.repeat f rounds n) + rounds ≤ above n := by
    induction rounds with
    | zero => exact .inr (Nat.le_refl _)
    | succ rounds ih =>
      by_cases stays : f (Nat.repeat f rounds n) = Nat.repeat f rounds n
      · exact .inl (congrArg f stays)
      · have less := fewer _ stays
        have bound := ih.resolve_left stays
        exact .inr (by simp only [Nat.repeat]; omega)
  refine (run _).resolve_right fun many => ?_
  have few : above n ≤ ladder.length := List.length_filter_le _ _
  omega

end Rounds

namespace Draft

/-- The sizes when every displacement on the ladder takes `n` bytes. -/
def sizesWith (d : Draft) (n : Nat) : List Nat :=
  d.extensions.map fun e => if e.flexible then n else e.initialSize d.config.ladder

/-- Where displacements are measured from when those on the ladder take `n` bytes. -/
def baseWith (d : Draft) (n : Nat) : Int := d.base (d.length (d.sizesWith n))

/-- Does the rung hold the way to the target in an instruction laid out with its size? -/
def reaches (d : Draft) (target : Int) (r : Rung) : Bool := r.holds (target - d.baseWith r.bytes)

/-- The only displacement on the ladder is one to a known target, and no size is asked for. -/
def Lone (d : Draft) (target : Int) : Prop :=
  ∃ stage column, d.extensions.filter Extension.flexible =
    [⟨stage, .ladder target true none false, column⟩]

/-- The size that a layout with `n` bytes on the ladder asks for; it never shrinks. -/
def asks (d : Draft) (target : Int) (n : Nat) : Nat :=
  max n (Ladder.size d.config.ladder (target - d.baseWith n) none false)

theorem le_asks (d : Draft) (target : Int) (n : Nat) : n ≤ d.asks target n := Nat.le_max_left _ _

theorem baseWith_mono (d : Draft) {m n : Nat} (le : m ≤ n) : d.baseWith m ≤ d.baseWith n := by
  have total : (d.sizesWith m).foldr (· + ·) 0 ≤ (d.sizesWith n).foldr (· + ·) 0 := by
    unfold sizesWith
    induction d.extensions with
    | nil => exact Nat.le_refl _
    | cons e rest ih =>
      simp only [List.map_cons, List.foldr_cons]
      split <;> omega
  have cells : d.length (d.sizesWith m) / d.config.cell.bytes ≤
      d.length (d.sizesWith n) / d.config.cell.bytes :=
    Nat.div_le_div_right (by simp only [length]; omega)
  unfold baseWith base
  cases d.config.origin with
  | start => exact Int.le_refl _
  | finish => exact Int.add_le_add_left (Int.ofNat_le.mpr cells) _

theorem baseWith_of_start {d : Draft} (start : d.config.origin = .start) (m n : Nat) :
    d.baseWith m = d.baseWith n := by
  simp only [baseWith, base, start]

section Lone

variable {d : Draft} {target : Int} (lone : d.Lone target)

include lone

theorem Lone.field_eq {e : Extension} (member : e ∈ d.extensions) (flexible : e.flexible = true) :
    e.field = .ladder target true none false := by
  obtain ⟨stage, column, only⟩ := lone
  have here : e ∈ d.extensions.filter Extension.flexible := List.mem_filter.mpr ⟨member, flexible⟩
  rw [only, List.mem_singleton] at here
  rw [here]

theorem Lone.grow_sizesWith (n : Nat) : d.grow (d.sizesWith n) = d.sizesWith (d.asks target n) := by
  change d.extensions.zipWith (Extension.grownSize d.config.ladder (d.baseWith n)) (d.sizesWith n) = _
  rw [sizesWith, List.zipWith_map_right, List.zipWith_self]
  apply List.map_congr_left
  intro e member
  -- A round changes only what is on the ladder, and that is the one displacement.
  cases flexible : e.flexible with
  | true =>
    simp only [if_true, Extension.grownSize, lone.field_eq member flexible, asks]
  | false => simp only [Bool.false_eq_true, if_false, Extension.grownSize_of_rigid flexible]

variable {first : Rung} (graded : Ladder.Graded d.config.ladder)
  (head : d.config.ladder.head? = some first)

include graded head

/-- The rounds start from the shortest rung and follow what each layout asks for. -/
theorem Lone.sizes_eq : d.sizes =
    d.sizesWith (Nat.repeat (d.asks target) (d.config.ladder.length + 1) first.bytes) := by
  have initial : d.extensions.map (Extension.initialSize d.config.ladder) =
      d.sizesWith first.bytes := by
    apply List.map_congr_left
    intro e member
    cases flexible : e.flexible with
    | true =>
      simp only [if_true, Extension.initialSize, lone.field_eq member flexible,
        graded.size_zero head]
    | false => rfl
  have rounds (n : Nat) : Nat.repeat d.grow n (d.sizesWith first.bytes) =
      d.sizesWith (Nat.repeat (d.asks target) n first.bytes) := by
    induction n with
    | zero => rfl
    | succ n ih => rw [Nat.repeat, ih, lone.grow_sizesWith, Nat.repeat]
  rw [sizes, initial, rounds]

end Lone

section Climb

variable {d : Draft} (target : Int) {first : Rung} (graded : Ladder.Graded d.config.ladder)
  (head : d.config.ladder.head? = some first)

include graded

/-- A layout keeps its size or asks for that of a rung. -/
theorem asks_eq_or_exists (full : d.config.ladder ≠ []) (n : Nat) :
    d.asks target n = n ∨ ∃ r ∈ d.config.ladder, d.asks target n = r.bytes := by
  obtain ⟨asked, member, size, -, -⟩ := graded.exists_asked full (target - d.baseWith n)
  rcases Nat.le_total asked.bytes n with less | more
  · exact .inl (by rw [asks, size, Nat.max_eq_left less])
  · exact .inr ⟨asked, member, by rw [asks, size, Nat.max_eq_right more]⟩

/-- A rung that reaches, and holds the way to the target from the shortest layout as well, is never
passed. -/
theorem repeat_asks_le {r : Rung} (member : r ∈ d.config.ladder)
    (reach : d.reaches target r = true) {start : Nat} (above : start ≤ r.bytes)
    (near : target - d.baseWith start ≤ r.max) (rounds : Nat) :
    Nat.repeat (d.asks target) rounds start ≤ r.bytes := by
  induction rounds with
  | zero => exact above
  | succ rounds ih =>
    -- Growth brings the target nearer, but not below the range, which reaches from the size `r` has.
    have holds : r.holds (target - d.baseWith (Nat.repeat (d.asks target) rounds start)) = true := by
      have below := d.baseWith_mono (le_repeat (d.le_asks target) start rounds)
      have within := d.baseWith_mono ih
      simp only [reaches, Rung.holds, decide_eq_true_eq] at reach ⊢
      omega
    obtain ⟨asked, -, size, -, least⟩ := graded.exists_asked (List.ne_nil_of_mem member)
      (target - d.baseWith (Nat.repeat (d.asks target) rounds start))
    rw [Nat.repeat, asks, size]
    exact Nat.max_le.mpr ⟨ih, least r member holds⟩

include head

/-- The rounds end at a rung that reaches or is the last, no shorter than the one that the shortest
layout asks for. -/
theorem exists_used : ∃ asked ∈ d.config.ladder, ∃ used ∈ d.config.ladder,
    (asked.holds (target - d.baseWith first.bytes) = true ∨
      d.config.ladder.getLast? = some asked) ∧
    Nat.repeat (d.asks target) (d.config.ladder.length + 1) first.bytes = used.bytes ∧
    asked.bytes ≤ used.bytes ∧
    (d.reaches target used = true ∨ d.config.ladder.getLast? = some used) := by
  have among : first ∈ d.config.ladder := List.mem_of_mem_head? head
  have full : d.config.ladder ≠ [] := List.ne_nil_of_mem among
  have lands := asks_eq_or_exists target graded full
  have onRung (rounds : Nat) :
      ∃ used ∈ d.config.ladder, Nat.repeat (d.asks target) rounds first.bytes = used.bytes := by
    induction rounds with
    | zero => exact ⟨first, among, rfl⟩
    | succ rounds ih =>
      rcases lands (Nat.repeat (d.asks target) rounds first.bytes) with same | moved
      · rwa [Nat.repeat, same]
      · exact moved
  obtain ⟨used, member, ends⟩ := onRung (d.config.ladder.length + 1)
  obtain ⟨asked, own, size, holds, -⟩ :=
    graded.exists_asked full (target - d.baseWith first.bytes)
  have climbed := le_repeat_succ (d.le_asks target) first.bytes d.config.ladder.length
  rw [asks, size, ends] at climbed
  refine ⟨asked, own, used, member, holds, ends, Nat.le_trans (Nat.le_max_right _ _) climbed, ?_⟩
  -- The last layout asks for no more than it has.
  obtain ⟨final, inside, finalSize, fits, -⟩ :=
    graded.exists_asked full (target - d.baseWith used.bytes)
  have stays := repeat_settles (d.le_asks target) lands first.bytes
  rw [ends, asks, finalSize] at stays
  have le : final.bytes ≤ used.bytes := by omega
  rcases fits with fits | last
  · exact .inl (graded.holds_of_le inside member le fits)
  · exact .inr (graded.eq_of_getLast? last member le ▸ last)

end Climb

section Taken

variable {d : Draft} {target : Int} (lone : d.Lone target)
  (graded : Ladder.Graded d.config.ladder) {used : Rung} (member : used ∈ d.config.ladder)
  (sizes : d.sizes = d.sizesWith used.bytes)

include lone graded member sizes

/-- What is reported of an instruction whose displacement takes a given rung. -/
theorem Lone.fault?_eq_none_iff : d.fault? = none ↔ d.reaches target used = true ∧
    ∀ e ∈ d.extensions, e.flexible = false →
      (e.render d.config (d.baseWith used.bytes) (e.initialSize d.config.ladder)).2 = none := by
  have base : d.finalBase = d.baseWith used.bytes := by rw [finalBase, sizes, baseWith]
  have ladder {e : Extension} (present : e ∈ d.extensions) (flexible : e.flexible = true) :
      (e.render d.config (d.baseWith used.bytes) used.bytes).2 = none ↔
        d.reaches target used = true := by
    simp only [Extension.render, lone.field_eq present flexible,
      Ladder.find?_bytes graded.rising member, Bool.false_eq_true, if_false, if_true, reaches]
    split <;> simp_all
  rw [Draft.fault?_eq_none_iff sizes, base]
  constructor
  · intro clean
    obtain ⟨stage, column, only⟩ := lone
    have here := List.mem_filter.mp (only ▸ List.mem_singleton_self _ :
      (⟨stage, .ladder target true none false, column⟩ : Extension) ∈
        d.extensions.filter Extension.flexible)
    refine ⟨(ladder here.1 here.2).mp (by simpa [here.2] using clean _ here.1), ?_⟩
    intro e present rigid
    simpa [rigid] using clean e present
  · rintro ⟨reached, others⟩ e present
    cases flexible : e.flexible with
    | true => simpa using (ladder present flexible).mpr reached
    | false => simpa using others e present flexible

end Taken

/-- A displacement alone on the ladder takes a rung no shorter than the smallest that reaches, and no
longer than any that reaches and holds the way to the target from the shortest layout already. It takes
the smallest exactly if that is such a rung, or there is no longer one; with displacements measured from
the start of the instruction it always does. An instruction is in order exactly if the rung taken
reaches and every other extension is in order. -/
theorem takes_smallest_iff {d : Draft} {target : Int} (lone : d.Lone target)
    (graded : Ladder.Graded d.config.ladder) {first q : Rung}
    (head : d.config.ladder.head? = some first) (member : q ∈ d.config.ladder)
    (reach : d.reaches target q = true)
    (smallest : ∀ r ∈ d.config.ladder, d.reaches target r = true → q.bytes ≤ r.bytes) :
    ∃ used ∈ d.config.ladder, d.sizes = d.sizesWith used.bytes ∧ q.bytes ≤ used.bytes ∧
      (∀ r ∈ d.config.ladder, d.reaches target r = true →
        target - d.baseWith first.bytes ≤ r.max → used.bytes ≤ r.bytes) ∧
      (d.reaches target used = true ∨ d.config.ladder.getLast? = some used) ∧
      (used = q ↔ target - d.baseWith first.bytes ≤ q.max ∨ d.config.ladder.getLast? = some q) ∧
      (d.config.origin = .start → used = q) ∧
      (d.fault? = none ↔ d.reaches target used = true ∧
        ∀ e ∈ d.extensions, e.flexible = false →
          (e.render d.config (d.baseWith used.bytes) (e.initialSize d.config.ladder)).2 = none) := by
  obtain ⟨asked, own, used, among, holds, ends, bounded, final⟩ := exists_used target graded head
  have sizes : d.sizes = d.sizesWith used.bytes := ends ▸ lone.sizes_eq graded head
  have shorter : q.bytes ≤ used.bytes := by
    rcases final with reached | last
    · exact smallest used among reached
    · exact graded.bytes_le_of_getLast? last member
  have passes : ∀ r ∈ d.config.ladder, d.reaches target r = true →
      target - d.baseWith first.bytes ≤ r.max → used.bytes ≤ r.bytes := by
    intro r present reached near
    rw [← ends]
    exact repeat_asks_le target graded present reached (graded.bytes_le_of_head? head present) near _
  have only : used = q ↔
      target - d.baseWith first.bytes ≤ q.max ∨ d.config.ladder.getLast? = some q := by
    constructor
    · rintro rfl
      -- What the shortest layout asks for is no longer than what is taken, so it is within its range.
      rcases holds with holds | last
      · have wide := graded.holds_of_le own member bounded holds
        simp only [Rung.holds, decide_eq_true_eq] at wide
        exact .inl wide.2
      · exact .inr (graded.eq_of_getLast? last member bounded ▸ last)
    · intro near
      have longer : used.bytes ≤ q.bytes := by
        rcases near with near | last
        · exact passes q member reach near
        · exact graded.bytes_le_of_getLast? last among
      exact (graded.compare among member longer).2 (Nat.le_antisymm longer shorter)
  refine ⟨used, among, sizes, shorter, passes, final, only, fun start => only.mpr (.inl ?_),
    lone.fault?_eq_none_iff graded among sizes⟩
  simp only [reaches, Rung.holds, decide_eq_true_eq] at reach
  rw [baseWith_of_start start first.bytes q.bytes]
  exact reach.2

/-- Three rungs, and one displacement measured from the end of the instruction. -/
def stretched (target : Int) : Draft :=
  { address := 0
    config := { ladder := [⟨1, 0, 1, -64, 63⟩, ⟨2, 2, 2, -8192, 8191⟩,
      ⟨4, 3, 2, -536870912, 536870911⟩] }
    extensions := [⟨.payload, .ladder target true none false, 0⟩] }

/-- The farthest target for which two bytes are enough in the layout with one. -/
theorem takes_smallest_near : (stretched 8193).fault? = none ∧
    ∃ used ∈ (stretched 8193).config.ladder,
      (stretched 8193).sizes = (stretched 8193).sizesWith used.bytes ∧
        used = ⟨2, 2, 2, -8192, 8191⟩ := by
  have lone : (stretched 8193).Lone 8193 := ⟨.payload, 0, rfl⟩
  have graded : Ladder.Graded (stretched 8193).config.ladder := ⟨rfl, by decide, by decide⟩
  have head : (stretched 8193).config.ladder.head? = some ⟨1, 0, 1, -64, 63⟩ := rfl
  obtain ⟨used, among, sizes, -, -, -, only, -, -⟩ :=
    takes_smallest_iff lone graded head (q := ⟨2, 2, 2, -8192, 8191⟩) (by decide) (by decide)
      (by decide)
  exact ⟨by decide, used, among, sizes, only.mpr (.inl (by decide))⟩

/-- One farther, two bytes still reach, from the end of the instruction that has them. The layout with
one byte asks for four, and four are taken. -/
theorem takes_longer_far :
    (stretched 8194).reaches 8194 ⟨2, 2, 2, -8192, 8191⟩ = true ∧
      (stretched 8194).sizes = [4] ∧ (stretched 8194).fault? = none ∧
      (stretched 8194).bytes = [0x00, 0xC0, 0x00, 0x1F, 0xFD] := by
  decide

end Draft

end CrossAsm
