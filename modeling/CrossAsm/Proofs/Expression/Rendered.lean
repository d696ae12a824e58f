import CrossAsm.Proofs.Expression.Grammar
import CrossAsm.Proofs.Symbols

/-! What is written for a number or an address is an expression for it. An address may be written by
the name of a symbol, by a distance behind one, or by a distance from the location counter; in each
case the text is read as a whole and gives the number back. -/

namespace CrossAsm

open Text

/-- Where an operand ends behind it, the text is read as a whole and gives a known number. -/
def Scope.ReadsBack (s : Scope) (text : String) (value : Int) : Prop :=
  ∀ pos rest, Closes rest → ∃ result,
    s.eval ⟨pos, text.toList ++ rest⟩ = .ok (result, ⟨pos + utf8Length text.toList, rest⟩) ∧
      result.undefined = false ∧ result.toInt = value

theorem Scope.Evals.readsBack {s : Scope} {text : String} {value : Int}
    (evals : s.Evals text.toList value) (low : -0x80000000 ≤ value) (high : value < 0x100000000) :
    s.ReadsBack text value :=
  fun pos rest closed => ⟨_, evals pos rest closed, rfl, toInt_known low high⟩

namespace Rendering

variable {r : Rendering}

/-- A symbol with a distance behind it stands for the address that far behind its own. -/
theorem evals_behind {name : String} {value : UInt32} {distance : Nat}
    (identifier : Cursor.isIdentifier name = true) (defined : r.symbols.value? name = some value)
    (inside : value.toNat + distance < 0x100000000) :
    r.scope.Evals (name ++ "+" ++ decimal distance).toList (value.toNat + distance : Nat) := by
  have symbol : r.scope.Reads name.toList value.toNat := Scope.reads_symbol identifier defined
  have small : distance ≤ Literal.limit := by
    simp only [Literal.limit]
    omega
  have sum : Operator.add.compute (Int64.ofInt value.toNat) (Int64.ofInt distance) =
      some (Int64.ofInt (value.toNat + distance : Nat)) := by
    rw [Operator.compute, ← Int64.ofInt_add, Int.natCast_add]
  have evals := r.scope.evals_sum '+' .add symbol (r.scope.reads_decimal small)
    (Scope.symbol_ne_nil identifier) (fun _ => rfl) (by decide) (by decide) (by decide) sum
    (by omega) (by omega)
  simpa using evals

/-- An address is written so that it is read back, by a symbol or as a number. -/
theorem evals_address (consistent : r.symbols.Consistent)
    (named : ∀ name value, r.symbols.value? name = some value → Cursor.isIdentifier name = true)
    (address : UInt32) : r.scope.Evals (r.place address).toList address.toNat := by
  have word := address.toNat_lt
  have number := r.evals_hex (n := address.toNat) r.config.addressDigits word
  unfold place symbol?
  split
  -- A symbol stands at the address.
  next name shown =>
    have defined := consistent address name shown
    have identifier := named name address defined
    exact (Scope.reads_symbol identifier defined).evals (Scope.symbol_ne_nil identifier)
      (by omega) (by omega)
  next hidden =>
    split
    -- A symbol stands before it, and is used if it is near enough.
    next name distance found =>
      obtain ⟨value, defined, sum⟩ := Symbols.value?_of_nearest? consistent found
      split
      · rw [Option.getD_some, ← sum]
        exact evals_behind (named name value defined) defined (by omega)
      · exact number
    · exact number

/-- Every number or address that is written for an operand is read back as itself, under the same
symbols and at the same location: numbers in the dialect's notation of any width, small constants
with their sign, immediates without the bits above their width, addresses as numbers or by symbols,
and targets also as distances from the location counter. -/
theorem readsBack_rendered (config : Config) (defs : List (String × UInt32))
    (named : ∀ d ∈ defs, Cursor.isIdentifier d.1 = true) (style : Style) (location : UInt32) :
    let r : Rendering := ⟨config, Symbols.ofList defs, style, location⟩
    let s : Scope := ⟨config.dialect, Symbols.ofList defs, location⟩
    (∀ n digits : Nat, n ≤ 2 ^ 32 - 1 → s.ReadsBack (config.dialect.hex n digits) n) ∧
      (∀ v : Int, -2 ^ 31 ≤ v → v ≤ 2 ^ 32 - 1 →
        s.ReadsBack (config.dialect.signed v) v ∧ s.ReadsBack (r.num v) v) ∧
      (∀ (v : Int) (bytes : Nat), 1 ≤ bytes → bytes ≤ 4 →
        s.ReadsBack (r.imm v bytes) (v % 2 ^ (8 * bytes))) ∧
      (∀ address : UInt32, s.ReadsBack (r.place address) address.toNat) ∧
      ∀ t : Int, 0 ≤ t → t ≤ 2 ^ 32 - 1 → s.ReadsBack (r.target t) t := by
  intro r s
  have identifier (name : String) (value : UInt32)
      (defined : r.symbols.value? name = some value) : Cursor.isIdentifier name = true := by
    obtain ⟨d, member, rfl⟩ := Symbols.exists_of_value?_ofList defs name value defined
    exact named d member
  have address (a : UInt32) := evals_address (r := r) (Symbols.consistent_ofList defs) identifier a
  refine ⟨?_, ?_, ?_, ?_, ?_⟩
  · intro n digits bound
    exact (r.evals_hex digits (by omega)).readsBack (by omega) (by omega)
  · intro v low high
    have evals := (r.evals_num (i := v) (by omega) (by omega)).readsBack (by omega) (by omega)
    exact ⟨evals, evals⟩
  · intro v bytes some four
    have width : (twoPow (min (8 * bytes) 32) : Int) = 2 ^ (8 * bytes) := by
      rw [Nat.min_eq_left (by omega), twoPow_eq]
      norm_cast
    have denotes := r.denotes_imm v bytes
    rw [width] at denotes
    exact denotes.evals.readsBack (by have := denotes.low; omega) denotes.high
  · intro a
    have word := a.toNat_lt
    exact (address a).readsBack (by omega) (by omega)
  · intro t low high
    have same : ((UInt32.ofInt t).toNat : Int) = t := by
      simp only [UInt32.ofInt, UInt32.toNat_ofNat']
      omega
    have place := address (UInt32.ofInt t)
    rw [same] at place
    exact (r.evals_target_of_place low (by omega) place).readsBack (by omega) (by omega)

/-- A symbol that has moved, an address behind it, and an immediate that would begin with a letter. -/
theorem readsBack_rendered_moved :
    let defs : List (String × UInt32) := [("tab.1", 0x100), ("end", 0x200), ("tab.1", 0x1F0)]
    let r : Rendering := ⟨{}, Symbols.ofList defs, { nearest := 16 }, 0x1000⟩
    let s : Scope := ⟨.intel, Symbols.ofList defs, 0x1000⟩
    r.place 0x1FA = "tab.1+10" ∧ s.ReadsBack "tab.1+10" 0x1FA ∧
      r.place 0x100 = "0100H" ∧ s.ReadsBack "0100H" 0x100 ∧
      r.imm (-2) 1 = "0FEH" ∧ s.ReadsBack "0FEH" 0xFE := by
  intro defs r s
  have named : ∀ d ∈ defs, Cursor.isIdentifier d.1 = true := by decide
  obtain ⟨-, -, imm, place, -⟩ := readsBack_rendered {} defs named { nearest := 16 } 0x1000
  have behind : r.place 0x1FA = "tab.1+10" := by decide
  have free : r.place 0x100 = "0100H" := by decide
  have low : r.imm (-2) 1 = "0FEH" := by decide
  exact ⟨behind, behind ▸ place 0x1FA, free, free ▸ place 0x100, low,
    low ▸ imm (-2) 1 (by decide) (by decide)⟩

end Rendering

end CrossAsm
