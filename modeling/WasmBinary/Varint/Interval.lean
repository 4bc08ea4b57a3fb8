import Mathlib.Algebra.Order.Ring.Int
import WasmBinary.Varint.Width

/-! The words of a width.

A width is tested by shifts. For a signed one they keep exactly the words of the interval that
two's complement gives the width (`fitsSigned_iff`), since a shift to the left multiplies by a
power of two, up to a multiple of `2 ^ 64`, and a shift to the right divides by it. For an
unsigned one nothing is left of exactly the words below the power of two (`fitsUnsigned_iff`). -/
namespace WasmBinary.Varint

theorem toBitVec_ofNat_smod {s : Nat} (h : s < 64) :
    (Int64.ofNat s).toBitVec.smod 64 = BitVec.ofNat 64 s := by
  have all : ∀ i : Fin 64, (Int64.ofNat i.val).toBitVec.smod 64 = BitVec.ofNat 64 i.val := by decide +kernel
  exact all ⟨s, h⟩

theorem toInt_shiftLeft (n : Int64) {s : Nat} (h : s < 64) :
    (n <<< Int64.ofNat s).toInt = (n.toInt * 2 ^ s).bmod (2 ^ 64) := by
  rw [← Int64.toInt_toBitVec, Int64.toBitVec_shiftLeft, toBitVec_ofNat_smod h]
  simp only [BitVec.shiftLeft_eq', BitVec.toNat_ofNat, Nat.mod_eq_of_lt (show s < 2 ^ 64 by omega)]
  rw [BitVec.toInt_shiftLeft, Nat.shiftLeft_eq, ← Int64.toInt_toBitVec, BitVec.toInt_eq_toNat_bmod,
    Int.bmod_mul_bmod]
  simp

theorem toInt_shiftRight (n : Int64) {s : Nat} (h : s < 64) :
    (n >>> Int64.ofNat s).toInt = n.toInt / 2 ^ s := by
  rw [← Int64.toInt_toBitVec, Int64.toBitVec_shiftRight, toBitVec_ofNat_smod h]
  simp only [BitVec.sshiftRight', BitVec.toNat_ofNat, Nat.mod_eq_of_lt (show s < 2 ^ 64 by omega),
    BitVec.toInt_sshiftRight, Int.shiftRight_eq_div_pow, Int64.toInt_toBitVec]
  simp

theorem mul_bmod_mul (x : Int) (m c : Nat) (hm : 0 < m) :
    (x * m).bmod (m * (2 * c)) = m * x.bmod (2 * c) := by
  have pos : (0 : Int) < m := by omega
  have scaled : x * m % ((m * (2 * c) : Nat) : Int) = m * (x % ((2 * c : Nat) : Int)) := by
    rw [Int.mul_comm, Int.natCast_mul, Int.mul_emod_mul_of_pos _ _ pos]
  have half : (((m * (2 * c) : Nat) : Int) + 1) / 2 = m * c := by
    have : ((m * (2 * c) : Nat) : Int) = 2 * (m * c) := by
      rw [Nat.mul_left_comm]
      norm_cast
    omega
  have half' : (((2 * c : Nat) : Int) + 1) / 2 = c := by omega
  rw [Int.bmod_def, Int.bmod_def, scaled, half, half']
  have compare := Int.mul_lt_mul_left (b := x % ((2 * c : Nat) : Int)) (c := (c : Int)) pos
  by_cases h : x % ((2 * c : Nat) : Int) < c
  · rw [if_pos (compare.2 h), if_pos h]
  · rw [if_neg (fun h' => h (compare.1 h')), if_neg h, Int.mul_sub, Int.natCast_mul m]

/-- **The shifts keep exactly the words of the width**: those between `-2 ^ (bits - 1)`
and `2 ^ (bits - 1) - 1`. -/
theorem fitsSigned_iff (n : Int64) {bits : Nat} (positive : 1 ≤ bits) (small : bits ≤ 64) :
    fitsSigned n bits = true ↔
      -2 ^ (bits - 1) ≤ n.toInt ∧ n.toInt < 2 ^ (bits - 1) := by
  obtain ⟨k, rfl⟩ : ∃ k, bits = k + 1 := ⟨bits - 1, by omega⟩
  rw [fitsSigned, beq_iff_eq, ← Int64.toInt_inj, toInt_shiftRight _ (by omega), toInt_shiftLeft _ (by omega)]
  have whole : (2 ^ 64 : Nat) = 2 ^ (64 - (k + 1)) * (2 * 2 ^ k) := by
    rw [← Nat.pow_succ', ← Nat.pow_add]
    congr 1
    omega
  have pos := Nat.two_pow_pos k
  have cancel := mul_bmod_mul n.toInt (2 ^ (64 - (k + 1))) (2 ^ k) (Nat.two_pow_pos _)
  have nonzero : (2 : Int) ^ (64 - (k + 1)) ≠ 0 := by
    have := Int.pow_pos (n := 2) (m := 64 - (k + 1)) (by omega)
    omega
  rw [Int.natCast_pow, show ((2 : Nat) : Int) = 2 from rfl] at cancel
  rw [whole, cancel, Int.mul_ediv_cancel_left _ nonzero, Int.bmod_eq_iff (by omega)]
  simp only [Nat.add_sub_cancel, Int.natCast_mul, Int.natCast_pow, Int.sub_self, Int.dvd_zero, and_true]
  rw [show ((2 : Nat) : Int) = 2 from rfl]
  have : (2 * 2 ^ k + 1 : Int) / 2 = 2 ^ k := by omega
  omega

theorem fitsUnsigned_iff (n : UInt64) (bits : Nat) : fitsUnsigned n bits = true ↔ n.toNat < 2 ^ bits := by
  by_cases wide : 64 ≤ bits
  · have word := n.toNat_lt
    have room : 2 ^ 64 ≤ 2 ^ bits := Nat.pow_le_pow_right (by decide) wide
    simp only [fitsUnsigned, wide, decide_true, Bool.true_or, true_iff]
    omega
  · have rest : (n >>> UInt64.ofNat bits).toNat = n.toNat / 2 ^ bits := by
      rw [UInt64.toNat_shiftRight, UInt64.toNat_ofNat_of_lt' (by simp only [UInt64.size]; omega),
        Nat.mod_eq_of_lt (by omega), Nat.shiftRight_eq_div_pow]
    have nothing : n.toNat / 2 ^ bits = 0 ↔ n.toNat < 2 ^ bits := Nat.div_eq_zero_iff_lt (Nat.two_pow_pos bits)
    simp only [fitsUnsigned, wide, decide_false, Bool.false_or, beq_iff_eq, ← UInt64.toNat_inj, rest,
      UInt64.toNat_zero, nothing]

end WasmBinary.Varint
