import Mathlib.Order.Bounds.Defs
import WasmBinary.ByteTree.Frame
import WasmBinary.Proofs.Varint.Sign

/-! How long an encoding is.

A writer does not count bits. It stops where the rest of the word says nothing more, and that is
behind as many groups as the value needs: a number of groups is enough for the writer exactly when
the value lies within their bits (`length_unsignedGroups_le_iff`, `length_signedGroups_le_iff`). A
word lies within some bits exactly when the bits above are copies of its sign, so the length can be
told from the run of these copies alone (`lengths_in_closed_form`). -/
namespace WasmBinary.Varint

/-! ### Enough groups -/

theorem length_unsignedGroups_le_iff (n k : Nat) :
    (unsignedGroups n).length ≤ k ↔ 1 ≤ k ∧ n < 2 ^ (7 * k) := by
  fun_induction unsignedGroups n generalizing k with
  | case1 n small =>
    rw [List.length_singleton]
    refine ⟨fun positive => ⟨positive, ?_⟩, And.left⟩
    have room : 2 ^ 7 ≤ 2 ^ (7 * k) := Nat.pow_le_pow_right (by decide) (by omega)
    omega
  | case2 n big ih =>
    cases k with
    | zero => simp
    | succ k =>
      have shift : 2 ^ (7 * (k + 1)) = 128 * 2 ^ (7 * k) := by
        rw [Nat.mul_add, Nat.add_comm, Nat.pow_add]
      rw [List.length_cons, Nat.succ_le_succ_iff, ih, shift]
      -- Behind this group the rest takes another, so one group is not enough.
      cases k with
      | zero => omega
      | succ k => omega

theorem length_signedGroups_le_iff (n : Int) (k : Nat) :
    (signedGroups n).length ≤ k ↔ 1 ≤ k ∧ -2 ^ (7 * k - 1) ≤ n ∧ n < 2 ^ (7 * k - 1) := by
  fun_induction signedGroups n generalizing k with
  | case1 n small =>
    rw [List.length_singleton]
    refine ⟨fun positive => ⟨positive, ?_⟩, And.left⟩
    have room : (2 : Int) ^ 6 ≤ 2 ^ (7 * k - 1) := by
      exact_mod_cast Nat.pow_le_pow_right (n := 2) (by decide) (show 6 ≤ 7 * k - 1 by omega)
    omega
  | case2 n big ih =>
    cases k with
    | zero => simp
    | succ k =>
      rw [List.length_cons, Nat.succ_le_succ_iff, ih]
      -- Behind this group the rest takes another, so one group is not enough.
      cases k with
      | zero => omega
      | succ k =>
        have shift : (2 : Int) ^ (7 * (k + 2) - 1) = 128 * 2 ^ (7 * (k + 1) - 1) := by
          rw [show 7 * (k + 2) - 1 = 7 + (7 * (k + 1) - 1) by omega, Int.pow_add]
          rfl
        rw [shift]
        omega

/-! ### The run of the highest bits -/

/-- The length of the run of this bit that a word starts with, from its highest bit down. -/
def leadingRun {width : Nat} (bit : Bool) (word : BitVec width) : Nat := among width
where
  /-- The length of the run that so many of the low bits start with. -/
  among : Nat → Nat
    | 0 => 0
    | i + 1 => if word.getLsbD i = bit then among i + 1 else 0

/-- How many bits of a word lie below its leading zeros. -/
def unsignedSize (n : UInt64) : Nat := 64 - leadingRun false n.toBitVec

/-- How many bits of a word lie below the copies of its sign. -/
def signedSize (n : Int64) : Nat :=
  64 - if n < 0 then leadingRun true n.toBitVec else leadingRun false n.toBitVec

/-- What is left below the run lies within `k` bits exactly when the run goes down to there. -/
theorem sub_among_le_iff {width : Nat} {bit : Bool} {word : BitVec width} (bits k : Nat) :
    bits - leadingRun.among bit word bits ≤ k ↔ ∀ i, k ≤ i → i < bits → word.getLsbD i = bit := by
  induction bits with
  | zero => simp
  | succ bits ih =>
    rw [leadingRun.among]
    split
    · rename_i same
      rw [Nat.add_sub_add_right, ih]
      refine ⟨fun above i high low => ?_, fun above i high low => above i high (by omega)⟩
      rcases Nat.lt_succ_iff_lt_or_eq.1 low with low | rfl
      · exact above i high low
      · exact same
    · rename_i other
      refine ⟨fun all i high low => by omega, fun above => ?_⟩
      by_contra more
      exact other (above bits (by omega) (by omega))

theorem toNat_lt_two_pow_iff {width : Nat} {word : BitVec width} {k : Nat} :
    word.toNat < 2 ^ k ↔ ∀ i, k ≤ i → i < width → word.getLsbD i = false := by
  constructor
  · intro small i high _
    exact Nat.testBit_lt_two_pow (Nat.lt_of_lt_of_le small (Nat.pow_le_pow_right (by decide) high))
  · intro clear
    refine Nat.lt_pow_two_of_testBit _ fun i high => ?_
    by_cases inside : i < width
    · exact clear i high inside
    · exact word.getLsbD_of_ge i (by omega)

theorem sub_leadingRun_false_le_iff {width : Nat} (word : BitVec width) (k : Nat) :
    width - leadingRun false word ≤ k ↔ word.toNat < 2 ^ k := by
  rw [leadingRun, sub_among_le_iff, toNat_lt_two_pow_iff]

theorem sub_leadingRun_true_le_iff {width : Nat} (word : BitVec width) (k : Nat) :
    width - leadingRun true word ≤ k ↔ (~~~word).toNat < 2 ^ k := by
  rw [leadingRun, sub_among_le_iff, toNat_lt_two_pow_iff]
  refine forall_congr' fun i => imp_congr_right fun _ => imp_congr_right fun low => ?_
  rw [BitVec.getLsbD_not, decide_eq_true low, Bool.true_and, Bool.not_eq_false']

theorem unsignedSize_le_iff (n : UInt64) (k : Nat) : unsignedSize n ≤ k ↔ n.toNat < 2 ^ k :=
  sub_leadingRun_false_le_iff n.toBitVec k

theorem signedSize_le_iff (n : Int64) (k : Nat) :
    signedSize n ≤ k ↔ -2 ^ k ≤ n.toInt ∧ n.toInt < 2 ^ k := by
  have pos : (0 : Int) < 2 ^ k := Int.pow_pos (by decide)
  rw [signedSize]
  split
  · rename_i negative
    -- The ones that a negative word starts with are the zeros that its complement starts with.
    have below : n.toInt < 0 := Int64.lt_iff_toInt_lt.1 negative
    have complement := toInt_complement n
    have value : (((~~~n).toBitVec.toNat : Nat) : Int) = -1 - n.toInt := by
      rw [← complement]
      exact toNat_toUInt64 (Int64.le_iff_toInt_le.2 (by rw [complement, Int64.toInt_zero]; omega))
    rw [sub_leadingRun_true_le_iff, ← Int64.toBitVec_not, ← Int.ofNat_lt]
    push_cast
    omega
  · rename_i nonneg
    have nonneg := Int64.not_lt.1 nonneg
    have above := Int64.le_iff_toInt_le.1 nonneg
    have value : ((n.toBitVec.toNat : Nat) : Int) = n.toInt := toNat_toUInt64 nonneg
    rw [sub_leadingRun_false_le_iff, ← Int.ofNat_lt]
    push_cast
    omega

/-! ### The length in closed form -/

theorem length_ofUInt64_le_iff (n : UInt64) (k : Nat) :
    (ofUInt64 n).toList.length ≤ k ↔ 1 ≤ k ∧ n.toNat < 2 ^ (7 * k) := by
  rw [toList_ofUInt64, length_unsignedGroups_le_iff]

theorem length_ofInt64_le_iff (n : Int64) (k : Nat) :
    (ofInt64 n).toList.length ≤ k ↔ 1 ≤ k ∧ -2 ^ (7 * k - 1) ≤ n.toInt ∧ n.toInt < 2 ^ (7 * k - 1) := by
  rw [toList_ofInt64, length_signedGroups_le_iff]

theorem length_ofUInt64 (n : UInt64) : (ofUInt64 n).toList.length = max 1 ((unsignedSize n + 6) / 7) := by
  refine eq_of_forall_ge_iff fun k => ?_
  rw [length_ofUInt64_le_iff, ← unsignedSize_le_iff]
  omega

theorem length_ofInt64 (n : Int64) : (ofInt64 n).toList.length = (signedSize n + 1 + 6) / 7 := by
  refine eq_of_forall_ge_iff fun k => ?_
  rw [length_ofInt64_le_iff, ← signedSize_le_iff]
  omega

/-- **The length of an encoding in closed form.** It is the number that a writer into a byte string
tells, and the least number of groups in which the word has room. An unsigned word needs room for
the bits below its leading zeros, and takes one group at least; a signed one needs room for the bits
below the copies of its sign and for one of these copies. A group begun counts as one, so their
seventh is rounded up. -/
theorem lengths_in_closed_form :
    (∀ n : Int64, (ofInt64 n).length = (ofInt64 n).toList.length ∧
      (∀ out : Bytes, (out.writeSigned n).2 = (ofInt64 n).toList.length) ∧
      (ofInt64 n).toList.length = (signedSize n + 1 + 6) / 7 ∧
      IsLeast {k | 1 ≤ k ∧ -2 ^ (7 * k - 1) ≤ n.toInt ∧ n.toInt < 2 ^ (7 * k - 1)}
        (ofInt64 n).toList.length) ∧
    (∀ n : UInt64, (ofUInt64 n).length = (ofUInt64 n).toList.length ∧
      (∀ out : Bytes, (out.writeUnsigned n).2 = (ofUInt64 n).toList.length) ∧
      (ofUInt64 n).toList.length = max 1 ((unsignedSize n + 6) / 7) ∧
      IsLeast {k | 1 ≤ k ∧ n.toNat < 2 ^ (7 * k)} (ofUInt64 n).toList.length) := by
  refine ⟨fun n => ?_, fun n => ?_⟩
  · have length := (length_toList (ofInt64 n)).symm
    have enough := length_ofInt64_le_iff n
    exact ⟨length, fun _ => length, length_ofInt64 n, (enough _).1 le_rfl, fun k => (enough k).2⟩
  · have length := (length_toList (ofUInt64 n)).symm
    have enough := length_ofUInt64_le_iff n
    exact ⟨length, fun _ => length, length_ofUInt64 n, (enough _).1 le_rfl, fun k => (enough k).2⟩

example : (signedSize (-129) + 1 + 6) / 7 = 2 ∧ max 1 ((unsignedSize 0 + 6) / 7) = 1 := by decide

end WasmBinary.Varint
