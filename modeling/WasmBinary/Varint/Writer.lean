import WasmBinary.Varint.Basic

/-! Writing integers.

Both writers push the lowest group with the continuation bit set and go on with the rest
of the word. The unsigned one stops when nothing is left. The signed one stops when what
is left is only copies of the sign, which the last byte carries in its bit 6: the rest is
0 and the bit clear, or the rest is -1 and the bit set. In integers that is to stop
between -64 and 63 (`signedEnds_iff`).

A push into a full buffer fails, so the writers are partial on a window that is nearly
full. On an empty one they never fail (`writeSigned?_empty`, `writeUnsigned?_empty`),
which is what lets `ofInt64` and `ofUInt64` return a `Varint` for every word. -/
namespace WasmBinary.Varint

/-- What is left of a signed word is copies of the sign that its group ends in. -/
def signedEnds (n : Int64) : Bool :=
  (n >>> 7 == 0 && signedGroup n &&& signBit == 0) ||
    (n >>> 7 == -1 && signedGroup n &&& signBit != 0)

/-- Nothing is left of an unsigned word behind its group. -/
def unsignedEnds (n : UInt64) : Bool := n >>> 7 == 0

/-- Pushes a signed word; nothing when the buffer fills up before its end. -/
def writeSigned? (n : Int64) (v : Varint) : Option Varint :=
  if signedEnds n then v.push? (signedGroup n)
  else
    match _h : v.push? (signedGroup n ||| continuation) with
    | none => none
    | some w => writeSigned? (n >>> 7) w
termination_by v.room
decreasing_by
  have := room_push? _h
  omega

/-- Pushes an unsigned word; nothing when the buffer fills up before its end. -/
def writeUnsigned? (n : UInt64) (v : Varint) : Option Varint :=
  if unsignedEnds n then v.push? (unsignedGroup n)
  else
    match _h : v.push? (unsignedGroup n ||| continuation) with
    | none => none
    | some w => writeUnsigned? (n >>> 7) w
termination_by v.room
decreasing_by
  have := room_push? _h
  omega

/-! ### A word fits an empty buffer -/

theorem signedEnds_iff (n : Int64) : signedEnds n = true ↔ -64 ≤ n.toInt ∧ n.toInt < 64 := by
  have group := signedGroup_toNat n
  have rest := toInt_shiftRight_group n
  have sign := and_signBit_eq_zero_iff (signedGroup n)
  have zero : n >>> 7 = 0 ↔ n.toInt / 128 = 0 := by
    rw [← Int64.toInt_inj, rest]
    rfl
  have minus : n >>> 7 = -1 ↔ n.toInt / 128 = -1 := by
    rw [← Int64.toInt_inj, rest]
    rfl
  simp only [signedEnds, Bool.or_eq_true, Bool.and_eq_true, beq_iff_eq, bne_iff_ne, ne_eq, zero, minus,
    sign, group]
  omega

theorem unsignedEnds_iff (n : UInt64) : unsignedEnds n = true ↔ n.toNat < 128 := by
  have zero : n >>> 7 = 0 ↔ n.toNat / 128 = 0 := by
    rw [← UInt64.toNat_inj, toNat_shiftRight_group]
    rfl
  simp only [unsignedEnds, beq_iff_eq, zero]
  omega

/-- A word takes at most `r + 1` bytes when `r` groups off it the rest ends. -/
theorem writeSigned?_isSome {r : Nat} {n : Int64} {v : Varint} (room : v.room = r + 1)
    (low : -64 ≤ n.toInt >>> (7 * r)) (high : n.toInt >>> (7 * r) < 64) :
    (writeSigned? n v).isSome := by
  induction r generalizing n v with
  | zero =>
    have ends : signedEnds n = true := (signedEnds_iff n).2 ⟨by simpa using low, by simpa using high⟩
    rw [writeSigned?, if_pos ends, push?_isSome_iff]
    omega
  | succ r ih =>
    rw [writeSigned?]
    split
    · rw [push?_isSome_iff]
      omega
    · split
      · rename_i full
        have := (push?_isSome_iff v (signedGroup n ||| continuation)).2 (by omega)
        simp [full] at this
      · rename_i w pushed
        have := room_push? pushed
        have off : (n >>> 7).toInt >>> (7 * r) = n.toInt >>> (7 * (r + 1)) := by
          rw [toInt_shiftRight_group, Nat.mul_add, Nat.add_comm, Int.shiftRight_add,
            Int.shiftRight_eq_div_pow n.toInt (7 * 1)]
          rfl
        exact ih (by omega) (by rw [off]; exact low) (by rw [off]; exact high)

/-- A word takes at most `r + 1` bytes when `r` groups off it the rest ends. -/
theorem writeUnsigned?_isSome {r : Nat} {n : UInt64} {v : Varint} (room : v.room = r + 1)
    (high : n.toNat >>> (7 * r) < 128) : (writeUnsigned? n v).isSome := by
  induction r generalizing n v with
  | zero =>
    have ends : unsignedEnds n = true := (unsignedEnds_iff n).2 (by simpa using high)
    rw [writeUnsigned?, if_pos ends, push?_isSome_iff]
    omega
  | succ r ih =>
    rw [writeUnsigned?]
    split
    · rw [push?_isSome_iff]
      omega
    · split
      · rename_i full
        have := (push?_isSome_iff v (unsignedGroup n ||| continuation)).2 (by omega)
        simp [full] at this
      · rename_i w pushed
        have := room_push? pushed
        have off : (n >>> 7).toNat >>> (7 * r) = n.toNat >>> (7 * (r + 1)) := by
          rw [toNat_shiftRight_group, Nat.mul_add, Nat.add_comm, Nat.shiftRight_add,
            Nat.shiftRight_eq_div_pow n.toNat (7 * 1)]
        exact ih (by omega) (by rw [off]; exact high)

theorem writeSigned?_empty (n : Int64) : (writeSigned? n empty).isSome := by
  have low := n.le_toInt
  have high := n.toInt_lt
  have rest := Int.shiftRight_eq_div_pow n.toInt (7 * 9)
  exact writeSigned?_isSome (r := 9) rfl (by omega) (by omega)

theorem writeUnsigned?_empty (n : UInt64) : (writeUnsigned? n empty).isSome := by
  have high := n.toNat_lt
  have rest := Nat.shiftRight_eq_div_pow n.toNat (7 * 9)
  exact writeUnsigned?_isSome (r := 9) rfl (by omega)

/-! ### Integers by their type -/

/-- The signed encoding of a word. -/
def ofInt64 (n : Int64) : Varint := (writeSigned? n empty).get (writeSigned?_empty n)

/-- The unsigned encoding of a word. -/
def ofUInt64 (n : UInt64) : Varint := (writeUnsigned? n empty).get (writeUnsigned?_empty n)

def ofUInt32 (n : UInt32) : Varint := ofUInt64 n.toUInt64

def ofInt32 (n : Int32) : Varint := ofInt64 n.toInt64

end WasmBinary.Varint
