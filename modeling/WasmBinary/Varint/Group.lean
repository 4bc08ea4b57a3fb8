import WasmBinary.Bytes

/-! Seven-bit groups of a machine word.

A variable-length integer is written lowest group first, seven bits to a byte. Here are
the two things an encoder does with a word, take its lowest group and shift the rest
down, and what each is in integers: a remainder and a quotient by 128, both rounded to
the floor (`signedGroup_toNat`, `toInt_shiftRight_group`). -/
namespace WasmBinary.Varint

/-- Set on every byte of an encoding but its last. -/
def continuation : UInt8 := 0x80

/-- The sign of a signed encoding, in its last byte. -/
def signBit : UInt8 := 0x40

/-- The lowest seven bits of a signed word. -/
def signedGroup (n : Int64) : UInt8 := (n &&& 0x7f).toUInt64.toUInt8

/-- The lowest seven bits of an unsigned word. -/
def unsignedGroup (n : UInt64) : UInt8 := (n &&& 0x7f).toUInt8

/-! ### Groups in integers -/

theorem toInt_shiftRight_group (n : Int64) : (n >>> 7).toInt = n.toInt / 128 := by
  rw [← Int64.toInt_toBitVec, Int64.toBitVec_shiftRight,
    show (7 : Int64).toBitVec.smod 64 = 7#64 by decide]
  simp [BitVec.sshiftRight', BitVec.toInt_sshiftRight, Int.shiftRight_eq_div_pow]

theorem toNat_shiftRight_group (n : UInt64) : (n >>> 7).toNat = n.toNat / 128 := by
  rw [UInt64.toNat_shiftRight]
  exact Nat.shiftRight_eq_div_pow n.toNat 7

theorem toInt_eq_toNat_bmod (n : Int64) : n.toInt = (n.toUInt64.toNat : Int).bmod UInt64.size := by
  rw [← Int64.toInt_toBitVec, BitVec.toInt_eq_toNat_bmod]
  rfl

theorem unsignedGroup_toNat (n : UInt64) : (unsignedGroup n).toNat = n.toNat % 128 := by
  show (n &&& 127).toNat % 256 = _
  rw [UInt64.toNat_and, show (127 : UInt64).toNat = 2 ^ 7 - 1 by decide, Nat.and_two_pow_sub_one_eq_mod]
  omega

theorem signedGroup_eq (n : Int64) : signedGroup n = unsignedGroup n.toUInt64 := rfl

theorem signedGroup_toNat (n : Int64) : (signedGroup n).toNat = (n.toInt % 128).toNat := by
  have wrap := Int.bmod_def (n.toUInt64.toNat : Int) UInt64.size
  rw [signedGroup_eq, unsignedGroup_toNat, toInt_eq_toNat_bmod]
  simp only [UInt64.size] at *
  omega

theorem unsignedGroup_lt (n : UInt64) : (unsignedGroup n).toNat < 128 := by
  rw [unsignedGroup_toNat]
  omega

theorem signedGroup_lt (n : Int64) : (signedGroup n).toNat < 128 := unsignedGroup_lt n.toUInt64

theorem and_signBit_eq_zero_iff (group : UInt8) : group &&& signBit = 0 ↔ group.toNat % 128 < 64 :=
  forall_byte (p := fun b => b &&& signBit = 0 ↔ b.toNat % 128 < 64) (by decide +kernel) group

theorem or_continuation_toNat (group : UInt8) (h : group.toNat < 128) :
    (group ||| continuation).toNat = group.toNat + 128 :=
  forall_byte (p := fun b => b.toNat < 128 → (b ||| continuation).toNat = b.toNat + 128)
    (by decide +kernel) group h

end WasmBinary.Varint
