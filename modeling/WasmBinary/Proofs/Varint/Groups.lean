import Mathlib.Algebra.Order.Ring.Int
import WasmBinary.Varint.Writer

/-! The groups of an integer.

A writer shifts a machine word and pushes into a buffer. What comes out depends on neither:
`unsignedGroups` and `signedGroups` list the bytes of an integer of any size, by division
instead of shifting, and `toList_ofUInt64` and `toList_ofInt64` say that the buffer holds
exactly that list. Everything that is proved about encodings is proved about these lists. -/
namespace WasmBinary.Varint

/-- The lowest seven bits of an integer, in two's complement. -/
def lowGroup (n : Int) : UInt8 := UInt8.ofNat (n % 128).toNat

theorem lowGroup_toNat (n : Int) : (lowGroup n).toNat = (n % 128).toNat := by
  rw [lowGroup, UInt8.toNat_ofNat_of_lt' (by simp only [UInt8.size]; omega)]

theorem goesOn_toNat (n : Int) : (lowGroup n ||| continuation).toNat = (n % 128).toNat + 128 := by
  have low := lowGroup_toNat n
  rw [or_continuation_toNat _ (by omega), low]

theorem lowGroup_eq {n : Int} {b : UInt8} (ends : b.toNat < 128) (same : n % 128 = b.toNat) :
    lowGroup n = b := by
  rw [← UInt8.toNat_inj, lowGroup_toNat]
  omega

theorem goesOn_eq {n : Int} {b : UInt8} (goesOn : 128 ≤ b.toNat) (same : n % 128 = b.toNat % 128) :
    lowGroup n ||| continuation = b := by
  have := b.toNat_lt
  rw [← UInt8.toNat_inj, goesOn_toNat]
  omega

theorem unsignedGroup_eq (n : UInt64) : unsignedGroup n = lowGroup n.toNat := by
  rw [← UInt8.toNat_inj, unsignedGroup_toNat, lowGroup_toNat]
  omega

theorem signedGroup_eq_lowGroup (n : Int64) : signedGroup n = lowGroup n.toInt := by
  rw [← UInt8.toNat_inj, signedGroup_toNat, lowGroup_toNat]

/-! ### Unsigned integers -/

/-- The bytes of a natural number, lowest group first. -/
def unsignedGroups (n : Nat) : List UInt8 :=
  if n < 128 then [lowGroup n] else (lowGroup n ||| continuation) :: unsignedGroups (n / 128)

theorem unsignedGroups_last {n : Nat} (h : n < 128) : unsignedGroups n = [lowGroup n] := by
  rw [unsignedGroups, if_pos h]

theorem unsignedGroups_more {n : Nat} (h : 128 ≤ n) :
    unsignedGroups n = (lowGroup n ||| continuation) :: unsignedGroups (n / 128) := by
  rw [unsignedGroups, if_neg (by omega)]

theorem toList_writeUnsigned? {n : UInt64} {v w : Varint} (h : writeUnsigned? n v = some w) :
    w.toList = v.toList ++ unsignedGroups n.toNat := by
  fun_induction writeUnsigned? n v with
  | case1 n v ends =>
    rw [toList_push? h, unsignedGroups_last ((unsignedEnds_iff n).1 ends), unsignedGroup_eq]
  | case2 => simp at h
  | case3 n v ends u pushed ih =>
    have big : 128 ≤ n.toNat := by
      have := mt (unsignedEnds_iff n).2 ends
      omega
    rw [ih h, toList_push? pushed, unsignedGroups_more big, toNat_shiftRight_group, unsignedGroup_eq,
      List.append_assoc, List.singleton_append]

/-- The buffer holds the groups of the word. -/
theorem toList_ofUInt64 (n : UInt64) : (ofUInt64 n).toList = unsignedGroups n.toNat := by
  have written : writeUnsigned? n empty = some (ofUInt64 n) := (Option.some_get _).symm
  rw [toList_writeUnsigned? written, toList_empty, List.nil_append]

theorem toList_ofUInt32 (n : UInt32) : (ofUInt32 n).toList = unsignedGroups n.toNat :=
  toList_ofUInt64 n.toUInt64

/-! ### Signed integers -/

/-- The bytes of an integer, lowest group first, up to the one that carries its sign. -/
def signedGroups (n : Int) : List UInt8 :=
  if -64 ≤ n ∧ n < 64 then [lowGroup n] else (lowGroup n ||| continuation) :: signedGroups (n / 128)
termination_by n.natAbs

theorem signedGroups_last {n : Int} (h : -64 ≤ n ∧ n < 64) : signedGroups n = [lowGroup n] := by
  rw [signedGroups, if_pos h]

theorem signedGroups_more {n : Int} (h : ¬(-64 ≤ n ∧ n < 64)) :
    signedGroups n = (lowGroup n ||| continuation) :: signedGroups (n / 128) := by
  rw [signedGroups, if_neg h]

theorem toList_writeSigned? {n : Int64} {v w : Varint} (h : writeSigned? n v = some w) :
    w.toList = v.toList ++ signedGroups n.toInt := by
  fun_induction writeSigned? n v with
  | case1 n v ends =>
    rw [toList_push? h, signedGroups_last ((signedEnds_iff n).1 ends), signedGroup_eq_lowGroup]
  | case2 => simp at h
  | case3 n v ends u pushed ih =>
    rw [ih h, toList_push? pushed, signedGroups_more (mt (signedEnds_iff n).2 ends), toInt_shiftRight_group,
      signedGroup_eq_lowGroup, List.append_assoc, List.singleton_append]

/-- The buffer holds the groups of the word. -/
theorem toList_ofInt64 (n : Int64) : (ofInt64 n).toList = signedGroups n.toInt := by
  have written : writeSigned? n empty = some (ofInt64 n) := (Option.some_get _).symm
  rw [toList_writeSigned? written, toList_empty, List.nil_append]

theorem toList_ofInt32 (n : Int32) : (ofInt32 n).toList = signedGroups n.toInt := by
  rw [ofInt32, toList_ofInt64, Int32.toInt_toInt64]

end WasmBinary.Varint
