import WasmBinary.Proofs.Varint.Reading

/-! The sign in an encoding.

The signed writer treats both signs alike: an integer and its complement go through the same
shifts and stop behind the same group, so the bytes of one are those of the other with their
groups complemented (`complement_mirrors`).

For an integer that is not negative it runs in step with the unsigned writer, up to the group
where that one stops. When this group has the sign bit clear, it stops there as well; otherwise
it goes on to a group of zeros. A zero group adds nothing to the value, so a count in the signed
form is still read as that count (`count_read_back`). -/
namespace WasmBinary.Varint

/-! ### The complement of an integer -/

/-- The byte with its group complemented and its continuation bit as it was. -/
def mirror (b : UInt8) : UInt8 := (~~~b &&& 0x7f) ||| (b &&& continuation)

theorem mirror_toNat (b : UInt8) : (mirror b).toNat = b.toNat / 128 * 128 + (127 - b.toNat % 128) :=
  forall_byte (p := fun b => (mirror b).toNat = b.toNat / 128 * 128 + (127 - b.toNat % 128))
    (by decide +kernel) b

theorem lowGroup_complement (n : Int) : lowGroup (-1 - n) = mirror (lowGroup n) := by
  have low := lowGroup_toNat n
  rw [← UInt8.toNat_inj, mirror_toNat, lowGroup_toNat]
  omega

theorem goesOn_complement (n : Int) :
    lowGroup (-1 - n) ||| continuation = mirror (lowGroup n ||| continuation) := by
  have low := goesOn_toNat n
  rw [← UInt8.toNat_inj, mirror_toNat, goesOn_toNat]
  omega

theorem signedGroups_complement (n : Int) : signedGroups (-1 - n) = (signedGroups n).map mirror := by
  fun_induction signedGroups n with
  | case1 n small =>
    rw [signedGroups_last (by omega), lowGroup_complement, List.map_singleton]
  | case2 n big ih =>
    have rest : (-1 - n) / 128 = -1 - n / 128 := by omega
    rw [signedGroups_more (by omega), goesOn_complement, rest, ih, List.map_cons]

theorem toInt_complement (n : Int64) : (~~~n).toInt = -1 - n.toInt := by
  have low := n.le_toInt
  have high := n.toInt_lt
  rw [Int64.toInt_not, Int.bmod_eq_of_le (by omega) (by omega)]
  omega

/-- **Both signs are written alike.** The complement of a word takes as many bytes as the word,
and at each place the byte there with its group complemented and the same continuation bit. -/
theorem complement_mirrors (n : Int64) :
    -1 - n = ~~~n ∧ (-1 - n).toInt = -1 - n.toInt ∧
    (ofInt64 (-1 - n)).toList.length = (ofInt64 n).toList.length ∧
    (ofInt64 (-1 - n)).toList = (ofInt64 n).toList.map mirror := by
  have complement : -1 - n = ~~~n := by
    rw [Int64.not_eq_neg_sub, Int64.sub_eq_add_neg, Int64.sub_eq_add_neg, Int64.add_comm]
  have bytes : (ofInt64 (~~~n)).toList = (ofInt64 n).toList.map mirror := by
    rw [toList_ofInt64, toList_ofInt64, toInt_complement, signedGroups_complement]
  rw [complement]
  exact ⟨rfl, toInt_complement n, by rw [bytes, List.length_map], bytes⟩

/-! ### Counts in the signed form -/

theorem or_continuation_mod (b : UInt8) : (b ||| continuation).toNat % 128 = b.toNat % 128 :=
  forall_byte (p := fun b => (b ||| continuation).toNat % 128 = b.toNat % 128) (by decide +kernel) b

/-- A group of zeros behind the last one adds nothing to the value. -/
theorem groupSum_zero_group (front : List UInt8) (last : UInt8) :
    groupSum (front ++ [last ||| continuation, 0x00]) = groupSum (front ++ [last]) := by
  induction front with
  | nil =>
    rw [List.nil_append, List.nil_append, groupSum_cons, groupSum_singleton, groupSum_singleton,
      or_continuation_mod]
    rfl
  | cons b front ih =>
    rw [List.cons_append, List.cons_append, groupSum_cons, groupSum_cons, ih]

/-- The signed groups of a number are its unsigned ones, or one group of zeros more. -/
theorem signedGroups_natCast (n : Nat) :
    ∃ front last, unsignedGroups n = front ++ [last] ∧
      signedGroups n =
        if last &&& signBit = 0 then front ++ [last] else front ++ [last ||| continuation, 0x00] := by
  fun_induction unsignedGroups n with
  | case1 n small =>
    have low := lowGroup_toNat n
    have sign := and_signBit_eq_zero_iff (lowGroup n)
    refine ⟨[], lowGroup n, rfl, ?_⟩
    by_cases clear : n < 64
    · rw [if_pos (sign.2 (by omega)), signedGroups_last (by omega)]
      rfl
    · have rest : (n : Int) / 128 = 0 := by omega
      rw [if_neg (mt sign.1 (by omega)), signedGroups_more (by omega), rest, signedGroups_last (by decide)]
      rfl
  | case2 n big ih =>
    obtain ⟨front, last, unsigned, signed⟩ := ih
    have rest : (n : Int) / 128 = (n / 128 : Nat) := by omega
    refine ⟨(lowGroup n ||| continuation) :: front, last, by rw [unsigned, List.cons_append], ?_⟩
    rw [signedGroups_more (by omega), rest, signed]
    split <;> rfl

theorem groupSum_signedGroups (n : Nat) : groupSum (signedGroups n) = n := by
  obtain ⟨front, last, unsigned, signed⟩ := signedGroups_natCast n
  have value := groupSum_unsignedGroups n
  rw [unsigned] at value
  rw [signed]
  split
  · exact value
  · rw [groupSum_zero_group, value]

theorem takes_signedGroups_natCast (n : Nat) : Reader.Takes readUnsigned (signedGroups n) n := fun _ =>
  readUnsigned_eq_some_iff.2 ⟨_, rfl, whole_signedGroups n, groupSum_signedGroups n⟩

theorem toNat_toUInt64 {n : Int64} (nonneg : 0 ≤ n) : (n.toUInt64.toNat : Int) = n.toInt := by
  rw [Int64.toNat_toUInt64_of_le nonneg]
  exact Int.toNat_of_nonneg (Int64.le_iff_toInt_le.1 nonneg)

/-- **A count in the signed form is still read as that count**, and nothing behind it is touched.
Its bytes are those of the unsigned form, unless that form ends in a group with the sign bit: then
this group goes on, and one of zeros follows. -/
theorem count_read_back (n : Int64) (nonneg : 0 ≤ n) :
    (∃ front last, (ofUInt64 n.toUInt64).toList = front ++ [last] ∧
      (ofInt64 n).toList =
        if last &&& signBit = 0 then front ++ [last] else front ++ [last ||| continuation, 0x00]) ∧
    ∀ rest, readUnsigned.run ((ofInt64 n).toList ++ rest) = some (n.toInt.toNat, rest) := by
  rw [toList_ofUInt64, toList_ofInt64, ← toNat_toUInt64 nonneg, Int.toNat_natCast]
  exact ⟨signedGroups_natCast _, takes_signedGroups_natCast _⟩

/-- The highest count fills nine groups to the last bit, and the zeros behind them are the tenth. -/
theorem count_read_back_maxValue :
    0 ≤ Int64.maxValue ∧
      (∃ front last, (ofUInt64 Int64.maxValue.toUInt64).toList = front ++ [last] ∧
        (ofInt64 Int64.maxValue).toList =
          if last &&& signBit = 0 then front ++ [last] else front ++ [last ||| continuation, 0x00]) ∧
      readUnsigned.run ((ofInt64 Int64.maxValue).toList ++ [0x80]) = some (2 ^ 63 - 1, [0x80]) :=
  have back := count_read_back Int64.maxValue (by decide)
  ⟨by decide, back.1, back.2 [0x80]⟩

end WasmBinary.Varint
