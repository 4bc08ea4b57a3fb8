import WasmBinary.Proofs.Reader
import WasmBinary.Proofs.Varint.Groups
import WasmBinary.Varint.Reader

/-! Reading an encoding back.

A reader takes the bytes of one integer, which are known by their continuation bits alone
(`Whole`), and adds up their groups. Both writers leave whole bytes whose sum is the integer
they were given, so what is read is what was written, and a text that stands behind is left
as it is (`takes_unsignedGroups`, `takes_signedGroups`). -/
namespace WasmBinary.Varint

theorem and_continuation_eq_zero_iff (b : UInt8) : b &&& continuation = 0 ↔ b.toNat < 128 :=
  forall_byte (p := fun b => b &&& continuation = 0 ↔ b.toNat < 128) (by decide +kernel) b

/-! ### The bytes of one integer -/

/-- The bytes of one integer: every one but the last goes on. -/
inductive Whole : List UInt8 → Prop where
  | last {b : UInt8} (ends : b.toNat < 128) : Whole [b]
  | more {b : UInt8} {bytes : List UInt8} (goesOn : 128 ≤ b.toNat) (rest : Whole bytes) : Whole (b :: bytes)

theorem Whole.ne_nil {bytes : List UInt8} (h : Whole bytes) : bytes ≠ [] := by
  cases h <;> simp

theorem splitGroups_append {bytes : List UInt8} (h : Whole bytes) (rest : List UInt8) :
    splitGroups (bytes ++ rest) = some (bytes, rest) := by
  induction h with
  | last ends =>
    rw [List.singleton_append, splitGroups, if_pos ((and_continuation_eq_zero_iff _).2 ends)]
  | more goesOn _ ih =>
    have := mt (and_continuation_eq_zero_iff _).1 (Nat.not_lt.2 goesOn)
    rw [List.cons_append, splitGroups, if_neg this, ih]
    rfl

theorem whole_of_splitGroups {text bytes rest : List UInt8} (h : splitGroups text = some (bytes, rest)) :
    text = bytes ++ rest ∧ Whole bytes := by
  induction text generalizing bytes with
  | nil => cases h
  | cons b text ih =>
    rw [splitGroups] at h
    split at h
    · rename_i ends
      obtain ⟨rfl, rfl⟩ := Prod.mk.inj (Option.some.inj h)
      exact ⟨rfl, .last ((and_continuation_eq_zero_iff b).1 ends)⟩
    · rename_i goesOn
      obtain ⟨⟨taken, left⟩, split, same⟩ := Option.map_eq_some_iff.1 h
      obtain ⟨rfl, rfl⟩ := Prod.mk.inj same
      obtain ⟨rfl, whole⟩ := ih split
      have := mt (and_continuation_eq_zero_iff b).2 goesOn
      exact ⟨rfl, .more (by omega) whole⟩

/-- The whole bytes in front of a text are the ones the reader parts it behind. -/
theorem splitGroups_eq_some_iff {text bytes rest : List UInt8} :
    splitGroups text = some (bytes, rest) ↔ text = bytes ++ rest ∧ Whole bytes := by
  constructor
  · exact whole_of_splitGroups
  · rintro ⟨rfl, whole⟩
    exact splitGroups_append whole rest

/-- A number is read off the whole bytes in front, whatever number it is that is made of them. -/
theorem map_readGroups_eq_some_iff {α : Type} {value : List UInt8 → α} {text rest : List UInt8} {x : α} :
    (value <$> readGroups).run text = some (x, rest) ↔
      ∃ bytes, text = bytes ++ rest ∧ Whole bytes ∧ value bytes = x := by
  have split : (value <$> readGroups).run text = (splitGroups text).map fun p => (value p.1, p.2) :=
    StateT.run_map value readGroups text
  rw [split, Option.map_eq_some_iff]
  constructor
  · rintro ⟨⟨bytes, left⟩, parts, same⟩
    obtain ⟨rfl, rfl⟩ := Prod.mk.inj same
    obtain ⟨front, whole⟩ := splitGroups_eq_some_iff.1 parts
    exact ⟨bytes, front, whole, rfl⟩
  · rintro ⟨bytes, front, whole, rfl⟩
    exact ⟨(bytes, rest), splitGroups_eq_some_iff.2 ⟨front, whole⟩, rfl⟩

theorem readUnsigned_eq_some_iff {text rest : List UInt8} {n : Nat} :
    readUnsigned.run text = some (n, rest) ↔
      ∃ bytes, text = bytes ++ rest ∧ Whole bytes ∧ groupSum bytes = n := map_readGroups_eq_some_iff

theorem readSigned_eq_some_iff {text rest : List UInt8} {n : Int} :
    readSigned.run text = some (n, rest) ↔
      ∃ bytes, text = bytes ++ rest ∧ Whole bytes ∧ signedSum bytes = n := map_readGroups_eq_some_iff

/-! ### The value of the bytes -/

theorem groupSum_singleton (b : UInt8) : groupSum [b] = b.toNat % 128 := by
  rw [groupSum_cons, groupSum_nil]
  omega

theorem endsNegative_singleton (b : UInt8) : endsNegative [b] = true ↔ 64 ≤ b.toNat % 128 := by
  have := and_signBit_eq_zero_iff b
  simp only [endsNegative, List.getLast?_singleton, Option.any_some, bne_iff_ne, ne_eq, this]
  omega

theorem endsNegative_cons (b : UInt8) {bytes : List UInt8} (h : bytes ≠ []) :
    endsNegative (b :: bytes) = endsNegative bytes := by
  rw [endsNegative, List.getLast?_cons_of_ne_nil h, endsNegative]

theorem signedSum_singleton (b : UInt8) :
    signedSum [b] = if 64 ≤ b.toNat % 128 then (b.toNat % 128 : Int) - 128 else (b.toNat % 128 : Int) := by
  simp only [signedSum, endsNegative_singleton, groupSum_singleton]
  rfl

/-- A byte in front is one digit more below the value, whatever sign the last byte carries. -/
theorem signedSum_cons (b : UInt8) {bytes : List UInt8} (h : bytes ≠ []) :
    signedSum (b :: bytes) = b.toNat % 128 + 128 * signedSum bytes := by
  -- The weight that a set sign bit takes off grows by one digit with the digits.
  have weight : (2 : Int) ^ (7 * (bytes.length + 1)) = 128 * 2 ^ (7 * bytes.length) := by
    rw [Nat.mul_add, Int.pow_add, Int.mul_comm]
    rfl
  simp only [signedSum, endsNegative_cons b h, groupSum_cons, List.length_cons, weight]
  split <;> omega

/-! ### What the writers leave -/

theorem whole_unsignedGroups (n : Nat) : Whole (unsignedGroups n) := by
  fun_induction unsignedGroups n with
  | case1 n small =>
    have low := lowGroup_toNat n
    exact .last (by omega)
  | case2 n big ih =>
    have low := goesOn_toNat n
    exact .more (by omega) ih

theorem whole_signedGroups (n : Int) : Whole (signedGroups n) := by
  fun_induction signedGroups n with
  | case1 n small =>
    have low := lowGroup_toNat n
    exact .last (by omega)
  | case2 n big ih =>
    have low := goesOn_toNat n
    exact .more (by omega) ih

theorem groupSum_unsignedGroups (n : Nat) : groupSum (unsignedGroups n) = n := by
  fun_induction unsignedGroups n with
  | case1 n small =>
    have low := lowGroup_toNat n
    rw [groupSum_singleton]
    omega
  | case2 n big ih =>
    have low := goesOn_toNat n
    rw [groupSum_cons, ih]
    omega

theorem signedSum_signedGroups (n : Int) : signedSum (signedGroups n) = n := by
  fun_induction signedGroups n with
  | case1 n small =>
    have low := lowGroup_toNat n
    rw [signedSum_singleton]
    split <;> omega
  | case2 n big ih =>
    have low := goesOn_toNat n
    rw [signedSum_cons _ (whole_signedGroups _).ne_nil, ih]
    omega

theorem takes_unsignedGroups (n : Nat) : Reader.Takes readUnsigned (unsignedGroups n) n := fun _ =>
  readUnsigned_eq_some_iff.2 ⟨_, rfl, whole_unsignedGroups n, groupSum_unsignedGroups n⟩

theorem takes_signedGroups (n : Int) : Reader.Takes readSigned (signedGroups n) n := fun _ =>
  readSigned_eq_some_iff.2 ⟨_, rfl, whole_signedGroups n, signedSum_signedGroups n⟩

/-- **Every word is read back from its signed encoding**, and what stands behind the encoding
is left unread. -/
theorem readSigned_ofInt64 (n : Int64) (rest : List UInt8) :
    readSigned.run ((ofInt64 n).toList ++ rest) = some (n.toInt, rest) := by
  rw [toList_ofInt64]
  exact takes_signedGroups n.toInt rest

example : readSigned.run [0x80, 0x7f, 0x01] = some (-128, [0x01]) := by decide

end WasmBinary.Varint
