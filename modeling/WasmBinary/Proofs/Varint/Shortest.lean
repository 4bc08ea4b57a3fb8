import WasmBinary.Proofs.Varint.Reading

/-! The shortest form of an integer.

A reader accepts an integer in any length: groups that only repeat the sign, or zeros above
an unsigned number, change nothing. Such a form can be told by its end alone. One without
such an end is what the writer leaves, and one with it is longer than that, so the writers
leave the one shortest form of every word (`signed_shortest`, `unsigned_shortest`). -/
namespace WasmBinary.Varint

/-- What is read off whole bytes is written as these bytes again, or as fewer when they are
padded. It needs to be known of one byte more only: in front of whole bytes it is either lost,
since the value has room in one group, or it stays and the rest is written again. -/
theorem shortest_of_first_byte {α : Type} {value : List UInt8 → α} {write : α → List UInt8}
    (padded : List UInt8 → Prop)
    (one : ∀ b : UInt8, b.toNat < 128 → write (value [b]) = [b] ∧ ¬padded [b])
    (more : ∀ (b : UInt8) (bytes : List UInt8), 128 ≤ b.toNat → Whole bytes →
      (write (value (b :: bytes))).length = 1 ∧ padded (b :: bytes) ∨
        write (value (b :: bytes)) = b :: write (value bytes) ∧ (padded (b :: bytes) ↔ padded bytes))
    {bytes : List UInt8} (whole : Whole bytes) :
    (write (value bytes) = bytes ↔ ¬padded bytes) ∧
      (padded bytes → (write (value bytes)).length < bytes.length) := by
  induction whole with
  | @last b ends =>
    obtain ⟨same, plain⟩ := one b ends
    exact ⟨iff_of_true same plain, fun h => absurd h plain⟩
  | @more b bytes goesOn whole ih =>
    rcases more b bytes goesOn whole with ⟨single, lost⟩ | ⟨written, stays⟩
    · have size := List.length_pos_iff.2 whole.ne_nil
      have less : (write (value (b :: bytes))).length < (b :: bytes).length := by
        rw [single, List.length_cons]
        omega
      refine ⟨iff_of_false (fun same => ?_) (not_not.2 lost), fun _ => less⟩
      rw [same] at less
      exact Nat.lt_irrefl _ less
    · rw [stays, written, List.cons_inj_right]
      exact ⟨ih.1, fun h => Nat.succ_lt_succ (ih.2 h)⟩

/-! ### Signed forms -/

/-- The last group only repeats the sign bit of the group in front of it. -/
def endsRedundant : List UInt8 → Bool
  | [] => false
  | [before, last] =>
    (last == 0x00 && before &&& signBit == 0) || (last == 0x7f && before &&& signBit != 0)
  | _ :: rest => endsRedundant rest

theorem endsRedundant_cons_cons (b c : UInt8) {bytes : List UInt8} (h : bytes ≠ []) :
    endsRedundant (b :: c :: bytes) = endsRedundant (c :: bytes) := by
  obtain ⟨d, rest, rfl⟩ := List.exists_cons_of_ne_nil h
  rfl

/-- A second group is redundant exactly when one group has room for the value. -/
theorem endsRedundant_pair_iff (b : UInt8) {c : UInt8} (ends : c.toNat < 128) :
    endsRedundant [b, c] = true ↔ -64 ≤ signedSum [b, c] ∧ signedSum [b, c] < 64 := by
  have value := signedSum_cons b (List.cons_ne_nil c [])
  rw [signedSum_singleton] at value
  have clear := and_signBit_eq_zero_iff b
  simp only [endsRedundant, Bool.or_eq_true, Bool.and_eq_true, beq_iff_eq, bne_iff_ne, ne_eq, clear,
    ← UInt8.toNat_inj, UInt8.reduceToNat]
  split at value <;> omega

theorem endsRedundant_of_short {b : UInt8} {bytes : List UInt8} (whole : Whole bytes)
    (short : -64 ≤ signedSum (b :: bytes) ∧ signedSum (b :: bytes) < 64) :
    endsRedundant (b :: bytes) = true := by
  induction whole generalizing b with
  | last ends => exact (endsRedundant_pair_iff b ends).2 short
  | @more c bytes goesOn whole ih =>
    -- Above the first group the value is 0 or -1, so it is short again.
    rw [endsRedundant_cons_cons b c whole.ne_nil]
    rw [signedSum_cons b (List.cons_ne_nil c bytes)] at short
    exact ih (by omega)

theorem endsRedundant_cons_of_long {b : UInt8} {bytes : List UInt8} (whole : Whole bytes)
    (long : ¬(-64 ≤ signedSum (b :: bytes) ∧ signedSum (b :: bytes) < 64)) :
    endsRedundant (b :: bytes) = endsRedundant bytes := by
  cases whole with
  | last ends => exact Bool.eq_false_iff.2 (mt (endsRedundant_pair_iff b ends).1 long)
  | @more c _ _ whole => exact endsRedundant_cons_cons b c whole.ne_nil

theorem signedGroups_signedSum_singleton {b : UInt8} (ends : b.toNat < 128) :
    signedGroups (signedSum [b]) = [b] := by
  have value := signedSum_singleton b
  have group : lowGroup (signedSum [b]) = b := lowGroup_eq ends (by split at value <;> omega)
  rw [signedGroups_last (by split at value <;> omega), group]

theorem signedGroups_signedSum_cons {b : UInt8} {bytes : List UInt8} (goesOn : 128 ≤ b.toNat)
    (whole : Whole bytes) (long : ¬(-64 ≤ signedSum (b :: bytes) ∧ signedSum (b :: bytes) < 64)) :
    signedGroups (signedSum (b :: bytes)) = b :: signedGroups (signedSum bytes) := by
  have value := signedSum_cons b whole.ne_nil
  have first : lowGroup (signedSum (b :: bytes)) ||| continuation = b := goesOn_eq goesOn (by omega)
  have above : signedSum (b :: bytes) / 128 = signedSum bytes := by omega
  rw [signedGroups_more long, first, above]

theorem signedGroups_signedSum {bytes : List UInt8} (whole : Whole bytes) :
    (signedGroups (signedSum bytes) = bytes ↔ ¬endsRedundant bytes) ∧
      (endsRedundant bytes → (signedGroups (signedSum bytes)).length < bytes.length) := by
  refine shortest_of_first_byte (fun bytes => endsRedundant bytes)
    (fun b ends => ⟨signedGroups_signedSum_singleton ends, Bool.false_ne_true⟩)
    (fun b bytes goesOn whole => ?_) whole
  by_cases short : -64 ≤ signedSum (b :: bytes) ∧ signedSum (b :: bytes) < 64
  · refine .inl ⟨?_, endsRedundant_of_short whole short⟩
    rw [signedGroups_last short, List.length_singleton]
  · refine .inr ⟨signedGroups_signedSum_cons goesOn whole short, ?_⟩
    rw [endsRedundant_cons_of_long whole short]

theorem signed_of_read {w : List UInt8} {v : Int} (read : readSigned.run w = some (v, [])) :
    (signedGroups v = w ↔ ¬endsRedundant w) ∧ (endsRedundant w → (signedGroups v).length < w.length) := by
  obtain ⟨bytes, same, whole, rfl⟩ := readSigned_eq_some_iff.1 read
  obtain rfl : w = bytes := same.trans (List.append_nil bytes)
  exact signedGroups_signedSum whole

/-- **The signed writer leaves the one shortest form of every word.** Whole bytes whose value
is a word are what is written for it exactly when they do not end redundant; otherwise that
is shorter. So no other form of a word is as short, and the forms that are written are the
ones that do not end redundant. -/
theorem signed_shortest (w : List UInt8) :
    (∀ v : Int, readSigned.run w = some (v, []) → -2 ^ 63 ≤ v → v ≤ 2 ^ 63 - 1 →
      ((ofInt64 (Int64.ofInt v)).toList = w ↔ ¬endsRedundant w) ∧
      (endsRedundant w → (ofInt64 (Int64.ofInt v)).toList.length < w.length)) ∧
    (∀ n : Int64, readSigned.run w = some (n.toInt, []) → w ≠ (ofInt64 n).toList →
      (ofInt64 n).toList.length < w.length) ∧
    ((∃ n : Int64, (ofInt64 n).toList = w) ↔
      ¬endsRedundant w ∧ ∃ v : Int, readSigned.run w = some (v, []) ∧ -2 ^ 63 ≤ v ∧ v ≤ 2 ^ 63 - 1) := by
  refine ⟨fun v read low high => ?_, fun n read other => ?_, ?_, ?_⟩
  · have word := Int64.toInt_ofInt_of_le low (by omega)
    rw [toList_ofInt64, word]
    exact signed_of_read read
  · rw [toList_ofInt64] at other ⊢
    obtain ⟨same, less⟩ := signed_of_read read
    exact less (not_not.1 (mt same.2 (Ne.symm other)))
  · rintro ⟨n, rfl⟩
    have low := n.le_toInt
    have high := n.toInt_lt
    have read := takes_signedGroups n.toInt []
    rw [List.append_nil] at read
    rw [toList_ofInt64]
    exact ⟨(signed_of_read read).1.1 rfl, n.toInt, read, low, by omega⟩
  · rintro ⟨plain, v, read, low, high⟩
    have word := Int64.toInt_ofInt_of_le low (by omega)
    refine ⟨Int64.ofInt v, ?_⟩
    rw [toList_ofInt64, word]
    exact (signed_of_read read).1.2 plain

/-- Eleven bytes for the lowest word, of which the last is redundant. -/
theorem signed_shortest_minValue :
    readSigned.run [0x80, 0x80, 0x80, 0x80, 0x80, 0x80, 0x80, 0x80, 0x80, 0xff, 0x7f] = some (-2 ^ 63, []) ∧
      (ofInt64 (Int64.ofInt (-2 ^ 63))).toList.length < 11 :=
  ⟨by decide, ((signed_shortest [0x80, 0x80, 0x80, 0x80, 0x80, 0x80, 0x80, 0x80, 0x80, 0xff, 0x7f]).1
    (-2 ^ 63) (by decide) (by decide) (by decide)).2 (by decide)⟩

/-! ### Unsigned forms -/

theorem getLast?_of_groupSum_eq_zero {bytes : List UInt8} (whole : Whole bytes) (zero : groupSum bytes = 0) :
    bytes.getLast? = some 0 := by
  induction whole with
  | @last b ends =>
    rw [groupSum_singleton] at zero
    have : b = 0 := by
      rw [← UInt8.toNat_inj, UInt8.toNat_zero]
      omega
    rw [this, List.getLast?_singleton]
  | @more b bytes goesOn whole ih =>
    rw [groupSum_cons] at zero
    rw [List.getLast?_cons_of_ne_nil whole.ne_nil]
    exact ih (by omega)

theorem length_of_groupSum_ne_zero {bytes : List UInt8} (whole : Whole bytes) (nonzero : groupSum bytes ≠ 0)
    (last : bytes.getLast? = some 0) : 1 < bytes.length := by
  cases whole with
  | @last b ends =>
    cases last
    exact absurd rfl nonzero
  | @more b bytes goesOn whole =>
    exact Nat.succ_lt_succ (List.length_pos_iff.2 whole.ne_nil)

theorem unsignedGroups_groupSum_singleton {b : UInt8} (ends : b.toNat < 128) :
    unsignedGroups (groupSum [b]) = [b] := by
  have value := groupSum_singleton b
  have group : lowGroup (groupSum [b]) = b := lowGroup_eq ends (by omega)
  rw [unsignedGroups_last (by omega), group]

theorem unsignedGroups_groupSum_cons {b : UInt8} {bytes : List UInt8} (goesOn : 128 ≤ b.toNat)
    (long : groupSum bytes ≠ 0) :
    unsignedGroups (groupSum (b :: bytes)) = b :: unsignedGroups (groupSum bytes) := by
  have value := groupSum_cons b bytes
  have first : lowGroup (groupSum (b :: bytes)) ||| continuation = b := goesOn_eq goesOn (by omega)
  have above : groupSum (b :: bytes) / 128 = groupSum bytes := by omega
  rw [unsignedGroups_more (by omega), first, above]

theorem unsignedGroups_groupSum {bytes : List UInt8} (whole : Whole bytes) :
    (unsignedGroups (groupSum bytes) = bytes ↔ ¬(1 < bytes.length ∧ bytes.getLast? = some 0)) ∧
      (1 < bytes.length ∧ bytes.getLast? = some 0 →
        (unsignedGroups (groupSum bytes)).length < bytes.length) := by
  refine shortest_of_first_byte (fun bytes => 1 < bytes.length ∧ bytes.getLast? = some 0)
    (fun b ends => ⟨unsignedGroups_groupSum_singleton ends, fun h => Nat.lt_irrefl 1 h.1⟩)
    (fun b bytes goesOn whole => ?_) whole
  have value := groupSum_cons b bytes
  have size : 1 < (b :: bytes).length := Nat.succ_lt_succ (List.length_pos_iff.2 whole.ne_nil)
  rw [List.getLast?_cons_of_ne_nil whole.ne_nil]
  by_cases zero : groupSum bytes = 0
  · refine .inl ⟨?_, size, getLast?_of_groupSum_eq_zero whole zero⟩
    rw [unsignedGroups_last (by omega), List.length_singleton]
  · refine .inr ⟨unsignedGroups_groupSum_cons goesOn zero, ?_⟩
    exact ⟨fun h => ⟨length_of_groupSum_ne_zero whole zero h.2, h.2⟩, fun h => ⟨size, h.2⟩⟩

/-- **The unsigned writer leaves the one shortest form of every word.** A word is read back
from it, whatever stands behind. Whole bytes whose value is a word are what is written for it
exactly when they are a single byte or end in another one than zero; otherwise that is shorter. -/
theorem unsigned_shortest :
    (∀ (n : UInt64) (rest : List UInt8),
      readUnsigned.run ((ofUInt64 n).toList ++ rest) = some (n.toNat, rest)) ∧
    (∀ (w : List UInt8) (v : Nat), readUnsigned.run w = some (v, []) → v < 2 ^ 64 →
      ((ofUInt64 (UInt64.ofNat v)).toList = w ↔ w.length = 1 ∨ w.getLast? ≠ some 0x00) ∧
      (¬(w.length = 1 ∨ w.getLast? ≠ some 0x00) →
        (ofUInt64 (UInt64.ofNat v)).toList.length < w.length)) := by
  refine ⟨fun n rest => ?_, fun w v read small => ?_⟩
  · rw [toList_ofUInt64]
    exact takes_unsignedGroups n.toNat rest
  · obtain ⟨bytes, same, whole, rfl⟩ := readUnsigned_eq_some_iff.1 read
    obtain rfl : w = bytes := same.trans (List.append_nil bytes)
    have size := List.length_pos_iff.2 whole.ne_nil
    have one : ¬1 < w.length ↔ w.length = 1 := by omega
    have plain : ¬(1 < w.length ∧ w.getLast? = some 0) ↔ w.length = 1 ∨ w.getLast? ≠ some 0 := by
      rw [not_and_or, one]
    rw [toList_ofUInt64, UInt64.toNat_ofNat_of_lt' small, ← plain, not_not]
    exact unsignedGroups_groupSum whole

/-- The highest word needs all ten groups; with a zero behind them they are no longer its encoding. -/
theorem unsigned_shortest_maxValue :
    readUnsigned.run [0xff, 0xff, 0xff, 0xff, 0xff, 0xff, 0xff, 0xff, 0xff, 0x81, 0x00] =
        some (2 ^ 64 - 1, []) ∧
      (ofUInt64 (UInt64.ofNat (2 ^ 64 - 1))).toList.length < 11 :=
  ⟨by decide, (unsigned_shortest.2 [0xff, 0xff, 0xff, 0xff, 0xff, 0xff, 0xff, 0xff, 0xff, 0x81, 0x00]
    (2 ^ 64 - 1) (by decide) (by decide)).2 (by decide)⟩

end WasmBinary.Varint
