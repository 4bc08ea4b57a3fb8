import WasmBinary.Proofs.Numeral.Spelling

/-! The sign of a numeral.

A minus sign counts only as the very first character, in front of underscores and of the mark of
the base, and what stands behind it is read as a magnitude of its own. The magnitude may take the
whole of an unsigned word, so the lowest signed word is read and the number above the highest is
not (`signed_reads_magnitudes`).

A machine takes the magnitude off zero in a word of 128 bits. `signedInWords?` is the reader
with that subtraction written out, and it never leaves the range of the word. -/
namespace WasmBinary.Numeral

/-- The value of a magnitude behind its sign. -/
def withSign (negative : Bool) (magnitude : Nat) : Int := if negative then -magnitude else magnitude

/-- What is read of a text, by its magnitude. -/
theorem signed_of_splitSign {text : String} {negative : Bool} {rest : List Char}
    (sign : splitSign text.toList = (negative, rest)) :
    signed text = match magnitude rest with
      | .error fault => .error (.malformed text fault)
      | .ok value =>
        if withSign negative value < -2 ^ 63 then .error (.outsideInt64 text .tooSmall)
        else if 2 ^ 63 - 1 < withSign negative value then .error (.outsideInt64 text .tooLarge)
        else .ok (Int64.ofInt (withSign negative value)) := by
  simp only [signed, sign]
  rfl

theorem signed_eq_ok_iff {text : String} {negative : Bool} {rest : List Char} {v : Int64}
    (sign : splitSign text.toList = (negative, rest)) :
    signed text = .ok v ↔ ∃ n, magnitude rest = .ok n ∧ v.toInt = withSign negative n := by
  rw [signed_of_splitSign sign]
  cases magnitude rest with
  | error fault => simp
  | ok n =>
    have low := v.le_toInt
    have high := v.toInt_lt
    simp only [Except.ok.injEq, exists_eq_left']
    split
    · exact iff_of_false nofun (by omega)
    · split
      · exact iff_of_false nofun (by omega)
      · rw [Except.ok.injEq, ← Int64.toInt_inj, Int64.toInt_ofInt_of_le (by omega) (by omega), eq_comm]

/-! ### The subtraction in a word -/

/-- A magnitude behind its sign, in a word of 128 bits. Nothing, when taking it off zero leaves
the range of the word. -/
def signedWord? (negative : Bool) (magnitude : UInt64) : Option (BitVec 128) :=
  let word := magnitude.toBitVec.setWidth 128
  if negative then if BitVec.ssubOverflow 0 word then none else some (0 - word)
  else some word

theorem signedWord?_eq (negative : Bool) (magnitude : UInt64) :
    ∃ word, signedWord? negative magnitude = some word ∧ word.toInt = withSign negative magnitude.toNat := by
  have small := magnitude.toNat_lt
  have word : (magnitude.toBitVec.setWidth 128).toInt = magnitude.toNat := by
    have same : (magnitude.toBitVec.setWidth 128).toNat = magnitude.toNat := by
      rw [BitVec.toNat_setWidth, UInt64.toNat_toBitVec, Nat.mod_eq_of_lt (by omega)]
    rw [BitVec.toInt_eq_toNat_of_lt (by omega), same]
  cases negative with
  | false => exact ⟨_, rfl, word⟩
  | true =>
    have inside : BitVec.ssubOverflow 0 (magnitude.toBitVec.setWidth 128) = false := by
      simp only [BitVec.ssubOverflow, word, BitVec.ofNat_eq_ofNat, BitVec.toInt_zero, Bool.or_eq_false_iff,
        decide_eq_false_iff_not]
      omega
    have value : (0 - magnitude.toBitVec.setWidth 128).toInt = -(magnitude.toNat : Int) := by
      rw [BitVec.toInt_sub, word, BitVec.ofNat_eq_ofNat, BitVec.toInt_zero, Int.zero_sub,
        Int.bmod_eq_of_le (by omega) (by omega)]
    exact ⟨_, by simp only [signedWord?, inside, if_true, Bool.false_eq_true, if_false], value⟩

/-- The reader with the value in a word of 128 bits. -/
def signedInWords? (text : String) : Option (Except NumeralError Int64) :=
  let (negative, rest) := splitSign text.toList
  match magnitude rest with
  | .error fault => some (.error (.malformed text fault))
  | .ok value =>
    (signedWord? negative (UInt64.ofNat value)).map fun word =>
      if word.toInt < Int64.minValue.toInt then .error (.outsideInt64 text .tooSmall)
      else if Int64.maxValue.toInt < word.toInt then .error (.outsideInt64 text .tooLarge)
      else .ok (Int64.ofInt word.toInt)

/-- No subtraction on the way leaves the range of its word. -/
theorem signedInWords?_eq (text : String) : signedInWords? text = some (signed text) := by
  rcases sign : splitSign text.toList with ⟨negative, rest⟩
  simp only [signedInWords?, signed, sign]
  cases read : magnitude rest with
  | error fault => rfl
  | ok n =>
    have room := (magnitude_eq_ok_iff.1 read).1
    obtain ⟨word, taken, value⟩ := signedWord?_eq negative (UInt64.ofNat n)
    rw [UInt64.toNat_ofNat_of_lt' room] at value
    simp only [taken, Option.map_some, value, withSign]

/-! ### Signs -/

theorem splitSign_minus (text : String) : splitSign ("-" ++ text).toList = (true, text.toList) := by
  rw [String.toList_append]
  rfl

theorem splitSign_other {text : List Char} (other : ¬['-'] <+: text) : splitSign text = (false, text) := by
  unfold splitSign
  split
  · exact absurd ⟨_, rfl⟩ other
  · rfl

/-- A sign among its characters is no part of a magnitude. -/
theorem magnitude_ne_ok_of_sign {text : List Char} {sign : Char} (mem : sign ∈ text)
    (isSign : sign = '+' ∨ sign = '-') (n : Nat) : magnitude text ≠ .ok n := by
  intro read
  obtain ⟨-, base, digits, marked, spells⟩ := magnitude_eq_ok_iff.1 read
  have kept : sign ∈ text.filter (· ≠ '_') := by
    refine List.mem_filter.2 ⟨mem, ?_⟩
    rcases isSign with rfl | rfl <;> rfl
  rw [marked.split] at kept
  rcases List.mem_append.1 kept with inMark | inDigits
  · rcases isSign with rfl | rfl <;> cases base <;> exact absurd inMark (by decide)
  · have digit := spells.each sign inDigits
    rcases isSign with rfl | rfl <;> cases base <;> exact absurd digit (by decide)

theorem exists_signed_eq_ok_iff {text rest : String} {negative : Bool} {n : Int}
    (sign : splitSign text.toList = (negative, rest.toList)) :
    (∃ v, signed text = .ok v ∧ v.toInt = n) ↔
      (-2 ^ 63 ≤ n ∧ n ≤ 2 ^ 63 - 1) ∧ ∃ u, unsigned rest = .ok u ∧ n = withSign negative u.toNat := by
  simp only [signed_eq_ok_iff sign, unsigned_eq_ok_iff]
  constructor
  · rintro ⟨v, ⟨m, read, value⟩, rfl⟩
    have low := v.le_toInt
    have high := v.toInt_lt
    have room := (magnitude_eq_ok_iff.1 read).1
    have word : (UInt64.ofNat m).toNat = m := UInt64.toNat_ofNat_of_lt' room
    refine ⟨⟨low, by omega⟩, UInt64.ofNat m, ?_, ?_⟩
    · rw [word, read]
    · rw [word, value]
  · rintro ⟨⟨low, high⟩, u, read, rfl⟩
    have word := Int64.toInt_ofInt_of_le low (by omega)
    exact ⟨_, ⟨u.toNat, read, word⟩, word⟩

/-- A sign counts at the front only if it is a minus. -/
theorem mem_splitSign {before behind : List Char} {sign : Char} (later : before = [] → sign ≠ '-') :
    ∃ negative rest, splitSign (before ++ sign :: behind) = (negative, rest) ∧ sign ∈ rest := by
  rcases split : splitSign (before ++ sign :: behind) with ⟨negative, rest⟩
  refine ⟨negative, rest, rfl, ?_⟩
  unfold splitSign at split
  split at split
  · rename_i tail same
    obtain ⟨-, rfl⟩ := Prod.mk.inj split
    cases before with
    | nil => exact absurd (List.cons.inj same).1 (later rfl)
    | cons first before =>
      rw [← (List.cons.inj same).2]
      exact List.mem_append_right before List.mem_cons_self
  · obtain ⟨-, rfl⟩ := Prod.mk.inj split
    exact List.mem_append_right before List.mem_cons_self

/-- **A signed numeral is a magnitude, behind a minus sign or not.** What is read behind the sign
is what is read of an unsigned numeral, and the signed value has to lie in a signed word; every
signed word is read from its sign and the digits of its magnitude. A sign at any other place is
refused, and the value is never out of the range of the word that it is worked out in. -/
theorem signed_reads_magnitudes :
    (∀ (text : String) (n : Int), (∃ v, signed ("-" ++ text) = .ok v ∧ v.toInt = n) ↔
      (-2 ^ 63 ≤ n ∧ n ≤ 2 ^ 63 - 1) ∧ ∃ u, unsigned text = .ok u ∧ n = -(u.toNat : Int)) ∧
    (∀ (text : String) (n : Int), ¬['-'] <+: text.toList →
      ((∃ v, signed text = .ok v ∧ v.toInt = n) ↔
        (-2 ^ 63 ≤ n ∧ n ≤ 2 ^ 63 - 1) ∧ ∃ u, unsigned text = .ok u ∧ n = u.toNat)) ∧
    (∀ (v : Int64) (base : Base) (zeros : Nat) (digits : List Char) (text : String),
      digits.map Char.toLower = List.replicate zeros '0' ++ Nat.toDigits base.radix v.toInt.natAbs →
      text.toList.filter (· ≠ '_') = base.mark ++ digits →
      (v.toInt ≤ 0 → signed ("-" ++ text) = .ok v) ∧ (0 ≤ v.toInt → signed text = .ok v)) ∧
    (∀ (before behind : List Char) (sign : Char), sign = '+' ∨ sign = '-' → (before = [] → sign ≠ '-') →
      ∃ e, signed (String.ofList (before ++ sign :: behind)) = .error e) ∧
    (∀ text : String, signedInWords? text = some (signed text)) := by
  refine ⟨fun text n => ?_, fun text n other => ?_, fun v base zeros digits text rendering marked => ?_,
    fun before behind sign isSign later => ?_, signedInWords?_eq⟩
  · exact exists_signed_eq_ok_iff (splitSign_minus text)
  · exact exists_signed_eq_ok_iff (splitSign_other other)
  · have spells := spells_of_rendering rendering
    have low := v.le_toInt
    have high := v.toInt_lt
    have read : magnitude text.toList = .ok v.toInt.natAbs := by
      rw [magnitude_eq_ok_iff, marked]
      exact ⟨by omega, base, digits, marked_of_spells spells, spells⟩
    refine ⟨fun negative => ?_, fun positive => ?_⟩
    · have value : v.toInt = -(v.toInt.natAbs : Int) := by omega
      exact (signed_eq_ok_iff (splitSign_minus text)).2 ⟨_, read, value⟩
    · have other : ¬['-'] <+: text.toList := fun sign =>
        magnitude_ne_ok_of_sign (sign.subset (List.mem_singleton_self '-')) (.inr rfl) _ read
      have value : v.toInt = v.toInt.natAbs := by omega
      exact (signed_eq_ok_iff (splitSign_other other)).2 ⟨_, read, value⟩
  · obtain ⟨negative, rest, split, mem⟩ := @mem_splitSign before behind sign later
    rw [← String.toList_ofList (l := before ++ sign :: behind)] at split
    cases read : signed (String.ofList (before ++ sign :: behind)) with
    | error e => exact ⟨e, rfl⟩
    | ok v =>
      obtain ⟨n, magnitude, -⟩ := (signed_eq_ok_iff split).1 read
      exact absurd magnitude (magnitude_ne_ok_of_sign mem isSign n)

/-- The lowest word is read from its sign and its magnitude, with a zero in front and underscores
behind the sign. A second sign is refused, and the magnitude alone is no signed word. -/
theorem signed_reads_magnitudes_minValue :
    (('0' :: '8' :: List.replicate 15 '0').map Char.toLower =
        List.replicate 1 '0' ++ Nat.toDigits Base.hexadecimal.radix Int64.minValue.toInt.natAbs ∧
      "_0x0_8000000000000000".toList.filter (· ≠ '_') =
        Base.hexadecimal.mark ++ '0' :: '8' :: List.replicate 15 '0' ∧
      Int64.minValue.toInt ≤ 0 ∧ signed "-_0x0_8000000000000000" = .ok Int64.minValue) ∧
      (∃ e, signed (String.ofList (['-', '0', 'x'] ++ '-' :: ['1'])) = .error e) ∧
      ¬∃ v, signed "9223372036854775808" = .ok v ∧ v.toInt = 9223372036854775808 := by
  have digits : ('0' :: '8' :: List.replicate 15 '0').map Char.toLower =
      List.replicate 1 '0' ++ Nat.toDigits Base.hexadecimal.radix Int64.minValue.toInt.natAbs := by decide
  have text : "_0x0_8000000000000000".toList.filter (· ≠ '_') =
      Base.hexadecimal.mark ++ '0' :: '8' :: List.replicate 15 '0' := by decide
  have spelled := signed_reads_magnitudes.2.2.1 Int64.minValue .hexadecimal 1 _ _ digits text
  have second := signed_reads_magnitudes.2.2.2.1 ['-', '0', 'x'] ['1'] '-' (.inr rfl) (by decide)
  have plain := signed_reads_magnitudes.2.1 "9223372036854775808" 9223372036854775808 (by decide)
  refine ⟨⟨digits, text, by decide, spelled.1 (by decide)⟩, second, fun read => ?_⟩
  exact absurd (plain.1 read).1.2 (by decide)

end WasmBinary.Numeral
