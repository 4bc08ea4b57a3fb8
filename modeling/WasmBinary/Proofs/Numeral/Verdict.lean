import WasmBinary.Proofs.Leading
import WasmBinary.Proofs.Numeral.Sign

/-! The verdict on a numeral.

A text is gone through from left to right, and the first thing wrong with it is what is told. The
digits may be missing; the longest row of them in front may be worth more than a word holds; something
else may stand behind that row. `Verdict` lists these cases by what the text looks like. Exactly one of
them holds of every text, and it is what the readers of numerals answer, with the text as a whole in
every error (`numerals_have_one_verdict`). -/
namespace WasmBinary.Numeral

/-! ### Magnitudes -/

/-- There are digits to read in a text, without a plus sign in front of them, and they go as far as
`front`. -/
structure Readable (text : List Char) (base : Base) (digits front : List Char) : Prop where
  marked : Marked (text.filter (· ≠ '_')) base digits
  begins : ¬(digits = [] ∨ digits.head? = some '+')
  leading : Leading (fun c => base.isDigit c) front digits

/-- What a text comes to when it is gone through from left to right. -/
inductive Verdict (text : List Char) : Except DigitFault Nat → Prop where
  | missing {base : Base} {digits : List Char} (marked : Marked (text.filter (· ≠ '_')) base digits)
    (nothing : digits = [] ∨ digits.head? = some '+') : Verdict text (.error .missing)
  | tooLarge {base : Base} {digits front : List Char} (readable : Readable text base digits front)
    (large : 2 ^ 64 ≤ positional base.radix front) : Verdict text (.error .tooLarge)
  | invalid {base : Base} {digits front : List Char} (readable : Readable text base digits front)
    (room : positional base.radix front < 2 ^ 64) (more : front ≠ digits) : Verdict text (.error .invalid)
  | value {base : Base} {digits : List Char} (readable : Readable text base digits digits)
    (room : positional base.radix digits < 2 ^ 64) : Verdict text (.ok (positional base.radix digits))

theorem magnitude_of_readable {text : List Char} {base : Base} {digits front : List Char}
    (readable : Readable text base digits front) :
    magnitude text =
      if 2 ^ 64 ≤ positional base.radix front then .error .tooLarge
      else if front = digits then .ok (positional base.radix front) else .error .invalid := by
  rw [magnitude_of_marked readable.marked, if_neg readable.begins, leading_iff.1 readable.leading]

/-- The verdict is what the reader of magnitudes answers. -/
theorem verdict_iff {text : List Char} {r : Except DigitFault Nat} : Verdict text r ↔ magnitude text = r := by
  constructor
  · intro verdict
    cases verdict with
    | missing marked nothing => rw [magnitude_of_marked marked, if_pos nothing]
    | tooLarge readable large => rw [magnitude_of_readable readable, if_pos large]
    | invalid readable room more =>
      rw [magnitude_of_readable readable, if_neg (Nat.not_le.2 room), if_neg more]
    | value readable room => rw [magnitude_of_readable readable, if_neg (Nat.not_le.2 room), if_pos rfl]
  · rintro rfl
    obtain ⟨base, -, marked⟩ := marked_splitRadix (text.filter (· ≠ '_'))
    generalize (splitRadix (text.filter (· ≠ '_'))).2 = digits at marked
    by_cases nothing : digits = [] ∨ digits.head? = some '+'
    · rw [magnitude_of_marked marked, if_pos nothing]
      exact .missing marked nothing
    · have readable : Readable text base digits _ := ⟨marked, nothing, leading_takeWhile base.isDigit digits⟩
      rw [magnitude_of_readable readable]
      by_cases large : 2 ^ 64 ≤ positional base.radix (digits.takeWhile base.isDigit)
      · rw [if_pos large]
        exact .tooLarge readable large
      · have room := Nat.lt_of_not_le large
        rw [if_neg large]
        by_cases whole : digits.takeWhile base.isDigit = digits
        · rw [if_pos whole]
          rw [whole] at readable room ⊢
          exact .value readable room
        · rw [if_neg whole]
          exact .invalid readable room whole

/-! ### Integers -/

/-- A text is what stands behind its minus sign, or has none in front. -/
structure BehindSign (text : List Char) (negative : Bool) (rest : List Char) : Prop where
  split : text = (if negative then ['-'] else []) ++ rest
  plain : negative = false → ¬['-'] <+: rest

theorem behindSign_splitSign (text : List Char) : BehindSign text (splitSign text).1 (splitSign text).2 := by
  by_cases sign : ['-'] <+: text
  · obtain ⟨rest, rfl⟩ := sign
    exact ⟨rfl, nofun⟩
  · rw [splitSign_other sign]
    exact ⟨rfl, fun _ => sign⟩

theorem unsigned_eq_error_iff {text : String} {e : NumeralError} :
    unsigned text = .error e ↔ ∃ fault, magnitude text.toList = .error fault ∧ e = .malformed text fault := by
  unfold unsigned
  cases magnitude text.toList with
  | error fault => simp [eq_comm]
  | ok n => simp

/-- A signed word holds the value. -/
def InsideInt64 (n : Int) : Prop := -2 ^ 63 ≤ n ∧ n ≤ 2 ^ 63 - 1

instance (n : Int) : Decidable (InsideInt64 n) := inferInstanceAs (Decidable (_ ∧ _))

/-- Outside the range of a signed word, the sign tells on which side. -/
theorem signed_of_magnitude {text : String} {negative : Bool} {rest : List Char} {n : Nat}
    (sign : splitSign text.toList = (negative, rest)) (read : magnitude rest = .ok n) :
    signed text =
      if InsideInt64 (withSign negative n) then .ok (Int64.ofInt (withSign negative n))
      else .error (.outsideInt64 text (if negative then .tooSmall else .tooLarge)) := by
  rw [signed_of_splitSign sign, read]
  simp only
  by_cases inside : InsideInt64 (withSign negative n)
  · have low := inside.1
    have high := inside.2
    rw [if_neg (by omega), if_neg (by omega), if_pos inside]
  · rw [if_neg inside]
    have far : withSign negative n < -2 ^ 63 ∨ 2 ^ 63 - 1 < withSign negative n := by
      unfold InsideInt64 at inside
      omega
    cases negative with
    | true =>
      have side : withSign true n ≤ 0 := by simp [withSign]
      rw [if_pos (by omega)]
      rfl
    | false =>
      have side : 0 ≤ withSign false n := by simp [withSign]
      rw [if_neg (by omega), if_pos (by omega)]
      rfl

theorem signed_eq_error_iff {text : String} {negative : Bool} {rest : List Char} {e : NumeralError}
    (sign : splitSign text.toList = (negative, rest)) :
    signed text = .error e ↔
      (∃ fault, magnitude rest = .error fault ∧ e = .malformed text fault) ∨
      ∃ n, magnitude rest = .ok n ∧ ¬InsideInt64 (withSign negative n) ∧
        e = .outsideInt64 text (if negative then .tooSmall else .tooLarge) := by
  cases read : magnitude rest with
  | error fault =>
    rw [signed_of_splitSign sign, read]
    simp [eq_comm]
  | ok n =>
    rw [signed_of_magnitude sign read]
    by_cases inside : InsideInt64 (withSign negative n)
    · simp [inside]
    · simp [inside, eq_comm]

/-! ### What is told -/

/-- **Every numeral has exactly one verdict, and the readers answer it.** Without digits, or with a plus
sign in front of them, the digits are missing. Otherwise the longest row of digits in front counts: its
value may be too large for a word; else something that is no digit may stand behind it; else it is the
value. A signed numeral is judged behind its minus sign, and a value that is read may then be too small,
behind the sign, or too large, without it. Every error names the whole text. -/
theorem numerals_have_one_verdict :
    (∀ text : List Char, ∃! r, Verdict text r) ∧
    (∀ text : String,
      (∀ v, unsigned text = .ok v ↔ Verdict text.toList (.ok v.toNat)) ∧
      (∀ e, unsigned text = .error e ↔
        ∃ fault, Verdict text.toList (.error fault) ∧ e = .malformed text fault)) ∧
    (∀ text : String, ∃ negative rest, BehindSign text.toList negative rest ∧
      (∀ v, signed text = .ok v ↔ ∃ n, Verdict rest (.ok n) ∧ v.toInt = withSign negative n) ∧
      (∀ e, signed text = .error e ↔
        (∃ fault, Verdict rest (.error fault) ∧ e = .malformed text fault) ∨
        ∃ n, Verdict rest (.ok n) ∧ ¬InsideInt64 (withSign negative n) ∧
          e = .outsideInt64 text (if negative then .tooSmall else .tooLarge))) ∧
    (∀ text fault,
      (NumeralError.malformed text fault).message = "invalid integer `" ++ text ++ "`" ∧
      (NumeralError.malformed text fault).cause = fault ∧
      (NumeralError.outsideInt64 text fault).message =
        "`" ++ text ++ "` does not fit in a 64-bit signed integer" ∧
      (NumeralError.outsideInt64 text fault).cause = fault) ∧
    DigitFault.missing.message = "expected digits" ∧
    DigitFault.tooLarge.message = "number too large to fit in target type" ∧
    DigitFault.invalid.message = "invalid digit found in string" ∧
    DigitFault.tooSmall.message = "number too small to fit in target type" := by
  simp only [verdict_iff]
  refine ⟨fun text => ⟨_, rfl, fun _ => Eq.symm⟩, fun text => ⟨fun v => unsigned_eq_ok_iff, fun e =>
    unsigned_eq_error_iff⟩, fun text => ?_, fun text fault => ⟨?_, rfl, ?_, rfl⟩, rfl, rfl, rfl, rfl⟩
  · exact ⟨_, _, behindSign_splitSign text.toList, fun v => signed_eq_ok_iff rfl, fun e =>
      signed_eq_error_iff rfl⟩
  · rfl
  · rfl

/-- A letter behind too many digits is never looked at. -/
example : unsigned "18446744073709551615x" = .error (.malformed "18446744073709551615x" .invalid) ∧
    unsigned "18446744073709551616x" = .error (.malformed "18446744073709551616x" .tooLarge) := by
  decide +kernel

end WasmBinary.Numeral
