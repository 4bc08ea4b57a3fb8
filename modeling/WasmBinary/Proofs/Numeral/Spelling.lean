import Mathlib.Data.List.TakeWhile
import Mathlib.Data.Nat.Digits.Defs
import Mathlib.Tactic.Ring
import WasmBinary.Numeral

/-! The spelling of a numeral.

A numeral is marked with its base, unless that is ten, and its digits stand behind the mark.
Their value is the positional one: each digit counts as its place in the row of digits, in
either case. The reader goes through the digits with a value that has to stay in a word, and
what it answers is told by the digits in front of the first wrong character: their value may
have no room, or there may be more behind them (`readDigits_eq`). So the numerals that are read
are the ones that spell the value of a word, whatever zeros stand in front and wherever
underscores stand (`unsigned_reads_spellings`). -/
namespace WasmBinary.Numeral

/-! ### Bases -/

/-- The bases of numerals. -/
inductive Base where
  | binary | octal | decimal | hexadecimal
deriving DecidableEq

namespace Base

/-- The number of digits there are. -/
def radix : Base → Nat
  | binary => 2
  | octal => 8
  | decimal => 10
  | hexadecimal => 16

/-- What stands in front of the digits. -/
def mark : Base → List Char
  | binary => ['0', 'b']
  | octal => ['0', 'o']
  | decimal => []
  | hexadecimal => ['0', 'x']

theorem radix_pos (base : Base) : 0 < base.radix := by cases base <;> decide

end Base

/-- The text is the mark of the base with the digits behind it. It is decimal only if it starts
with no other mark. -/
structure Marked (text : List Char) (base : Base) (digits : List Char) : Prop where
  split : text = base.mark ++ digits
  unmarked : base = .decimal → ∀ other : Base, other ≠ .decimal → ¬other.mark <+: text

theorem marked_splitRadix (text : List Char) :
    ∃ base : Base, base.radix = (splitRadix text).1 ∧ Marked text base (splitRadix text).2 := by
  unfold splitRadix
  split
  · exact ⟨.hexadecimal, rfl, rfl, nofun⟩
  · exact ⟨.binary, rfl, rfl, nofun⟩
  · exact ⟨.octal, rfl, rfl, nofun⟩
  · rename_i hexadecimal binary octal
    refine ⟨.decimal, rfl, rfl, fun _ other decimal => ?_⟩
    rintro ⟨digits, rfl⟩
    cases other with
    | binary => exact binary digits rfl
    | octal => exact octal digits rfl
    | decimal => exact decimal rfl
    | hexadecimal => exact hexadecimal digits rfl

/-- A text is marked with one base only. -/
theorem splitRadix_of_marked {text digits : List Char} {base : Base} (h : Marked text base digits) :
    splitRadix text = (base.radix, digits) := by
  obtain ⟨rfl, unmarked⟩ := h
  cases base with
  | binary | octal | hexadecimal => rfl
  | decimal =>
    rw [Base.mark, List.nil_append] at *
    unfold splitRadix
    split
    · exact absurd ⟨_, rfl⟩ (unmarked rfl .hexadecimal (by decide))
    · exact absurd ⟨_, rfl⟩ (unmarked rfl .binary (by decide))
    · exact absurd ⟨_, rfl⟩ (unmarked rfl .octal (by decide))
    · rfl

/-! ### Digits -/

/-- The digits there are, from the lowest upwards. -/
def digitRow : List Char := "0123456789abcdef".toList

/-- What a digit counts, in either case; 16 for what is no digit. -/
def digitValue (c : Char) : Nat := digitRow.idxOf c.toLower

/-- Whether a character is a digit of the base. -/
def Base.isDigit (base : Base) (c : Char) : Bool := decide (digitValue c < base.radix)

/-- The value of digits, the highest first. -/
def positional (radix : Nat) (digits : List Char) : Nat :=
  Nat.ofDigits radix (digits.map digitValue).reverse

theorem positional_nil (radix : Nat) : positional radix [] = 0 := Nat.ofDigits_nil

theorem positional_cons (radix : Nat) (c : Char) (rest : List Char) :
    positional radix (c :: rest) = positional radix rest + radix ^ rest.length * digitValue c := by
  rw [positional, List.map_cons, Nat.ofDigits_reverse_cons, List.length_map, positional]

theorem digitValue_of_not_ascii {c : Char} (other : ¬c.toNat < 128) : digitValue c = 16 := by
  have same : c.toLower = c := by
    refine dif_neg fun upper => ?_
    have high : c.toNat ≤ 90 := upper.2
    omega
  have ascii : ∀ d ∈ digitRow, decide (d.toNat < 128) := List.all_eq_true.1 (by decide)
  have missing : c ∉ digitRow := fun mem => other (of_decide_eq_true (ascii c mem))
  rw [digitValue, same, List.idxOf_eq_length missing]
  rfl

/-- What holds of each of the 128 ASCII characters holds of one. -/
theorem forall_ascii {p : Char → Prop} (all : ∀ i : Fin 128, p (Char.ofNat i.val)) {c : Char}
    (ascii : c.toNat < 128) : p c := by
  have one := all ⟨c.toNat, ascii⟩
  rwa [Char.ofNat_toNat] at one

theorem digit?_eq (base : Base) (c : Char) :
    digit? base.radix c = if base.isDigit c then some (digitValue c) else none := by
  by_cases ascii : c.toNat < 128
  · refine forall_ascii (p := fun c => digit? base.radix c = if base.isDigit c then some (digitValue c) else none)
      ?_ ascii
    cases base <;> decide +kernel
  · have none : base.isDigit c = false := by
      rw [Base.isDigit, digitValue_of_not_ascii ascii]
      cases base <;> rfl
    rw [none, digit?, if_neg (by omega), if_neg (by omega), if_neg (by omega)]
    rfl

/-- **What the reader of digits answers** is told by the digits in front of the first character
that is none. When their value, behind the one that was read before, has no room in a word, this
is the fault; otherwise it is that character, if there is one. -/
theorem readDigits_eq (base : Base) {value : Nat} (room : value < 2 ^ 64) (text : List Char) :
    readDigits base.radix value text =
      let digits := text.takeWhile base.isDigit
      let total := value * base.radix ^ digits.length + positional base.radix digits
      if 2 ^ 64 ≤ total then .error .tooLarge
      else if digits = text then .ok total else .error .invalid := by
  induction text generalizing value with
  | nil =>
    have total : ¬2 ^ 64 ≤ value := by omega
    simp only [readDigits, List.takeWhile_nil, List.length_nil, Nat.pow_zero, Nat.mul_one, positional_nil,
      Nat.add_zero, if_neg total, if_true]
  | cons c rest ih =>
    rw [readDigits, digit?_eq]
    by_cases digit : base.isDigit c
    · -- Further digits only raise the value, so the first that has no room decides.
      have total (digits : List Char) :
          value * base.radix ^ (digits.length + 1) + positional base.radix (c :: digits) =
            (value * base.radix + digitValue c) * base.radix ^ digits.length + positional base.radix digits := by
        rw [positional_cons]
        ring
      have raised (digits : List Char) :
          value * base.radix + digitValue c ≤
            (value * base.radix + digitValue c) * base.radix ^ digits.length + positional base.radix digits :=
        Nat.le_add_right_of_le (Nat.le_mul_of_pos_right _ (Nat.pow_pos base.radix_pos))
      simp only [digit, if_true, List.takeWhile_cons_of_pos, List.length_cons, List.cons_inj_right, total]
      by_cases fits : value * base.radix + digitValue c < UInt64.size
      · rw [if_pos fits, ih fits]
      · have full : 2 ^ 64 ≤ _ := Nat.le_trans (Nat.le_of_not_lt fits) (raised (rest.takeWhile base.isDigit))
        rw [if_neg fits, if_pos full]
    · have total : ¬2 ^ 64 ≤ value := by omega
      simp only [digit, Bool.false_eq_true, if_false, not_false_eq_true, List.takeWhile_cons_of_neg,
        List.length_nil, Nat.pow_zero, Nat.mul_one, positional_nil, Nat.add_zero, if_neg total, List.nil_eq,
        List.cons_ne_nil]

/-- What is read of a text, in the base that it is marked with. -/
theorem magnitude_of_marked {text digits : List Char} {base : Base}
    (marked : Marked (text.filter (· ≠ '_')) base digits) :
    magnitude text =
      if digits = [] ∨ digits.head? = some '+' then .error .missing
      else if 2 ^ 64 ≤ positional base.radix (digits.takeWhile base.isDigit) then .error .tooLarge
      else if digits.takeWhile base.isDigit = digits then
        .ok (positional base.radix (digits.takeWhile base.isDigit))
      else .error .invalid := by
  have read := readDigits_eq base (show 0 < 2 ^ 64 by decide) digits
  simp only [Nat.zero_mul, Nat.zero_add] at read
  simp only [magnitude, radixDigits, splitRadix_of_marked marked, read]

/-! ### Spellings -/

/-- There are digits, all of them of the base, and this is their value. -/
structure Spells (base : Base) (digits : List Char) (n : Nat) : Prop where
  nonempty : digits ≠ []
  each : ∀ c ∈ digits, base.isDigit c
  value : positional base.radix digits = n

theorem isDigit_plus (base : Base) : base.isDigit '+' = false := by cases base <;> decide

theorem magnitude_eq_ok_iff_of_marked {text digits : List Char} {base : Base} {n : Nat}
    (marked : Marked (text.filter (· ≠ '_')) base digits) :
    magnitude text = .ok n ↔ n < 2 ^ 64 ∧ Spells base digits n := by
  rw [magnitude_of_marked marked]
  constructor
  · intro read
    split at read
    · cases read
    · rename_i start
      split at read
      · cases read
      · rename_i room
        split at read
        · rename_i whole
          rw [whole] at read room
          obtain rfl := Except.ok.inj read
          exact ⟨Nat.lt_of_not_le room, fun none => start (.inl none), List.takeWhile_eq_self_iff.1 whole, rfl⟩
        · cases read
  · rintro ⟨room, nonempty, each, rfl⟩
    have whole : digits.takeWhile base.isDigit = digits := List.takeWhile_eq_self_iff.2 each
    have start : ¬(digits = [] ∨ digits.head? = some '+') := by
      rintro (none | plus)
      · exact nonempty none
      · have digit := each '+' (List.mem_of_mem_head? plus)
        rw [isDigit_plus] at digit
        cases digit
    rw [if_neg start, whole, if_neg (Nat.not_le.2 room), if_pos rfl]

theorem magnitude_eq_ok_iff {text : List Char} {n : Nat} :
    magnitude text = .ok n ↔ n < 2 ^ 64 ∧
      ∃ base digits, Marked (text.filter (· ≠ '_')) base digits ∧ Spells base digits n := by
  constructor
  · intro read
    obtain ⟨base, -, marked⟩ := marked_splitRadix (text.filter (· ≠ '_'))
    obtain ⟨room, spells⟩ := (magnitude_eq_ok_iff_of_marked marked).1 read
    exact ⟨room, base, _, marked, spells⟩
  · rintro ⟨room, base, digits, marked, spells⟩
    exact (magnitude_eq_ok_iff_of_marked marked).2 ⟨room, spells⟩

/-! ### Rendering -/

theorem idxOf_digitChar {d : Nat} (h : d < 16) : digitRow.idxOf (Nat.digitChar d) = d := by
  have all : ∀ i : Fin 16, digitRow.idxOf (Nat.digitChar i.val) = i.val := by decide
  exact all ⟨d, h⟩

theorem idxOf_lt_of_mem_toDigits {radix n : Nat} (low : 1 < radix) (high : radix ≤ 16) {c : Char}
    (mem : c ∈ Nat.toDigits radix n) : digitRow.idxOf c < radix := by
  induction n using Nat.strong_induction_on with
  | _ n ih =>
    rw [Nat.toDigits_eq_if low] at mem
    split at mem
    · rename_i small
      obtain rfl := List.mem_singleton.1 mem
      rwa [idxOf_digitChar (by omega)]
    · rename_i big
      rcases List.mem_append.1 mem with front | last
      · exact ih (n / radix) (Nat.div_lt_self (by omega) low) front
      · have digit := Nat.mod_lt n (show 0 < radix by omega)
        obtain rfl := List.mem_singleton.1 last
        rwa [idxOf_digitChar (by omega)]

theorem ofDigits_toDigits {radix : Nat} (low : 1 < radix) (high : radix ≤ 16) (n : Nat) :
    Nat.ofDigits radix ((Nat.toDigits radix n).map digitRow.idxOf).reverse = n := by
  induction n using Nat.strong_induction_on with
  | _ n ih =>
    rw [Nat.toDigits_eq_if low]
    split
    · rename_i small
      rw [List.map_singleton, List.reverse_singleton, Nat.ofDigits_singleton, idxOf_digitChar (by omega)]
    · rename_i big
      have digit := Nat.mod_lt n (show 0 < radix by omega)
      rw [List.map_append, List.map_singleton, List.reverse_append, List.reverse_singleton,
        List.singleton_append, Nat.ofDigits_cons, ih (n / radix) (Nat.div_lt_self (by omega) low),
        idxOf_digitChar (by omega), Nat.mod_add_div]

/-- Digits in either case, with zeros in front, spell the number that they render. -/
theorem spells_of_rendering {base : Base} {digits : List Char} {zeros n : Nat}
    (rendering : digits.map Char.toLower = List.replicate zeros '0' ++ Nat.toDigits base.radix n) :
    Spells base digits n := by
  have low : 1 < base.radix := by cases base <;> decide
  have high : base.radix ≤ 16 := by cases base <;> decide
  have values : digits.map digitValue =
      List.replicate zeros 0 ++ (Nat.toDigits base.radix n).map digitRow.idxOf := by
    have outer := congrArg (List.map digitRow.idxOf) rendering
    rwa [List.map_map, List.map_append, List.map_replicate] at outer
  refine ⟨?_, fun c mem => ?_, ?_⟩
  · rintro rfl
    have none := List.append_eq_nil_iff.1 rendering.symm
    exact Nat.toDigits_ne_nil none.2
  · have lower : c.toLower ∈ List.replicate zeros '0' ++ Nat.toDigits base.radix n := by
      rw [← rendering]
      exact List.mem_map_of_mem mem
    refine decide_eq_true ?_
    rcases List.mem_append.1 lower with zero | digit
    · rw [digitValue, List.eq_of_mem_replicate zero]
      exact base.radix_pos
    · exact idxOf_lt_of_mem_toDigits low high digit
  · rw [positional, values, List.reverse_append, List.reverse_replicate, Nat.ofDigits_append_replicate_zero,
      ofDigits_toDigits low high]

/-- Behind its mark, a spelling is read to its base. Decimal digits look like no mark. -/
theorem marked_of_spells {base : Base} {digits : List Char} {n : Nat} (spells : Spells base digits n) :
    Marked (base.mark ++ digits) base digits := by
  refine ⟨rfl, ?_⟩
  rintro rfl other marked ⟨rest, same⟩
  have letter : ∀ c ∈ other.mark, Base.decimal.isDigit c := by
    intro c mem
    have front : c ∈ other.mark ++ rest := List.mem_append_left rest mem
    rw [same] at front
    exact spells.each c front
  cases other with
  | decimal => exact marked rfl
  | binary => exact absurd (letter 'b' (by decide)) (by decide)
  | octal => exact absurd (letter 'o' (by decide)) (by decide)
  | hexadecimal => exact absurd (letter 'x' (by decide)) (by decide)

theorem unsigned_eq_ok_iff {text : String} {v : UInt64} :
    unsigned text = .ok v ↔ magnitude text.toList = .ok v.toNat := by
  unfold unsigned
  cases read : magnitude text.toList with
  | error fault => simp
  | ok n =>
    have room := (magnitude_eq_ok_iff.1 read).1
    rw [Except.ok.injEq, Except.ok.injEq, ← UInt64.toNat_inj, UInt64.toNat_ofNat_of_lt' room]

/-- **The numerals that are read are the spellings of words**: behind the mark of a base, and once
the underscores are taken out, one digit of the base at least and nothing else, with a value that
has room in a word. So every word is read from its digits to any base, in either case, whatever
zeros stand in front of them and wherever underscores stand. -/
theorem unsigned_reads_spellings :
    (∀ (text : String) (n : Nat), (∃ v, unsigned text = .ok v ∧ v.toNat = n) ↔
      n < 2 ^ 64 ∧ ∃ base digits, Marked (text.toList.filter (· ≠ '_')) base digits ∧ Spells base digits n) ∧
    (∀ (v : UInt64) (base : Base) (zeros : Nat) (digits : List Char) (text : String),
      digits.map Char.toLower = List.replicate zeros '0' ++ Nat.toDigits base.radix v.toNat →
      text.toList.filter (· ≠ '_') = base.mark ++ digits → unsigned text = .ok v) := by
  refine ⟨fun text n => ?_, fun v base zeros digits text rendering marked => ?_⟩
  · rw [← magnitude_eq_ok_iff]
    constructor
    · rintro ⟨v, read, rfl⟩
      exact unsigned_eq_ok_iff.1 read
    · intro read
      have room := (magnitude_eq_ok_iff.1 read).1
      have word : (UInt64.ofNat n).toNat = n := UInt64.toNat_ofNat_of_lt' room
      exact ⟨.ofNat n, unsigned_eq_ok_iff.2 (word.symm ▸ read), word⟩
  · have spells := spells_of_rendering rendering
    rw [unsigned_eq_ok_iff, magnitude_eq_ok_iff, marked]
    exact ⟨v.toNat_lt, base, digits, marked_of_spells spells, spells⟩

/-- Digits of both cases behind two zeros, with underscores between them and in the mark. -/
theorem unsigned_reads_spellings_padded :
    ['0', '0', 'f', 'F', 'f', 'f'].map Char.toLower =
        List.replicate 2 '0' ++ Nat.toDigits Base.hexadecimal.radix (UInt64.ofNat 65535).toNat ∧
      "0_x00_fFff_".toList.filter (· ≠ '_') = Base.hexadecimal.mark ++ ['0', '0', 'f', 'F', 'f', 'f'] ∧
      unsigned "0_x00_fFff_" = .ok 65535 :=
  have digits : ['0', '0', 'f', 'F', 'f', 'f'].map Char.toLower =
      List.replicate 2 '0' ++ Nat.toDigits Base.hexadecimal.radix (UInt64.ofNat 65535).toNat := by decide
  have text : "0_x00_fFff_".toList.filter (· ≠ '_') =
      Base.hexadecimal.mark ++ ['0', '0', 'f', 'F', 'f', 'f'] := by decide
  ⟨digits, text, unsigned_reads_spellings.2 65535 .hexadecimal 2 _ _ digits text⟩

end WasmBinary.Numeral
