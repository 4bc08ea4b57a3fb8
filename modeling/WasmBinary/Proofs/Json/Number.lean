import Mathlib.Data.List.TakeWhile
import Mathlib.Data.Nat.Digits.Defs
import Mathlib.Tactic.Ring
import WasmBinary.Json.Tree

/-! Numerals of bytes.

Of all numbers in JSON, those are bytes that are written as the numeral of a byte. A numeral
without needless zeros in front is known from its value (`Numeral.unique`), so what the reader
takes for a byte is exactly what is rendered for it (`readNumber_eq_byte_iff`). -/
namespace WasmBinary.Json

/-! ### Numerals and their values -/

/-- Digits, at least one, and no zero in front of others. -/
structure Numeral (digits : List UInt8) : Prop where
  nonempty : digits ≠ []
  each : ∀ d ∈ digits, isDigit d
  plain : digits.head? = some 0x30 → digits = [0x30]

/-- The value of digits, the highest first. -/
def decimalValue (digits : List UInt8) : Nat := Nat.ofDigits 10 (digits.map digitValue).reverse

theorem isDigit_iff {d : UInt8} : isDigit d ↔ 0x30 ≤ d.toNat ∧ d.toNat ≤ 0x39 := by
  simp [isDigit, UInt8.le_iff_toNat_le]

theorem digitValue_lt {d : UInt8} (digit : isDigit d) : digitValue d < 10 := by
  have range := isDigit_iff.1 digit
  rw [digitValue]
  omega

theorem digitValue_inj {c d : UInt8} (hc : isDigit c) (hd : isDigit d) (same : digitValue c = digitValue d) :
    c = d := by
  have low := isDigit_iff.1 hc
  have low' := isDigit_iff.1 hd
  rw [digitValue, digitValue] at same
  rw [← UInt8.toNat_inj]
  omega

theorem map_digitValue_inj {a b : List UInt8} (ha : ∀ d ∈ a, isDigit d) (hb : ∀ d ∈ b, isDigit d)
    (same : a.map digitValue = b.map digitValue) : a = b := by
  induction a generalizing b with
  | nil => exact (List.map_eq_nil_iff.1 same.symm).symm
  | cons c a ih =>
    cases b with
    | nil => cases same
    | cons d b =>
      obtain ⟨first, rest⟩ := List.cons.inj same
      rw [digitValue_inj (ha c List.mem_cons_self) (hb d List.mem_cons_self) first,
        ih (fun d mem => ha d (List.mem_cons_of_mem c mem)) (fun c mem => hb c (List.mem_cons_of_mem d mem))
          rest]

/-- But for the zero, the digits of a numeral are those of its value. -/
theorem Numeral.digits_value {digits : List UInt8} (h : Numeral digits) (other : digits ≠ [0x30]) :
    Nat.digits 10 (decimalValue digits) = (digits.map digitValue).reverse := by
  refine Nat.digits_ofDigits 10 (by decide) _ (fun value mem => ?_) fun nonempty => ?_
  · obtain ⟨d, inside, rfl⟩ := List.mem_map.1 (List.mem_reverse.1 mem)
    exact digitValue_lt (h.each d inside)
  · cases digits with
    | nil => exact absurd rfl h.nonempty
    | cons d rest =>
      rw [List.getLast_reverse]
      intro zero
      have first : d = 0x30 := digitValue_inj (h.each d List.mem_cons_self) rfl zero
      exact other (h.plain (congrArg some first))

theorem Numeral.eq_zero_of_value {digits : List UInt8} (h : Numeral digits) (zero : decimalValue digits = 0) :
    digits = [0x30] := by
  by_contra other
  have none := h.digits_value other
  rw [zero, Nat.digits_zero, eq_comm, List.reverse_eq_nil_iff, List.map_eq_nil_iff] at none
  exact h.nonempty none

/-- **A numeral is known from its value.** -/
theorem Numeral.unique {a b : List UInt8} (ha : Numeral a) (hb : Numeral b)
    (same : decimalValue a = decimalValue b) : a = b := by
  by_cases zero : decimalValue a = 0
  · rw [ha.eq_zero_of_value zero, hb.eq_zero_of_value (same ▸ zero)]
  · have left := ha.digits_value (by rintro rfl; exact zero rfl)
    have right := hb.digits_value (by rintro rfl; exact zero same)
    rw [same, right] at left
    exact map_digitValue_inj ha.each hb.each (List.reverse_inj.1 left.symm)

theorem numeral_render (value : UInt8) : Numeral (ByteTree.byte value).render := by
  obtain ⟨nonempty, each, plain⟩ := forall_byte
    (p := fun value => (ByteTree.byte value).render ≠ [] ∧ (ByteTree.byte value).render.all isDigit ∧
      ((ByteTree.byte value).render.head? = some 0x30 → (ByteTree.byte value).render = [0x30]))
    (by decide +kernel) value
  exact ⟨nonempty, List.all_eq_true.1 each, plain⟩

theorem decimalValue_render (value : UInt8) : decimalValue (ByteTree.byte value).render = value.toNat :=
  forall_byte (p := fun value => decimalValue (ByteTree.byte value).render = value.toNat) (by decide +kernel)
    value

theorem Numeral.head?_any {digits : List UInt8} (h : Numeral digits) : digits.head?.any isDigit := by
  obtain ⟨d, more, rfl⟩ := List.exists_cons_of_ne_nil h.nonempty
  exact h.each d List.mem_cons_self

theorem Numeral.getLast?_any {digits : List UInt8} (h : Numeral digits) : digits.getLast?.any isDigit := by
  rw [List.getLast?_eq_some_getLast h.nonempty]
  exact h.each _ (List.getLast_mem h.nonempty)

/-! ### The value in a word -/

theorem decimalValue_cons (d : UInt8) (rest : List UInt8) :
    decimalValue (d :: rest) = decimalValue rest + 10 ^ rest.length * digitValue d := by
  rw [decimalValue, List.map_cons, Nat.ofDigits_reverse_cons, List.length_map, decimalValue]

/-- All digits are taken, behind what was taken before, exactly when there is room for the value
of all. -/
theorem takeInteger_eq_iff {significand n : Nat} (room : significand < UInt64.size) {digits : List UInt8} :
    takeInteger significand digits = (n, 0) ↔
      n < UInt64.size ∧ significand * 10 ^ digits.length + decimalValue digits = n := by
  induction digits generalizing significand with
  | nil =>
    have value : decimalValue [] = 0 := rfl
    simp only [takeInteger, value, List.length_nil, Nat.pow_zero, Nat.mul_one, Nat.add_zero, Prod.mk.injEq,
      and_true]
    exact ⟨fun same => ⟨same ▸ room, same⟩, And.right⟩
  | cons d rest ih =>
    have value : significand * 10 ^ (rest.length + 1) + decimalValue (d :: rest) =
        (significand * 10 + digitValue d) * 10 ^ rest.length + decimalValue rest := by
      rw [decimalValue_cons]
      ring
    rw [takeInteger, List.length_cons, value]
    by_cases fits : significand * 10 + digitValue d < UInt64.size
    · rw [if_pos fits, ih fits]
    · have raised : significand * 10 + digitValue d ≤ (significand * 10 + digitValue d) * 10 ^ rest.length :=
        Nat.le_mul_of_pos_right _ (Nat.pow_pos (by decide))
      rw [if_neg fits, Prod.mk.injEq]
      exact iff_of_false (fun left => Nat.succ_ne_zero _ left.2) (by omega)

/-! ### Numbers that are bytes -/

/-- What stands in front may be a numeral: no digit and nothing else of a number follows. -/
structure Apart (rest : List UInt8) : Prop where
  ends : endsNumber rest
  noDigit : ¬rest.head?.any isDigit

theorem Apart.takeWhile_eq_nil {rest : List UInt8} (h : Apart rest) : rest.takeWhile isDigit = [] := by
  cases rest with
  | nil => rfl
  | cons b rest => exact List.takeWhile_cons_of_neg h.noDigit

theorem Apart.dropWhile_eq_self {rest : List UInt8} (h : Apart rest) : rest.dropWhile isDigit = rest := by
  cases rest with
  | nil => rfl
  | cons b rest => exact List.dropWhile_cons_of_neg h.noDigit

/-- The digits in front of a text are a numeral, if they do not start with a needless zero. -/
theorem numeral_takeWhile {d : UInt8} {rest : List UInt8} (digit : isDigit d)
    (plain : ¬(d = 0x30 ∧ rest.head?.any isDigit)) : Numeral (d :: rest.takeWhile isDigit) := by
  refine ⟨List.cons_ne_nil _ _, fun c mem => ?_, fun zero => ?_⟩
  · rcases List.mem_cons.1 mem with rfl | mem
    · exact digit
    · exact List.mem_takeWhile_imp mem
  · obtain rfl := Option.some.inj zero
    have alone : rest.takeWhile isDigit = [] := by
      cases rest with
      | nil => rfl
      | cons b rest => exact List.takeWhile_cons_of_neg fun more => plain ⟨rfl, more⟩
    rw [alone]

theorem noDigit_dropWhile (rest : List UInt8) : ¬(rest.dropWhile isDigit).head?.any isDigit := by
  intro more
  obtain ⟨b, first, digit⟩ := (Option.any_eq_true _ _).1 more
  have none := List.head?_dropWhile_not isDigit rest
  rw [first] at none
  exact Bool.false_ne_true (none.symm.trans digit)

theorem readFraction_of_endsNumber {significand dropped : Nat} {rest : List UInt8} (ends : endsNumber rest) :
    readFraction significand dropped rest = endNumber significand dropped rest := by
  cases rest with
  | nil => rfl
  | cons b rest =>
    simp only [endsNumber, Bool.and_eq_true, bne_iff_ne] at ends
    obtain ⟨⟨point, small⟩, capital⟩ := ends
    rw [readFraction, if_neg point, readExponent, if_neg (by simp [small, capital])]

theorem readFraction_byte {n : Nat} (small : n < 256) {rest : List UInt8} (ends : endsNumber rest) :
    readFraction n 0 rest = .ok rest := by
  have all : ∀ i : Fin 256, Binary64.scaleOverflows i.val (0 : Nat) = false := by decide +kernel
  rw [readFraction_of_endsNumber ends, endNumber, all ⟨n, small⟩]
  rfl

/-- What is known of a number that was read. -/
theorem readNumber_cons_ok {negative : Bool} {d : UInt8} {rest after : List UInt8} {byte : Option UInt8}
    (read : readNumber negative (d :: rest) = .ok (byte, after)) :
    isDigit d ∧ ¬(d = 0x30 ∧ rest.head?.any isDigit) ∧
      ∃ significand dropped, takeInteger 0 (d :: rest.takeWhile isDigit) = (significand, dropped) ∧
        readFraction significand dropped (rest.dropWhile isDigit) = .ok after ∧
        byte = if !negative && endsNumber (rest.dropWhile isDigit) && decide (significand < 256 ∧ dropped = 0)
          then some significand.toUInt8 else none := by
  rw [readNumber] at read
  split at read
  · rename_i digit
    split at read
    · cases read
    · rename_i plain
      rcases taken : takeInteger 0 (d :: rest.takeWhile isDigit) with ⟨significand, dropped⟩
      simp only [taken] at read
      split at read
      · cases read
      · rename_i end_ behind
        obtain ⟨rfl, rfl⟩ := Prod.mk.inj (Except.ok.inj read)
        exact ⟨digit, plain, significand, dropped, rfl, behind, rfl⟩
  · cases read

/-- **The numbers that are bytes** are the numerals of bytes, without a sign, and nothing else of a
number behind them. -/
theorem readNumber_eq_byte_iff {text after : List UInt8} {value : UInt8} {negative : Bool} :
    readNumber negative text = .ok (some value, after) ↔
      negative = false ∧ text = (ByteTree.byte value).render ++ after ∧ Apart after := by
  have numeral := numeral_render value
  have known := decimalValue_render value
  constructor
  · intro read
    cases text with
    | nil => cases read
    | cons d rest =>
      obtain ⟨digit, plain, significand, dropped, taken, behind, isByte⟩ := readNumber_cons_ok read
      split at isByte
      · rename_i conditions
        simp only [Bool.and_eq_true, Bool.not_eq_true', decide_eq_true_eq] at conditions
        obtain ⟨⟨rfl, ends⟩, small, rfl⟩ := conditions
        obtain rfl := Option.some.inj isByte
        rw [readFraction_byte small ends] at behind
        obtain rfl := Except.ok.inj behind
        have split : d :: rest = (d :: rest.takeWhile isDigit) ++ rest.dropWhile isDigit := by
          rw [List.cons_append, List.takeWhile_append_dropWhile]
        have digits := numeral_takeWhile digit plain
        obtain ⟨-, same⟩ := (takeInteger_eq_iff (by decide)).1 taken
        have word : significand.toUInt8.toNat = significand := UInt8.toNat_ofNat_of_lt' small
        rw [Nat.zero_mul, Nat.zero_add, ← word, ← known] at same
        exact ⟨rfl, by rw [split, digits.unique numeral same], ends, noDigit_dropWhile rest⟩
      · cases isByte
  · rintro ⟨rfl, rfl, apart⟩
    obtain ⟨d, digits, shape⟩ := List.exists_cons_of_ne_nil numeral.nonempty
    rw [shape] at numeral known ⊢
    have digit : isDigit d := numeral.each d List.mem_cons_self
    have each : ∀ c ∈ digits, isDigit c := fun c mem => numeral.each c (List.mem_cons_of_mem d mem)
    have digits_taken : (digits ++ after).takeWhile isDigit = digits := by
      rw [List.takeWhile_append_of_pos each, apart.takeWhile_eq_nil, List.append_nil]
    have behind : (digits ++ after).dropWhile isDigit = after := by
      rw [List.dropWhile_append_of_pos each, apart.dropWhile_eq_self]
    have small := value.toNat_lt
    have taken : takeInteger 0 (d :: digits) = (value.toNat, 0) := by
      rw [takeInteger_eq_iff (by decide), known, Nat.zero_mul, Nat.zero_add]
      exact ⟨Nat.lt_trans small (by decide), rfl⟩
    have plain : ¬(d = 0x30 ∧ (digits ++ after).head?.any isDigit) := by
      rintro ⟨rfl, more⟩
      obtain rfl : digits = [] := (List.cons.inj (numeral.plain rfl)).2
      exact apart.noDigit more
    rw [List.cons_append, readNumber, if_pos digit, if_neg plain]
    have conditions : (!false && endsNumber after && decide (value.toNat < 256 ∧ True)) = true := by
      simp [apart.ends, small]
    simp only [digits_taken, behind, taken, readFraction_byte small apart.ends, conditions, if_true]
    exact congrArg (fun byte => Except.ok (some byte, after)) UInt8.ofNat_toNat

end WasmBinary.Json
