import WasmBinary.Proofs.Varint.Forms

/-! What the check of a width accepts.

The check refuses every width that no integer type has, whatever the value is, and otherwise the
values outside the range of the width. The range is tested by shifts. A machine shifts a word of 64
bits by 63 at most, and a count of bits cannot lie below zero, so a test by shifts means something
only within bounds. `fitsSigned?` and `fitsUnsigned?` are the tests with these bounds written out;
behind the check of the width they never fail (`checks_accept_range`). -/
namespace WasmBinary.Varint

/-! ### Shifts within bounds -/

/-- What a shift by this amount gives; nothing, when a word has no more bits than that. -/
def shifted? {α : Type} (amount : UInt32) (result : α) : Option α :=
  if amount < 64 then some result else none

/-- One width less another; nothing, when that would lie below zero. -/
def less? (width other : UInt32) : Option UInt32 := if other ≤ width then some (width - other) else none

/-- Whether a signed word fits in some bits; nothing, when a shift is out of bounds. -/
def fitsSigned? (n : Int64) (bits : UInt32) : Option Bool := do
  let amount ← less? 64 bits
  let up ← shifted? amount (n <<< Int64.ofNat amount.toNat)
  let down ← shifted? amount (up >>> Int64.ofNat amount.toNat)
  return down == n

/-- Whether an unsigned word fits in some bits; nothing, when the shift is out of bounds. -/
def fitsUnsigned? (n : UInt64) (bits : UInt32) : Option Bool :=
  if 64 ≤ bits then some true
  else do
    let rest ← shifted? bits (n >>> UInt64.ofNat bits.toNat)
    return rest == 0

/-- The check of a width and then of a value, by a test that may be out of bounds. -/
def checked? (bits : UInt32) (fits? : Option Bool) (written : Varint) (refusal : EncodingError) :
    Option (Except EncodingError Varint) :=
  match checkWidth bits.toNat with
  | .error e => some (.error e)
  | .ok () => do if ← fits? then return .ok written else return .error refusal

/-- The signed encoding of a word that fits in `bits` bits; nothing, when a shift is out of bounds. -/
def ofSigned? (n : Int64) (bits : UInt32) : Option (Except EncodingError Varint) :=
  checked? bits (fitsSigned? n bits) (ofInt64 n) (.outOfRange n.toInt bits.toNat .signed)

/-- The unsigned encoding of a word that fits in `bits` bits; nothing, when the shift is out of bounds. -/
def ofUnsigned? (n : UInt64) (bits : UInt32) : Option (Except EncodingError Varint) :=
  checked? bits (fitsUnsigned? n bits) (ofUInt64 n) (.outOfRange n.toNat bits.toNat .unsigned)

theorem shifted?_eq {α : Type} (amount : UInt32) (result : α) :
    shifted? amount result = if amount.toNat < 64 then some result else none := rfl

theorem less?_eq_some {width other : UInt32} (le : other.toNat ≤ width.toNat) :
    ∃ amount, less? width other = some amount ∧ amount.toNat = width.toNat - other.toNat := by
  have le := UInt32.le_iff_toNat_le.2 le
  exact ⟨width - other, if_pos le, UInt32.toNat_sub_of_le width other le⟩

/-- The test is within bounds at the widths of integer types, and at no other. -/
theorem fitsSigned?_eq (n : Int64) (bits : UInt32) :
    fitsSigned? n bits = if 1 ≤ bits.toNat ∧ bits.toNat ≤ 64 then some (fitsSigned n bits.toNat) else none := by
  by_cases small : bits.toNat ≤ 64
  · obtain ⟨amount, left, value⟩ := @less?_eq_some 64 bits small
    have value : amount.toNat = 64 - bits.toNat := value
    have below : amount.toNat < 64 ↔ 1 ≤ bits.toNat ∧ bits.toNat ≤ 64 := by omega
    simp only [fitsSigned?, left, shifted?_eq, below, Option.bind_eq_bind, Option.bind_some]
    split
    · rw [fitsSigned, value]
      rfl
    · rfl
  · have wide : ¬bits ≤ 64 := mt UInt32.le_iff_toNat_le.1 small
    rw [fitsSigned?, less?, if_neg wide, if_neg fun inside => small inside.2]
    rfl

/-- The test is within bounds at any width, since it shifts by no more than the word has. -/
theorem fitsUnsigned?_eq (n : UInt64) (bits : UInt32) :
    fitsUnsigned? n bits = some (fitsUnsigned n bits.toNat) := by
  have wide : 64 ≤ bits ↔ 64 ≤ bits.toNat := UInt32.le_iff_toNat_le
  rw [fitsUnsigned?, fitsUnsigned]
  by_cases all : 64 ≤ bits.toNat
  · rw [if_pos (wide.2 all), decide_eq_true all, Bool.true_or]
  · rw [if_neg (mt wide.1 all), shifted?_eq, if_pos (Nat.not_le.1 all), decide_eq_false all, Bool.false_or]
    rfl

theorem checked?_eq {bits : UInt32} {fits? : Option Bool} {fits : Bool}
    (within : 1 ≤ bits.toNat → bits.toNat ≤ 64 → fits? = some fits) (written : Varint) (refusal : EncodingError) :
    checked? bits fits? written refusal =
      some (do checkWidth bits.toNat; if fits then .ok written else .error refusal) := by
  by_cases inside : 1 ≤ bits.toNat ∧ bits.toNat ≤ 64
  · rw [checked?, checkWidth_ok inside.1 inside.2, within inside.1 inside.2]
    cases fits <;> rfl
  · rw [checked?, checkWidth_error inside]
    rfl

/-- **The check accepts exactly the range of a width**, and its answer to a value within is what the
writer leaves. A width of no integer type is refused first, and a value outside the range is refused
with the value, the width and how it was read. No shift on the way is out of bounds. -/
theorem checks_accept_range :
    (∀ (n : Int64) (bits : Nat), ofSigned n bits =
      if 1 ≤ bits ∧ bits ≤ 64 then
        if -2 ^ (bits - 1) ≤ n.toInt ∧ n.toInt ≤ 2 ^ (bits - 1) - 1 then .ok (ofInt64 n)
        else .error (.outOfRange n.toInt bits .signed)
      else .error (.invalidWidth bits)) ∧
    (∀ (n : UInt64) (bits : Nat), ofUnsigned n bits =
      if 1 ≤ bits ∧ bits ≤ 64 then
        if n.toNat < 2 ^ bits then .ok (ofUInt64 n) else .error (.outOfRange n.toNat bits .unsigned)
      else .error (.invalidWidth bits)) ∧
    (∀ (n : Int64) (bits : UInt32), ofSigned? n bits = some (ofSigned n bits.toNat)) ∧
    (∀ (n : UInt64) (bits : UInt32), ofUnsigned? n bits = some (ofUnsigned n bits.toNat)) := by
  refine ⟨fun n bits => ?_, ofUnsigned_eq, fun n bits => ?_, fun n bits => ?_⟩
  · rw [ofSigned_eq]
    simp only [Int.le_sub_one_iff]
  · exact checked?_eq (fun low high => by rw [fitsSigned?_eq, if_pos ⟨low, high⟩]) _ _
  · exact checked?_eq (fun _ _ => fitsUnsigned?_eq n bits) _ _

end WasmBinary.Varint
