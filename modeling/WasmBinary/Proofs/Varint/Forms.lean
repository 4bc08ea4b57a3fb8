import WasmBinary.Instruction
import WasmBinary.Proofs.Varint.Groups
import WasmBinary.Varint.Grammar
import WasmBinary.Varint.Interval

/-! Encodings within the grammar of a width.

The grammar counts a width down by seven bits a byte and asks the last byte to lie within what
is left. A writer does not know the width: it stops where the value does. Both come to the
same, since a value that lies within a width lies within seven bits less once its lowest group
is taken off (`unsignedForm_groups`, `signedForm_groups`). So whatever passes the check of a
width is written in the form of that width (`encodings_have_form`). -/
namespace WasmBinary.Varint

/-! ### Groups within a width -/

theorem unsignedForm_groups {n width : Nat} (fits : n < 2 ^ width) :
    UnsignedForm width (unsignedGroups n) n := by
  fun_induction unsignedGroups n generalizing width with
  | case1 n small =>
    have value : (lowGroup n).toNat = n := by
      rw [lowGroup_toNat]
      omega
    have form := UnsignedForm.last (b := lowGroup n) (by omega) (value.symm ▸ fits)
    rwa [value] at form
  | case2 n big ih =>
    have wide : 7 < width := by
      by_contra narrow
      have : 2 ^ width ≤ 2 ^ 7 := Nat.pow_le_pow_right (by decide) (by omega)
      omega
    have split : 2 ^ width = 2 ^ 7 * 2 ^ (width - 7) := by
      rw [← Nat.pow_add]
      congr 1
      omega
    have low := goesOn_toNat n
    have form := UnsignedForm.more (b := lowGroup n ||| continuation) (by omega) wide (ih (by omega))
    have value : 2 ^ 7 * (n / 128) + (lowGroup n ||| continuation).toNat - 2 ^ 7 = n := by omega
    rwa [value] at form

theorem signedForm_groups {n : Int} {width : Nat} (low : -2 ^ (width - 1) ≤ n)
    (high : n < 2 ^ (width - 1)) : SignedForm width (signedGroups n) n := by
  fun_induction signedGroups n generalizing width with
  | case1 n small =>
    have group := lowGroup_toNat n
    by_cases sign : 0 ≤ n
    · have value : ((lowGroup n).toNat : Int) = n := by omega
      have fits : (lowGroup n).toNat < 2 ^ (width - 1) := by
        rw [← value] at high
        exact_mod_cast high
      have form := SignedForm.last (b := lowGroup n) (by omega) fits
      rwa [value] at form
    · have value : ((lowGroup n).toNat : Int) - 2 ^ 7 = n := by omega
      have fits : (2 ^ 7 : Int) - 2 ^ (width - 1) ≤ (lowGroup n).toNat := by omega
      have form := SignedForm.lastNegative (by omega) (by omega) fits
      rwa [value] at form
  | case2 n big ih =>
    have wide : 7 < width := by
      by_contra narrow
      have : (2 : Int) ^ (width - 1) ≤ 2 ^ 6 := by
        exact_mod_cast Nat.pow_le_pow_right (n := 2) (by decide) (show width - 1 ≤ 6 by omega)
      omega
    have split : (2 : Int) ^ (width - 1) = 2 ^ 7 * 2 ^ (width - 7 - 1) := by
      rw [← Int.pow_add]
      congr 1
      omega
    have group := goesOn_toNat n
    have form := SignedForm.more (b := lowGroup n ||| continuation) (by omega) wide
      (ih (by omega) (by omega))
    have value : 2 ^ 7 * (n / 128) + ((lowGroup n ||| continuation).toNat : Int) - 2 ^ 7 = n := by omega
    rwa [value] at form

/-! ### A width bounds the bytes -/

theorem UnsignedForm.length_le {width n : Nat} {bytes : List UInt8} (form : UnsignedForm width bytes n)
    (positive : 1 ≤ width) : bytes.length ≤ (width + 6) / 7 := by
  induction form with
  | last ends fits =>
    rw [List.length_singleton]
    omega
  | more goesOn wide rest ih =>
    have := ih (by omega)
    rw [List.length_cons]
    omega

theorem SignedForm.length_le {width : Nat} {n : Int} {bytes : List UInt8} (form : SignedForm width bytes n)
    (positive : 1 ≤ width) : bytes.length ≤ (width + 6) / 7 := by
  induction form with
  | last ends fits =>
    rw [List.length_singleton]
    omega
  | lastNegative sign ends fits =>
    rw [List.length_singleton]
    omega
  | more goesOn wide rest ih =>
    have := ih (by omega)
    rw [List.length_cons]
    omega

/-! ### The check of a width -/

theorem checkWidth_ok {bits : Nat} (positive : 1 ≤ bits) (small : bits ≤ 64) : checkWidth bits = .ok () :=
  if_neg (by omega)

theorem checkWidth_error {bits : Nat} (outside : ¬(1 ≤ bits ∧ bits ≤ 64)) :
    checkWidth bits = .error (.invalidWidth bits) :=
  if_pos (by omega)

/-- The check of a width and then of a value, told from what the test of the value means at the widths
that pass. -/
theorem checked_eq {bits : Nat} {fits : Bool} {room : Prop} [Decidable room]
    (test : 1 ≤ bits → bits ≤ 64 → (fits = true ↔ room)) (written : Varint) (refusal : EncodingError) :
    (do checkWidth bits; if fits then .ok written else .error refusal) =
      if 1 ≤ bits ∧ bits ≤ 64 then if room then .ok written else .error refusal
      else .error (.invalidWidth bits) := by
  by_cases inside : 1 ≤ bits ∧ bits ≤ 64
  · rw [if_pos inside, checkWidth_ok inside.1 inside.2]
    simp only [← test inside.1 inside.2]
    rfl
  · rw [if_neg inside, checkWidth_error inside]
    rfl

theorem ofUnsigned_eq (n : UInt64) (bits : Nat) :
    ofUnsigned n bits =
      if 1 ≤ bits ∧ bits ≤ 64 then
        if n.toNat < 2 ^ bits then .ok (ofUInt64 n) else .error (.outOfRange n.toNat bits .unsigned)
      else .error (.invalidWidth bits) :=
  checked_eq (fun _ _ => fitsUnsigned_iff n bits) _ _

theorem ofSigned_eq (n : Int64) (bits : Nat) :
    ofSigned n bits =
      if 1 ≤ bits ∧ bits ≤ 64 then
        if -2 ^ (bits - 1) ≤ n.toInt ∧ n.toInt < 2 ^ (bits - 1) then .ok (ofInt64 n)
        else .error (.outOfRange n.toInt bits .signed)
      else .error (.invalidWidth bits) :=
  checked_eq (fitsSigned_iff n) _ _

theorem ofInt33_eq (n : Int64) :
    ofInt33 n = if -2 ^ 32 ≤ n.toInt ∧ n.toInt < 2 ^ 32 then .ok (ofInt64 n) else .error ⟨n.toInt, 33⟩ := by
  have inside := @fitsSigned_iff n 33 (by decide) (by decide)
  simp only [ofInt33, inside, Nat.reduceSub]

/-! ### What passes the check has the form -/

theorem unsignedForm_ofUInt64 {n : UInt64} {width : Nat} (fits : n.toNat < 2 ^ width) :
    UnsignedForm width (ofUInt64 n).toList n.toNat := by
  rw [toList_ofUInt64]
  exact unsignedForm_groups fits

theorem signedForm_ofInt64 {n : Int64} {width : Nat} (low : -2 ^ (width - 1) ≤ n.toInt)
    (high : n.toInt < 2 ^ (width - 1)) : SignedForm width (ofInt64 n).toList n.toInt := by
  rw [toList_ofInt64]
  exact signedForm_groups low high

theorem ofUnsigned_eq_ok_iff {n : UInt64} {bits : Nat} {v : Varint} (positive : 1 ≤ bits)
    (small : bits ≤ 64) : ofUnsigned n bits = .ok v ↔ n.toNat < 2 ^ bits ∧ ofUInt64 n = v := by
  rw [ofUnsigned_eq, if_pos ⟨positive, small⟩]
  split <;> simp [*]

theorem ofSigned_eq_ok_iff {n : Int64} {bits : Nat} {v : Varint} (positive : 1 ≤ bits)
    (small : bits ≤ 64) : ofSigned n bits = .ok v ↔
      (-2 ^ (bits - 1) ≤ n.toInt ∧ n.toInt < 2 ^ (bits - 1)) ∧ ofInt64 n = v := by
  rw [ofSigned_eq, if_pos ⟨positive, small⟩]
  split <;> simp [*]

/-- **Whatever passes the check of a width has the form of that width**, and so no more bytes
than the width has groups. The types of 32, 64 and 33 bits need no check or have theirs: of the
words given as one of 33 bits, those within are encoded and those outside refused, and a type
index is always within. -/
theorem encodings_have_form :
    (∀ (n : UInt64) (bits : Nat), 1 ≤ bits → bits ≤ 64 →
      ((∃ v, ofUnsigned n bits = .ok v) ↔ n.toNat < 2 ^ bits) ∧
      ∀ v, ofUnsigned n bits = .ok v →
        UnsignedForm bits v.toList n.toNat ∧ v.toList.length ≤ (bits + 6) / 7) ∧
    (∀ (n : Int64) (bits : Nat), 1 ≤ bits → bits ≤ 64 →
      ((∃ v, ofSigned n bits = .ok v) ↔ -2 ^ (bits - 1) ≤ n.toInt ∧ n.toInt < 2 ^ (bits - 1)) ∧
      ∀ v, ofSigned n bits = .ok v →
        SignedForm bits v.toList n.toInt ∧ v.toList.length ≤ (bits + 6) / 7) ∧
    (∀ n : UInt32, UnsignedForm 32 (ofUInt32 n).toList n.toNat) ∧
    (∀ n : Int32, SignedForm 32 (ofInt32 n).toList n.toInt) ∧
    (∀ n : Int64, SignedForm 64 (ofInt64 n).toList n.toInt) ∧
    (∀ n : Int64, -2 ^ 32 ≤ n.toInt → n.toInt ≤ 2 ^ 32 - 1 →
      ∃ v, ofInt33 n = .ok v ∧ SignedForm 33 v.toList n.toInt) ∧
    (∀ n : Int64, ¬(-2 ^ 32 ≤ n.toInt ∧ n.toInt ≤ 2 ^ 32 - 1) → ofInt33 n = .error ⟨n.toInt, 33⟩) ∧
    (∀ (index : UInt32) (out : Bytes), ∃ v, ofInt33 index.toUInt64.toInt64 = .ok v ∧
      encode (BlockType.typeIndex index) out = out ++ v.toList) := by
  refine ⟨fun n bits positive small => ?_, fun n bits positive small => ?_, fun n => ?_,
    fun n => ?_, fun n => ?_, fun n low high => ?_, fun n outside => ?_, fun index out => ?_⟩
  · simp only [ofUnsigned_eq_ok_iff positive small, exists_and_left, exists_eq', and_true, true_and]
    rintro v ⟨fits, rfl⟩
    have form := unsignedForm_ofUInt64 fits
    exact ⟨form, form.length_le positive⟩
  · simp only [ofSigned_eq_ok_iff positive small, exists_and_left, exists_eq', and_true, true_and]
    rintro v ⟨⟨low, high⟩, rfl⟩
    have form := signedForm_ofInt64 low high
    exact ⟨form, form.length_le positive⟩
  · rw [toList_ofUInt32]
    exact unsignedForm_groups n.toNat_lt
  · rw [toList_ofInt32]
    exact signedForm_groups n.le_toInt n.toInt_lt
  · exact signedForm_ofInt64 n.le_toInt n.toInt_lt
  · have fits : -2 ^ 32 ≤ n.toInt ∧ n.toInt < 2 ^ 32 := by omega
    exact ⟨ofInt64 n, by rw [ofInt33_eq, if_pos fits], signedForm_ofInt64 fits.1 fits.2⟩
  · rw [ofInt33_eq, if_neg (by omega)]
  · exact ⟨ofTypeIndex index, ofInt33_index index, rfl⟩

/-- The lowest number of eight bits takes both of its bytes, the last with the sign filled in. The
highest number of 33 bits has the form, and the one above is refused. -/
theorem encodings_have_form_edges :
    (1 ≤ 8 ∧ 8 ≤ 64 ∧ ofSigned (-128) 8 = .ok (ofInt64 (-128)) ∧
      SignedForm 8 (ofInt64 (-128)).toList (-128) ∧ (ofInt64 (-128)).toList.length ≤ 2) ∧
      (∃ v, ofInt33 4294967295 = .ok v ∧ SignedForm 33 v.toList 4294967295) ∧
      ofInt33 4294967296 = .error ⟨4294967296, 33⟩ :=
  have ok : ofSigned (-128) 8 = .ok (ofInt64 (-128)) := rfl
  have forms := encodings_have_form
  ⟨⟨by decide, by decide, ok, (forms.2.1 (-128) 8 (by decide) (by decide)).2 _ ok⟩,
    forms.2.2.2.2.2.1 4294967295 (by decide) (by decide),
    forms.2.2.2.2.2.2.1 4294967296 (by decide)⟩

end WasmBinary.Varint
