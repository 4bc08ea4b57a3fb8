import Mathlib.Algebra.Order.Ring.Int

/-! The grammar of integers of a width.

The binary format gives each width a grammar of its own. A byte without the continuation
bit ends an integer and has to lie within the width; a byte with it is followed by an
integer of seven bits less, so a width also bounds the number of bytes. -/
namespace WasmBinary.Varint

/-- The bytes are an unsigned integer of `width` bits, with this value. -/
inductive UnsignedForm : (width : Nat) → List UInt8 → Nat → Prop where
  | last {width : Nat} {b : UInt8} (ends : b.toNat < 2 ^ 7) (fits : b.toNat < 2 ^ width) :
    UnsignedForm width [b] b.toNat
  | more {width m : Nat} {b : UInt8} {bytes : List UInt8} (goesOn : 2 ^ 7 ≤ b.toNat)
    (wide : 7 < width) (rest : UnsignedForm (width - 7) bytes m) :
    UnsignedForm width (b :: bytes) (2 ^ 7 * m + b.toNat - 2 ^ 7)

/-- The bytes are a signed integer of `width` bits, with this value. -/
inductive SignedForm : (width : Nat) → List UInt8 → Int → Prop where
  | last {width : Nat} {b : UInt8} (ends : b.toNat < 2 ^ 6) (fits : b.toNat < 2 ^ (width - 1)) :
    SignedForm width [b] b.toNat
  | lastNegative {width : Nat} {b : UInt8} (sign : 2 ^ 6 ≤ b.toNat) (ends : b.toNat < 2 ^ 7)
    (fits : (2 ^ 7 : Int) - 2 ^ (width - 1) ≤ b.toNat) : SignedForm width [b] (b.toNat - 2 ^ 7)
  | more {width : Nat} {m : Int} {b : UInt8} {bytes : List UInt8} (goesOn : 2 ^ 7 ≤ b.toNat)
    (wide : 7 < width) (rest : SignedForm (width - 7) bytes m) :
    SignedForm width (b :: bytes) (2 ^ 7 * m + b.toNat - 2 ^ 7)

end WasmBinary.Varint
