/-! Whole numbers in binary floating point of 64 bits.

Only the question whether a number is too large is answered here, so numbers are natural
and rounding is exact arithmetic: to 53 significant bits, a half to the even neighbour.
A number is finite when it rounds to less than `2 ^ 1024`. -/
namespace WasmBinary.Binary64

/-- The nearest number of 53 significant bits. -/
def nearest (n : Nat) : Nat :=
  let unit := 1 <<< (n.log2 - 52)
  let low := n / unit
  let doubled := 2 * (n % unit)
  let up := decide (unit < doubled) || (doubled == unit && low % 2 == 1)
  (if up then low + 1 else low) * unit

/-- A number of 53 significant bits is too large to be finite. -/
def overflows (n : Nat) : Bool := decide (1 <<< 1024 ≤ n)

/-- `significand * 10 ^ exponent` is not finite when it is computed in floating point: the
significand is rounded, so is the power of ten, and so is their product. No power of ten
above the 308th is finite. -/
def scaleOverflows (significand : Nat) (exponent : Int) : Bool :=
  decide (0 ≤ exponent) && significand != 0 &&
    (decide (308 < exponent) ||
      overflows (nearest (nearest significand * nearest (Nat.pow 10 exponent.toNat))))

end WasmBinary.Binary64
