import Mathlib.Algebra.Order.Ring.Int
import WasmBinary.Reader
import WasmBinary.Varint.Group

/-! Reading integers.

The bytes of an integer go up to the first one without the continuation bit. Their lowest
seven bits are the digits of its value to the base 128, lowest first. In a signed integer
the highest of these bits has the negative weight that it has in two's complement, so when
it is set the value is lower by the weight of a digit more. -/
namespace WasmBinary.Varint

/-- Parts a text behind the first byte without the continuation bit. -/
def splitGroups : List UInt8 → Option (List UInt8 × List UInt8)
  | [] => none
  | b :: rest =>
    if b &&& continuation = 0 then some ([b], rest)
    else (splitGroups rest).map fun parts => (b :: parts.1, parts.2)

/-- The bytes up to the first one without the continuation bit, that one included. -/
def readGroups : Reader (List UInt8) := splitGroups

/-- The value of the lowest seven bits of these bytes. -/
def groupSum (bytes : List UInt8) : Nat :=
  (bytes.mapIdx fun i b => b.toNat % 128 * 2 ^ (7 * i)).sum

/-- Whether the last byte has the sign bit. -/
def endsNegative (bytes : List UInt8) : Bool := bytes.getLast?.any (· &&& signBit != 0)

/-- The value of the same bits when the last byte carries the sign. -/
def signedSum (bytes : List UInt8) : Int :=
  if endsNegative bytes then groupSum bytes - 2 ^ (7 * bytes.length) else groupSum bytes

/-- An unsigned integer of any size. -/
def readUnsigned : Reader Nat := groupSum <$> readGroups

/-- A signed integer of any size. -/
def readSigned : Reader Int := signedSum <$> readGroups

/-! ### Digits -/

theorem groupSum_nil : groupSum [] = 0 := rfl

theorem sum_mapIdx_weighted (bytes : List UInt8) (k : Nat) :
    (bytes.mapIdx fun i b => b.toNat % 128 * 2 ^ (7 * (i + k))).sum = 2 ^ (7 * k) * groupSum bytes := by
  induction bytes generalizing k with
  | nil => simp [groupSum]
  | cons b rest ih =>
    have one := ih 1
    have more := ih (k + 1)
    simp only [groupSum, List.mapIdx_cons, List.sum_cons, Nat.zero_add, Nat.add_assoc, Nat.add_comm 1] at *
    rw [more, one, Nat.mul_add, Nat.mul_zero, Nat.pow_zero, Nat.mul_one, Nat.mul_add, Nat.pow_add,
      Nat.mul_assoc, Nat.mul_comm (b.toNat % 128), Nat.mul_one]

theorem groupSum_cons (b : UInt8) (rest : List UInt8) :
    groupSum (b :: rest) = b.toNat % 128 + 128 * groupSum rest := by
  have shift := sum_mapIdx_weighted rest 1
  simp only [groupSum, List.mapIdx_cons, List.sum_cons] at *
  rw [shift]
  simp

end WasmBinary.Varint
