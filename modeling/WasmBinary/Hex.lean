/-! Hexadecimal digits of a byte. -/
namespace WasmBinary.Hex

/-- A number below 16 as a lower-case digit. -/
def lowerDigit (n : Nat) : Char := Char.ofNat (if n < 10 then n + 48 else n + 87)

/-- A number below 16 as an upper-case digit. -/
def upperDigit (n : Nat) : Char := Char.ofNat (if n < 10 then n + 48 else n + 55)

/-- The two lower-case digits of a byte, high half first. -/
def lower (byte : UInt8) : List Char := [lowerDigit (byte.toNat / 16), lowerDigit (byte.toNat % 16)]

/-- The two upper-case digits of a byte, high half first. -/
def upper (byte : UInt8) : List Char := [upperDigit (byte.toNat / 16), upperDigit (byte.toNat % 16)]

/-- The value of a decimal digit or of an upper-case letter up to F. -/
def value? (c : Char) : Option Nat :=
  if '0' ≤ c ∧ c ≤ '9' then some (c.toNat - 48)
  else if 'A' ≤ c ∧ c ≤ 'F' then some (c.toNat - 55)
  else none

def byte? (high low : Char) : Option UInt8 := do
  return UInt8.ofNat (16 * (← value? high) + (← value? low))

def pairs? : List Char → Option (List UInt8)
  | [] => some []
  | [_] => none
  | high :: low :: rest => do
    let byte ← byte? high low
    return byte :: (← pairs? rest)

end WasmBinary.Hex
