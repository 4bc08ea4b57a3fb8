/-! Integers in text.

A numeral is decimal, or hexadecimal, octal or binary behind `0x`, `0o` or `0b`, with
underscores anywhere. They are removed before the mark of the radix is looked for. A
signed numeral may start with one minus sign, which has to be its very first character.

Digits are read from left to right into a 64-bit magnitude. The first problem is the one
that is reported, and at each character a wrong digit is noticed before the overflow it
would cause. -/
namespace WasmBinary

/-- What is wrong with the digits of a numeral. -/
inductive DigitFault where
  /-- There are none, or a plus sign stands in front of them. -/
  | missing
  /-- A character is no digit of the radix. -/
  | invalid
  /-- The value is above the range. -/
  | tooLarge
  /-- The value is below the range. -/
  | tooSmall
deriving DecidableEq

def DigitFault.message : DigitFault → String
  | missing => "expected digits"
  | invalid => "invalid digit found in string"
  | tooLarge => "number too large to fit in target type"
  | tooSmall => "number too small to fit in target type"

/-- Why a text is no integer. -/
inductive NumeralError where
  /-- Its magnitude cannot be read. -/
  | malformed (text : String) (fault : DigitFault)
  /-- It is not between `-2 ^ 63` and `2 ^ 63 - 1`. -/
  | outsideInt64 (text : String) (fault : DigitFault)
  /-- It is a code above 255. -/
  | outsideByte (text : String)
deriving DecidableEq

def NumeralError.message : NumeralError → String
  | malformed text _ => s!"invalid integer `{text}`"
  | outsideInt64 text _ => s!"`{text}` does not fit in a 64-bit signed integer"
  | outsideByte text => s!"code `{text}` does not fit in a byte"

def NumeralError.cause : NumeralError → DigitFault
  | malformed _ fault => fault
  | outsideInt64 _ fault => fault
  | outsideByte _ => .tooLarge

namespace Numeral

/-- The value of a character as a digit of this radix, letters in either case. -/
def digit? (radix : Nat) (c : Char) : Option Nat :=
  let n := c.toNat
  let value :=
    if 48 ≤ n ∧ n ≤ 57 then some (n - 48)
    else if 97 ≤ n ∧ n ≤ 122 then some (n - 87)
    else if 65 ≤ n ∧ n ≤ 90 then some (n - 55)
    else none
  value.filter (· < radix)

/-- The digits behind the value read so far, which stays below `2 ^ 64`. -/
def readDigits (radix : Nat) : Nat → List Char → Except DigitFault Nat
  | value, [] => .ok value
  | value, c :: rest =>
    match digit? radix c with
    | none => .error .invalid
    | some d =>
      if value * radix + d < UInt64.size then readDigits radix (value * radix + d) rest
      else .error .tooLarge

/-- The radix of a text without underscores, and its digits. -/
def splitRadix : List Char → Nat × List Char
  | '0' :: 'x' :: digits => (16, digits)
  | '0' :: 'b' :: digits => (2, digits)
  | '0' :: 'o' :: digits => (8, digits)
  | digits => (10, digits)

def radixDigits (text : List Char) : Nat × List Char := splitRadix (text.filter (· ≠ '_'))

/-- The magnitude that a text spells. -/
def magnitude (text : List Char) : Except DigitFault Nat :=
  let (radix, digits) := radixDigits text
  if digits = [] ∨ digits.head? = some '+' then .error .missing else readDigits radix 0 digits

def unsigned (text : String) : Except NumeralError UInt64 :=
  match magnitude text.toList with
  | .ok value => .ok (UInt64.ofNat value)
  | .error fault => .error (.malformed text fault)

/-- Whether a text starts with a minus sign, and what is left without it. -/
def splitSign : List Char → Bool × List Char
  | '-' :: rest => (true, rest)
  | text => (false, text)

def signed (text : String) : Except NumeralError Int64 :=
  let (negative, rest) := splitSign text.toList
  match magnitude rest with
  | .error fault => .error (.malformed text fault)
  | .ok value =>
    let n : Int := if negative then -value else value
    if n < Int64.minValue.toInt then .error (.outsideInt64 text .tooSmall)
    else if Int64.maxValue.toInt < n then .error (.outsideInt64 text .tooLarge)
    else .ok (Int64.ofInt n)

/-- The code that a query spells, when it starts with a decimal digit; other queries are
names. -/
def code? (query : String) : Option (Except NumeralError UInt8) :=
  if query.toList.head?.any Char.isDigit then
    some do
      let n ← unsigned query
      if n.toNat < 256 then .ok n.toUInt8 else .error (.outsideByte query)
  else none

end Numeral
end WasmBinary
