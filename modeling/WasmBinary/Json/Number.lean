import WasmBinary.Binary64
import WasmBinary.Json.Fault

/-! Numbers in JSON.

A number is an optional minus sign, an integer part without leading zeros, and optionally
a fraction and an exponent. Only one kind of number has a use here, the integer from 0 to
255 that is written without sign, fraction and exponent. But every number has to be well
formed and finite, so the digits of all are read.

The value is held as a significand below `2 ^ 64` and a power of ten. Digits are taken
into the significand while it stays below that; integer digits after that only raise the
power. -/
namespace WasmBinary.Json

def isDigit (b : UInt8) : Bool := 0x30 ≤ b && b ≤ 0x39

def digitValue (b : UInt8) : Nat := b.toNat - 0x30

/-! ### The value of the digits -/

/-- Takes integer digits while the significand stays below `2 ^ 64`. Gives the significand
and the number of digits left out. -/
def takeInteger : Nat → List UInt8 → Nat × Nat
  | significand, [] => (significand, 0)
  | significand, d :: rest =>
    if significand * 10 + digitValue d < UInt64.size then
      takeInteger (significand * 10 + digitValue d) rest
    else (significand, rest.length + 1)

/-- Takes fraction digits while the significand stays below `2 ^ 64`. Gives the significand
and the number of digits taken. -/
def takeFraction : Nat → List UInt8 → Nat × Nat
  | significand, [] => (significand, 0)
  | significand, d :: rest =>
    if significand * 10 + digitValue d < UInt64.size then
      let (significand, taken) := takeFraction (significand * 10 + digitValue d) rest
      (significand, taken + 1)
    else (significand, 0)

/-- The largest exponent that is told apart from a larger one: `2 ^ 31 - 1`. -/
def maxExponent : Nat := 2147483647

/-- The value of the digits of an exponent, or else the digits behind the one at which it
passes `maxExponent`. -/
def takeExponent : Nat → List UInt8 → Nat ⊕ List UInt8
  | value, [] => .inl value
  | value, d :: rest =>
    if value * 10 + digitValue d ≤ maxExponent then takeExponent (value * 10 + digitValue d) rest
    else .inr rest

/-! ### The parts of a number -/

/-- The sign of an exponent, plus when there is none, and the bytes behind it. -/
def exponentSign : List UInt8 → Bool × List UInt8
  | [] => (false, [])
  | b :: rest => if b = 0x2b then (false, rest) else if b = 0x2d then (true, rest) else (false, b :: rest)

/-- The end of a number, which has to be finite. -/
def endNumber (significand : Nat) (power : Int) (rest : List UInt8) : Except Stop (List UInt8) :=
  if Binary64.scaleOverflows significand power then .error ⟨.numberOutOfRange, rest⟩ else .ok rest

/-- Reads the digits of an exponent, of which there has to be one. `power` is the power of
ten so far. -/
def readExponentDigits (significand : Nat) (power : Int) (negative : Bool) :
    List UInt8 → Except Stop (List UInt8)
  | [] => .error ⟨.endInValue, []⟩
  | d :: rest =>
    if isDigit d then
      let behind := rest.dropWhile isDigit
      match takeExponent 0 (d :: rest.takeWhile isDigit) with
      | .inl value =>
        endNumber significand (if negative then power - value else power + value) behind
      | .inr untaken =>
        if negative || significand == 0 then .ok behind
        else .error ⟨.numberOutOfRange, untaken ++ behind⟩
    else .error ⟨.invalidNumber, rest⟩

def readExponent (significand : Nat) (power : Int) : List UInt8 → Except Stop (List UInt8)
  | [] => endNumber significand power []
  | b :: rest =>
    if b = 0x65 ∨ b = 0x45 then
      readExponentDigits significand power (exponentSign rest).1 (exponentSign rest).2
    else endNumber significand power (b :: rest)

/-- Reads the digits of a fraction, of which there has to be one, and an optional
exponent. -/
def readFractionDigits (significand dropped : Nat) : List UInt8 → Except Stop (List UInt8)
  | [] => .error ⟨.endInValue, []⟩
  | d :: rest =>
    if isDigit d then
      let (significand, taken) := takeFraction significand (d :: rest.takeWhile isDigit)
      readExponent significand (dropped - taken) (rest.dropWhile isDigit)
    else .error ⟨.invalidNumber, rest⟩

/-- Reads an optional fraction and an optional exponent behind an integer part. -/
def readFraction (significand dropped : Nat) : List UInt8 → Except Stop (List UInt8)
  | [] => readExponent significand dropped []
  | b :: rest =>
    if b = 0x2e then readFractionDigits significand dropped rest
    else readExponent significand dropped (b :: rest)

/-- Whether an integer part has nothing of the number behind it. -/
def endsNumber : List UInt8 → Bool
  | [] => true
  | b :: _ => b != 0x2e && b != 0x65 && b != 0x45

/-- Reads a number behind its optional sign. Gives the byte that it spells, if it is the
integer of a byte without sign, fraction and exponent, and the bytes behind it. -/
def readNumber (negative : Bool) : List UInt8 → Except Stop (Option UInt8 × List UInt8)
  | [] => .error ⟨.endInValue, []⟩
  | d :: rest =>
    if isDigit d then
      if d = 0x30 ∧ rest.head?.any isDigit then .error ⟨.invalidNumber, rest.tail⟩
      else
        let (significand, dropped) := takeInteger 0 (d :: rest.takeWhile isDigit)
        let behind := rest.dropWhile isDigit
        let plain := !negative && endsNumber behind && decide (significand < 256 ∧ dropped = 0)
        match readFraction significand dropped behind with
        | .error stop => .error stop
        | .ok after => .ok (if plain then some significand.toUInt8 else none, after)
    else .error ⟨.invalidNumber, rest⟩

end WasmBinary.Json
