import WasmBinary.Hex

/-! Bytes as a line of hexadecimal text.

A line holds two upper-case digits for each byte, with one space between bytes. The
leading bytes that count the others can be marked, and a terminal shows marked bytes in
bold cyan: each is written between escape sequences of its own, so neither a space nor
the end of the line is ever inside them. -/
namespace WasmBinary

/-- Bytes to show, of which the first `marked` are a length. -/
structure HexLine where
  bytes : List UInt8
  marked : Nat
deriving DecidableEq

namespace HexLine

/-- A line without marked bytes. -/
def plain (bytes : List UInt8) : HexLine := ⟨bytes, 0⟩

/-- A terminal sequence: the escape character, a bracket, a number and the letter m. -/
def escape (number : List Char) : List Char := Char.ofNat 0x1b :: '[' :: number ++ ['m']

/-- Ends every emphasis. -/
def reset : List Char := escape ['0']

/-- Starts bold cyan, from whatever was before. -/
def emphasis : List Char := reset ++ escape ['1'] ++ escape ['3', '6']

/-- The digits of one byte, emphasised or not. -/
def showByte (emphasised : Bool) (byte : UInt8) : List Char :=
  if emphasised then emphasis ++ Hex.upper byte ++ reset else Hex.upper byte

/-- The texts of the bytes, of which the first `marked` are emphasised. -/
def showBytes (coloured : Bool) : Nat → List UInt8 → List (List Char)
  | _, [] => []
  | marked, byte :: rest =>
    showByte (coloured && decide (0 < marked)) byte :: showBytes coloured (marked - 1) rest

/-- The line with its end. -/
def text (coloured : Bool) (line : HexLine) : List Char :=
  [' '].intercalate (showBytes coloured line.marked line.bytes) ++ ['\n']

end HexLine
end WasmBinary
