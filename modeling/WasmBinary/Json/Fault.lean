/-! What can be wrong with a JSON text, and where.

A fault lies at a byte, or at the end of a text that stops too early. Its place is given
by the bytes that are still unread when it is noticed: those behind the offending byte.
Lines are counted from 1 and columns in bytes, so the column of a place is the number of
bytes between the last line feed and it. -/
namespace WasmBinary.Json

inductive Fault where
  | endInValue
  | endInList
  | endInObject
  | endInString
  | expectedValue
  | expectedWord
  | expectedListEnd
  | expectedObjectEnd
  | expectedColon
  | trailingComma
  | keyNotString
  | trailingCharacters
  | invalidNumber
  | numberOutOfRange
  | controlCharacter
  | invalidEscape
  | loneSurrogate
  | unpairedSurrogate
  | tooDeep
deriving DecidableEq

namespace Fault

def message : Fault → String
  | endInValue => "EOF while parsing a value"
  | endInList => "EOF while parsing a list"
  | endInObject => "EOF while parsing an object"
  | endInString => "EOF while parsing a string"
  | expectedValue => "expected value"
  | expectedWord => "expected ident"
  | expectedListEnd => "expected `,` or `]`"
  | expectedObjectEnd => "expected `,` or `\x7d`"
  | expectedColon => "expected `:`"
  | trailingComma => "trailing comma"
  | keyNotString => "key must be a string"
  | trailingCharacters => "trailing characters"
  | invalidNumber => "invalid number"
  | numberOutOfRange => "number out of range"
  | controlCharacter => "control character (\\u0000-\\u001F) found while parsing a string"
  | invalidEscape => "invalid escape"
  | loneSurrogate => "lone leading surrogate in hex escape"
  | unpairedSurrogate => "unexpected end of hex escape"
  | tooDeep => "recursion limit exceeded"

/-- The text stops too early, rather than holding something wrong. -/
def isEnd : Fault → Bool
  | endInValue | endInList | endInObject | endInString => true
  | _ => false

end Fault

/-- A fault and the bytes that were not read when it was noticed. -/
structure Stop where
  fault : Fault
  unread : List UInt8
deriving DecidableEq

structure Position where
  line : Nat
  column : Nat
deriving DecidableEq

/-- The place behind these bytes. -/
def Position.after (read : List UInt8) : Position where
  line := 1 + read.count 0x0a
  column := (read.reverse.takeWhile (· != 0x0a)).length

/-- Why a text is not the text of a byte-tree. -/
inductive Error where
  /-- It is no JSON text. -/
  | malformed (fault : Fault) (position : Position)
  /-- It is the text of some other value. -/
  | notTree
deriving DecidableEq

def Error.message : Error → String
  | malformed fault p => s!"{fault.message} at line {p.line} column {p.column}"
  | notTree => "a byte or a nested array of bytes"

def Stop.error (text : List UInt8) (stop : Stop) : Error :=
  .malformed stop.fault (.after (text.take (text.length - stop.unread.length)))

end WasmBinary.Json
