import WasmBinary.FunctionType
import WasmBinary.Module
import WasmBinary.Reader
import WasmBinary.Varint.Reader

/-! Values that can be read from a byte string.

For each type that is written there is a reader of what is written for it. It knows the
format and not the writer: an integer is accepted in any length, as long as its value is
one of the type. A byte-tree has no reader, since its nesting is not written; what can be
read is the string of its leaves (`readFrame`). A module is read to its end, section by
section (`decodeModule`). -/
namespace WasmBinary

/-- A type whose values are read from the front of a byte string. -/
class Decode (α : Type) where
  /-- Takes a value. -/
  decode : Reader α

export Decode (decode)

instance : Decode UInt32 where
  decode := do
    let n ← Varint.readUnsigned
    guard (n < UInt32.size)
    return UInt32.ofNat n

instance : Decode UInt64 where
  decode := do
    let n ← Varint.readUnsigned
    guard (n < UInt64.size)
    return UInt64.ofNat n

instance : Decode Int32 where
  decode := do
    let n ← Varint.readSigned
    guard (Int32.minValue.toInt ≤ n ∧ n ≤ Int32.maxValue.toInt)
    return Int32.ofInt n

instance : Decode Int64 where
  decode := do
    let n ← Varint.readSigned
    guard (Int64.minValue.toInt ≤ n ∧ n ≤ Int64.maxValue.toInt)
    return Int64.ofInt n

/-- Bytes behind their number. -/
def readFrame : Reader (List UInt8) := do
  Reader.bytes (← Varint.readUnsigned)

instance : Decode String where
  decode := do
    let bytes ← readFrame
    match String.fromUTF8? ⟨bytes.toArray⟩ with
    | some name => return name
    | none => failure

/-- The member of a table whose code is the next byte. -/
def readSymbol {α : Type} [Symbol α] : Reader α := do
  match Symbol.ofCode (← Reader.byte) with
  | .ok x => return x
  | .error _ => failure

instance : Decode ValueType where
  decode := readSymbol

/-- A list behind its element count, by a reader of its elements. -/
def readVector {α : Type} (read : Reader α) : Reader (List α) := do
  read.times (← Varint.readUnsigned)

instance {α : Type} [Decode α] : Decode (List α) where
  decode := readVector decode

instance : Decode FunctionType where
  decode := do
    guard ((← Reader.byte) = functionTypeTag)
    let params ← decode
    let results ← decode
    return .ofLists params results

/-! ### Modules -/

instance : Decode Section where
  decode := do
    let kind ← readSymbol
    let payload ← readFrame
    return ⟨kind, payload.toArray⟩

/-- The sections of a module, if the text is one. -/
def decodeModule (text : List UInt8) : Option (List Section) :=
  if text.take 8 = preamble.toList then (decode : Reader Section).toEnd (text.drop 8) else none

end WasmBinary
