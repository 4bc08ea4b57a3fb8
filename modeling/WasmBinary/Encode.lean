import WasmBinary.ByteTree.Frame
import WasmBinary.Symbol

/-! Values that can be written to a byte string.

`encode x out` is `out` with the encoding of `x` behind it. Integers are written in
LEB128, a list as its element count and then its elements, a string as a name and a
byte-tree as its framed leaves. -/
namespace WasmBinary

/-- A type whose values are written by appending. -/
class Encode (α : Type) where
  /-- The byte string with the encoding of a value behind it. -/
  encode : α → Bytes → Bytes

export Encode (encode)

/-- The encoding of a value on its own. -/
def encoding {α : Type} [Encode α] (x : α) : List UInt8 := (encode x #[]).toList

instance : Encode UInt32 where
  encode n out := out ++ (Varint.ofUInt32 n).toList

instance : Encode UInt64 where
  encode n out := out ++ (Varint.ofUInt64 n).toList

instance : Encode Int32 where
  encode n out := out ++ (Varint.ofInt32 n).toList

instance : Encode Int64 where
  encode n out := out ++ (Varint.ofInt64 n).toList

instance : Encode String where
  encode s out := out ++ frameName s

instance : Encode ByteTree where
  encode tree out := out ++ tree.frame

instance : Encode ValueType where
  encode type out := out.push (Symbol.code type)

/-- Appends the encodings of these values one after the other, without a count. -/
def encodeEach {α : Type} [Encode α] : List α → Bytes → Bytes
  | [], out => out
  | x :: xs, out => encodeEach xs (encode x out)

instance {α : Type} [Encode α] : Encode (List α) where
  encode xs out := encodeEach xs (out.writeCount xs.length)

end WasmBinary
