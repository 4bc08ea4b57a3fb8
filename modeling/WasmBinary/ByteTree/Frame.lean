import WasmBinary.ByteTree.Basic
import WasmBinary.Varint.Writer

/-! Length-prefixed byte vectors.

A vector is written as its element count and then its elements. Here the elements are
bytes: the leaves of a byte-tree, a flat byte string, or the UTF-8 of a name. -/
namespace WasmBinary

/-- Appends the signed encoding of a word, and tells how many bytes that took. -/
def Bytes.writeSigned (out : Bytes) (n : Int64) : Bytes × Nat :=
  let v := Varint.ofInt64 n
  (out ++ v.toList, v.length)

/-- Appends the unsigned encoding of a word, and tells how many bytes that took. -/
def Bytes.writeUnsigned (out : Bytes) (n : UInt64) : Bytes × Nat :=
  let v := Varint.ofUInt64 n
  (out ++ v.toList, v.length)

def Bytes.writeCount (out : Bytes) (count : Nat) : Bytes :=
  (out.writeUnsigned (UInt64.ofNat count)).1

/-- A flat byte string behind its length. -/
def Bytes.frame (bytes : Bytes) : Bytes := Bytes.writeCount #[] bytes.size ++ bytes

/-- A name: the length of its UTF-8 and then the UTF-8. -/
def frameName (name : String) : Bytes := Bytes.frame name.toUTF8.data

namespace ByteTree

/-- The leaves of a tree behind their number. -/
def frame (tree : ByteTree) : Bytes := tree.flattenInto (Bytes.writeCount #[] tree.leafCount)

/-- The leaves of a tree behind their number, unless it nests deeper than `limit`. -/
def frameWithin (tree : ByteTree) (limit : Nat) : Except EncodingError Bytes := do
  let leaves ← tree.flattenWithin limit limit #[]
  return Bytes.frame leaves

end ByteTree
end WasmBinary
