import WasmBinary.Encode
import WasmBinary.Proofs.Varint.Groups

/-! What is appended.

To encode a value is to append: what stands in the byte string stays, and what is put behind
it is the same bytes whatever stands there (`LawfulEncode`). So values that are written one
after the other leave their encodings one after the other, and a list leaves those of its
elements behind their number (`encoding_list`). -/
namespace WasmBinary
open Varint

/-- Encoding a value appends the same bytes to every byte string. -/
class LawfulEncode (α : Type) [Encode α] : Prop where
  toList_encode : ∀ (x : α) (out : Bytes), (encode x out).toList = out.toList ++ encoding x

export LawfulEncode (toList_encode)

/-! ### Single values -/

instance : LawfulEncode UInt32 where
  toList_encode n out := by simp [encoding, encode]

theorem encoding_uint32 (n : UInt32) : encoding n = unsignedGroups n.toNat := by
  rw [← toList_ofUInt32]
  simp [encoding, encode]

instance : LawfulEncode UInt64 where
  toList_encode n out := by simp [encoding, encode]

theorem encoding_uint64 (n : UInt64) : encoding n = unsignedGroups n.toNat := by
  rw [← toList_ofUInt64]
  simp [encoding, encode]

instance : LawfulEncode Int32 where
  toList_encode n out := by simp [encoding, encode]

theorem encoding_int32 (n : Int32) : encoding n = signedGroups n.toInt := by
  rw [← toList_ofInt32]
  simp [encoding, encode]

instance : LawfulEncode Int64 where
  toList_encode n out := by simp [encoding, encode]

theorem encoding_int64 (n : Int64) : encoding n = signedGroups n.toInt := by
  rw [← toList_ofInt64]
  simp [encoding, encode]

instance : LawfulEncode String where
  toList_encode s out := by simp [encoding, encode]

theorem encoding_string (s : String) : encoding s = (Bytes.frame s.toUTF8.data).toList := by
  simp [encoding, encode, frameName]

instance : LawfulEncode ByteTree where
  toList_encode tree out := by simp [encoding, encode]

theorem encoding_byteTree (tree : ByteTree) : encoding tree = tree.frame.toList := by
  simp [encoding, encode]

instance : LawfulEncode ValueType where
  toList_encode type out := by simp [encoding, encode]

theorem encoding_valueType (type : ValueType) : encoding type = [Symbol.code type] := rfl

/-! ### Lists -/

theorem toList_writeCount (out : Bytes) (count : Nat) :
    (out.writeCount count).toList = out.toList ++ unsignedGroups (count % 2 ^ 64) := by
  simp only [Bytes.writeCount, Bytes.writeUnsigned, toList_ofUInt64, UInt64.toNat_ofNat',
    Array.toList_appendList]

variable {α : Type} [Encode α] [LawfulEncode α]

theorem toList_encodeEach (xs : List α) (out : Bytes) :
    (encodeEach xs out).toList = out.toList ++ xs.flatMap encoding := by
  induction xs generalizing out with
  | nil => simp [encodeEach]
  | cons x xs ih => rw [encodeEach, ih, toList_encode, List.flatMap_cons, List.append_assoc]

instance : LawfulEncode (List α) where
  toList_encode xs out := by
    simp only [encoding, encode, toList_encodeEach, toList_writeCount, List.nil_append, List.append_assoc]

/-- A list is its element count, as far as a word holds it, and then its elements. -/
theorem encoding_list (xs : List α) :
    encoding xs = unsignedGroups (xs.length % 2 ^ 64) ++ xs.flatMap encoding := by
  simp only [encoding, encode, toList_encodeEach, toList_writeCount, List.nil_append]

end WasmBinary
