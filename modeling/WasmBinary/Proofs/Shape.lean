import WasmBinary.Proofs.FunctionType
import WasmBinary.Proofs.Instruction

/-! Lists of lists.

A list counts its elements, a string and a byte-tree count their bytes, and lists of any of
these lie in lists again. A `Shape` says what is nested in what. The reader of a list is made
of that of its elements, so a value of any shape is read back from its encoding
(`lists_recovered`), a byte-tree as the string of its leaves. -/
namespace WasmBinary
open Reader Varint

/-- A type of values that are written: a single one, or the lists of a type. -/
inductive Shape where
  | uint32 | uint64 | int32 | int64 | string | byteTree
  | valueType | blockType | functionType | instruction
  | list (item : Shape)

namespace Shape

/-- The values of a shape. -/
def Value : Shape → Type
  | uint32 => UInt32
  | uint64 => UInt64
  | int32 => Int32
  | int64 => Int64
  | string => String
  | byteTree => ByteTree
  | valueType => ValueType
  | blockType => BlockType
  | functionType => FunctionType
  | instruction => Instruction
  | list item => List item.Value

instance encodeValue : (s : Shape) → Encode s.Value
  | uint32 => inferInstanceAs (Encode UInt32)
  | uint64 => inferInstanceAs (Encode UInt64)
  | int32 => inferInstanceAs (Encode Int32)
  | int64 => inferInstanceAs (Encode Int64)
  | string => inferInstanceAs (Encode String)
  | byteTree => inferInstanceAs (Encode ByteTree)
  | valueType => inferInstanceAs (Encode ValueType)
  | blockType => inferInstanceAs (Encode BlockType)
  | functionType => inferInstanceAs (Encode FunctionType)
  | instruction => inferInstanceAs (Encode Instruction)
  | list item =>
    haveI := encodeValue item
    inferInstanceAs (Encode (List item.Value))

/-- Encoding a value of any shape appends. -/
instance lawfulEncodeValue : (s : Shape) → LawfulEncode s.Value
  | uint32 => inferInstanceAs (LawfulEncode UInt32)
  | uint64 => inferInstanceAs (LawfulEncode UInt64)
  | int32 => inferInstanceAs (LawfulEncode Int32)
  | int64 => inferInstanceAs (LawfulEncode Int64)
  | string => inferInstanceAs (LawfulEncode String)
  | byteTree => inferInstanceAs (LawfulEncode ByteTree)
  | valueType => inferInstanceAs (LawfulEncode ValueType)
  | blockType => inferInstanceAs (LawfulEncode BlockType)
  | functionType => inferInstanceAs (LawfulEncode FunctionType)
  | instruction => inferInstanceAs (LawfulEncode Instruction)
  | list item =>
    haveI := lawfulEncodeValue item
    inferInstanceAs (LawfulEncode (List item.Value))

/-- Every number that is written in front of a part of a value has room in a word. -/
def Fits : (s : Shape) → s.Value → Prop
  | uint32, _ | uint64, _ | int32, _ | int64, _ | valueType, _ | blockType, _ => True
  | string, (text : String) => text.utf8ByteSize < 2 ^ 64
  | byteTree, (tree : ByteTree) => tree.leafCount < 2 ^ 64
  | functionType, (f : FunctionType) => f.params.length < 2 ^ 64 ∧ f.results.length < 2 ^ 64
  | instruction, (i : Instruction) => i.vectorLength < 2 ^ 64
  | list item, (xs : List item.Value) => xs.length < 2 ^ 64 ∧ ∀ x ∈ xs, item.Fits x

/-- There is no byte-tree in it, whose nesting is not written. -/
def Exact : Shape → Prop
  | byteTree => False
  | list item => item.Exact
  | _ => True

/-- The reader of a shape: a count and then as many elements, down to the single values. -/
def reader : (s : Shape) → s.Exact → Reader s.Value
  | uint32, _ => (decode : Reader UInt32)
  | uint64, _ => (decode : Reader UInt64)
  | int32, _ => (decode : Reader Int32)
  | int64, _ => (decode : Reader Int64)
  | string, _ => (decode : Reader String)
  | byteTree, exact => exact.elim
  | valueType, _ => (decode : Reader ValueType)
  | blockType, _ => (decode : Reader BlockType)
  | functionType, _ => (decode : Reader FunctionType)
  | instruction, _ => (decode : Reader Instruction)
  | list item, exact => readVector (item.reader exact)

/-- A value is read back from its encoding when it has no byte-tree in it. -/
theorem takes_value (s : Shape) (exact : s.Exact) (x : s.Value) (fits : s.Fits x) :
    Takes (s.reader exact) (encoding x) x := by
  induction s with
  | uint32 => exact recovers_uint32.takes x
  | uint64 => exact recovers_uint64.takes x
  | int32 => exact recovers_int32.takes x
  | int64 => exact recovers_int64.takes x
  | string => exact takes_string fits
  | byteTree => exact exact.elim
  | valueType => exact recovers_valueType.takes x
  | blockType => exact recovers_blockType.takes x
  | functionType => exact takes_functionType fits.1 fits.2
  | instruction => exact takes_instruction x fits
  | list item ih => exact takes_vector fits.1 fun y mem => ih exact y (fits.2 y mem)

end Shape

/-- Of the byte-trees in a list the leaves are read back. -/
theorem takes_byteTrees {trees : List ByteTree} (countable : trees.length < 2 ^ 64)
    (each : ∀ tree ∈ trees, tree.leafCount < 2 ^ 64) :
    Takes (readVector readFrame) (encoding trees) (trees.map fun tree => tree.flatten.toList) := by
  have leaves : ∀ tree ∈ trees, Legible readFrame tree tree.flatten.toList := by
    intro tree mem
    rw [legible_iff, encoding_byteTree]
    exact ByteTree.takes_leaves (each tree mem)
  exact (legible_list countable leaves).takes

/-- **A list is read back when its elements are**, whatever type they are of and however they
are read, and so is everything that is nested in lists. For the types of this library the
readers know the format only: what is read back is the value. A string has the size of its
UTF-8 in front, and of a byte-tree the leaves are told. -/
theorem lists_recovered :
    (∀ (α : Type) [Encode α] (read : Reader α) (xs : List α), xs.length < 2 ^ 64 →
      (∀ x ∈ xs, Legible read x x) → Legible (readVector read) xs xs ∧
        ∀ rest, (readVector read).run (encoding xs ++ rest) = some (xs, rest)) ∧
    (∀ (s : Shape) (exact : s.Exact) (x : s.Value), s.Fits x →
      ∀ rest, (s.reader exact).run (encoding x ++ rest) = some (x, rest)) ∧
    (∀ text : String, encoding text =
      (ofUInt64 (UInt64.ofNat text.utf8ByteSize)).toList ++ text.toUTF8.data.toList) ∧
    (∀ trees : List ByteTree, trees.length < 2 ^ 64 → (∀ tree ∈ trees, tree.leafCount < 2 ^ 64) →
      ∀ rest, (readVector readFrame).run (encoding trees ++ rest) =
        some (trees.map fun tree => tree.flatten.toList, rest)) := by
  refine ⟨fun α _ read xs countable each => ?_, fun s exact x fits => s.takes_value exact x fits,
    fun text => ?_, fun trees countable each => takes_byteTrees countable each⟩
  · have list := legible_list_self countable each
    exact ⟨list, list.takes⟩
  · rw [encoding_string, toList_frame, toList_ofUInt64, UInt64.toNat_ofNat']
    rfl

/-- Numbers of one and two bytes, a list of lists of them, one of these empty, and a list of
nested and empty byte-trees. -/
theorem lists_recovered_nested :
    (readVector (decode : Reader UInt32)).run (encoding [300, (1 : UInt32)] ++ [0xff]) =
        some ([300, 1], [0xff]) ∧
      (Shape.list (.list .uint32)).Fits ([[300, 1], []] : List (List UInt32)) ∧
      (decode : Reader (List (List UInt32))).run (encoding [[300, 1], ([] : List UInt32)] ++ [0xff]) =
        some ([[300, 1], []], [0xff]) ∧
      (readVector readFrame).run (encoding [.seq [.seq [.byte 7]], ByteTree.seq []] ++ [0xff]) =
        some ([[7], []], [0xff]) :=
  have each : ∀ x ∈ [300, (1 : UInt32)], Legible decode x x := fun x _ => legible_iff.2 (recovers_uint32.takes x)
  have fits : (Shape.list (.list .uint32)).Fits ([[300, 1], []] : List (List UInt32)) := by
    show List.length [[300, 1], ([] : List UInt32)] < 2 ^ 64 ∧
      ∀ xs ∈ [[300, 1], ([] : List UInt32)], xs.length < 2 ^ 64 ∧ ∀ x ∈ xs, True
    simp
  ⟨(lists_recovered.1 UInt32 decode [300, 1] (by decide) each).2 [0xff], fits,
    lists_recovered.2.1 (.list (.list .uint32)) trivial _ fits [0xff],
    lists_recovered.2.2.2 [.seq [.seq [.byte 7]], .seq []] (by decide) (by decide) [0xff]⟩

end WasmBinary
