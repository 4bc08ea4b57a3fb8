import WasmBinary.Decode.Instruction
import WasmBinary.Proofs.Decode

/-! Instruction streams.

A reader of instructions knows the opcodes and what follows each of them. It recovers every
instruction from its encoding, whatever stands behind: a block type is one signed integer,
negative unless it is a type index (`block_types_apart`), and the other immediates are indices
and vectors, which tell themselves where they end. So a stream of instructions is read in one
way only (`instructions_unique`). -/
namespace WasmBinary
open Reader Varint

/-! ### Block types -/

/-- The integer that a block type is written as. -/
def BlockType.toInt : BlockType → Int
  | .empty => -64
  | .result type => (Symbol.code type).toNat - 128
  | .typeIndex index => index.toNat

theorem ofTypeIndex_eq (index : UInt32) : ofTypeIndex index = ofInt64 index.toUInt64.toInt64 := by
  have checked := ofInt33_index index
  rw [ofInt33, if_pos (fitsSigned_index index)] at checked
  exact (Except.ok.inj checked).symm

theorem toInt_index (index : UInt32) : index.toUInt64.toInt64.toInt = index.toNat := by
  have small := index.toNat_lt
  have wrap := Int.bmod_def (index.toNat : Int) UInt64.size
  rw [toInt_eq_toNat_bmod]
  show (index.toNat : Int).bmod UInt64.size = index.toNat
  rw [wrap]
  simp only [UInt64.size]
  omega

/-- The code of a value type is a single last byte with the sign bit, and not the empty tag. -/
theorem code_valueType_range (type : ValueType) :
    64 < (Symbol.code type).toNat ∧ (Symbol.code type).toNat < 128 := by
  cases type <;> decide

/-- A single byte with the sign bit is the encoding of a negative integer. -/
theorem signedGroups_tag (tag : UInt8) (sign : 64 ≤ tag.toNat) (ends : tag.toNat < 128) :
    signedGroups (tag.toNat - 128) = [tag] := by
  have group : lowGroup (tag.toNat - 128) = tag := lowGroup_eq ends (by omega)
  rw [signedGroups_last (by omega), group]

theorem encoding_blockType (type : BlockType) : encoding type = signedGroups type.toInt := by
  cases type with
  | empty => exact (signedGroups_tag emptyBlockTag (by decide) (by decide)).symm
  | result type =>
    obtain ⟨sign, ends⟩ := code_valueType_range type
    exact (signedGroups_tag (Symbol.code type) (Nat.le_of_lt sign) ends).symm
  | typeIndex index =>
    rw [BlockType.toInt, ← toInt_index, ← toList_ofInt64, ← ofTypeIndex_eq]
    simp [encoding, encode]

theorem ofInt?_toInt (type : BlockType) : BlockType.ofInt? type.toInt = some type := by
  cases type with
  | empty => rfl
  | result type => cases type <;> decide
  | typeIndex index =>
    have small := index.toNat_lt
    rw [BlockType.toInt, BlockType.ofInt?, if_pos (by omega), if_pos (by simp only [UInt32.size]; omega)]
    simp

/-- No two block types are written as the same integer. -/
theorem BlockType.toInt_injective : Function.Injective BlockType.toInt := by
  intro s t same
  have back := ofInt?_toInt s
  rw [same, ofInt?_toInt] at back
  exact (Option.some.inj back).symm

theorem BlockType.toInt_result_range (type : ValueType) :
    -64 < (BlockType.result type).toInt ∧ (BlockType.result type).toInt < 0 := by
  obtain ⟨sign, ends⟩ := code_valueType_range type
  rw [BlockType.toInt]
  omega

theorem BlockType.toInt_nonneg_iff (type : BlockType) :
    0 ≤ type.toInt ↔ ∃ index, type = .typeIndex index := by
  cases type with
  | empty => simp [BlockType.toInt]
  | result type => simp [BlockType.toInt_result_range type]
  | typeIndex index => simp [BlockType.toInt]

theorem BlockType.le_toInt (type : BlockType) : -64 ≤ type.toInt := by
  cases type with
  | empty => exact Int.le_refl (-64)
  | result type => exact Int.le_of_lt (BlockType.toInt_result_range type).1
  | typeIndex index => simp [BlockType.toInt]

theorem tag_iff (b : UInt8) : 0x40 ≤ b ∧ b ≤ 0x7f ↔ 64 ≤ b.toNat ∧ b.toNat < 128 := by
  simp [UInt8.le_iff_toNat_le]
  omega

/-- The bytes of an integer start with a tag when it is a negative one of a single byte, and
only then. -/
theorem head_signedGroups (n : Int) :
    ∃ b tail, signedGroups n = b :: tail ∧ (0x40 ≤ b ∧ b ≤ 0x7f ↔ -64 ≤ n ∧ n < 0) := by
  have low := lowGroup_toNat n
  have goesOn := goesOn_toNat n
  by_cases small : -64 ≤ n ∧ n < 64
  · refine ⟨lowGroup n, [], signedGroups_last small, ?_⟩
    rw [tag_iff]
    omega
  · refine ⟨lowGroup n ||| continuation, signedGroups (n / 128), signedGroups_more small, ?_⟩
    rw [tag_iff]
    omega

/-- **A type index is never taken for another block type.** A block type is read as one signed
integer that ends where its encoding ends, whatever stands behind. A type index is read as itself,
all the others are negative, and no two block types are read as the same integer. So the first byte
alone tells: it is a tag unless the block type is a type index. -/
theorem block_types_apart :
    (∀ (type : BlockType) (rest : List UInt8),
      readSigned.run (encoding type ++ rest) = some (type.toInt, rest)) ∧
    (∀ index : UInt32, (BlockType.typeIndex index).toInt = index.toNat) ∧
    (∀ type : BlockType, type.toInt < 0 ↔ ¬∃ index, type = .typeIndex index) ∧
    (∀ s t : BlockType, s.toInt = t.toInt → s = t) ∧
    (∀ type : BlockType, ∃ b tail, encoding type = b :: tail ∧
      (0x40 ≤ b ∧ b ≤ 0x7f ↔ ¬∃ index, type = .typeIndex index)) := by
  have negative (type : BlockType) : type.toInt < 0 ↔ ¬∃ index, type = .typeIndex index := by
    rw [← BlockType.toInt_nonneg_iff, Int.not_le]
  have apart (s t : BlockType) (same : s.toInt = t.toInt) : s = t := BlockType.toInt_injective same
  refine ⟨fun type => ?_, fun index => rfl, negative, apart, fun type => ?_⟩
  · rw [encoding_blockType]
    exact takes_signedGroups type.toInt
  · obtain ⟨b, tail, bytes, tag⟩ := head_signedGroups type.toInt
    refine ⟨b, tail, by rw [encoding_blockType, bytes], ?_⟩
    rw [tag, ← negative]
    exact and_iff_right type.le_toInt

theorem recovers_blockType : Recovers (decode : Reader BlockType) encoding := by
  intro type rest
  rw [encoding_blockType]
  refine Takes.thenReturn (takes_signedGroups type.toInt) ?_ rest
  rw [ofInt?_toInt]
  exact .pure type

instance : LawfulEncode BlockType where
  toList_encode type out := by
    cases type with
    | empty => simp [encoding, encode]
    | result type => exact toList_encode type out
    | typeIndex index => simp [encoding, encode]

/-! ### Instructions -/

namespace Instruction

/-- The number of elements of the vector among the immediates; none when there is no vector. -/
def vectorLength : Instruction → Nat
  | brTable labels _ => labels.length
  | selectTyped types => types.length
  | _ => 0

/-- What follows the opcode, on its own. -/
def immediates (i : Instruction) : List UInt8 := (i.encodeImmediates #[]).toList

theorem toList_encodeImmediates (i : Instruction) (out : Bytes) :
    (i.encodeImmediates out).toList = out.toList ++ i.immediates := by
  cases i <;> simp [encodeImmediates, immediates, toList_encode]

end Instruction

theorem encoding_instruction (i : Instruction) : encoding i = Symbol.code i.opcode :: i.immediates := by
  simp [encoding, encode, i.toList_encodeImmediates]

instance : LawfulEncode Instruction where
  toList_encode i out := by simp [encoding_instruction, encode, i.toList_encodeImmediates]

/-- What follows an opcode is read back as the immediates of its instruction. -/
theorem takes_immediates (i : Instruction) (countable : i.vectorLength < 2 ^ 64) :
    Takes (Instruction.readImmediates i.opcode) i.immediates i := by
  cases i with
  | unreachable | nop | otherwise | finish | leave | drop | select => exact .pure _
  | block type | loop type | ifThen type => exact (recovers_blockType.takes type).thenReturn (.pure _)
  | br index | brIf index | call index => exact (recovers_uint32.takes index).thenReturn (.pure _)
  | brTable labels fallback =>
    have written : (Instruction.brTable labels fallback).immediates = encoding labels ++ encoding fallback :=
      toList_encode fallback (encode labels #[])
    have vector := takes_vector countable fun label _ => recovers_uint32.takes label
    rw [written]
    exact vector.bind ((recovers_uint32.takes fallback).thenReturn (.pure _))
  | callIndirect type table =>
    have written : (Instruction.callIndirect type table).immediates = encoding type ++ encoding table :=
      toList_encode table (encode type #[])
    rw [written]
    exact (recovers_uint32.takes type).bind ((recovers_uint32.takes table).thenReturn (.pure _))
  | selectTyped types =>
    have vector := takes_vector countable fun type _ => recovers_valueType.takes type
    exact vector.thenReturn (.pure _)

/-- An instruction is read back from its encoding. -/
theorem takes_instruction (i : Instruction) (countable : i.vectorLength < 2 ^ 64) :
    Takes decode (encoding i) i := by
  rw [encoding_instruction]
  exact (takes_symbol i.opcode).bind (takes_immediates i countable)

/-! ### Streams -/

/-- **A stream of instructions is read in one way only.** As many instructions as were written
are read back, whatever stands behind them. No encoding is the beginning of another one, and
a stream's bytes alone, without the number of its instructions, tell which stream it is. -/
theorem instructions_unique :
    (∀ (is : List Instruction) (rest : List UInt8), (∀ i ∈ is, i.vectorLength < 2 ^ 64) →
      ((decode : Reader Instruction).times is.length).run (is.flatMap encoding ++ rest) = some (is, rest)) ∧
    (∀ i j : Instruction, i.vectorLength < 2 ^ 64 → j.vectorLength < 2 ^ 64 →
      encoding i <+: encoding j → i = j) ∧
    (∀ is js : List Instruction,
      (∀ i ∈ is, i.vectorLength < 2 ^ 64) → (∀ j ∈ js, j.vectorLength < 2 ^ 64) →
      is.flatMap encoding = js.flatMap encoding → is = js) := by
  refine ⟨fun is rest countable => ?_, fun i j hi hj begins => ?_, fun is js his hjs same => ?_⟩
  · exact Takes.times (fun i hi => takes_instruction i (countable i hi)) rest
  · obtain ⟨rest, whole⟩ := begins
    rw [← List.append_nil (encoding j)] at whole
    exact ((takes_instruction i hi).unique (takes_instruction j hj) whole).1
  · have nonempty (i : Instruction) : encoding i ≠ [] := by
      rw [encoding_instruction]
      exact List.cons_ne_nil _ _
    exact eq_of_flatMap_eq (fun i hi => takes_instruction i (his i hi))
      (fun j hj => takes_instruction j (hjs j hj)) nonempty same

/-- A block type of two bytes, a label vector in front of a label, and a type vector. -/
theorem instructions_unique_mixed :
    (∀ i ∈ [.block (.typeIndex 64), .brTable [0, 300] 7, .selectTyped [.i32], .finish],
      Instruction.vectorLength i < 2 ^ 64) ∧
    ((decode : Reader Instruction).times 4).run
      ([.block (.typeIndex 64), .brTable [0, 300] 7, .selectTyped [.i32], Instruction.finish].flatMap
        encoding ++ [0x40]) =
      some ([.block (.typeIndex 64), .brTable [0, 300] 7, .selectTyped [.i32], .finish], [0x40]) :=
  ⟨by decide, instructions_unique.1
    [.block (.typeIndex 64), .brTable [0, 300] 7, .selectTyped [.i32], .finish] [0x40] (by decide)⟩

end WasmBinary
