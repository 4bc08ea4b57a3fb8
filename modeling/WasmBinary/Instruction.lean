import WasmBinary.Encode
import WasmBinary.Varint.Width

/-! Control instructions.

An instruction is written as its opcode and then its immediates. Indices and labels are
unsigned integers, a label vector carries its count, and a block type is one signed
integer: the tags of the empty type and of the value types are the negative ones of a
single byte, and a type index is never negative. -/
namespace WasmBinary

/-- What a block takes and leaves. -/
inductive BlockType where
  /-- Nothing. -/
  | empty
  /-- One value. -/
  | result (type : ValueType)
  /-- As the function type of this index says. -/
  | typeIndex (index : UInt32)
deriving DecidableEq

instance : Encode BlockType where
  encode
    | .empty, out => out.push emptyBlockTag
    | .result type, out => encode type out
    | .typeIndex index, out => out ++ (Varint.ofTypeIndex index).toList

inductive Instruction where
  | unreachable
  | nop
  | block (type : BlockType)
  | loop (type : BlockType)
  | ifThen (type : BlockType)
  | otherwise
  | finish
  | br (label : UInt32)
  | brIf (label : UInt32)
  | brTable (labels : List UInt32) (fallback : UInt32)
  | leave
  | call (function : UInt32)
  | callIndirect (type table : UInt32)
  | drop
  | select
  | selectTyped (types : List ValueType)
deriving DecidableEq

namespace Instruction

def opcode : Instruction → Opcode
  | unreachable => .unreachable
  | nop => .nop
  | block _ => .block
  | loop _ => .loop
  | ifThen _ => .ifThen
  | otherwise => .otherwise
  | finish => .finish
  | br _ => .br
  | brIf _ => .brIf
  | brTable _ _ => .brTable
  | leave => .leave
  | call _ => .call
  | callIndirect _ _ => .callIndirect
  | drop => .drop
  | select => .select
  | selectTyped _ => .selectTyped

/-- Appends what follows the opcode. -/
def encodeImmediates : Instruction → Bytes → Bytes
  | block type, out | loop type, out | ifThen type, out => encode type out
  | br label, out | brIf label, out => encode label out
  | brTable labels fallback, out => encode fallback (encode labels out)
  | call function, out => encode function out
  | callIndirect type table, out => encode table (encode type out)
  | selectTyped types, out => encode types out
  | unreachable, out | nop, out | otherwise, out | finish, out | leave, out | drop, out
  | select, out => out

end Instruction

instance : Encode Instruction where
  encode i out := i.encodeImmediates (out.push (Symbol.code i.opcode))

end WasmBinary
