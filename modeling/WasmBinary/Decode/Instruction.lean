import WasmBinary.Decode.Basic
import WasmBinary.Instruction

/-! Reading instructions.

The opcode tells which immediates follow. A block type is read as one signed integer: what
is not negative is a type index, and a negative one is the tag of a single byte. -/
namespace WasmBinary

/-- The block type that an integer stands for. -/
def BlockType.ofInt? (n : Int) : Option BlockType :=
  if 0 ≤ n then if n < UInt32.size then some (.typeIndex (UInt32.ofNat n.toNat)) else none
  else if n < -64 then none
  else
    let tag := UInt8.ofNat (n + 128).toNat
    if tag = emptyBlockTag then some .empty
    else
      match Symbol.ofCode tag with
      | .ok type => some (.result type)
      | .error _ => none

instance : Decode BlockType where
  decode := do
    match BlockType.ofInt? (← Varint.readSigned) with
    | some type => return type
    | none => failure

/-- The instruction of an opcode, with the immediates that are read for it. -/
def Instruction.readImmediates : Opcode → Reader Instruction
  | .unreachable => return .unreachable
  | .nop => return .nop
  | .block => return .block (← decode)
  | .loop => return .loop (← decode)
  | .ifThen => return .ifThen (← decode)
  | .otherwise => return .otherwise
  | .finish => return .finish
  | .br => return .br (← decode)
  | .brIf => return .brIf (← decode)
  | .brTable => return .brTable (← decode) (← decode)
  | .leave => return .leave
  | .call => return .call (← decode)
  | .callIndirect => return .callIndirect (← decode) (← decode)
  | .drop => return .drop
  | .select => return .select
  | .selectTyped => return .selectTyped (← decode)

instance : Decode Instruction where
  decode := do Instruction.readImmediates (← readSymbol)

end WasmBinary
