import WasmBinary.Error

/-! Closed tables of names and codes.

Section kinds, control opcodes and value types are closed sets. Each member has a name,
matched exactly, and the byte that is written for it. A table is given once, by its
entries in code order, and searched in both directions. -/
namespace WasmBinary

/-- A closed set whose members have a name and a code. -/
class Symbol (α : Type) where
  /-- What the table is called in a refusal. -/
  table : String
  /-- The members in code order. -/
  all : List α
  name : α → String
  code : α → UInt8

namespace Symbol
variable {α : Type} [Symbol α]

def ofName (name : String) : Except EncodingError α :=
  match (all : List α).find? (fun x => Symbol.name x == name) with
  | some x => .ok x
  | none => .error (.unknownName (table α) name)

def ofCode (code : UInt8) : Except EncodingError α :=
  match (all : List α).find? (fun x => Symbol.code x == code) with
  | some x => .ok x
  | none => .error (.unknownCode (table α) code)

/-- Members are ordered by their codes. -/
def compare (a b : α) : Ordering := Ord.compare (code a) (code b)

end Symbol

/-! ### Section kinds -/

inductive SectionKind where
  | custom | types | imports | functions | tables | memories | globals
  | exports | start | elements | code | data | dataCount
deriving DecidableEq

instance : Symbol SectionKind where
  table := "section"
  all := [.custom, .types, .imports, .functions, .tables, .memories, .globals, .exports, .start,
    .elements, .code, .data, .dataCount]
  name
    | .custom => "Custom"
    | .types => "Type"
    | .imports => "Import"
    | .functions => "Function"
    | .tables => "Table"
    | .memories => "Memory"
    | .globals => "Global"
    | .exports => "Export"
    | .start => "Start"
    | .elements => "Element"
    | .code => "Code"
    | .data => "Data"
    | .dataCount => "DataCount"
  code
    | .custom => 0
    | .types => 1
    | .imports => 2
    | .functions => 3
    | .tables => 4
    | .memories => 5
    | .globals => 6
    | .exports => 7
    | .start => 8
    | .elements => 9
    | .code => 10
    | .data => 11
    | .dataCount => 12

/-! ### Control opcodes -/

/-- The opcodes of the control instructions and of `drop` and `select`. -/
inductive Opcode where
  | unreachable | nop | block | loop | ifThen | otherwise | finish
  | br | brIf | brTable | leave | call | callIndirect | drop | select | selectTyped
deriving DecidableEq

instance : Symbol Opcode where
  table := "opcode"
  all := [.unreachable, .nop, .block, .loop, .ifThen, .otherwise, .finish, .br, .brIf, .brTable,
    .leave, .call, .callIndirect, .drop, .select, .selectTyped]
  name
    | .unreachable => "Unreachable"
    | .nop => "Nop"
    | .block => "Block"
    | .loop => "Loop"
    | .ifThen => "If"
    | .otherwise => "Else"
    | .finish => "End"
    | .br => "Br"
    | .brIf => "BrIf"
    | .brTable => "BrTable"
    | .leave => "Return"
    | .call => "Call"
    | .callIndirect => "CallIndirect"
    | .drop => "Drop"
    | .select => "Select"
    | .selectTyped => "SelectT"
  code
    | .unreachable => 0x00
    | .nop => 0x01
    | .block => 0x02
    | .loop => 0x03
    | .ifThen => 0x04
    | .otherwise => 0x05
    | .finish => 0x0b
    | .br => 0x0c
    | .brIf => 0x0d
    | .brTable => 0x0e
    | .leave => 0x0f
    | .call => 0x10
    | .callIndirect => 0x11
    | .drop => 0x1a
    | .select => 0x1b
    | .selectTyped => 0x1c

/-! ### Value types -/

inductive ValueType where
  | externRef | funcRef | v128 | f64 | f32 | i64 | i32
deriving DecidableEq

instance : Symbol ValueType where
  table := "value type"
  all := [.externRef, .funcRef, .v128, .f64, .f32, .i64, .i32]
  name
    | .externRef => "ExternRef"
    | .funcRef => "FuncRef"
    | .v128 => "V128"
    | .f64 => "F64"
    | .f32 => "F32"
    | .i64 => "I64"
    | .i32 => "I32"
  code
    | .externRef => 0x6f
    | .funcRef => 0x70
    | .v128 => 0x7b
    | .f64 => 0x7c
    | .f32 => 0x7d
    | .i64 => 0x7e
    | .i32 => 0x7f

/-- The byte in front of a function type. -/
def functionTypeTag : UInt8 := 0x60

/-- The block type of a block without values. -/
def emptyBlockTag : UInt8 := 0x40

end WasmBinary
