import WasmBinary.Hex

/-! What an encoder or a look-up can refuse.

Each refusal carries the value that was refused, and `message` is the one place where it
is put into words. -/
namespace WasmBinary

/-- How the width of an integer is read. -/
inductive Signedness where
  /-- In two's complement. -/
  | signed
  /-- In plain binary. -/
  | unsigned
deriving DecidableEq

def Signedness.name : Signedness → String
  | signed => "signed"
  | unsigned => "unsigned"

/-- A value that has no encoding, or a symbol that has no entry. -/
inductive EncodingError where
  /-- The integer needs more than the bits it was given. -/
  | outOfRange (value : Int) (bits : Nat) (signedness : Signedness)
  /-- No integer type has this many bits. -/
  | invalidWidth (bits : Nat)
  /-- A byte-tree nests deeper than allowed. -/
  | tooDeep (limit : Nat)
  /-- The table has no entry of this name. -/
  | unknownName (table name : String)
  /-- The table has no entry with this code. -/
  | unknownCode (table : String) (code : UInt8)
deriving DecidableEq

def EncodingError.message : EncodingError → String
  | outOfRange value bits signedness =>
    s!"{value} does not fit in {bits} bits ({signedness.name})"
  | invalidWidth bits => s!"invalid integer width {bits}, expected 1 through 64"
  | tooDeep limit => s!"byte-tree nesting exceeds the limit of {limit}"
  | unknownName table name => s!"unknown {table} name `{name}`"
  | unknownCode table code => s!"unknown {table} code 0x{String.ofList (Hex.lower code)}"

end WasmBinary
