import WasmBinary.Encode

/-! Modules.

A module is the preamble and then its sections, each as the code of its kind and its
payload behind the payload's length. -/
namespace WasmBinary

/-- The four bytes every module starts with. -/
def magic : Bytes := #[0x00, 0x61, 0x73, 0x6d]

/-- The version of the format, lowest byte first. -/
def version : Bytes := #[0x01, 0x00, 0x00, 0x00]

/-- What stands in front of the sections: the magic bytes and the version. -/
def preamble : Bytes := #[0x00, 0x61, 0x73, 0x6d, 0x01, 0x00, 0x00, 0x00]

theorem preamble_eq : preamble = magic ++ version := rfl

/-- A section: its kind and its contents. -/
structure Section where
  kind : SectionKind
  payload : Bytes

instance : Encode Section where
  encode s out := out.push (Symbol.code s.kind) ++ s.payload.frame

def encodeModule (sections : List Section) : Bytes := encodeEach sections preamble

end WasmBinary
