/-! Byte strings.

A byte string under construction is an array, so that appending to it costs what is
appended. A byte string that is read from its front is a list. -/
namespace WasmBinary

/-- A byte string that encoders append to. -/
abbrev Bytes := Array UInt8

/-- What holds of each of the 256 bytes holds of a byte. -/
theorem forall_byte {p : UInt8 → Prop} (all : ∀ i : Fin 256, p (UInt8.ofNat i.val)) (b : UInt8) : p b := by
  have one := all ⟨b.toNat, b.toNat_lt⟩
  rwa [UInt8.ofNat_toNat] at one

end WasmBinary
