import WasmBinary.Decode.Basic
import WasmBinary.Proofs.Encode
import WasmBinary.Proofs.Varint.Reading

/-! Byte vectors behind their length.

The length stands in front, so a reader knows where the bytes end whatever they are
(`takes_frame`), and no other bytes have the same frame (`frame_inj`). -/
namespace WasmBinary
open Reader Varint

theorem toList_frame (bytes : Bytes) :
    bytes.frame.toList = unsignedGroups (bytes.size % 2 ^ 64) ++ bytes.toList := by
  rw [Bytes.frame, Array.toList_append, toList_writeCount, List.nil_append]

/-- Bytes are read back from their frame. -/
theorem takes_frame {bytes : Bytes} (countable : bytes.size < 2 ^ 64) :
    Takes readFrame bytes.frame.toList bytes.toList := by
  rw [toList_frame, Nat.mod_eq_of_lt countable]
  exact (takes_unsignedGroups bytes.size).bind (.bytes bytes.toList)

/-- Bytes of any length are known from their frame: where the length in front ends is known
even when it has no room in a word. -/
theorem frame_inj {a b : Bytes} : a.frame = b.frame ↔ a = b := by
  refine ⟨fun same => ?_, fun same => by rw [same]⟩
  have lists : unsignedGroups (a.size % 2 ^ 64) ++ a.toList = unsignedGroups (b.size % 2 ^ 64) ++ b.toList := by
    rw [← toList_frame, ← toList_frame, same]
  exact Array.toList_inj.1 ((takes_unsignedGroups _).unique (takes_unsignedGroups _) lists).2

end WasmBinary
