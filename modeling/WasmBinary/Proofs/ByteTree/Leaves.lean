import WasmBinary.Proofs.Frame

/-! The leaves of a byte-tree.

Flattening and counting are two recursions over the same tree, and the frame of a tree puts
the count of the one in front of the bytes of the other. They agree on every tree
(`size_flatten`), so the frame of a tree is that of its leaves (`frame_eq`) and tells the
leaves and nothing else about the tree (`frame_tells_leaves`). -/
namespace WasmBinary.ByteTree
open Varint

/-! ### Flattening and counting -/

mutual

/-- The leaves go behind what is there already, and do not depend on it. -/
theorem flattenInto_eq_append (tree : ByteTree) (out : Bytes) :
    tree.flattenInto out = out ++ tree.flattenInto #[] := by
  cases tree with
  | byte value => simp [flattenInto]
  | seq items => exact flattenItemsInto_eq_append items out

theorem flattenItemsInto_eq_append (items : List ByteTree) (out : Bytes) :
    flattenItemsInto items out = out ++ flattenItemsInto items #[] := by
  cases items with
  | nil => simp [flattenItemsInto]
  | cons item items =>
    have first := flattenInto_eq_append item out
    have others (out : Bytes) := flattenItemsInto_eq_append items out
    rw [flattenItemsInto, flattenItemsInto, others, first, others (item.flattenInto #[]), Array.append_assoc]

end

mutual

theorem size_flattenInto (tree : ByteTree) (out : Bytes) :
    (tree.flattenInto out).size = out.size + tree.leafCount := by
  cases tree with
  | byte value => simp [flattenInto, leafCount]
  | seq items => exact size_flattenItemsInto items out

theorem size_flattenItemsInto (items : List ByteTree) (out : Bytes) :
    (flattenItemsInto items out).size = out.size + leafCountItems items := by
  cases items with
  | nil => rfl
  | cons item items =>
    rw [flattenItemsInto, size_flattenItemsInto items, size_flattenInto item, leafCountItems, Nat.add_assoc]

end

theorem size_flatten (tree : ByteTree) : tree.flatten.size = tree.leafCount := by
  rw [flatten, size_flattenInto, Array.size_empty, Nat.zero_add]

theorem isEmpty_iff (tree : ByteTree) : tree.isEmpty ↔ tree.flatten = #[] := by
  rw [isEmpty, beq_iff_eq, ← size_flatten, Array.size_eq_zero_iff]

theorem flattenItemsInto_map_byte (bytes : List UInt8) (out : Bytes) :
    flattenItemsInto (bytes.map byte) out = out ++ bytes := by
  induction bytes generalizing out with
  | nil => simp [flattenItemsInto]
  | cons value bytes ih =>
    rw [List.map_cons, flattenItemsInto, ih, flattenInto]
    simp

theorem flatten_ofBytes (bytes : List UInt8) : (ofBytes bytes).flatten = bytes.toArray := by
  rw [flatten, ofBytes, flattenInto, flattenItemsInto_map_byte]
  simp

/-! ### Framing -/

theorem frame_eq (tree : ByteTree) : tree.frame = tree.flatten.frame := by
  rw [frame, flattenInto_eq_append, ← size_flatten, flatten, Bytes.frame]

/-- The leaves are read back from the frame. -/
theorem takes_leaves {tree : ByteTree} (countable : tree.leafCount < 2 ^ 64) :
    Reader.Takes readFrame tree.frame.toList tree.flatten.toList := by
  rw [← size_flatten] at countable
  rw [frame_eq]
  exact takes_frame countable

/-- **The frame of a tree tells its leaves and nothing else.** It is their number and then the
leaves, which are read back from it whatever stands behind. Two trees have the same frame
exactly when they have the same leaves. -/
theorem frame_tells_leaves :
    (∀ tree : ByteTree, tree.leafCount < 2 ^ 64 →
      tree.flatten.size = tree.leafCount ∧
      tree.frame.toList = (ofUInt64 (UInt64.ofNat tree.flatten.size)).toList ++ tree.flatten.toList ∧
      ∀ rest, readFrame.run (tree.frame.toList ++ rest) = some (tree.flatten.toList, rest)) ∧
    (∀ t u : ByteTree, t.frame = u.frame ↔ t.flatten = u.flatten) ∧
    (∀ tree : ByteTree, tree.isEmpty ↔ tree.flatten = #[]) := by
  refine ⟨fun tree countable => ⟨size_flatten tree, ?_, takes_leaves countable⟩, fun t u => ?_, isEmpty_iff⟩
  · rw [frame_eq, toList_frame, toList_ofUInt64, UInt64.toNat_ofNat']
  · rw [frame_eq, frame_eq, frame_inj]

/-- One leaf more than has room in one byte of the count, behind an empty sequence. -/
theorem frame_tells_leaves_nested :
    (seq [seq [], byte 7, seq (List.replicate 127 (byte 9))]).leafCount < 2 ^ 64 ∧
      readFrame.run ((seq [seq [], byte 7, seq (List.replicate 127 (byte 9))]).frame.toList ++ [0xff]) =
        some (7 :: List.replicate 127 9, [0xff]) :=
  have countable : (seq [seq [], byte 7, seq (List.replicate 127 (byte 9))]).leafCount < 2 ^ 64 := by
    decide +kernel
  ⟨countable, (frame_tells_leaves.1 _ countable).2.2 [0xff]⟩

end WasmBinary.ByteTree
