import WasmBinary.ByteTree.Basic

/-! Contexts of a byte-tree.

A context is a tree with a hole in place of one subtree: the path down to the hole, with
the siblings before and behind it at each sequence on the way. -/
namespace WasmBinary.ByteTree

/-- A tree with a hole. -/
inductive Context where
  /-- The hole is the whole tree. -/
  | hole
  /-- The hole is in one item of a sequence. -/
  | inItem (before : List ByteTree) (inner : Context) (behind : List ByteTree)

/-- The tree with this subtree in the hole. -/
def Context.fill : Context → ByteTree → ByteTree
  | hole, tree => tree
  | inItem before inner behind, tree => seq (before ++ inner.fill tree :: behind)

end WasmBinary.ByteTree
