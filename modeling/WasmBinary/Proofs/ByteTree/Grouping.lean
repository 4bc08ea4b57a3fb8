import WasmBinary.ByteTree.Context
import WasmBinary.Proofs.ByteTree.Leaves

/-! Grouping.

How the pieces of a tree are grouped cannot be seen in its leaves: those of a sequence are the
leaves of its items one after the other (`toList_flatten_seq`). So a sequence inside a sequence may
be opened up, and at any place of a tree another subtree with the same leaves may stand: the leaves
of the whole, their number and the frame are the same (`grouping_is_invisible`). -/
namespace WasmBinary.ByteTree

/-! ### Leaves of a sequence -/

theorem toList_flattenItemsInto (items : List ByteTree) (out : Bytes) :
    (flattenItemsInto items out).toList = out.toList ++ items.flatMap fun item => item.flatten.toList := by
  induction items generalizing out with
  | nil => simp [flattenItemsInto]
  | cons item items ih =>
    rw [flattenItemsInto, ih, flattenInto_eq_append]
    simp [flatten]

theorem toList_flatten_seq (items : List ByteTree) :
    (seq items).flatten.toList = items.flatMap fun item => item.flatten.toList := by
  show (flattenItemsInto items #[]).toList = _
  rw [toList_flattenItemsInto, List.nil_append]

/-! ### Trees with the same leaves -/

/-- Nothing that is made of the leaves tells these trees apart. -/
structure Alike (t u : ByteTree) : Prop where
  flatten : t.flatten = u.flatten
  leafCount : t.leafCount = u.leafCount
  frame : t.frame = u.frame

theorem alike_iff {t u : ByteTree} : Alike t u ↔ t.flatten = u.flatten := by
  constructor
  · exact Alike.flatten
  · intro same
    exact ⟨same, by rw [← size_flatten, ← size_flatten, same], by rw [frame_eq, frame_eq, same]⟩

/-- A sequence inside a sequence is opened up. -/
theorem alike_opened (front items back : List ByteTree) :
    Alike (seq (front ++ [seq items] ++ back)) (seq (front ++ items ++ back)) := by
  apply alike_iff.2
  apply Array.toList_inj.1
  simp [toList_flatten_seq]

theorem alike_ofBytes (tree : ByteTree) : Alike (ofBytes tree.flatten.toList) tree := by
  apply alike_iff.2
  rw [flatten_ofBytes, Array.toArray_toList]

/-! ### Trees in their place -/

/-- A place in a tree has some leaves in front of it and some behind it, whatever stands there. -/
theorem exists_around (c : Context) :
    ∃ front back : List UInt8, ∀ tree : ByteTree,
      (c.fill tree).flatten.toList = front ++ tree.flatten.toList ++ back := by
  induction c with
  | hole => exact ⟨[], [], fun tree => by simp [Context.fill]⟩
  | inItem before inner behind ih =>
    obtain ⟨front, back, around⟩ := ih
    refine ⟨(before.flatMap fun item => item.flatten.toList) ++ front,
      back ++ behind.flatMap fun item => item.flatten.toList, fun tree => ?_⟩
    simp [Context.fill, toList_flatten_seq, around]

theorem alike_fill_iff (c : Context) {t u : ByteTree} :
    Alike (c.fill t) (c.fill u) ↔ t.flatten = u.flatten := by
  obtain ⟨front, back, around⟩ := exists_around c
  rw [alike_iff, ← Array.toList_inj, around, around, List.append_left_inj, List.append_right_inj,
    Array.toList_inj]

/-- **Grouping makes no difference.** A sequence inside a sequence may be opened up. At any place of a
tree, the subtrees that may stand there instead are just those with the same leaves. The flat tree of
the leaves has the frame of the tree. And the leaves are what a tree puts behind the bytes that are
there already, whatever these are. -/
theorem grouping_is_invisible :
    (∀ xs ys zs : List ByteTree, Alike (seq (xs ++ [seq ys] ++ zs)) (seq (xs ++ ys ++ zs))) ∧
    (∀ (c : Context) (t u : ByteTree), Alike (c.fill t) (c.fill u) ↔ t.flatten = u.flatten) ∧
    (∀ tree : ByteTree, (ofBytes tree.flatten.toList).frame = tree.frame) ∧
    (∀ (tree : ByteTree) (out : Bytes), tree.flattenInto out = out ++ tree.flatten) :=
  ⟨alike_opened, fun c _ _ => alike_fill_iff c, fun tree => (alike_ofBytes tree).frame, flattenInto_eq_append⟩

end WasmBinary.ByteTree
