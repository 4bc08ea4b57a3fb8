import WasmBinary.Proofs.ByteTree.Depth
import WasmBinary.Proofs.FunctionType
import WasmBinary.Proofs.Instruction

/-! One format, several writers.

A byte vector is written by a loop over a list, by two recursions over a tree, by a recursion that
watches the depth, and by a copy of flat bytes. One of them counts elements, the others count leaves
or bytes. Where the bytes are the same, what is written is the same (`writers_agree`), also when their
number has no room in a word, since every writer then keeps the same part of it. -/
namespace WasmBinary

/-- A list of value types and the flat tree of their codes. -/
theorem encode_valueTypes (types : List ValueType) (out : Bytes) :
    encode types out = out ++ frameValueTypes types := by
  apply Array.toList_inj.1
  rw [toList_encode, Array.toList_append, toList_frameValueTypes]

theorem encode_functionType (f : FunctionType) (out : Bytes) :
    encode f out = encode f.results (encode f.params (out.push functionTypeTag)) := by
  rw [encode_valueTypes, encode_valueTypes]
  rfl

/-- **All writers of a byte vector agree.** A tree whose leaves are some bytes, such as their flat tree,
is framed like these bytes, with a limit on its depth as without one, and that frame is what its
encoding appends. A list of value types appends the same bytes whether it is written as a list or as a
tree of codes, so a function type is its tag and then the lists of its parameters and results. A string
appends the frame of its UTF-8. -/
theorem writers_agree :
    (∀ (bytes : Bytes) (tree : ByteTree), tree.flatten = bytes →
      tree.frame = bytes.frame ∧
      (∀ limit, tree.depth ≤ limit → tree.frameWithin limit = .ok bytes.frame) ∧
      (∀ out : Bytes, encode tree out = out ++ bytes.frame)) ∧
    (∀ bytes : Bytes, (ByteTree.ofBytes bytes.toList).flatten = bytes) ∧
    (∀ (types : List ValueType) (out : Bytes),
      encode types out = out ++ frameValueTypes types ∧
      encode (Instruction.selectTyped types) out = out.push 0x1c ++ frameValueTypes types) ∧
    (∀ (params results : List ValueType) (out : Bytes),
      encode (FunctionType.ofLists params results) out = encode results (encode params (out.push 0x60))) ∧
    (∀ (s : String) (out : Bytes), encode s out = out ++ Bytes.frame s.toUTF8.data) := by
  refine ⟨fun bytes tree leaves => ?_, fun bytes => ?_, fun types out => ?_, fun params results out => ?_,
    fun s out => rfl⟩
  · subst leaves
    have framed := tree.frame_eq
    refine ⟨framed, fun limit shallow => ?_, fun out => ?_⟩
    · rw [tree.frameWithin_eq, if_pos shallow, framed]
    · show out ++ tree.frame = _
      rw [framed]
  · rw [ByteTree.flatten_ofBytes, Array.toArray_toList]
  · exact ⟨encode_valueTypes types out, encode_valueTypes types _⟩
  · rw [encode_functionType, FunctionType.params_ofLists, FunctionType.results_ofLists]
    rfl

/-- More leaves than a count of one byte can tell, in a tree that is as deep as it may be. -/
theorem writers_agree_nested :
    let tree := ByteTree.seq [.seq [], .byte 7, .seq (List.replicate 127 (.byte 9))]
    let bytes : Bytes := (7 :: List.replicate 127 9).toArray
    (tree.flatten = bytes ∧ tree.depth ≤ 2) ∧ tree.frameWithin 2 = .ok bytes.frame ∧
      encode tree #[0x0b] = #[0x0b] ++ bytes.frame := by
  intro tree bytes
  have leaves : tree.flatten = bytes := Array.toList_inj.1 (by decide +kernel)
  have shallow : tree.depth ≤ 2 := by decide +kernel
  obtain ⟨-, within, appended⟩ := writers_agree.1 bytes tree leaves
  exact ⟨⟨leaves, shallow⟩, within 2 shallow, appended #[0x0b]⟩

end WasmBinary
