import WasmBinary.Proofs.Shape
import WasmBinary.Proofs.Varint.Window

/-! Calls that write, one after the other.

A call encodes a value of any shape or writes a word, into a byte string that may hold something
already. What it does there it would also do on an empty byte string: it puts the same bytes behind
what is there, and there is at least one of them (`toList_perform`, `alone_ne_nil`). So calls leave
behind one another what each of them produces alone. Who writes a word is told how long its window is,
and then the window is emptied byte by byte, which is as many (`calls_only_append`). -/
namespace WasmBinary
open Varint

/-! ### Emptying a window -/

theorem length_of_next? {v rest : Varint} {b : UInt8} (read : v.next? = some (b, rest)) :
    rest.length < v.length := by
  rw [← length_toList, ← length_toList, toList_of_next? read]
  exact Nat.lt_succ_self _

/-- Pushes what a window gives, until it gives no more. -/
def Bytes.extend (out : Bytes) (v : Varint) : Bytes :=
  match _read : v.next? with
  | none => out
  | some (b, rest) => Bytes.extend (out.push b) rest
termination_by v.length
decreasing_by exact length_of_next? _read

/-- A window that is emptied leaves its bytes. -/
theorem Bytes.extend_eq (out : Bytes) (v : Varint) : out.extend v = out ++ v.toList := by
  fun_induction Bytes.extend out v with
  | case1 out v ended => rw [v.next?_eq_none_iff.1 ended, Array.appendList_nil]
  | case2 out v b rest read ih => rw [ih, toList_of_next? read, Array.appendList_cons]

/-! ### At least one byte -/

/-- No value is written as nothing: a list starts with its count, whatever is in it. -/
theorem Shape.encoding_ne_nil (s : Shape) (x : s.Value) : encoding x ≠ [] := by
  have unsigned (n : Nat) (rest : List UInt8) : unsignedGroups n ++ rest ≠ [] :=
    List.append_ne_nil_of_left_ne_nil (whole_unsignedGroups n).ne_nil rest
  have signed (n : Int) : signedGroups n ≠ [] := (whole_signedGroups n).ne_nil
  have framed (bytes : Bytes) : bytes.frame.toList ≠ [] := by
    rw [toList_frame]
    exact unsigned _ _
  cases s with
  | uint32 => exact (encoding_uint32 x).trans_ne (whole_unsignedGroups _).ne_nil
  | uint64 => exact (encoding_uint64 x).trans_ne (whole_unsignedGroups _).ne_nil
  | int32 => exact (encoding_int32 x).trans_ne (signed _)
  | int64 => exact (encoding_int64 x).trans_ne (signed _)
  | string => exact (encoding_string x).trans_ne (framed _)
  | byteTree => exact (encoding_byteTree x).trans_ne ((ByteTree.frame_eq x) ▸ framed _)
  | valueType => exact List.cons_ne_nil _ _
  | blockType => exact (encoding_blockType x).trans_ne (signed _)
  | functionType => exact (encoding_functionType x).trans_ne (List.cons_ne_nil _ _)
  | instruction => exact (encoding_instruction x).trans_ne (List.cons_ne_nil _ _)
  | list item => exact (encoding_list x).trans_ne (unsigned _ _)

/-! ### Calls -/

/-- Something that is written. -/
inductive Call where
  /-- A value, or the lists nested in one another. -/
  | value (s : Shape) (x : s.Value)
  | signed (n : Int64)
  | unsigned (n : UInt64)

namespace Call

/-- What a call makes of a byte string, and the count that it returns, if it does. -/
def perform (out : Bytes) : Call → Bytes × Option Nat
  | value _ x => (encode x out, none)
  | signed n => ((out.writeSigned n).1, some (out.writeSigned n).2)
  | unsigned n => ((out.writeUnsigned n).1, some (out.writeUnsigned n).2)

/-- What a call produces on an empty byte string. -/
def alone (c : Call) : List UInt8 := (c.perform #[]).1.toList

/-- The number of bytes that a call produces, if it is one that returns a count. -/
def count? : Call → Option Nat
  | value _ _ => none
  | c => some c.alone.length

/-- Calls one after the other, and what each of them returns. -/
def performAll (out : Bytes) : List Call → Bytes × List (Option Nat)
  | [] => (out, [])
  | c :: rest =>
    let (next, returned) := c.perform out
    let (last, others) := performAll next rest
    (last, returned :: others)

theorem toList_perform (out : Bytes) (c : Call) :
    (c.perform out).1.toList = out.toList ++ c.alone := by
  cases c with
  | value s x => exact toList_encode x out
  | signed n => simp [perform, alone, Bytes.writeSigned]
  | unsigned n => simp [perform, alone, Bytes.writeUnsigned]

/-- What is returned is the length of what is appended, whatever was there. -/
theorem perform_returns (out : Bytes) (c : Call) : (c.perform out).2 = c.count? := by
  cases c with
  | value s x => rfl
  | signed n => simp [perform, count?, alone, Bytes.writeSigned, length_toList]
  | unsigned n => simp [perform, count?, alone, Bytes.writeUnsigned, length_toList]

theorem alone_ne_nil (c : Call) : c.alone ≠ [] := by
  cases c with
  | value s x => exact s.encoding_ne_nil x
  | signed n => simpa [alone, perform, Bytes.writeSigned, toList_ofInt64] using (whole_signedGroups _).ne_nil
  | unsigned n =>
    simpa [alone, perform, Bytes.writeUnsigned, toList_ofUInt64] using (whole_unsignedGroups _).ne_nil

theorem toList_performAll (out : Bytes) (calls : List Call) :
    (performAll out calls).1.toList = out.toList ++ calls.flatMap alone := by
  induction calls generalizing out with
  | nil => exact (List.append_nil _).symm
  | cons c calls ih =>
    show (performAll (c.perform out).1 calls).1.toList = _
    rw [ih, toList_perform, List.append_assoc, List.flatMap_cons]

theorem performAll_returns (out : Bytes) (calls : List Call) :
    (performAll out calls).2 = calls.map count? := by
  induction calls generalizing out with
  | nil => rfl
  | cons c calls ih =>
    show (c.perform out).2 :: (performAll (c.perform out).1 calls).2 = _
    rw [ih, perform_returns, List.map_cons]

/-- A call makes a byte string longer. -/
theorem size_lt_perform (out : Bytes) (c : Call) : out.size < (c.perform out).1.size := by
  have longer := congrArg List.length (toList_perform out c)
  rw [List.length_append, Array.length_toList, Array.length_toList] at longer
  have some := List.length_pos_of_ne_nil c.alone_ne_nil
  omega

end Call

/-! ### Words -/

theorem Bytes.writeSigned_eq (out : Bytes) (n : Int64) :
    out.writeSigned n = (out.extend (ofInt64 n), (ofInt64 n).length) := by
  rw [extend_eq]
  rfl

theorem Bytes.writeUnsigned_eq (out : Bytes) (n : UInt64) :
    out.writeUnsigned n = (out.extend (ofUInt64 n), (ofUInt64 n).length) := by
  rw [extend_eq]
  rfl

theorem Bytes.size_extend (out : Bytes) (v : Varint) : (out.extend v).size = out.size + v.length := by
  rw [extend_eq, ← Array.length_toList, Array.toList_appendList, List.length_append, Array.length_toList,
    length_toList]

/-- **Writing only appends.** Whatever a byte string holds, calls leave it in front, and behind it what
each of them produces on an empty byte string, in their order. Each of them is told what it would be told
there and makes the byte string longer. Writing a word empties its window behind what is there, and the
count that is returned is by how much the byte string has grown. -/
theorem calls_only_append :
    (∀ (out : Bytes) (calls : List Call),
      (Call.performAll out calls).1.toList = out.toList ++ calls.flatMap Call.alone ∧
      (Call.performAll out calls).2 = calls.map Call.count?) ∧
    (∀ (out : Bytes) (c : Call),
      (c.perform out).1.toList = out.toList ++ c.alone ∧ out.size < (c.perform out).1.size) ∧
    (∀ (out : Bytes) (n : Int64),
      (out.writeSigned n).1 = out.extend (ofInt64 n) ∧
      (out.writeSigned n).1.size = out.size + (out.writeSigned n).2) ∧
    ∀ (out : Bytes) (n : UInt64),
      (out.writeUnsigned n).1 = out.extend (ofUInt64 n) ∧
      (out.writeUnsigned n).1.size = out.size + (out.writeUnsigned n).2 := by
  refine ⟨fun out calls => ⟨Call.toList_performAll out calls, Call.performAll_returns out calls⟩,
    fun out c => ⟨Call.toList_perform out c, Call.size_lt_perform out c⟩, fun out n => ?_, fun out n => ?_⟩
  · rw [Bytes.writeSigned_eq]
    exact ⟨rfl, Bytes.size_extend out _⟩
  · rw [Bytes.writeUnsigned_eq]
    exact ⟨rfl, Bytes.size_extend out _⟩

/-- Three calls behind a byte that is there already, one of them on a list of lists. -/
example :
    let calls := [.unsigned 300, .value (.list (.list .uint32)) [[(1 : UInt32)], []], .signed (-1)]
    Call.performAll #[0xff] calls =
      (#[0xff, 0xac, 0x02, 0x02, 0x01, 0x01, 0x00, 0x7f], [some 2, none, some 1]) := by decide +kernel

end WasmBinary
