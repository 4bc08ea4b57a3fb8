import WasmBinary.ByteTree.Basic
import WasmBinary.Varint.Basic

/-! A window read like a list.

For a reader a window is the list of the bytes to come. Each step that can be taken with a window
gives what the step of the same name gives on that list, and leaves the window of what is left of it
(`perform_onList`). A window without bytes to come is left as it is (`perform_exhausted`). -/
namespace WasmBinary.Varint

/-! ### Ways to read -/

theorem next?_cases (v : Varint) :
    v.toList = [] ∧ v.next? = none ∨
      ∃ b rest, v.toList = b :: rest.toList ∧ v.next? = some (b, rest) := by
  have view := v.next?_toList
  cases read : v.next? with
  | none =>
    cases bytes : v.toList with
    | nil => exact .inl ⟨rfl, rfl⟩
    | cons b rest => simp [read, bytes] at view
  | some taken =>
    cases bytes : v.toList with
    | nil => simp [read, bytes] at view
    | cons b rest =>
      simp [read, bytes] at view
      exact .inr ⟨taken.1, taken.2, by rw [view.1, view.2], rfl⟩

theorem next?_eq_none_iff (v : Varint) : v.next? = none ↔ v.toList = [] := by
  obtain ⟨bytes, read⟩ | ⟨b, rest, bytes, read⟩ := v.next?_cases <;> simp [bytes, read]

theorem toList_of_next? {v rest : Varint} {b : UInt8} (read : v.next? = some (b, rest)) :
    v.toList = b :: rest.toList := by
  obtain ⟨-, none⟩ | ⟨c, left, bytes, some⟩ := v.next?_cases
  · cases none.symm.trans read
  · obtain ⟨rfl, rfl⟩ := Prod.mk.inj (Option.some.inj (some.symm.trans read))
    exact bytes

theorem nth_zero (v : Varint) :
    v.nth 0 = match v.next? with
      | none => (none, v)
      | some (b, rest) => (some b, rest) := rfl

theorem nth_succ (v : Varint) (k : Nat) :
    v.nth (k + 1) = match v.next? with
      | none => (none, v)
      | some (_, rest) => rest.nth k := by
  cases read : v.next? <;> simp [nth, skip, read]

theorem nth_onList (v : Varint) (k : Nat) :
    (v.nth k).1 = v.toList[k]? ∧ (v.nth k).2.toList = v.toList.drop (k + 1) := by
  induction k generalizing v with
  | zero =>
    obtain ⟨bytes, read⟩ | ⟨b, rest, bytes, read⟩ := v.next?_cases <;>
      simp [nth_zero, bytes, read]
  | succ k ih =>
    obtain ⟨bytes, read⟩ | ⟨b, rest, bytes, read⟩ := v.next?_cases <;>
      simp [nth_succ, bytes, read, ih]

theorem take_onList (v : Varint) (k : Nat) :
    (v.take k).1 = v.toList.take k ∧ (v.take k).2.toList = v.toList.drop k := by
  induction k generalizing v with
  | zero => exact ⟨rfl, rfl⟩
  | succ k ih =>
    obtain ⟨bytes, read⟩ | ⟨b, rest, bytes, read⟩ := v.next?_cases <;>
      simp [take, bytes, read, ih]

/-- As many bytes as there are to come are all of them. -/
theorem take_length (v : Varint) : (v.take v.length).1 = v.toList ∧ (v.take v.length).2.toList = [] := by
  have all := v.take_onList v.length
  simpa [← length_toList] using all

/-! ### Steps -/

/-- What can be done with a window. The last four leave it where it is. -/
inductive Step where
  | next
  | nth (k : Nat)
  | take (k : Nat)
  | sum
  | slice
  | length
  | sizeHint
  /-- The byte-tree of the bytes that a copy gives. -/
  | tree

/-- What comes back. -/
inductive Answer where
  | byte (b : Option UInt8)
  | bytes (bs : List UInt8)
  | number (n : Nat)
  | bounds (low : Nat) (high : Option Nat)
  | tree (t : ByteTree)

/-- A step of a window: the answer and the window that is left. -/
def perform (v : Varint) : Step → Answer × Varint
  | .next =>
    match v.next? with
    | none => (.byte none, v)
    | some (b, rest) => (.byte (some b), rest)
  | .nth k => (.byte (v.nth k).1, (v.nth k).2)
  | .take k => (.bytes (v.take k).1, (v.take k).2)
  | .sum => (.number v.sum.1, v.sum.2)
  | .slice => (.bytes v.toList, v)
  | .length => (.number v.length, v)
  | .sizeHint => (.bounds v.sizeHint.1 v.sizeHint.2, v)
  | .tree => (.tree (.ofBytes (v.take v.length).1), v)

/-- The same step of a plain list of bytes to come. -/
def Step.onList (rest : List UInt8) : Step → Answer × List UInt8
  | .next => (.byte rest.head?, rest.tail)
  | .nth k => (.byte rest[k]?, rest.drop (k + 1))
  | .take k => (.bytes (rest.take k), rest.drop k)
  | .sum => (.number (rest.foldr (fun b total => b.toNat + total) 0), [])
  | .slice => (.bytes rest, rest)
  | .length => (.number rest.length, rest)
  | .sizeHint => (.bounds rest.length (some rest.length), rest)
  | .tree => (.tree (.ofBytes rest), rest)

/-- A window answers like the list of its bytes, and what is left of it is what is left of the list. -/
theorem perform_onList (v : Varint) (s : Step) :
    (v.perform s).1 = (s.onList v.toList).1 ∧ (v.perform s).2.toList = (s.onList v.toList).2 := by
  cases s with
  | next =>
    obtain ⟨bytes, read⟩ | ⟨b, rest, bytes, read⟩ := v.next?_cases <;>
      simp [perform, Step.onList, bytes, read]
  | nth k => simp [perform, Step.onList, nth_onList]
  | take k => simp [perform, Step.onList, take_onList]
  | sum => simp [perform, Step.onList, sum, take_length]
  | slice => exact ⟨rfl, rfl⟩
  | length => simp [perform, Step.onList, length_toList]
  | sizeHint => simp [perform, Step.onList, sizeHint, length_toList]
  | tree => simp [perform, Step.onList, take_length]

/-- Nothing changes a window that has no bytes to come. -/
theorem perform_exhausted {v : Varint} (ended : v.toList = []) (s : Step) : (v.perform s).2 = v := by
  have read := v.next?_eq_none_iff.2 ended
  have taken (k : Nat) : (v.take k).2 = v := by cases k <;> simp [take, read]
  cases s with
  | next => simp [perform, read]
  | nth k => cases k <;> simp [perform, nth_zero, nth_succ, read]
  | take k => exact taken k
  | sum => exact taken v.length
  | slice | length | sizeHint | tree => rfl

end WasmBinary.Varint
