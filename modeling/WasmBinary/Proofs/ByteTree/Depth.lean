import WasmBinary.Proofs.ByteTree.Leaves

/-! Flattening within a limit.

`flattenWithin` spends one of its budget on each sequence that it enters and stops in the
middle where nothing is left. The depth of a tree is measured by a recursion of its own, and
is just the budget that is enough: with it, flattening goes through and gives what it gives
without a limit; with less, it is refused with the limit that the caller named
(`frameWithin_eq`).

A machine keeps the budget in a word, from which a one must not be taken off at zero.
`flattenSpending?` is the recursion with that subtraction written out, and none of its
subtractions fails. -/
namespace WasmBinary.ByteTree

/-! ### Depth is the budget that is enough -/

mutual

theorem flattenWithin_eq (limit : Nat) (tree : ByteTree) (remaining : Nat) (out : Bytes) :
    flattenWithin limit tree remaining out =
      if tree.depth ≤ remaining then .ok (tree.flattenInto out) else .error (.tooDeep limit) := by
  cases tree with
  | byte value => simp [flattenWithin, depth, flattenInto]
  | seq items =>
    cases remaining with
    | zero => simp [flattenWithin, depth]
    | succ remaining =>
      have inside : (seq items).depth ≤ remaining + 1 ↔ depthItems items ≤ remaining := by
        rw [depth]
        omega
      simp only [flattenWithin, flattenItemsWithin_eq, inside, flattenInto]

theorem flattenItemsWithin_eq (limit : Nat) (items : List ByteTree) (remaining : Nat) (out : Bytes) :
    flattenItemsWithin limit items remaining out =
      if depthItems items ≤ remaining then .ok (flattenItemsInto items out)
      else .error (.tooDeep limit) := by
  cases items with
  | nil => simp [flattenItemsWithin, depthItems, flattenItemsInto]
  | cons item items =>
    have both : depthItems (item :: items) ≤ remaining ↔
        item.depth ≤ remaining ∧ depthItems items ≤ remaining := Nat.max_le
    rw [flattenItemsWithin, flattenWithin_eq limit item]
    by_cases first : item.depth ≤ remaining
    · rw [if_pos first]
      simp only [flattenItemsWithin_eq limit items, both, first, true_and, flattenItemsInto]
    · rw [if_neg first, if_neg fun h => first (both.1 h).1]

end

/-- A frame within a limit is the frame, given exactly to the trees that are not too deep. -/
theorem frameWithin_eq (tree : ByteTree) (limit : Nat) :
    tree.frameWithin limit = if tree.depth ≤ limit then .ok tree.frame else .error (.tooDeep limit) := by
  rw [frameWithin, flattenWithin_eq, frame_eq, flatten]
  by_cases shallow : tree.depth ≤ limit
  · rw [if_pos shallow, if_pos shallow]
    rfl
  · rw [if_neg shallow, if_neg shallow]
    rfl

/-! ### The budget in a word -/

/-- A word less one, unless it is zero. -/
def spend? (remaining : UInt64) : Option UInt64 := if remaining = 0 then none else some (remaining - 1)

mutual

/-- Appends the leaves as `flattenWithin` does, with the budget in a word. Nothing, when a one
is to be taken off a budget of zero. -/
def flattenSpending? (limit : UInt64) :
    ByteTree → UInt64 → Bytes → Option (Except EncodingError Bytes)
  | byte value, _, out => some (.ok (out.push value))
  | seq items, remaining, out =>
    if remaining = 0 then some (.error (.tooDeep limit.toNat))
    else flattenItemsSpending? limit items remaining out

/-- Appends the leaves of each tree in turn, each with one less than `remaining`. -/
def flattenItemsSpending? (limit : UInt64) :
    List ByteTree → UInt64 → Bytes → Option (Except EncodingError Bytes)
  | [], _, out => some (.ok out)
  | item :: items, remaining, out => do
    match ← flattenSpending? limit item (← spend? remaining) out with
    | .ok out => flattenItemsSpending? limit items remaining out
    | .error e => some (.error e)

end

theorem spend?_eq {remaining : UInt64} {n : Nat} (some_left : remaining.toNat = n + 1) :
    ∃ less : UInt64, spend? remaining = some less ∧ less.toNat = n := by
  have nonzero : remaining ≠ 0 := by
    rintro rfl
    cases some_left
  have one : (1 : UInt64) ≤ remaining := by
    rw [UInt64.le_iff_toNat_le, some_left]
    exact Nat.succ_le_succ (Nat.zero_le n)
  refine ⟨remaining - 1, if_neg nonzero, ?_⟩
  rw [UInt64.toNat_sub_of_le _ _ one, some_left]
  rfl

mutual

theorem flattenSpending?_eq (limit : UInt64) (tree : ByteTree) (remaining : UInt64) (out : Bytes) :
    flattenSpending? limit tree remaining out =
      some (flattenWithin limit.toNat tree remaining.toNat out) := by
  cases tree with
  | byte value => simp [flattenSpending?, flattenWithin]
  | seq items =>
    rw [flattenSpending?]
    by_cases spent : remaining = 0
    · subst spent
      simp [flattenWithin]
    · have nonzero : remaining.toNat ≠ 0 := fun zero => spent (UInt64.toNat_inj.1 zero)
      obtain ⟨n, left⟩ := Nat.exists_eq_succ_of_ne_zero nonzero
      rw [if_neg spent, left, flattenWithin]
      exact flattenItemsSpending?_eq limit items left out

theorem flattenItemsSpending?_eq (limit : UInt64) (items : List ByteTree) {remaining : UInt64} {n : Nat}
    (left : remaining.toNat = n + 1) (out : Bytes) :
    flattenItemsSpending? limit items remaining out =
      some (flattenItemsWithin limit.toNat items n out) := by
  cases items with
  | nil => simp [flattenItemsSpending?, flattenItemsWithin]
  | cons item items =>
    obtain ⟨less, spent, value⟩ := spend?_eq left
    rw [flattenItemsSpending?, spent, flattenItemsWithin]
    simp only [Option.bind_eq_bind, Option.bind_some, flattenSpending?_eq limit item, value]
    cases flattenWithin limit.toNat item n out with
    | ok out => exact flattenItemsSpending?_eq limit items left out
    | error e => rfl

end

/-- **A frame is given exactly within the limit.** It is the frame that is given without a
limit; where the tree is deeper, at whatever place, the refusal names the limit that was
asked for. With the budget in a word, no one is ever taken off zero on the way. -/
theorem frameWithin_iff_depth (tree : ByteTree) :
    (∀ limit : Nat, tree.frameWithin limit =
      if tree.depth ≤ limit then .ok tree.frame else .error (.tooDeep limit)) ∧
    (∀ limit : UInt64, flattenSpending? limit tree limit #[] =
      some (tree.flattenWithin limit.toNat limit.toNat #[])) :=
  ⟨tree.frameWithin_eq, fun limit => flattenSpending?_eq limit tree limit #[]⟩

example : (seq [byte 1, seq [], seq [seq [byte 2]]]).frameWithin 2 = .error (.tooDeep 2) := rfl

end WasmBinary.ByteTree
