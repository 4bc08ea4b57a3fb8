import WasmBinary.Bytes
import WasmBinary.Error

/-! Byte-trees.

A piece of a binary is most easily put together from nested pieces. A `ByteTree` is a
byte or a sequence of byte-trees, and what counts in the end is its leaves from left to
right. Flattening, counting the leaves and measuring the depth are separate recursions;
`flattenWithin` flattens and gives up at a sequence that lies too deep. -/
namespace WasmBinary

/-- A byte, or a sequence of nested byte-trees. -/
inductive ByteTree where
  | byte (value : UInt8)
  | seq (items : List ByteTree)

namespace ByteTree

def empty : ByteTree := seq []

/-- The flat sequence of these bytes. -/
def ofBytes (bytes : List UInt8) : ByteTree := seq (bytes.map byte)

instance : Inhabited ByteTree := ⟨empty⟩

mutual

/-- Whether two trees are the same; a byte is not the sequence of that byte. -/
def decEq : (a b : ByteTree) → Decidable (a = b)
  | byte x, byte y => decidable_of_iff (x = y) (by simp)
  | byte _, seq _ => isFalse (by simp)
  | seq _, byte _ => isFalse (by simp)
  | seq xs, seq ys =>
    match decEqItems xs ys with
    | isTrue h => isTrue (by simp [h])
    | isFalse h => isFalse (by simp [h])

def decEqItems : (xs ys : List ByteTree) → Decidable (xs = ys)
  | [], [] => isTrue rfl
  | [], _ :: _ => isFalse (by simp)
  | _ :: _, [] => isFalse (by simp)
  | x :: xs, y :: ys =>
    match decEq x y, decEqItems xs ys with
    | isTrue h, isTrue h' => isTrue (by simp [h, h'])
    | isFalse h, _ => isFalse (by simp [h])
    | _, isFalse h => isFalse (by simp [h])

end

instance : DecidableEq ByteTree := decEq

mutual

/-- Appends the leaves from left to right. -/
def flattenInto : ByteTree → Bytes → Bytes
  | byte value, out => out.push value
  | seq items, out => flattenItemsInto items out

/-- Appends the leaves of each tree in turn. -/
def flattenItemsInto : List ByteTree → Bytes → Bytes
  | [], out => out
  | item :: items, out => flattenItemsInto items (item.flattenInto out)

end

/-- The leaves from left to right. -/
def flatten (tree : ByteTree) : Bytes := tree.flattenInto #[]

mutual

def leafCount : ByteTree → Nat
  | byte _ => 1
  | seq items => leafCountItems items

def leafCountItems : List ByteTree → Nat
  | [] => 0
  | item :: items => item.leafCount + leafCountItems items

end

def isEmpty (tree : ByteTree) : Bool := tree.leafCount == 0

mutual

/-- How many sequences lie around the deepest place: none around a lone byte, one in a
flat sequence, whether it holds something or not. -/
def depth : ByteTree → Nat
  | byte _ => 0
  | seq items => 1 + depthItems items

def depthItems : List ByteTree → Nat
  | [] => 0
  | item :: items => max item.depth (depthItems items)

end

mutual

/-- Appends the leaves, entering at most `remaining` sequences on the way to each. A
sequence beyond that is refused with the limit that the caller started from. -/
def flattenWithin (limit : Nat) : ByteTree → Nat → Bytes → Except EncodingError Bytes
  | byte value, _, out => .ok (out.push value)
  | seq _, 0, _ => .error (.tooDeep limit)
  | seq items, remaining + 1, out => flattenItemsWithin limit items remaining out

/-- Appends the leaves of each tree in turn, up to the first refusal. -/
def flattenItemsWithin (limit : Nat) :
    List ByteTree → Nat → Bytes → Except EncodingError Bytes
  | [], _, out => .ok out
  | item :: items, remaining, out =>
    match flattenWithin limit item remaining out with
    | .ok out => flattenItemsWithin limit items remaining out
    | .error e => .error e

end

end ByteTree
end WasmBinary
