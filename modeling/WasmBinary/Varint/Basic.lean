import WasmBinary.Varint.Group

/-! The bytes of one variable-length integer.

A 64-bit integer takes at most ten bytes in LEB128, so its encoding lives in a buffer of
ten bytes and never needs a heap of its own. A `Varint` is that buffer with the window
`start … stop` of bytes that are written and not yet read: an encoder pushes at the end,
a reader takes from the front. `toList` is the window's content, and every operation
below is an ordinary list operation on it. -/
namespace WasmBinary

/-- The longest a 64-bit integer can be in LEB128. -/
def Varint.maxLength : Nat := 10

/-- A window on a buffer of ten bytes. -/
structure Varint where
  buffer : Vector UInt8 Varint.maxLength
  start : Nat
  stop : Nat
  start_le_stop : start ≤ stop
  stop_le : stop ≤ Varint.maxLength

namespace Varint

def empty : Varint where
  buffer := Vector.replicate maxLength 0
  start := 0
  stop := 0
  start_le_stop := Nat.le_refl 0
  stop_le := Nat.zero_le maxLength

/-- The bytes not yet read. -/
def toList (v : Varint) : List UInt8 := (v.buffer.toList.take v.stop).drop v.start

/-- How many bytes are not yet read. -/
def length (v : Varint) : Nat := v.stop - v.start

/-- How many bytes can still be pushed. -/
def room (v : Varint) : Nat := maxLength - v.stop

/-- The window grown by one byte; nothing when the buffer is full. -/
def push? (v : Varint) (byte : UInt8) : Option Varint :=
  if h : v.stop < maxLength then
    some
      { buffer := v.buffer.set v.stop byte
        start := v.start
        stop := v.stop + 1
        start_le_stop := Nat.le_succ_of_le v.start_le_stop
        stop_le := h }
  else none

/-! ### Reading from the front -/

/-- The first unread byte and the window behind it. -/
def next? (v : Varint) : Option (UInt8 × Varint) :=
  if h : v.start < v.stop then
    have : v.start < maxLength := Nat.lt_of_lt_of_le h v.stop_le
    some (v.buffer[v.start], { v with start := v.start + 1, start_le_stop := h })
  else none

/-- A lower and an upper bound on the bytes to come; they are the same number. -/
def sizeHint (v : Varint) : Nat × Option Nat := (v.length, some v.length)

/-- The window behind its first `k` bytes, or at its end when there are fewer. -/
def skip (v : Varint) : Nat → Varint
  | 0 => v
  | k + 1 =>
    match v.next? with
    | none => v
    | some (_, rest) => rest.skip k

/-- Skips `k` bytes and reads the next one. -/
def nth (v : Varint) (k : Nat) : Option UInt8 × Varint :=
  match (v.skip k).next? with
  | none => (none, v.skip k)
  | some (byte, rest) => (some byte, rest)

/-- Reads `k` bytes, or all when there are fewer. -/
def take (v : Varint) : Nat → List UInt8 × Varint
  | 0 => ([], v)
  | k + 1 =>
    match v.next? with
    | none => ([], v)
    | some (byte, rest) =>
      let (bytes, rest) := rest.take k
      (byte :: bytes, rest)

def sum (v : Varint) : Nat × Varint :=
  let (bytes, rest) := v.take v.length
  (bytes.foldr (fun b total => b.toNat + total) 0, rest)

/-! ### The window as a list -/

theorem length_toList (v : Varint) : v.toList.length = v.length := by
  have := v.stop_le
  simp [toList, length, Nat.min_eq_left this]

theorem toList_empty : empty.toList = [] := rfl

theorem toList_push? {v w : Varint} {byte : UInt8} (h : v.push? byte = some w) :
    w.toList = v.toList ++ [byte] := by
  unfold push? at h
  split at h
  · rename_i room
    obtain rfl := Option.some.inj h
    have hlen : v.buffer.toList.length = maxLength := by simp
    have hstart := v.start_le_stop
    have grown : (v.buffer.toList.set v.stop byte).take (v.stop + 1) =
        v.buffer.toList.take v.stop ++ [byte] := by
      rw [List.take_add_one, List.take_set_of_le (Nat.le_refl _), List.getElem?_set_self (by omega)]
      rfl
    simp only [toList, Vector.toList_set, grown]
    rw [List.drop_append_of_le_length (by simp; omega)]
  · simp at h

theorem stop_push? {v w : Varint} {byte : UInt8} (h : v.push? byte = some w) :
    w.stop = v.stop + 1 := by
  unfold push? at h
  split at h
  · obtain rfl := Option.some.inj h
    rfl
  · simp at h

theorem start_push? {v w : Varint} {byte : UInt8} (h : v.push? byte = some w) :
    w.start = v.start := by
  unfold push? at h
  split at h
  · obtain rfl := Option.some.inj h
    rfl
  · simp at h

theorem room_push? {v w : Varint} {byte : UInt8} (h : v.push? byte = some w) :
    w.room + 1 = v.room := by
  have := stop_push? h
  have := w.stop_le
  simp only [room]
  omega

theorem push?_isSome_iff (v : Varint) (byte : UInt8) : (v.push? byte).isSome ↔ 0 < v.room := by
  unfold push? room
  split <;> simp <;> omega

theorem next?_toList (v : Varint) :
    v.next?.map (fun r => (r.1, r.2.toList)) = match v.toList with
      | [] => none
      | byte :: rest => some (byte, rest) := by
  have hstop := v.stop_le
  have hlen : v.buffer.toList.length = maxLength := by simp
  unfold next? toList
  by_cases h : v.start < v.stop
  · have hlt : v.start < (v.buffer.toList.take v.stop).length := by simp; omega
    simp [h, List.drop_eq_getElem_cons hlt]
  · rw [dif_neg h, List.drop_eq_nil_of_le (by simp; omega)]
    rfl

end Varint
end WasmBinary
