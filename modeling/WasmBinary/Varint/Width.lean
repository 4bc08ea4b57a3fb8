import WasmBinary.Error
import WasmBinary.Varint.Writer

/-! Integers of a given width.

A width is one of 1 to 64 bits. A signed word fits when shifting the bits above the width
out and back in changes nothing; an unsigned one when nothing is left above the width. The
width itself is checked first, so a wrong width is refused whatever the value is. -/
namespace WasmBinary.Varint

/-- A signed word is unchanged when its bits above `bits` are shifted out and the sign is
shifted back in. Meant for `bits` from 1 to 64, where the shift is below 64. -/
def fitsSigned (n : Int64) (bits : Nat) : Bool :=
  (n <<< Int64.ofNat (64 - bits)) >>> Int64.ofNat (64 - bits) == n

/-- An unsigned word has nothing above `bits`; at 64 bits and more there is nothing above. -/
def fitsUnsigned (n : UInt64) (bits : Nat) : Bool :=
  decide (64 ≤ bits) || n >>> UInt64.ofNat bits == 0

/-- Accepts the widths of an integer type. -/
def checkWidth (bits : Nat) : Except EncodingError Unit :=
  if bits = 0 ∨ 64 < bits then .error (.invalidWidth bits) else .ok ()

/-- The signed encoding of a word that fits in `bits` bits of two's complement. -/
def ofSigned (n : Int64) (bits : Nat) : Except EncodingError Varint := do
  checkWidth bits
  if fitsSigned n bits then .ok (ofInt64 n) else .error (.outOfRange n.toInt bits .signed)

/-- The unsigned encoding of a word that fits in `bits` bits. -/
def ofUnsigned (n : UInt64) (bits : Nat) : Except EncodingError Varint := do
  checkWidth bits
  if fitsUnsigned n bits then .ok (ofUInt64 n) else .error (.outOfRange n.toNat bits .unsigned)

/-! ### Type indices

A type index stands where a value type could, so it is written as a signed integer of 33
bits: every index of 32 bits is then a non-negative number. -/

/-- A word that was promised to fit in a width and does not. -/
structure Misfit where
  value : Int
  bits : Nat
deriving DecidableEq

def Misfit.message (m : Misfit) : String := s!"{m.value} does not fit in {m.bits} bits"

/-- The signed encoding of a word that its caller promises to fit in 33 bits. -/
def ofInt33 (n : Int64) : Except Misfit Varint :=
  if fitsSigned n 33 then .ok (ofInt64 n) else .error ⟨n.toInt, 33⟩

theorem shiftLeft_sshiftRight_setWidth (x : BitVec 32) :
    ((x.setWidth 64) <<< 31).sshiftRight 31 = x.setWidth 64 := by
  ext i h
  have above : 31 + i < 64 ∨ x.getLsbD i = false := by
    by_cases low : 31 + i < 64
    · exact .inl low
    · exact .inr (x.getLsbD_of_ge i (by omega))
  rcases above with low | high
  · simp [BitVec.getElem_sshiftRight, low]
  · simp [BitVec.getElem_sshiftRight, high]

/-- A type index keeps the promise. -/
theorem fitsSigned_index (index : UInt32) : fitsSigned index.toUInt64.toInt64 33 = true := by
  rw [fitsSigned, beq_iff_eq, ← Int64.toBitVec_inj, Int64.toBitVec_shiftRight, Int64.toBitVec_shiftLeft,
    show (Int64.ofNat (64 - 33)).toBitVec.smod 64 = 31#64 by decide]
  exact shiftLeft_sshiftRight_setWidth index.toBitVec

def ofTypeIndex (index : UInt32) : Varint :=
  match h : ofInt33 index.toUInt64.toInt64 with
  | .ok v => v
  | .error _ => absurd h (by simp [ofInt33, fitsSigned_index])

theorem ofInt33_index (index : UInt32) : ofInt33 index.toUInt64.toInt64 = .ok (ofTypeIndex index) := by
  unfold ofTypeIndex
  split
  · rename_i v h
    exact h
  · rename_i misfit h
    rw [ofInt33, if_pos (fitsSigned_index index)] at h
    cases h

end WasmBinary.Varint
