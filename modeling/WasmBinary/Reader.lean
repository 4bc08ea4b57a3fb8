/-! Readers.

A reader takes a value from the front of a byte string and leaves the bytes behind it. It
fails when no such value is there, and it never looks further than the value goes, so what
stands behind makes no difference (`Recovers`). -/
namespace WasmBinary

/-- Takes a value from the front of a byte string. -/
abbrev Reader := StateT (List UInt8) Option

namespace Reader
variable {α : Type}

def byte : Reader UInt8
  | [] => none
  | b :: rest => some (b, rest)

def bytes (n : Nat) : Reader (List UInt8) := fun text =>
  if n ≤ text.length then some (text.splitAt n) else none

/-- As many values as told, one after the other. -/
def times (read : Reader α) : Nat → Reader (List α)
  | 0 => pure []
  | n + 1 => do
    let x ← read
    return x :: (← read.times n)

/-- Every value up to the end of the text; none when the reader fails on the way or takes
nothing. -/
def toEnd (read : Reader α) (text : List UInt8) : Option (List α) :=
  if text = [] then some []
  else
    match read.run text with
    | none => none
    | some (x, rest) => if rest.length < text.length then (read.toEnd rest).map (x :: ·) else none
termination_by text.length

/-- A reader recovers every value from what is written for it, and leaves what stands
behind. -/
def Recovers (read : Reader α) (written : α → List UInt8) : Prop :=
  ∀ x rest, read.run (written x ++ rest) = some (x, rest)

end Reader
end WasmBinary
