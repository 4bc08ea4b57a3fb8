import WasmBinary.Hex
import WasmBinary.HexLine

/-! What can be seen of hexadecimal text.

A terminal takes the escape sequences out of a text and shows each other character with
or without emphasis (`display`). Each stretch of text between two sequences, of which the
first starts an emphasis and the second ends it, is a piece (`enclosed`). Without emphasis,
a line is read as the digits of a byte, and behind a single space of the next one, up to its
end (`readLine?`); all lines together also as nothing but pairs of digits (`readPairs?`). -/
namespace WasmBinary.HexLine

/-- Where in a text a terminal is. -/
inductive Cursor where
  | plain
  /-- Inside an escape sequence, of which this has been read. -/
  | sequence (read : List Char)

/-- What a terminal shows: each character and whether it is emphasised. A sequence of
number 0 ends every emphasis, and any other one starts it. -/
def displayFrom (emphasised : Bool) : Cursor → List Char → List (Char × Bool)
  | _, [] => []
  | .plain, c :: rest =>
    if c = Char.ofNat 0x1b then displayFrom emphasised (.sequence []) rest
    else (c, emphasised) :: displayFrom emphasised .plain rest
  | .sequence read, c :: rest =>
    if c = 'm' then displayFrom (read != ['[', '0']) .plain rest
    else displayFrom emphasised (.sequence (read ++ [c])) rest

/-- What a terminal without emphasis shows. -/
def display (text : List Char) : List (Char × Bool) := displayFrom false .plain text

/-- The characters of a text outside its escape sequences. -/
def visible (text : List Char) : List Char := (display text).map Prod.fst

def emphasised (text : List Char) : List Char :=
  ((display text).filter Prod.snd).map Prod.fst

/-- The characters of a text that are neither emphasised nor blank. -/
def unemphasised (text : List Char) : List Char :=
  ((display text).filter fun c => !c.2 && c.1 ≠ ' ' && c.1 ≠ '\n').map Prod.fst

/-- The pieces of a text that escape sequences enclose, the first of them behind what has
been read of it. A piece without an end counts, too. -/
def enclosedFrom : Option (List Char) → Cursor → List Char → List (List Char)
  | piece, _, [] => piece.toList
  | piece, .plain, c :: rest =>
    if c = Char.ofNat 0x1b then enclosedFrom piece (.sequence []) rest
    else enclosedFrom (piece.map (· ++ [c])) .plain rest
  | piece, .sequence read, c :: rest =>
    if c = 'm' then
      if read = ['[', '0'] then piece.toList ++ enclosedFrom none .plain rest
      else enclosedFrom (some (piece.getD [])) .plain rest
    else enclosedFrom piece (.sequence (read ++ [c])) rest

def enclosed (text : List Char) : List (List Char) := enclosedFrom none .plain text

/-- The bytes of a line without its end. -/
def readLine? : List Char → Option (List UInt8)
  | [] => some []
  | [high, low] => do return [← Hex.byte? high low]
  | high :: low :: ' ' :: high' :: rest => do
    let byte ← Hex.byte? high low
    return byte :: (← readLine? (high' :: rest))
  | _ => none

/-- The bytes of some lines, whatever escape sequences, spaces and line ends are in them. -/
def readPairs? (text : List Char) : Option (List UInt8) :=
  Hex.pairs? ((visible text).filter fun c => c ≠ ' ' ∧ c ≠ '\n')

end WasmBinary.HexLine
