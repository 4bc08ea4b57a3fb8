import WasmBinary.Json.Tree

/-! Blanks in the text of a byte-tree.

The text of a tree is a row of tokens, numerals and single marks, and blanks may stand
before, between and behind them. -/
namespace WasmBinary

namespace ByteTree

mutual

def tokens : ByteTree → List (List UInt8)
  | byte value => [render (byte value)]
  | seq items => [0x5b] :: tokensItems items

/-- The tokens of the rest of a sequence that starts with these items. -/
def tokensItems : List ByteTree → List (List UInt8)
  | [] => [[0x5d]]
  | item :: items => item.tokens ++ tokensMore items

/-- The tokens of the rest of a sequence behind an item. -/
def tokensMore : List ByteTree → List (List UInt8)
  | [] => [[0x5d]]
  | item :: items => [0x2c] :: item.tokens ++ tokensMore items

end

end ByteTree

namespace Json

/-- A text is a row of tokens with blanks before, between and behind them. -/
inductive Spaced : List (List UInt8) → List UInt8 → Prop where
  | nil {blanks : List UInt8} (blank : ∀ b ∈ blanks, isBlank b) : Spaced [] blanks
  | cons {token blanks text : List UInt8} {tokens : List (List UInt8)}
    (blank : ∀ b ∈ blanks, isBlank b) (rest : Spaced tokens text) :
    Spaced (token :: tokens) (blanks ++ token ++ text)

end Json
end WasmBinary
