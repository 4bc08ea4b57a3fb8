/-! Plain text.

A text may hold control characters, and control functions, which start with an escape and
say how a terminal is to show what follows. `plainText` leaves both out, as a log in a
file or a pipe needs it. It reads from the front and knows at every character how far a
control function has come (`Position`): an escape sequence and a control sequence end with
their final character, a device control string and the like with a string terminator, a
command with a bell. A cancel or a substitute breaks each of them off and an escape starts
the next one.

A tab or a line end inside an escape sequence or a control sequence belongs to the text.
What follows it is shown too, up to a control character, and then the sequence goes on. -/
namespace WasmBinary

namespace PlainText

/-! ### Kinds of characters -/

/-- Space to slash. -/
def isIntermediate (c : Char) : Bool := ' ' ≤ c && c ≤ '/'

/-- Zero to question mark. -/
def isParameter (c : Char) : Bool := '0' ≤ c && c ≤ '?'

/-- At sign to tilde. -/
def isFinal (c : Char) : Bool := '@' ≤ c && c ≤ '~'

/-- The control characters that lay a text out: tab, line feed, form feed and carriage
return. -/
def isLayout (c : Char) : Bool := c = '\t' || c = '\n' || c = '\x0c' || c = '\x0d'

/-- The characters that are seen in a text without control functions. -/
def isPlain (c : Char) : Bool := isLayout c || (' ' ≤ c && c ≠ '\x7f')

/-- Whether the byte of the string terminator is in the UTF-8 form of a character. -/
def holdsTerminator (c : Char) : Bool := (String.utf8EncodeChar c).contains 0x9c

/-! ### Control functions -/

/-- How far a control function has come. -/
inductive Position where
  /-- There is none. -/
  | outside
  | escape
  | escapeIntermediate
  /-- In a control sequence. -/
  | sequence
  /-- At the start of a device control string. -/
  | device
  | deviceParameter
  | deviceIntermediate
  /-- In a string that a string terminator ends. -/
  | string
  /-- In a command. -/
  | command
deriving DecidableEq

namespace Position

/-- What an escape and this character start. -/
def introduced (c : Char) : Position :=
  if isIntermediate c then .escapeIntermediate
  else if c = '[' then .sequence
  else if c = 'P' then .device
  else if c = 'X' || c = '^' || c = '_' then .string
  else if c = ']' then .command
  else if isParameter c || isFinal c then .outside
  else .escape

/-- How far a control function has come with one more character of it. -/
def next (position : Position) (c : Char) : Position :=
  if c = '\x18' || c = '\x1a' then .outside
  else if c = '\x1b' then .escape
  else match position with
    | .outside => .outside
    | .escape => introduced c
    | .escapeIntermediate => if isParameter c || isFinal c then .outside else .escapeIntermediate
    | .sequence => if isFinal c then .outside else .sequence
    | .device =>
      if isIntermediate c then .deviceIntermediate
      else if isParameter c then .deviceParameter
      else if isFinal c then .string
      else .device
    | .deviceParameter =>
      if isIntermediate c then .deviceIntermediate
      else if '<' ≤ c && c ≤ '~' then .string
      else .deviceParameter
    | .deviceIntermediate => if isParameter c || isFinal c then .string else .deviceIntermediate
    | .string => if holdsTerminator c then .outside else .string
    | .command => if c = '\x07' then .outside else .command

/-- Whether a character is shown although a control function has come this far. -/
def shows : Position → Char → Bool
  | .outside => isPlain
  | .escape | .escapeIntermediate | .sequence => isLayout
  | .device | .deviceParameter | .deviceIntermediate | .string | .command => fun _ => false

end Position

/-- What is shown of the rest of a text; `showing` says that the last character was shown.
A character that is shown and is not ASCII ends a control function. -/
def shown (showing : Bool) (position : Position) : List Char → List Char
  | [] => []
  | c :: rest =>
    if showing && isPlain c then
      c :: shown true (if c.toNat < 128 then position else .outside) rest
    else if position.shows c then c :: shown true position rest
    else shown false (position.next c) rest

/-- Text without control characters is shown as it is. -/
theorem shown_of_isPlain (showing : Bool) (text : List Char) (h : ∀ c ∈ text, isPlain c = true) :
    shown showing .outside text = text := by
  induction text generalizing showing with
  | nil => rfl
  | cons c rest ih =>
    have hc := h c (List.mem_cons_self ..)
    have hrest := fun showing => ih showing fun d hd => h d (List.mem_cons_of_mem c hd)
    simp only [shown, Position.shows, hc, Bool.and_true, ite_self, if_true, hrest]

end PlainText

/-- A text without its control functions and control characters. -/
def plainText (text : List Char) : List Char := PlainText.shown false .outside text

end WasmBinary
