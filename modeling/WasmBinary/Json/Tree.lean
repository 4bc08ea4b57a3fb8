import WasmBinary.ByteTree.Basic
import WasmBinary.Json.Token

/-! Byte-trees in JSON.

A byte-tree is written as JSON of a small kind: a byte as its decimal numeral, a sequence
as an array. `render` writes it without blanks.

The reader takes any JSON text, token by token, and keeps the containers that are open as
a list of frames from the innermost outwards. A value that is no byte-tree, and every
value around it, is read to its end all the same, since a fault in the text is reported
before the wrong kind of value is. Only what stands behind the whole value is looked at
after that. -/
namespace WasmBinary

namespace ByteTree

mutual

/-- The JSON text of a tree, without blanks. -/
def render : ByteTree → List UInt8
  | byte value => (Nat.toDigits 10 value.toNat).map fun c => c.toNat.toUInt8
  | seq items => 0x5b :: renderItems items

/-- The rest of the text of a sequence that starts with these items. -/
def renderItems : List ByteTree → List UInt8
  | [] => [0x5d]
  | item :: items => item.render ++ renderMore items

/-- The rest of the text of a sequence behind an item. -/
def renderMore : List ByteTree → List UInt8
  | [] => [0x5d]
  | item :: items => 0x2c :: item.render ++ renderMore items

end

end ByteTree

namespace Json

/-- How many containers may be open at once. -/
def maxDepth : Nat := 127

/-- An open container around the place of the reader. -/
inductive Frame where
  /-- An array and its items so far, last first; `none` when one of them is no byte-tree. -/
  | array (items : Option (List ByteTree))
  | object

/-- What may come next in an array. -/
inductive ArrayPlace where
  /-- The first item or the end. -/
  | first
  /-- An item, behind a comma. -/
  | item
  /-- A comma or the end. -/
  | behindItem

/-- What may come next in an object. -/
inductive ObjectPlace where
  /-- The first key or the end. -/
  | first
  /-- A key, behind a comma. -/
  | key
  /-- A colon. -/
  | colon
  /-- A value, behind a colon. -/
  | value
  /-- A comma or the end. -/
  | behindMember

/-- What has been read. -/
inductive State where
  /-- Nothing. -/
  | start
  /-- An array up to some place in it. -/
  | inArray (items : Option (List ByteTree)) (place : ArrayPlace) (outer : List Frame)
  /-- An object up to some place in it. -/
  | inObject (place : ObjectPlace) (outer : List Frame)
  /-- The whole value; `none` when it is no byte-tree. -/
  | done (tree : Option ByteTree)

/-- Why reading stops before the end. -/
inductive Halt where
  | stop (stop : Stop)
  | notTree

/-- An item added to the items so far. -/
def addItem : Option (List ByteTree) → Option ByteTree → Option (List ByteTree)
  | some items, some item => some (item :: items)
  | _, _ => none

def State.behindValue (tree : Option ByteTree) : List Frame → State
  | [] => .done tree
  | .array items :: outer => .inArray (addItem items tree) .behindItem outer
  | .object :: outer => .inObject .behindMember outer

def State.closeArray (items : Option (List ByteTree)) (outer : List Frame) : State :=
  .behindValue (items.map fun items => .seq items.reverse) outer

/-- Reads the first token of a value inside these containers. -/
def State.readValue (outer : List Frame) (lexeme : Lexeme) : Except Halt State :=
  match lexeme.token with
  | .number byte => .ok (.behindValue (byte.map .byte) outer)
  | .string | .word => .ok (.behindValue none outer)
  | .openArray =>
    if outer.length < maxDepth then .ok (.inArray (some []) .first outer)
    else .error (.stop ⟨.tooDeep, lexeme.behind⟩)
  | .openObject =>
    if outer.length < maxDepth then .ok (.inObject .first outer)
    else .error (.stop ⟨.tooDeep, lexeme.behind⟩)
  | .brokenString stop | .brokenValue stop => .error (.stop stop)
  | .closeArray | .closeObject | .comma | .colon | .unknown =>
    .error (.stop ⟨.expectedValue, lexeme.behind⟩)

/-- Reads a key of an object inside these containers. -/
def State.readKey (outer : List Frame) (lexeme : Lexeme) : Except Halt State :=
  match lexeme.token with
  | .string => .ok (.inObject .colon outer)
  | .brokenString stop => .error (.stop stop)
  | _ => .error (.stop ⟨.keyNotString, lexeme.behind⟩)

def State.readInArray (items : Option (List ByteTree)) (outer : List Frame) (lexeme : Lexeme) :
    ArrayPlace → Except Halt State
  | .first =>
    match lexeme.token with
    | .closeArray => .ok (.closeArray items outer)
    | _ => readValue (.array items :: outer) lexeme
  | .item =>
    match lexeme.token with
    | .closeArray => .error (.stop ⟨.trailingComma, lexeme.behind⟩)
    | _ => readValue (.array items :: outer) lexeme
  | .behindItem =>
    match lexeme.token with
    | .closeArray => .ok (.closeArray items outer)
    | .comma => .ok (.inArray items .item outer)
    | _ => .error (.stop ⟨.expectedListEnd, lexeme.behind⟩)

def State.readInObject (outer : List Frame) (lexeme : Lexeme) : ObjectPlace → Except Halt State
  | .first =>
    match lexeme.token with
    | .closeObject => .ok (.behindValue none outer)
    | _ => readKey outer lexeme
  | .key =>
    match lexeme.token with
    | .closeObject => .error (.stop ⟨.trailingComma, lexeme.behind⟩)
    | _ => readKey outer lexeme
  | .colon =>
    match lexeme.token with
    | .colon => .ok (.inObject .value outer)
    | _ => .error (.stop ⟨.expectedColon, lexeme.behind⟩)
  | .value => readValue (.object :: outer) lexeme
  | .behindMember =>
    match lexeme.token with
    | .closeObject => .ok (.behindValue none outer)
    | .comma => .ok (.inObject .key outer)
    | _ => .error (.stop ⟨.expectedObjectEnd, lexeme.behind⟩)

/-- Reads a token. Behind the whole value there is none to read. -/
def State.read (lexeme : Lexeme) : State → Except Halt State
  | .start => readValue [] lexeme
  | .inArray items place outer => readInArray items outer lexeme place
  | .inObject place outer => readInObject outer lexeme place
  | .done none => .error .notTree
  | .done (some _) => .error (.stop ⟨.trailingCharacters, lexeme.behind⟩)

/-- The tree that was read when the text ends. -/
def State.finish : State → Except Halt ByteTree
  | .start => .error (.stop ⟨.endInValue, []⟩)
  | .inArray _ .item _ => .error (.stop ⟨.endInValue, []⟩)
  | .inArray _ _ _ => .error (.stop ⟨.endInList, []⟩)
  | .inObject .key _ | .inObject .value _ => .error (.stop ⟨.endInValue, []⟩)
  | .inObject _ _ => .error (.stop ⟨.endInObject, []⟩)
  | .done none => .error .notTree
  | .done (some tree) => .ok tree

/-- Reads tokens up to the end of the text. -/
def State.run : State → List Lexeme → Except Halt ByteTree
  | state, [] => state.finish
  | state, lexeme :: rest =>
    match state.read lexeme with
    | .ok state => state.run rest
    | .error halt => .error halt

end Json

/-- Reads the JSON text of a byte-tree. -/
def ByteTree.ofJson (text : List UInt8) : Except Json.Error ByteTree :=
  match Json.State.start.run (Json.lexemes text) with
  | .ok tree => .ok tree
  | .error .notTree => .error .notTree
  | .error (.stop stop) => .error (stop.error text)

end WasmBinary
