import WasmBinary.Command.Basic
import WasmBinary.Command.Script
import WasmBinary.HexLine
import WasmBinary.Json.Tree
import WasmBinary.Module
import WasmBinary.Varint.Width

/-! What each task does. -/
namespace WasmBinary.Command

def Failure.ofEncoding (error : EncodingError) : Failure := ⟨error.message, none⟩

def Failure.ofNumeral (error : NumeralError) : Failure := ⟨error.message, some error.cause.message⟩

def log (level : Level) (message : String) : Script Unit := .doing (.log level message)

def printLine (text : String) : Script Unit := .doing (.print (text ++ "\n"))

/-! ### Encodings -/

def printHex (coloured : Bool) : List HexLine → Script Unit
  | [] => pure ()
  | line :: rest => do
    Script.doing (.print (String.ofList (line.text coloured)))
    printHex coloured rest

/-- Saves the bytes of all lines back to back, or prints the lines. -/
def emit (coloured : Bool) (output : Option String) (lines : List HexLine) : Script Unit :=
  match output with
  | none => printHex coloured lines
  | some path => do
    let bytes : Bytes := (lines.flatMap HexLine.bytes).toArray
    Script.doing (.save path bytes)
    log .info s!"wrote {bytes.size} bytes to `{path}`"

/-- Encodes every value in turn, up to the first that has no encoding. -/
def encodeAll (encode : α → Except EncodingError Varint) (spell : α → String) :
    List α → Script (List HexLine)
  | [] => pure []
  | value :: rest => do
    let v ← Script.ofExcept
      (fun e => ⟨s!"failed to encode {spell value}", some e.message⟩) (encode value)
    log .debug s!"{spell value} encodes to {v.length} bytes"
    return .plain v.toList :: (← encodeAll encode spell rest)

/-- The encoding of a signed word, of a width if one is given. -/
def encodeSigned (bits : Option Nat) (n : Int64) : Except EncodingError Varint :=
  match bits with
  | some bits => Varint.ofSigned n bits
  | none => .ok (Varint.ofInt64 n)

/-- The encoding of an unsigned word, of a width if one is given. -/
def encodeUnsigned (bits : Option Nat) (n : UInt64) : Except EncodingError Varint :=
  match bits with
  | some bits => Varint.ofUnsigned n bits
  | none => .ok (Varint.ofUInt64 n)

/-! ### Byte-trees -/

/-- The text of a byte-tree: the one that is given, or else standard input, which has to
be UTF-8. -/
def treeText (input : List UInt8) : Option String → Script (List UInt8)
  | some text => pure text.toUTF8.data.toList
  | none =>
    if ByteArray.validateUTF8 ⟨input.toArray⟩ then pure input
    else .fail ⟨"failed to read byte-tree from stdin", some "stream did not contain valid UTF-8"⟩

/-- Frames a tree, of a limited depth if a limit is given. -/
def frameTree (maxDepth : Option Nat) (tree : ByteTree) : Except EncodingError Bytes :=
  match maxDepth with
  | some limit => tree.frameWithin limit
  | none => .ok tree.frame

/-- Reads the tree of a text and frames it. The line marks the bytes of the count. -/
def vectorLine (maxDepth : Option Nat) (text : List UInt8) : Script HexLine := do
  let tree ← Script.ofExcept
    (fun e => ⟨"failed to parse byte-tree as JSON", some e.message⟩) (ByteTree.ofJson text)
  log .debug s!"byte-tree has {tree.leafCount} leaves nested {tree.depth} deep"
  let bytes ← Script.ofExcept .ofEncoding (frameTree maxDepth tree)
  return ⟨bytes.toList, (Varint.ofUInt64 (UInt64.ofNat tree.leafCount)).length⟩

/-! ### Tables -/

/-- A number in at least two columns. -/
def twoColumns (n : Nat) : String := if n < 10 then s!" {n}" else toString n

def hexCode (code : UInt8) : String := s!"0x{String.ofList (Hex.lower code)}"

/-- Answers a query for a section kind: the name of a code, the code of a name. -/
def answerSection (query : String) : Except Failure String :=
  match Numeral.code? query with
  | some (.error e) => .error (.ofNumeral e)
  | some (.ok code) =>
    match (Symbol.ofCode code : Except EncodingError SectionKind) with
    | .ok kind => .ok (Symbol.name kind)
    | .error e => .error (.ofEncoding e)
  | none =>
    match (Symbol.ofName query : Except EncodingError SectionKind) with
    | .ok kind => .ok (toString (Symbol.code kind).toNat)
    | .error e => .error ⟨s!"failed to look up `{query}`", some e.message⟩

/-- Answers a query for an opcode: the name of a code, the code of a name. -/
def answerOpcode (query : String) : Except Failure String :=
  match Numeral.code? query with
  | some (.error e) => .error (.ofNumeral e)
  | some (.ok code) =>
    match (Symbol.ofCode code : Except EncodingError Opcode) with
    | .ok opcode => .ok (Symbol.name opcode)
    | .error e => .error (.ofEncoding e)
  | none =>
    match (Symbol.ofName query : Except EncodingError Opcode) with
    | .ok opcode => .ok (hexCode (Symbol.code opcode))
    | .error e => .error (.ofEncoding e)

def printLines : List String → Script Unit
  | [] => pure ()
  | line :: rest => do
    printLine line
    printLines rest

/-- Prints the answers to queries up to the first that has none. -/
def answerAll (answer : String → Except Failure String) (note : String → String → Script Unit) :
    List String → Script Unit
  | [] => pure ()
  | query :: rest => do
    let text ← Script.ofExcept id (answer query)
    note query text
    printLine text
    answerAll answer note rest

/-- Looks up section kinds. Each answer is logged before it is printed. -/
def lookupSections : Lookup → Script Unit
  | .all => printLines <| (Symbol.all : List SectionKind).map fun kind =>
      s!"{twoColumns (Symbol.code kind).toNat} {Symbol.name kind}"
  | .queries queries =>
    answerAll answerSection (fun query text => log .debug s!"section `{query}` is `{text}`") queries

def lookupOpcodes : Lookup → Script Unit
  | .all => printLines <| (Symbol.all : List Opcode).map fun opcode =>
      s!"{hexCode (Symbol.code opcode)} {Symbol.name opcode}"
  | .queries queries => answerAll answerOpcode (fun _ _ => pure ()) queries

/-! ### Tasks -/

def Task.script (coloured : Bool) (input : List UInt8) : Task → Script Unit
  | .signed bits values output => do
    emit coloured output (← encodeAll (encodeSigned bits) (fun n => toString n.toInt) values)
  | .unsigned bits values output => do
    emit coloured output (← encodeAll (encodeUnsigned bits) (fun n => toString n.toNat) values)
  | .vector maxDepth text output => do
    emit coloured output [← vectorLine maxDepth (← treeText input text)]
  | .sections lookup => lookupSections lookup
  | .opcodes lookup => lookupOpcodes lookup
  | .preamble output => emit coloured output [.plain WasmBinary.preamble.toList]

def Task.readsInput : Task → Bool
  | .vector _ none _ => true
  | _ => false

def Job.script (job : Job) (world : World) : Script Unit :=
  job.task.script (job.color.colours (world.output = .terminal)) world.input

/-- What is left of the world when a job has ended. -/
def Job.run (job : Job) (world : World) : Outcome :=
  (job.script world).outcome job.verbosity world

def versionText : String := "wasm-leb-tools 0.1.0\n"

/-- What is left of the world when a request has been answered. The version is told
without looking whether anybody reads it. -/
def Request.run (world : World) : Request → Outcome
  | .version =>
    ⟨true, if world.output = .brokenPipe then "" else versionText, "", world.files⟩
  | .job j => j.run world

end WasmBinary.Command
