import WasmBinary.Command.Argument
import WasmBinary.Numeral

/-! Commands.

A command line names a task and its settings. Reading it is all or nothing: whatever is
wrong with any of its arguments, the whole line is refused and nothing is done. -/
namespace WasmBinary.Command

/-- When output is coloured. -/
inductive ColorChoice where
  | auto | always | alwaysAnsi | never
deriving DecidableEq

/-- The colour choice of this name, in letters of either case. -/
def ColorChoice.ofName? (name : String) : Option ColorChoice :=
  match name.toList.map Char.toLower with
  | ['a', 'u', 't', 'o'] => some auto
  | ['a', 'l', 'w', 'a', 'y', 's'] => some always
  | ['a', 'l', 'w', 'a', 'y', 's', '-', 'a', 'n', 's', 'i'] => some alwaysAnsi
  | ['n', 'e', 'v', 'e', 'r'] => some never
  | _ => none

/-- Whether output is coloured, on a terminal or elsewhere. -/
def ColorChoice.colours (terminal : Bool) : ColorChoice → Bool
  | auto => terminal
  | always | alwaysAnsi => true
  | never => false

inductive Lookup where
  /-- Every entry. -/
  | all
  /-- Names and codes, in order. -/
  | queries (queries : List String)
deriving DecidableEq

inductive Task where
  /-- Encodes signed integers, of this width if one is given. -/
  | signed (bits : Option Nat) (values : List Int64) (output : Option String)
  /-- Encodes unsigned integers, of this width if one is given. -/
  | unsigned (bits : Option Nat) (values : List UInt64) (output : Option String)
  /-- Frames the byte-tree of a text, or of standard input. -/
  | vector (maxDepth : Option Nat) (text : Option String) (output : Option String)
  /-- Looks up section kinds. -/
  | sections (lookup : Lookup)
  /-- Looks up control opcodes. -/
  | opcodes (lookup : Lookup)
  /-- Writes the preamble of a module. -/
  | preamble (output : Option String)
deriving DecidableEq

/-- A task with what all tasks share. -/
structure Job where
  /-- How often more output is asked for. -/
  verbosity : Nat
  color : ColorChoice
  task : Task
deriving DecidableEq

/-- What a command line asks for. -/
inductive Request where
  /-- The version of the program. -/
  | version
  | job (job : Job)
deriving DecidableEq

/-! ### Values of options -/

/-- The number of some decimal digits. -/
def decimal? (digits : List Char) : Option Nat :=
  if digits ≠ [] ∧ digits.all Char.isDigit then
    some (digits.foldl (fun n c => 10 * n + (c.toNat - '0'.toNat)) 0)
  else none

/-- A decimal number below `size`, which may have a plus sign in front. -/
def readNumber? (size : Nat) (text : String) : Option Nat :=
  match text.toList with
  | '+' :: digits => (decimal? digits).filter (· < size)
  | digits => (decimal? digits).filter (· < size)

/-- A width is read as an integer of either sign and has to lie from 0 to `2 ^ 32 - 1`, so
that only a zero may have a minus sign in front. -/
def readWidth? (text : String) : Option Nat :=
  match text.toList with
  | '-' :: digits => (decimal? digits).filter (· = 0)
  | _ => readNumber? UInt32.size text

/-- Reads the value of an option. -/
def readValue (read? : String → Option α) : Option String → Except UsageError (Option α)
  | none => .ok none
  | some value =>
    match read? value with
    | some x => .ok (some x)
    | none => .error (.invalidValue value)

/-- Reads every value of a command. -/
def readValues (read : String → Except NumeralError α) : List String → Except UsageError (List α)
  | [] => .ok []
  | value :: rest =>
    match read value with
    | .ok x => return x :: (← readValues read rest)
    | .error _ => .error (.invalidValue value)

namespace Arguments

def bits (a : Arguments) : Except UsageError (Option Nat) := do
  readValue readWidth? (← a.value? .bits)

def maxDepth (a : Arguments) : Except UsageError (Option Nat) := do
  readValue (readNumber? UInt64.size) (← a.value? .maxDepth)

/-- The path of the output, which has to have a character. -/
def output (a : Arguments) : Except UsageError (Option String) := do
  readValue (fun path => if path = "" then none else some path) (← a.value? .output)

/-- The colour choice, automatic if there is none. -/
def color (a : Arguments) : Except UsageError ColorChoice := do
  return (← readValue ColorChoice.ofName? (← a.value? .color)).getD .auto

/-- The values of a command that needs one. -/
def someValues (a : Arguments) : Except UsageError (List String) :=
  match a.values with
  | [] => .error .missingArgument
  | values => .ok values

/-- The value of a command that takes one at most. -/
def oneValue? (a : Arguments) : Except UsageError (Option String) :=
  match a.values with
  | [] => .ok none
  | [value] => .ok (some value)
  | _ :: value :: _ => .error (.unexpectedArgument value)

def noValue (a : Arguments) : Except UsageError Unit :=
  match a.values with
  | [] => .ok ()
  | value :: _ => .error (.unexpectedArgument value)

/-- What to look up: either every entry is asked for, or there are queries. -/
def lookup (a : Arguments) : Except UsageError Lookup := do
  match ← a.atMostOnce .list, a.values with
  | some _, [] => return .all
  | some _, value :: _ => throw (.unexpectedArgument value)
  | none, [] => throw .missingArgument
  | none, queries => return .queries queries

end Arguments

/-! ### Commands by name -/

inductive Verb where
  | signed | unsigned | vector | sections | opcodes | preamble
deriving DecidableEq

namespace Verb

def ofName? (name : String) : Option Verb :=
  if name = "sleb" then some signed
  else if name = "uleb" then some unsigned
  else if name = "vector" then some vector
  else if name = "section" then some sections
  else if name = "opcode" then some opcodes
  else if name = "preamble" then some preamble
  else none

/-- What a command knows about its arguments. Only signed integers start with a dash. -/
def grammar : Verb → Grammar
  | signed => ⟨[.verbose, .color, .help, .output, .bits], true⟩
  | unsigned => ⟨[.verbose, .color, .help, .output, .bits], false⟩
  | vector => ⟨[.verbose, .color, .help, .output, .maxDepth], false⟩
  | sections | opcodes => ⟨[.verbose, .color, .help, .list], false⟩
  | preamble => ⟨[.verbose, .color, .help, .output], false⟩

def task (a : Arguments) : Verb → Except UsageError Task
  | signed =>
    return .signed (← a.bits) (← readValues Numeral.signed (← a.someValues)) (← a.output)
  | unsigned =>
    return .unsigned (← a.bits) (← readValues Numeral.unsigned (← a.someValues)) (← a.output)
  | vector => return .vector (← a.maxDepth) (← a.oneValue?) (← a.output)
  | sections => return .sections (← a.lookup)
  | opcodes => return .opcodes (← a.lookup)
  | preamble => do
    a.noValue
    return .preamble (← a.output)

def job (verb : Verb) (arguments : List String) : Except UsageError Job := do
  let a ← Arguments.ofList verb.grammar arguments
  if a.uses .help ≠ [] then throw .help
  return ⟨(a.uses .verbose).length, ← a.color, ← verb.task a⟩

end Verb

/-- Whether an argument asks for the version: by its name, or by its letter, whatever
stands behind it. -/
def asksVersion (argument : String) : Bool :=
  argument == "--version" || argument.toList.take 2 == ['-', 'V']

def Request.ofArguments : List String → Except UsageError Request
  | [] => .error .missingCommand
  | first :: arguments =>
    if asksVersion first then .ok .version
    else
      match Verb.ofName? first with
      | some verb => return .job (← verb.job arguments)
      | none => .error (.unknownCommand first)

end WasmBinary.Command
