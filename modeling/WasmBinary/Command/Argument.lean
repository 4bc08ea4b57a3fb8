/-! Arguments of a command.

Options come in a long form, behind two dashes, and some in a short form, a letter behind
one dash. Several short ones may share the dash. An option that takes a value takes it
from the rest of its own argument, behind an equals sign, or from the next argument; a
short one also without the equals sign. All other arguments are values of the command
itself, and so is everything behind two dashes that stand alone.

A command may let its values start with a dash. Then an argument is an option only if
the command knows it, and behind the first value there are no options any more. -/
namespace WasmBinary.Command

inductive Flag where
  | verbose | color | output | bits | maxDepth | list | help
deriving DecidableEq

namespace Flag

/-- The name behind two dashes. -/
def long : Flag → List Char
  | verbose => "verbose".toList
  | color => "color".toList
  | output => "output".toList
  | bits => "bits".toList
  | maxDepth => "max-depth".toList
  | list => "list".toList
  | help => "help".toList

/-- The letter behind one dash. -/
def short? : Flag → Option Char
  | verbose => some 'v'
  | output => some 'o'
  | help => some 'h'
  | color | bits | maxDepth | list => none

def takesValue : Flag → Bool
  | color | output | bits | maxDepth => true
  | verbose | list | help => false

end Flag

/-- Why a command line is refused. -/
inductive UsageError where
  | missingCommand
  | unknownCommand (name : String)
  | unknownOption (argument : String)
  | missingValue (flag : Flag)
  | unexpectedValue (flag : Flag)
  | repeatedOption (flag : Flag)
  | invalidValue (value : String)
  | missingArgument
  | unexpectedArgument (argument : String)
  | help
deriving DecidableEq

def UsageError.message : UsageError → String
  | missingCommand => "a command is required"
  | unknownCommand name => s!"unknown command `{name}`"
  | unknownOption argument => s!"unknown option `{argument}`"
  | missingValue flag => s!"`--{String.ofList flag.long}` needs a value"
  | unexpectedValue flag => s!"`--{String.ofList flag.long}` takes no value"
  | repeatedOption flag => s!"`--{String.ofList flag.long}` is given more than once"
  | invalidValue value => s!"invalid value `{value}`"
  | missingArgument => "an argument is required"
  | unexpectedArgument argument => s!"unexpected argument `{argument}`"
  | help => "no help is available"

/-- What a command knows about its arguments. -/
structure Grammar where
  /-- The options it knows. -/
  flags : List Flag
  /-- Whether its values may start with a dash. -/
  dashedValues : Bool

/-- An option with its value, if it takes one. -/
abbrev Setting := Flag × Option String

/-- What one argument says. -/
inductive Reading where
  /-- Only values follow. -/
  | separator
  /-- Options, of which the last may still wait for its value. -/
  | options (settings : List Setting) (waiting : Option Flag)
  /-- A value, of an option that waits for one or of the command. -/
  | value

namespace Grammar

def short? (g : Grammar) (letter : Char) : Option Flag :=
  g.flags.find? (fun flag => flag.short? == some letter)

def long? (g : Grammar) (name : List Char) : Option Flag :=
  g.flags.find? (fun flag => flag.long == name)

/-- Reads the letters behind one dash. -/
def readShort (g : Grammar) (argument : String) : List Char → Except UsageError Reading
  | [] => .ok (.options [] none)
  | letter :: rest =>
    match g.short? letter with
    | none => .error (.unknownOption argument)
    | some flag =>
      if flag.takesValue then
        match rest with
        | [] => .ok (.options [] (some flag))
        | '=' :: value => .ok (.options [(flag, some (String.ofList value))] none)
        | value => .ok (.options [(flag, some (String.ofList value))] none)
      else
        match g.readShort argument rest with
        | .ok (.options settings waiting) => .ok (.options ((flag, none) :: settings) waiting)
        | other => other

/-- Reads the name behind two dashes, and its value behind an equals sign. -/
def readLong (g : Grammar) (argument : String) (text : List Char) : Except UsageError Reading :=
  let name := text.takeWhile (· ≠ '=')
  let value? := (text.dropWhile (· ≠ '=')).tail?
  match g.long? name, value? with
  | none, _ => if g.dashedValues then .ok .value else .error (.unknownOption argument)
  | some flag, none =>
    if flag.takesValue then .ok (.options [] (some flag)) else .ok (.options [(flag, none)] none)
  | some flag, some value =>
    if flag.takesValue then .ok (.options [(flag, some (String.ofList value))] none)
    else .error (.unexpectedValue flag)

def readArgument (g : Grammar) (argument : String) : Except UsageError Reading :=
  match argument.toList with
  | ['-', '-'] => .ok .separator
  | '-' :: '-' :: text => g.readLong argument text
  | '-' :: letter :: rest =>
    if g.dashedValues && (letter :: rest).any (fun c => (g.short? c).isNone) then .ok .value
    else g.readShort argument (letter :: rest)
  | _ => .ok .value

end Grammar

/-- The options and the values of a command line, each in order. -/
structure Arguments where
  settings : List Setting
  values : List String

namespace Arguments

def addSettings (settings : List Setting) (a : Arguments) : Arguments :=
  { a with settings := settings ++ a.settings }

def addValue (value : String) (a : Arguments) : Arguments :=
  { a with values := value :: a.values }

/-- Reads arguments, of which the first may be the value of an option that waits for it. -/
def scan (g : Grammar) : Option Flag → List String → Except UsageError Arguments
  | none, [] => .ok ⟨[], []⟩
  | some flag, [] => .error (.missingValue flag)
  | waiting, argument :: rest => do
    match ← g.readArgument argument, waiting with
    | .value, some flag => return (← scan g none rest).addSettings [(flag, some argument)]
    | .value, none =>
      if g.dashedValues then return ⟨[], argument :: rest⟩
      else return (← scan g none rest).addValue argument
    | .separator, none => return ⟨[], rest⟩
    | .options settings next, none => return (← scan g next rest).addSettings settings
    | _, some flag => .error (.missingValue flag)

def ofList (g : Grammar) (arguments : List String) : Except UsageError Arguments :=
  scan g none arguments

/-- Every use of an option. -/
def uses (a : Arguments) (flag : Flag) : List (Option String) :=
  (a.settings.filter (fun s => s.1 = flag)).map Prod.snd

def atMostOnce (a : Arguments) (flag : Flag) : Except UsageError (Option (Option String)) :=
  match a.uses flag with
  | [] => .ok none
  | [use] => .ok (some use)
  | _ => .error (.repeatedOption flag)

/-- The value of an option that may be used once. -/
def value? (a : Arguments) (flag : Flag) : Except UsageError (Option String) :=
  return (← a.atMostOnce flag).bind id

end Arguments
end WasmBinary.Command
