import WasmBinary.Bytes
import WasmBinary.Files
import WasmBinary.PlainText

/-! What a task does, one effect after the other.

A task is worked out before any of it happens: a `Script` is the list of its effects, in
order, and its end, a result or a failure. Performing it goes through the effects on a
`Console` and stops at the first one that does not succeed; only when all did, the end of
the script counts. So an effect that is in the list behind another one happens only if
that one did, and one that is not in the list never happens. -/
namespace WasmBinary.Command

/-- How much detail a log line is about. -/
inductive Level where
  | info | debug
deriving DecidableEq

namespace Level

/-- How often more output has to be asked for to see a level. -/
def threshold : Level → Nat
  | info => 1
  | debug => 2

/-- A level at the start of its line, as wide as any other. -/
def label : Level → List Char
  | info => "[INFO ] ".toList
  | debug => "[DEBUG] ".toList

end Level

/-- Something a task does. -/
inductive Effect where
  /-- A line of the log. -/
  | log (level : Level) (message : String)
  /-- Text on standard output. -/
  | print (text : String)
  /-- A file, in place of an older one. -/
  | save (path : String) (bytes : Bytes)
deriving DecidableEq

/-- Why a task fails. -/
structure Failure where
  message : String
  cause : Option String
deriving DecidableEq

/-- The effects of a task up to its end. -/
structure Script (α : Type) where
  effects : List Effect
  result : Except Failure α

namespace Script

def pure (x : α) : Script α := ⟨[], .ok x⟩

/-- A script and then the one that its result gives. -/
def bind (s : Script α) (next : α → Script β) : Script β :=
  match s.result with
  | .ok x =>
    let rest := next x
    ⟨s.effects ++ rest.effects, rest.result⟩
  | .error failure => ⟨s.effects, .error failure⟩

instance : Monad Script where
  pure := Script.pure
  bind := Script.bind

def doing (effect : Effect) : Script Unit := ⟨[effect], .ok ()⟩

def fail (failure : Failure) : Script α := ⟨[], .error failure⟩

/-- A value, or a failure in its place. -/
def ofExcept (describe : ε → Failure) : Except ε α → Script α
  | .ok x => .pure x
  | .error e => fail (describe e)

end Script

/-! ### Texts on standard error -/

/-- A text with four blanks at the start of every line but the first. -/
def hanging (text : List Char) : List Char :=
  text.flatMap fun c => if c = '\n' then "\n    ".toList else [c]

/-- What a message adds to the log: plain text, whatever the message holds. -/
def Level.text (level : Level) (message : String) : String :=
  .ofList (plainText (level.label ++ hanging message.toList ++ ['\n']))

/-- The report of a failure: its message, and its cause with four blanks in front. -/
def Failure.text (failure : Failure) : String :=
  let cause := match failure.cause with
    | none => []
    | some cause => "\nCaused by:\n    ".toList ++ hanging cause.toList ++ ['\n']
  .ofList ("error: ".toList ++ failure.message.toList ++ '\n' :: cause)

/-- The lines of a text. A line feed ends a line, and so does a carriage return with a line
feed behind it. -/
def lines : List Char → List (List Char)
  | [] => []
  | '\n' :: rest => [] :: lines rest
  | '\x0d' :: '\n' :: rest => [] :: lines rest
  | c :: rest =>
    match lines rest with
    | [] => [[c]]
    | line :: more => (c :: line) :: more

/-! ### Performing a script -/

/-- What standard output is. -/
inductive Output where
  | terminal
  /-- A pipe that somebody reads. -/
  | pipe
  /-- A pipe that nobody reads any more. -/
  | brokenPipe
deriving DecidableEq

/-- What a program finds when it starts. -/
structure World where
  /-- The bytes of standard input. -/
  input : List UInt8
  output : Output
  files : Files

/-- What a program has done so far. -/
structure Console where
  printed : String
  reported : String
  files : Files

/-- Why an effect does not succeed. -/
inductive Interruption where
  | brokenPipe
  | failed (failure : Failure)
deriving DecidableEq

def Failure.ofSave (path : String) (fault : FileFault) : Failure :=
  ⟨s!"failed to write `{path}`", some fault.message⟩

namespace Console

def start (world : World) : Console := ⟨"", "", world.files⟩

def perform (verbosity : Nat) (output : Output) (console : Console) :
    Effect → Except Interruption Console
  | .log level message =>
    if level.threshold ≤ verbosity then
      .ok { console with reported := console.reported ++ level.text message }
    else .ok console
  | .print text =>
    if output = .brokenPipe then .error .brokenPipe
    else .ok { console with printed := console.printed ++ text }
  | .save path bytes =>
    match console.files.write path bytes with
    | .ok files => .ok { console with files }
    | .error fault => .error (.failed (.ofSave path fault))

/-- Performs effects up to the first that does not succeed. -/
def performAll (verbosity : Nat) (output : Output) :
    Console → List Effect → Console × Option Interruption
  | console, [] => (console, none)
  | console, effect :: rest =>
    match console.perform verbosity output effect with
    | .ok console => performAll verbosity output console rest
    | .error interruption => (console, some interruption)

end Console

/-- What is left when a program has ended. -/
structure Outcome where
  /-- Whether the program reports success. -/
  success : Bool
  printed : String
  reported : String
  files : Files

/-- The lines on standard error. -/
def Outcome.reportedLines (outcome : Outcome) : List String :=
  (lines outcome.reported.toList).map String.ofList

def Console.succeed (console : Console) : Outcome :=
  ⟨true, console.printed, console.reported, console.files⟩

/-- The end of a program that fails and reports this text. -/
def Console.fail (console : Console) (text : String) : Outcome :=
  ⟨false, console.printed, console.reported ++ text, console.files⟩

/-- The end of a script: a broken pipe ends it in silence, every other failure is
reported. -/
def Script.outcome (script : Script Unit) (verbosity : Nat) (world : World) : Outcome :=
  match Console.performAll verbosity world.output (.start world) script.effects, script.result with
  | (console, some .brokenPipe), _ => console.fail ""
  | (console, some (.failed failure)), _ => console.fail failure.text
  | (console, none), .error failure => console.fail failure.text
  | (console, none), .ok () => console.succeed

end WasmBinary.Command
