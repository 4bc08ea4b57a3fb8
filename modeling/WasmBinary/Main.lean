import WasmBinary.Command.Run

/-! The program.

The work is done by the script of a job. Here its effects are carried out on the real
console and the real files. -/
namespace WasmBinary.Command

/-- The text of an error of the operating system, with its number. -/
def describe : IO.Error → String
  | .alreadyExists _ code text | .otherError code text | .resourceBusy code text
  | .resourceVanished code text | .unsupportedOperation code text | .hardwareFault code text
  | .unsatisfiedConstraints code text | .illegalOperation code text | .protocolError code text
  | .timeExpired code text | .interrupted _ code text | .noFileOrDirectory _ code text
  | .invalidArgument _ code text | .permissionDenied _ code text | .resourceExhausted _ code text
  | .inappropriateType _ code text | .noSuchThing _ code text => s!"{text} (os error {code})"
  | .unexpectedEof => "unexpected end of file"
  | .userError text => text

/-- Why a text is not printed: only EPIPE, which has this number, tells that nobody reads it. -/
def Interruption.ofPrint : IO.Error → Interruption
  | .resourceVanished 32 _ => .brokenPipe
  | e => .failed ⟨describe e, none⟩

def enact (verbosity : Nat) : Effect → IO (Option Interruption)
  | .log level message => do
    if level.threshold ≤ verbosity then IO.eprint (level.text message)
    return none
  | .print text => do
    try
      let stdout ← IO.getStdout
      stdout.putStr text
      stdout.flush
      return none
    catch e => return some (.ofPrint e)
  | .save path bytes => do
    try
      IO.FS.writeBinFile path ⟨bytes⟩
      return none
    catch e => return some (.failed ⟨s!"failed to write `{path}`", some (describe e)⟩)

/-- Carries out effects up to the first that does not succeed. -/
def enactAll (verbosity : Nat) : List Effect → IO (Option Interruption)
  | [] => return none
  | effect :: rest => do
    match ← enact verbosity effect with
    | none => enactAll verbosity rest
    | some interruption => return some interruption

partial def readInput (stdin : IO.FS.Stream) (read : Bytes) : IO Bytes := do
  let chunk ← stdin.read 65536
  if chunk.isEmpty then return read else readInput stdin (read ++ chunk.data)

/-- The bytes of standard input for a task that needs them. -/
def inputFor (task : Task) : IO (Except Failure (List UInt8)) := do
  if !task.readsInput then return .ok []
  try return .ok (← readInput (← IO.getStdin) #[]).toList
  catch e => return .error ⟨"failed to read byte-tree from stdin", some (describe e)⟩

/-- Does a job and gives the exit code. -/
def carryOut (job : Job) : IO UInt32 := do
  let terminal ← (← IO.getStdout).isTty
  let input ← match ← inputFor job.task with
    | .ok input => pure input
    | .error failure =>
      IO.eprint failure.text
      return 1
  let world : World := ⟨input, if terminal then .terminal else .pipe, ⟨[], []⟩⟩
  let script := job.script world
  match ← enactAll job.verbosity script.effects, script.result with
  | none, .ok () => return 0
  | some .brokenPipe, _ => return 1
  | some (.failed failure), _ | none, .error failure =>
    IO.eprint failure.text
    return 1

end WasmBinary.Command

open WasmBinary.Command in
/-- Answers a command line; one that is refused ends with exit code 2. -/
def main (arguments : List String) : IO UInt32 := do
  match Request.ofArguments arguments with
  | .error e =>
    IO.eprint (Failure.mk e.message none).text
    return 2
  | .ok .version =>
    let _ ← enact 0 (.print versionText)
    return 0
  | .ok (.job job) => carryOut job
