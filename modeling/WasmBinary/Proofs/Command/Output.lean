import WasmBinary.Command.Run
import WasmBinary.Proofs.Command.Script
import WasmBinary.Proofs.Files
import WasmBinary.Proofs.HexLine

/-! Putting encodings out.

A command works all its encodings out, with nothing but notes on the way, before it puts any of them
out. So a failure leaves nothing behind but the notes and its report (`halted_of_error`). Otherwise all
encodings are printed, each as a line (`printed_of_ok`), or they are saved back to back
(`saved_of_ok`). -/
namespace WasmBinary.Command
open Console

/-! ### What is worked out -/

/-- The line of the tree that is given or stands on standard input. -/
def encodeTree (limit : Option Nat) (input : List UInt8) (source : Option String) : Script (List HexLine) := do
  return [← vectorLine limit (← treeText input source)]

/-- What a task works out before it puts anything out. -/
def Task.encode (input : List UInt8) : Task → Script (List HexLine)
  | .signed bits values _ => encodeAll (encodeSigned bits) (fun n => toString n.toInt) values
  | .unsigned bits values _ => encodeAll (encodeUnsigned bits) (fun n => toString n.toNat) values
  | .vector limit source _ => encodeTree limit input source
  | .preamble _ => return [.plain WasmBinary.preamble.toList]
  | .sections _ | .opcodes _ => return []

/-- Where a task puts encodings out, if it does. -/
def Task.output? : Task → Option (Option String)
  | .signed _ _ output | .unsigned _ _ output | .vector _ _ output | .preamble output => some output
  | .sections _ | .opcodes _ => none

/-- **A task works its encodings out and then puts them out.** -/
theorem Task.script_eq {task : Task} {output : Option String} (puts : task.output? = some output)
    (coloured : Bool) (input : List UInt8) :
    task.script coloured input = task.encode input >>= emit coloured output := by
  cases task with
  | signed bits values path =>
    obtain rfl := Option.some.inj puts
    rfl
  | unsigned bits values path =>
    obtain rfl := Option.some.inj puts
    rfl
  | vector limit source path =>
    obtain rfl := Option.some.inj puts
    simp only [encode, encodeTree, Script.bind_assoc, Script.pure_bind]
    rfl
  | preamble path =>
    obtain rfl := Option.some.inj puts
    rfl
  | sections lookup => cases puts
  | opcodes lookup => cases puts

/-! ### What is left -/

/-- Bytes on a line of their own. -/
def hexText (bytes : List UInt8) : String := .ofList ([' '].intercalate (bytes.map Hex.upper) ++ ['\n'])

theorem ofList_text_of_plain {coloured : Bool} {line : HexLine} (plain : line.emphasisedBytes coloured = 0) :
    String.ofList (line.text coloured) = hexText line.bytes :=
  congrArg String.ofList (HexLine.text_of_plain plain)

/-- Nothing is put out, and the failure is reported behind the notes on what went well. -/
structure Halted (world : World) (verbosity : Nat) (notes : List String) (failure : Failure)
    (outcome : Outcome) : Prop where
  failed : outcome.success = false
  printed : outcome.printed = ""
  reported : outcome.reported = logged verbosity .debug notes ++ failure.text
  files : outcome.files = world.files

/-- The lines are printed in turn, and no file is changed. -/
structure Printed (world : World) (verbosity : Nat) (notes : List String) (coloured : Bool)
    (lines : List HexLine) (outcome : Outcome) : Prop where
  success : outcome.success = true
  printed : outcome.printed = .join (lines.map fun line => .ofList (line.text coloured))
  reported : outcome.reported = logged verbosity .debug notes
  files : outcome.files = world.files

/-- The bytes are the new content of a file, all other places are as before, and nothing is printed. -/
structure Saved (world : World) (verbosity : Nat) (notes : List String) (path : String) (bytes : Bytes)
    (outcome : Outcome) : Prop where
  success : outcome.success = true
  printed : outcome.printed = ""
  reported : outcome.reported =
    logged verbosity .debug notes ++ logged verbosity .info [s!"wrote {bytes.size} bytes to `{path}`"]
  content : outcome.files.content? path = some bytes
  others : ∀ place, world.files.locate path ≠ .ok place → outcome.files.node? place = world.files.node? place

/-- What is printed is read as the bytes of all lines. -/
theorem Printed.readPairs? {world : World} {verbosity : Nat} {notes : List String} {coloured : Bool}
    {lines : List HexLine} {outcome : Outcome} (h : Printed world verbosity notes coloured lines outcome) :
    HexLine.readPairs? outcome.printed.toList = some (lines.flatMap HexLine.bytes) := by
  rw [h.printed, String.toList_join, List.flatMap_map]
  simp only [String.toList_ofList]
  exact HexLine.readPairs?_flatMap_text coloured lines

/-! ### Lines -/

theorem printHex_eq (coloured : Bool) (lines : List HexLine) :
    printHex coloured lines =
      ⟨(lines.map fun line => .ofList (line.text coloured)).map .print, .ok ()⟩ := by
  induction lines with
  | nil => rfl
  | cons line lines ih =>
    rw [printHex, ih]
    rfl

section
variable {world : World} {verbosity : Nat} {encode : Script (List HexLine)} {notes : List String}
  (noted : encode.effects = notes.map (.log .debug))
include noted

/-- **Without all encodings, nothing is put out.** -/
theorem halted_of_error {failure : Failure} (refused : encode.result = .error failure) (coloured : Bool)
    (output : Option String) :
    Halted world verbosity notes failure ((encode >>= emit coloured output).outcome verbosity world) := by
  obtain ⟨effects, result⟩ := encode
  obtain rfl : effects = notes.map (.log .debug) := noted
  obtain rfl : result = .error failure := refused
  rw [Script.error_bind, Script.outcome, performAll_log]
  exact ⟨rfl, rfl, congrArg (· ++ _) String.empty_append, rfl⟩

variable {lines : List HexLine} (encoded : encode.result = .ok lines)
include encoded

/-- **All encodings are printed**, if somebody reads them. -/
theorem printed_of_ok (reads : world.output ≠ .brokenPipe) (coloured : Bool) :
    Printed world verbosity notes coloured lines
      ((encode >>= emit coloured none).outcome verbosity world) := by
  obtain ⟨effects, result⟩ := encode
  obtain rfl : effects = notes.map (.log .debug) := noted
  obtain rfl : result = .ok lines := encoded
  rw [Script.ok_bind, emit, printHex_eq, Script.outcome, performAll_append (performAll_log ..),
    performAll_print reads]
  exact ⟨rfl, String.empty_append, String.empty_append, rfl⟩

/-- **All encodings are saved**, if the file can be written. -/
theorem saved_of_ok (coloured : Bool) {path : String} (writable : world.files.Writable path) :
    Saved world verbosity notes path (lines.flatMap HexLine.bytes).toArray
      ((encode >>= emit coloured (some path)).outcome verbosity world) := by
  obtain ⟨effects, result⟩ := encode
  obtain rfl : effects = notes.map (.log .debug) := noted
  obtain rfl : result = .ok lines := encoded
  obtain ⟨files, saved, content, others⟩ := Files.write_eq_ok writable (lines.flatMap HexLine.bytes).toArray
  have emission : emit coloured (some path) lines =
      ⟨[.save path (lines.flatMap HexLine.bytes).toArray] ++
        [s!"wrote {(lines.flatMap HexLine.bytes).toArray.size} bytes to `{path}`"].map (.log .info), .ok ()⟩ :=
    rfl
  rw [Script.ok_bind, emission, Script.outcome, performAll_append (performAll_log ..), List.singleton_append,
    performAll, perform]
  simp only [start, saved, performAll_log]
  exact ⟨rfl, rfl, congrArg (· ++ _) String.empty_append, content, others⟩

end
end WasmBinary.Command
