import WasmBinary.Proofs.Command.Arguments
import WasmBinary.Proofs.Command.Effects

/-! Saving what would be printed.

A path for the output changes nothing but where the encodings go: the command line is read as before,
and what is worked out does not depend on it. So two runs that only differ in the path succeed or fail
together, and the file gets the bytes that the printed lines are read as
(`file_holds_printed_bytes`). -/
namespace WasmBinary.Command
open Console

/-! ### Two runs -/

/-- The task with its output in another place. -/
def Task.withOutput (output : Option String) : Task → Task
  | .signed bits values _ => .signed bits values output
  | .unsigned bits values _ => .unsigned bits values output
  | .vector limit source _ => .vector limit source output
  | .preamble _ => .preamble output
  | .sections lookup => .sections lookup
  | .opcodes lookup => .opcodes lookup

/-- One run saves what the other prints, or both fail alike and put nothing out. -/
structure Mirrors (world : World) (path : String) (printed saved : Outcome) : Prop where
  success : saved.success = printed.success
  content : printed.success = true → saved.printed = "" ∧ ∃ bytes,
    HexLine.readPairs? printed.printed.toList = some bytes ∧ saved.files.content? path = some bytes.toArray
  failure : printed.success = false → printed.printed = "" ∧ saved.printed = "" ∧
    saved.reported = printed.reported ∧ saved.files = world.files

theorem Task.output?_withOutput {task : Task} {before : Option String} (puts : task.output? = some before)
    (output : Option String) : (task.withOutput output).output? = some output := by
  cases task with
  | sections lookup => cases puts
  | opcodes lookup => cases puts
  | _ => rfl

theorem Task.encode_withOutput (task : Task) (output : Option String) (input : List UInt8) :
    (task.withOutput output).encode input = task.encode input := by
  cases task <;> rfl

/-- **The file gets what would be printed.** -/
theorem run_withOutput {world : World} (reads : world.output ≠ .brokenPipe) {path : String}
    (writable : world.files.Writable path) (verbosity : Nat) (color : ColorChoice) {task : Task}
    (bare : task.output? = some none) :
    Mirrors world path ((Job.mk verbosity color task).run world)
      ((Job.mk verbosity color (task.withOutput (some path))).run world) := by
  obtain ⟨notes, noted⟩ := task.noting_encode world.input
  rw [Job.run, Job.run, Job.script, Job.script, Task.script_eq bare,
    Task.script_eq (Task.output?_withOutput bare (some path)), Task.encode_withOutput]
  generalize color.colours (world.output = .terminal) = coloured
  cases worked : (task.encode world.input).result with
  | error failure =>
    have halted (output : Option String) : Halted world verbosity notes failure
        ((task.encode world.input >>= emit coloured output).outcome verbosity world) :=
      halted_of_error noted worked coloured output
    have printed := halted none
    have saved := halted (some path)
    refine ⟨saved.failed.trans printed.failed.symm, fun done => ?_, fun _ => ?_⟩
    · exact absurd (printed.failed.symm.trans done) Bool.false_ne_true
    · exact ⟨printed.printed, saved.printed, saved.reported.trans printed.reported.symm, saved.files⟩
  | ok lines =>
    have printed : Printed world verbosity notes coloured lines _ := printed_of_ok noted worked reads coloured
    have saved : Saved world verbosity notes path _ _ := saved_of_ok noted worked coloured writable
    refine ⟨saved.success.trans printed.success.symm, fun _ => ?_, fun failed => ?_⟩
    · exact ⟨saved.printed, _, printed.readPairs?, saved.content⟩
    · exact absurd (printed.success.symm.trans failed) Bool.false_ne_true.symm

/-! ### Two command lines -/

/-- A command line that names no output, and one that says the same and names this path besides. -/
def AddsOutput (g : Grammar) (path : String) (plain extended : List String) : Prop :=
  ∃ a front back, Arguments.ofList g plain = .ok a ∧ a.uses .output = [] ∧ a.settings = front ++ back ∧
    Arguments.ofList g extended = .ok ⟨front ++ (.output, some path) :: back, a.values⟩

/-- The commands that put encodings out. -/
def encoders : List (String × Verb) :=
  [("sleb", .signed), ("uleb", .unsigned), ("vector", .vector), ("preamble", .preamble)]

/-- Arguments that say the same, but for the path of the output. -/
structure SameButOutput (path : String) (a b : Arguments) : Prop where
  bare : a.uses .output = []
  names : b.uses .output = [some path]
  others : ∀ flag, flag ≠ .output → b.uses flag = a.uses flag
  values : b.values = a.values

theorem sameButOutput_of_settings {path : String} {a : Arguments} {front back : List Setting}
    (split : a.settings = front ++ back) (bare : a.uses .output = []) :
    SameButOutput path a ⟨front ++ (.output, some path) :: back, a.values⟩ := by
  obtain ⟨settings, values⟩ := a
  obtain rfl : settings = front ++ back := split
  refine ⟨bare, ?_, fun flag other => ?_, rfl⟩
  · simp only [Arguments.uses, List.filter_append, List.map_append, List.append_eq_nil_iff] at bare
    simp [Arguments.uses, bare]
  · simp [Arguments.uses, other.symm]

section
variable {path : String} {a b : Arguments} (same : SameButOutput path a b)
include same

theorem SameButOutput.bits : b.bits = a.bits := bits_congr (same.others .bits (by decide))

theorem SameButOutput.maxDepth : b.maxDepth = a.maxDepth := maxDepth_congr (same.others .maxDepth (by decide))

theorem SameButOutput.color : b.color = a.color := color_congr (same.others .color (by decide))

theorem SameButOutput.someValues : b.someValues = a.someValues := by
  rw [Arguments.someValues, Arguments.someValues, same.values]

theorem SameButOutput.oneValue? : b.oneValue? = a.oneValue? := by
  rw [Arguments.oneValue?, Arguments.oneValue?, same.values]

theorem SameButOutput.noValue : b.noValue = a.noValue := by
  rw [Arguments.noValue, Arguments.noValue, same.values]

theorem SameButOutput.output (nonempty : path ≠ "") : a.output = .ok none ∧ b.output = .ok (some path) := by
  rw [Arguments.output, Arguments.output, @value?_of_uses a .output none same.bare,
    @value?_of_uses b .output (some path) same.names]
  exact ⟨rfl, by simp only [bind, Except.bind, readValue, if_neg nonempty]⟩

theorem SameButOutput.integers (nonempty : path ≠ "") {α : Type} {numeral : String → Except NumeralError α}
    {make : Option Nat → List α → Option String → Task} {task : Task}
    (read : (do return make (← a.bits) (← readValues numeral (← a.someValues)) (← a.output)) = .ok task) :
    ∃ bits values, task = make bits values none ∧
      (do return make (← b.bits) (← readValues numeral (← b.someValues)) (← b.output)) =
        .ok (make bits values (some path)) := by
  obtain ⟨bare, names⟩ := same.output nonempty
  simp only [bind_eq_ok_iff, same.bits, same.someValues, bare, names] at read ⊢
  obtain ⟨bits, width, texts, given, values, numerals, _, none, made⟩ := read
  obtain rfl := Except.ok.inj none
  obtain rfl := Except.ok.inj made
  exact ⟨bits, values, rfl, bits, width, texts, given, values, numerals, some path, rfl, rfl⟩

/-- A task read from one is read from the other, with the path as its output. -/
theorem SameButOutput.task {name : String} {verb : Verb} (encoder : (name, verb) ∈ encoders)
    (nonempty : path ≠ "") {task : Task} (read : verb.task a = .ok task) :
    task.output? = some none ∧ verb.task b = .ok (task.withOutput (some path)) := by
  obtain ⟨bare, names⟩ := same.output nonempty
  simp only [encoders, List.mem_cons, Prod.mk.injEq, List.not_mem_nil, or_false] at encoder
  rcases encoder with ⟨-, rfl⟩ | ⟨-, rfl⟩ | ⟨-, rfl⟩ | ⟨-, rfl⟩
  · obtain ⟨bits, values, rfl, made⟩ := same.integers nonempty read
    exact ⟨rfl, made⟩
  · obtain ⟨bits, values, rfl, made⟩ := same.integers nonempty read
    exact ⟨rfl, made⟩
  · simp only [Verb.task, bind_eq_ok_iff, same.maxDepth, same.oneValue?, bare, names] at read ⊢
    obtain ⟨limit, depth, source, given, _, none, made⟩ := read
    obtain rfl := Except.ok.inj none
    obtain rfl := Except.ok.inj made
    exact ⟨rfl, limit, depth, source, given, some path, rfl, rfl⟩
  · simp only [Verb.task, bind_eq_ok_iff, same.noValue, bare, names] at read ⊢
    obtain ⟨_, alone, _, none, made⟩ := read
    obtain rfl := Except.ok.inj none
    obtain rfl := Except.ok.inj made
    exact ⟨rfl, (), alone, some path, rfl, rfl⟩

end

/-- A command line that also names an output asks for the same job with that output. -/
theorem ofArguments_of_addsOutput {name : String} {verb : Verb} (encoder : (name, verb) ∈ encoders) {path : String}
    (nonempty : path ≠ "") {plain extended : List String} (added : AddsOutput verb.grammar path plain extended)
    {job : Job} (accepted : Request.ofArguments (name :: plain) = .ok (.job job)) :
    job.task.output? = some none ∧ Request.ofArguments (name :: extended) =
      .ok (.job { job with task := job.task.withOutput (some path) }) := by
  have named : Verb.ofName? name = some verb := by
    have all : ∀ entry ∈ encoders, Verb.ofName? entry.1 = some entry.2 := by decide
    exact all _ encoder
  rw [ofArguments_eq_ok_iff named, job_eq_ok_iff] at accepted ⊢
  obtain ⟨a, front, back, said, bare, split, longer⟩ := added
  obtain ⟨_, said', noHelp, verbose, chosen, task⟩ := accepted
  obtain rfl := Except.ok.inj (said.symm.trans said')
  have same : SameButOutput path a _ := sameButOutput_of_settings split bare
  obtain ⟨puts, task⟩ := same.task encoder nonempty task
  refine ⟨puts, _, longer, ?_, ?_, same.color.trans chosen, task⟩
  · exact (same.others .help (by decide)).trans noHelp
  · exact (congrArg List.length (same.others .verbose (by decide))).trans verbose

/-! ### Where an option may stand -/

/-- The ways to name the output. -/
inductive NamesOutput (g : Grammar) (path : String) : List String → Prop where
  | short (value : g.readArgument path = .ok .value) : NamesOutput g path ["-o", path]
  | long (value : g.readArgument path = .ok .value) : NamesOutput g path ["--output", path]
  | joined : NamesOutput g path ["--output=" ++ path]

theorem scan_namesOutput {name : String} {verb : Verb} (encoder : (name, verb) ∈ encoders) {path : String}
    {arguments : List String} (names : NamesOutput verb.grammar path arguments) (back : List String) :
    Arguments.scan verb.grammar none (arguments ++ back) =
      (Arguments.scan verb.grammar none back).map (Arguments.addSettings [(.output, some path)]) := by
  have known : verb.grammar.long? Flag.output.long = some .output ∧
      verb.grammar.readArgument "-o" = .ok (.options [] (some .output)) ∧
      verb.grammar.readArgument "--output" = .ok (.options [] (some .output)) := by
    simp only [encoders, List.mem_cons, Prod.mk.injEq, List.not_mem_nil, or_false] at encoder
    rcases encoder with ⟨-, rfl⟩ | ⟨-, rfl⟩ | ⟨-, rfl⟩ | ⟨-, rfl⟩ <;> exact ⟨by decide, rfl, rfl⟩
  obtain ⟨byName, letter, word⟩ := known
  cases names with
  | short value => exact Arguments.scan_waiting letter value back
  | long value => exact Arguments.scan_waiting word value back
  | joined => exact scan_joined byName rfl rfl path back

/-- A path for the output is added wherever an option may stand. -/
theorem addsOutput_of_names {name : String} {verb : Verb} (encoder : (name, verb) ∈ encoders) {path : String}
    {arguments : List String} (names : NamesOutput verb.grammar path arguments) {front back : List String}
    {a b : Arguments} (said : Arguments.ofList verb.grammar front = .ok a) (noSeparator : "--" ∉ front)
    (noValue : verb.grammar.dashedValues = true → a.values = [])
    (plain : Arguments.ofList verb.grammar (front ++ back) = .ok b) (bare : b.uses .output = []) :
    AddsOutput verb.grammar path (front ++ back) (front ++ (arguments ++ back)) := by
  rw [Arguments.ofList, Arguments.scan_open said noSeparator noValue] at plain
  cases rest : Arguments.scan verb.grammar none back with
  | error e =>
    rw [rest] at plain
    cases plain
  | ok c =>
    rw [rest] at plain
    obtain rfl := Except.ok.inj plain
    refine ⟨_, a.settings, c.settings, ?_, bare, rfl, ?_⟩
    · rw [Arguments.ofList, Arguments.scan_open said noSeparator noValue, rest]
      rfl
    · rw [Arguments.ofList, Arguments.scan_open said noSeparator noValue, scan_namesOutput encoder names, rest]
      rfl

theorem ne_empty_of_writable {files : Files} {path : String} (writable : files.Writable path) : path ≠ "" := by
  rintro rfl
  obtain ⟨place, found, -⟩ := writable
  cases found

/-- **A file gets the bytes that would be printed.** A path for the output can be added to any command
line wherever an option may stand. Then the command is accepted as before, and it succeeds or fails as
before. If it succeeds, nothing is printed any more, and the file holds the bytes that the lines are read
as without their colours and blanks. If it fails, nothing is printed in either run, both report the same
and no file is changed. -/
theorem file_holds_printed_bytes {name : String} {verb : Verb} (encoder : (name, verb) ∈ encoders)
    (path : String) :
    (∀ arguments front back a b, NamesOutput verb.grammar path arguments →
      Arguments.ofList verb.grammar front = .ok a → "--" ∉ front →
      (verb.grammar.dashedValues = true → a.values = []) →
      Arguments.ofList verb.grammar (front ++ back) = .ok b → b.uses .output = [] →
      AddsOutput verb.grammar path (front ++ back) (front ++ (arguments ++ back))) ∧
    ∀ plain extended job, AddsOutput verb.grammar path plain extended →
      Request.ofArguments (name :: plain) = .ok (.job job) →
      ∀ world : World, world.output ≠ .brokenPipe → world.files.Writable path →
        ∃ saving, Request.ofArguments (name :: extended) = .ok (.job saving) ∧
          Mirrors world path (job.run world) (saving.run world) := by
  constructor
  · intro arguments front back a b names said noSeparator noValue plain bare
    exact addsOutput_of_names encoder names said noSeparator noValue plain bare
  · intro plain extended job added accepted world reads writable
    obtain ⟨puts, saving⟩ :=
      ofArguments_of_addsOutput encoder (ne_empty_of_writable writable) added accepted
    exact ⟨_, saving, run_withOutput reads writable job.verbosity job.color puts⟩

/-- A coloured frame replaces a longer file. A number that is too large for its width leaves the file
as it is, and both runs report it. -/
theorem file_holds_printed_bytes_nested :
    let files : Files := ⟨["home"], [(["home"], .directory), (["home", "out"], .file #[1, 2, 3, 4, 5])]⟩
    let world : World := ⟨[], .pipe, files⟩
    (("vector", Verb.vector) ∈ encoders ∧ ("uleb", Verb.unsigned) ∈ encoders ∧ world.output ≠ .brokenPipe ∧
      files.Writable "out") ∧
    (∃ printing saving, Request.ofArguments ["vector", "--color=always", "[7,[9]]"] = .ok (.job printing) ∧
      Request.ofArguments ["vector", "--color=always", "-o", "out", "[7,[9]]"] = .ok (.job saving) ∧
      (saving.run world).success = true ∧ (saving.run world).printed = "" ∧
      HexLine.readPairs? (printing.run world).printed.toList = some [2, 7, 9] ∧
      (saving.run world).files.content? "out" = some #[2, 7, 9]) ∧
    (∃ printing saving, Request.ofArguments ["uleb", "--bits=8", "255", "256"] = .ok (.job printing) ∧
      Request.ofArguments ["uleb", "--bits=8", "255", "256", "--output=out"] = .ok (.job saving) ∧
      (saving.run world).success = false ∧ (saving.run world).printed = "" ∧
      (saving.run world).reported = (printing.run world).reported ∧ (saving.run world).files = files) := by
  intro files world
  have writable : files.Writable "out" := ⟨["home", "out"], by decide +kernel, by decide +kernel⟩
  refine ⟨⟨by decide, by decide, nofun, writable⟩, ?_, ?_⟩
  · obtain ⟨adds, runs⟩ := @file_holds_printed_bytes "vector" .vector (by decide) "out"
    have added := adds ["-o", "out"] ["--color=always"] ["[7,[9]]"] ⟨[(.color, some "always")], []⟩
      ⟨[(.color, some "always")], ["[7,[9]]"]⟩ (.short rfl) rfl (by decide) nofun rfl rfl
    have accepted : Request.ofArguments ["vector", "--color=always", "[7,[9]]"] =
        .ok (.job ⟨0, .always, .vector none (some "[7,[9]]") none⟩) := by decide +kernel
    obtain ⟨saving, extended, mirrors⟩ := runs _ _ _ added accepted world nofun writable
    obtain ⟨silent, bytes, printed, content⟩ := mirrors.content (by decide +kernel)
    have pairs : some bytes = some [2, 7, 9] := printed.symm.trans (by decide +kernel)
    obtain rfl := Option.some.inj pairs
    exact ⟨_, saving, accepted, extended, mirrors.success.trans (by decide +kernel), silent, printed, content⟩
  · obtain ⟨adds, runs⟩ := @file_holds_printed_bytes "uleb" .unsigned (by decide) "out"
    have added := adds ["--output=out"] ["--bits=8", "255", "256"] [] ⟨[(.bits, some "8")], ["255", "256"]⟩
      ⟨[(.bits, some "8")], ["255", "256"]⟩ .joined rfl (by decide) nofun rfl rfl
    have accepted : Request.ofArguments ["uleb", "--bits=8", "255", "256"] =
        .ok (.job ⟨0, .auto, .unsigned (some 8) [255, 256] none⟩) := by decide +kernel
    obtain ⟨saving, extended, mirrors⟩ := runs _ _ _ added accepted world nofun writable
    obtain ⟨-, silent, reported, same⟩ := mirrors.failure (by decide +kernel)
    exact ⟨_, saving, accepted, extended, mirrors.success.trans (by decide +kernel), silent, reported, same⟩

end WasmBinary.Command
