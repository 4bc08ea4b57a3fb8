import WasmBinary.Proofs.Command.Alike
import WasmBinary.Proofs.Command.Arguments

/-! Detail and colours stay outside the results.

How much detail is asked for decides which lines of the log are written, and the colours decide which
bytes are emphasised. Two runs that differ in nothing else go through the same effects and stop at the
same one (`performAll_alike`), so they end the same but for these lines and this emphasis. Two command
lines ask for such runs if they say the same apart from the options on detail and colours (`SameBut`),
wherever these stand (`detail_and_colours_stay_outside`). -/
namespace WasmBinary.Command
open Console

/-! ### Two runs -/

/-- What is printed is related, and the files are the same. -/
structure Console.Alike (R : String → String → Prop) (a b : Console) : Prop where
  printed : R a.printed b.printed
  files : a.files = b.files

section
variable {R : String → String → Prop} (add : ∀ {a b c d}, R a b → R c d → R (a ++ c) (b ++ d))
  (verbosity verbosity' : Nat)
include add

/-- Alike effects both succeed or are stopped by the same. -/
theorem perform_alike (output : Output) {effect effect' : Effect} (same : effect.Alike R effect')
    {console console' : Console} (alike : console.Alike R console') :
    (∃ next next', console.perform verbosity output effect = .ok next ∧
      console'.perform verbosity' output effect' = .ok next' ∧ next.Alike R next') ∨
    ∃ interruption, console.perform verbosity output effect = .error interruption ∧
      console'.perform verbosity' output effect' = .error interruption := by
  obtain ⟨printed, files⟩ := alike
  cases same with
  | log level message =>
    refine .inl ?_
    rw [perform, perform]
    split <;> split <;> exact ⟨_, _, rfl, rfl, printed, files⟩
  | print related =>
    rw [perform, perform]
    split
    · exact .inr ⟨_, rfl, rfl⟩
    · exact .inl ⟨_, _, rfl, rfl, add printed related, files⟩
  | save path bytes =>
    rw [perform, perform, files]
    cases console'.files.write path bytes with
    | ok files => exact .inl ⟨_, _, rfl, rfl, printed, rfl⟩
    | error fault => exact .inr ⟨_, rfl, rfl⟩

/-- **Alike effects are performed alike**, in whatever detail. -/
theorem performAll_alike (output : Output) {effects effects' : List Effect}
    (same : List.Forall₂ (Effect.Alike R) effects effects') {console console' : Console}
    (alike : console.Alike R console') :
    ∃ next next' interruption, performAll verbosity output console effects = (next, interruption) ∧
      performAll verbosity' output console' effects' = (next', interruption) ∧ next.Alike R next' := by
  induction same generalizing console console' with
  | nil => exact ⟨console, console', none, rfl, rfl, alike⟩
  | cons first rest ih =>
    rw [performAll, performAll]
    obtain ⟨between, between', done, done', more⟩ | ⟨interruption, stopped, stopped'⟩ :=
      perform_alike add verbosity verbosity' output first alike
    · rw [done, done']
      exact ih more
    · rw [stopped, stopped']
      exact ⟨console, console', some interruption, rfl, rfl, alike⟩

/-- Alike scripts have alike ends. -/
theorem outcome_alike (nothing : R "" "") {escapes escapes' : Prop} {path? : Option String}
    {s s' : Script Unit} (tame : s.Tame escapes path?) (tame' : s'.Tame escapes' path?)
    (same : List.Forall₂ (Effect.Alike R) s.effects s'.effects) (result : s.result = s'.result)
    (unbroken : ∀ path, path? = some path → '\n' ∉ path.toList) (world : World) :
    let outcome := s.outcome verbosity world
    let outcome' := s'.outcome verbosity' world
    outcome.success = outcome'.success ∧ outcome.files = outcome'.files ∧
      R outcome.printed outcome'.printed ∧ outcome.unloggedLines = outcome'.unloggedLines := by
  have start : (Console.start world).Alike R (.start world) := ⟨nothing, rfl⟩
  obtain ⟨console, console', interruption, ended, ended', printed, files⟩ :=
    performAll_alike add verbosity verbosity' world.output same start
  dsimp only
  rw [tame.unloggedLines ended fun _ => unbroken, tame'.unloggedLines ended' fun _ => unbroken,
    Script.outcome_eq ended, Script.outcome_eq ended', result]
  exact ⟨rfl, files, printed, rfl⟩

end

/-! ### Two jobs -/

/-- Two ends are the same but for lines of the log and the emphasis of what is printed. -/
structure SameResults (a b : Outcome) : Prop where
  success : a.success = b.success
  files : a.files = b.files
  visible : HexLine.visible a.printed.toList = HexLine.visible b.printed.toList
  unlogged : a.unloggedLines = b.unloggedLines

/-- The path a task saves to makes one line. -/
def Task.PathUnbroken (task : Task) : Prop := ∀ path, task.output? = some (some path) → '\n' ∉ path.toList

section
variable {task : Task} (unbroken : task.PathUnbroken) (verbosity verbosity' : Nat) (color : ColorChoice)
  (world : World)
include unbroken

/-- **Neither detail nor colours change what a task does.** -/
theorem run_sameResults (color' : ColorChoice) :
    SameResults ((Job.mk verbosity color task).run world) ((Job.mk verbosity' color' task).run world) := by
  obtain ⟨same, result⟩ := task.alike_script (color.colours (world.output = .terminal))
    (color'.colours (world.output = .terminal)) world.input
  have nothing : SameLook "" "" := .of_plain (by decide)
  obtain ⟨success, files, printed, unlogged⟩ := outcome_alike (R := SameLook) SameLook.append verbosity
    verbosity' nothing (task.tame_script _ world.input) (task.tame_script _ world.input) same result
    (fun path names => unbroken path (Option.join_eq_some_iff.1 names)) world
  exact ⟨success, files, printed.visible, unlogged⟩

/-- In the same colours, the same is printed. -/
theorem printed_run_eq :
    ((Job.mk verbosity color task).run world).printed = ((Job.mk verbosity' color task).run world).printed := by
  have tame := task.tame_script (color.colours (world.output = .terminal)) world.input
  obtain ⟨-, -, printed, -⟩ := outcome_alike (congrArg₂ (· ++ ·)) verbosity verbosity' rfl tame tame
    (alike_self _) rfl (fun path names => unbroken path (Option.join_eq_some_iff.1 names)) world
  exact printed

end

/-- **Only the frame of a tree is printed with escapes**, and only if it is not saved. -/
theorem printsTree_of_escape {job : Job} {world : World} (escape : '\x1b' ∈ (job.run world).printed.toList) :
    job.task.PrintsTree := by
  have tame := job.task.tame_script (job.color.colours (world.output = .terminal)) world.input
  rcases ended : performAll job.verbosity world.output (.start world) (job.script world).effects with
    ⟨console, interruption⟩
  rw [Job.run, Script.outcome_eq ended] at escape
  exact (tame.of_escape ended escape).2

/-! ### Two command lines -/

/-- What is said apart from some options. -/
def Arguments.without (ignored : List Flag) (a : Arguments) : Arguments :=
  { a with settings := a.settings.filter fun s => s.1 ∉ ignored }

/-- Both say the same to a command apart from some options. -/
def SameBut (g : Grammar) (ignored : List Flag) (arguments arguments' : List String) : Prop :=
  ∃ a a', Arguments.ofList g arguments = .ok a ∧ Arguments.ofList g arguments' = .ok a' ∧
    a.without ignored = a'.without ignored

theorem uses_without {ignored : List Flag} (a : Arguments) {flag : Flag} (kept : flag ∉ ignored) :
    (a.without ignored).uses flag = a.uses flag := by
  rw [Arguments.uses, Arguments.uses, Arguments.without, List.filter_filter]
  congr 1
  refine List.filter_congr fun s _ => ?_
  by_cases same : s.1 = flag
  · simp [same, kept]
  · simp [same]

section
variable {verb : Verb} {ignored : List Flag} {arguments arguments' : List String} {job job' : Job}
  (same : SameBut verb.grammar ignored arguments arguments') (accepted : verb.job arguments = .ok job)
  (accepted' : verb.job arguments' = .ok job')
include same accepted accepted'

theorem SameBut.exists_arguments : ∃ a a' : Arguments, a.values = a'.values ∧
    (∀ flag, flag ∉ ignored → a.uses flag = a'.uses flag) ∧
    (verb.task a = .ok job.task ∧ verb.task a' = .ok job'.task) ∧
    a.color = .ok job.color ∧ a'.color = .ok job'.color := by
  obtain ⟨a, a', said, said', rest⟩ := same
  obtain ⟨b, again, -, -, color, task⟩ := job_eq_ok_iff.1 accepted
  obtain ⟨b', again', -, -, color', task'⟩ := job_eq_ok_iff.1 accepted'
  obtain rfl := Except.ok.inj (said.symm.trans again)
  obtain rfl := Except.ok.inj (said'.symm.trans again')
  have values : (a.without ignored).values = (a'.without ignored).values := congrArg Arguments.values rest
  refine ⟨a, a', values, fun flag kept => ?_, ⟨task, task'⟩, color, color'⟩
  rw [← uses_without a kept, rest, uses_without a' kept]

/-- If they are accepted, both ask for the same task. -/
theorem SameBut.task (read : ∀ flag ∈ [Flag.output, .bits, .maxDepth, .list], flag ∉ ignored) :
    job.task = job'.task := by
  obtain ⟨a, a', values, uses, ⟨task, task'⟩, -⟩ := same.exists_arguments accepted accepted'
  have agree := task_congr values (fun flag mem => uses flag (read flag mem)) verb
  exact Except.ok.inj (task.symm.trans (agree.trans task'))

/-- If colours are not ignored, they are the same. -/
theorem SameBut.color (read : Flag.color ∉ ignored) : job.color = job'.color := by
  obtain ⟨a, a', -, uses, -, color, color'⟩ := same.exists_arguments accepted accepted'
  have agree : a.color = a'.color := color_congr (uses .color read)
  exact Except.ok.inj (color.symm.trans (agree.trans color'))

end

/-! ### Where the options may stand -/

/-- The ways to ask for more detail and to choose colours. -/
inductive Adjusts (g : Grammar) : Flag → List String → Prop where
  | letters (more : Nat) : Adjusts g .verbose [.ofList ('-' :: List.replicate (more + 1) 'v')]
  | name : Adjusts g .verbose ["--verbose"]
  | joined (value : String) : Adjusts g .color ["--color=" ++ value]
  | apart {value : String} (read : g.readArgument value = .ok .value) : Adjusts g .color ["--color", value]

theorem readShort_letters {g : Grammar} (known : g.short? 'v' = some .verbose) (argument : String)
    (count : Nat) : g.readShort argument (List.replicate count 'v') =
      .ok (.options (List.replicate count (.verbose, none)) none) := by
  induction count with
  | zero => rfl
  | succ count ih =>
    rw [List.replicate_succ, Grammar.readShort, known]
    simp only [Flag.takesValue, ih]
    rfl

theorem readArgument_letters {g : Grammar} (known : g.short? 'v' = some .verbose) (more : Nat) :
    g.readArgument (.ofList ('-' :: List.replicate (more + 1) 'v')) =
      .ok (.options (List.replicate (more + 1) (.verbose, none)) none) := by
  have letters : ¬(g.dashedValues &&
      ('v' :: List.replicate more 'v').any fun c => (g.short? c).isNone) = true := by
    rw [← List.replicate_succ, List.any_replicate, known]
    simp
  rw [Grammar.readArgument, String.toList_ofList, List.replicate_succ]
  exact (if_neg letters).trans (readShort_letters known _ (more + 1))

theorem scan_adjusts {verb : Verb} {flag : Flag} {piece : List String}
    (adjusts : Adjusts verb.grammar flag piece) :
    ∃ settings : List Setting, (∀ s ∈ settings, s.1 = flag) ∧ ∀ back,
      Arguments.scan verb.grammar none (piece ++ back) =
        (Arguments.scan verb.grammar none back).map (Arguments.addSettings settings) := by
  have known : verb.grammar.short? 'v' = some .verbose ∧
      verb.grammar.long? Flag.color.long = some .color ∧
      verb.grammar.readArgument "--verbose" = .ok (.options [(.verbose, none)] none) ∧
      verb.grammar.readArgument "--color" = .ok (.options [] (some .color)) := by
    cases verb <;> exact ⟨by decide, by decide, rfl, rfl⟩
  obtain ⟨letter, byName, verbose, word⟩ := known
  cases adjusts with
  | letters more =>
    refine ⟨_, fun s mem => ?_, Arguments.scan_options (readArgument_letters letter more)⟩
    rw [(List.mem_replicate.1 mem).2]
  | name => exact ⟨_, List.forall_mem_singleton.2 rfl, Arguments.scan_options verbose⟩
  | joined value => exact ⟨_, List.forall_mem_singleton.2 rfl, scan_joined byName rfl rfl value⟩
  | apart read => exact ⟨_, List.forall_mem_singleton.2 rfl, Arguments.scan_waiting word read⟩

theorem scan_pieces {verb : Verb} {ignored : List Flag} {pieces : List (List String)}
    (adjust : ∀ piece ∈ pieces, ∃ flag ∈ ignored, Adjusts verb.grammar flag piece) :
    ∃ settings : List Setting, (∀ s ∈ settings, s.1 ∈ ignored) ∧ ∀ back,
      Arguments.scan verb.grammar none (pieces.flatten ++ back) =
        (Arguments.scan verb.grammar none back).map (Arguments.addSettings settings) := by
  induction pieces with
  | nil =>
    refine ⟨[], nofun, fun back => ?_⟩
    rw [List.flatten_nil, List.nil_append]
    cases Arguments.scan verb.grammar none back <;> rfl
  | cons piece pieces ih =>
    obtain ⟨⟨flag, mem, adjusts⟩, others⟩ := List.forall_mem_cons.1 adjust
    obtain ⟨first, every, scanned⟩ := scan_adjusts adjusts
    obtain ⟨more, each, rest⟩ := ih others
    refine ⟨first ++ more, fun s among => ?_, fun back => ?_⟩
    · rcases List.mem_append.1 among with among | among
      · exact every s among ▸ mem
      · exact each s among
    · rw [List.flatten_cons, List.append_assoc, scanned, rest]
      cases Arguments.scan verb.grammar none back with
      | error e => rfl
      | ok a => simp [Except.map, Arguments.addSettings]

/-- Wherever options may stand, those on detail and colours may be exchanged. -/
theorem sameBut_of_adjusts {verb : Verb} {ignored : List Flag} {pieces pieces' : List (List String)}
    (adjust : ∀ piece ∈ pieces ++ pieces', ∃ flag ∈ ignored, Adjusts verb.grammar flag piece)
    {front back : List String} {a b : Arguments} (said : Arguments.ofList verb.grammar front = .ok a)
    (noSeparator : "--" ∉ front) (noValue : verb.grammar.dashedValues = true → a.values = [])
    (whole : Arguments.ofList verb.grammar (front ++ (pieces.flatten ++ back)) = .ok b) :
    SameBut verb.grammar ignored (front ++ (pieces.flatten ++ back)) (front ++ (pieces'.flatten ++ back)) := by
  obtain ⟨settings, ignore, scanned⟩ := scan_pieces fun piece mem => adjust piece (List.mem_append_left _ mem)
  obtain ⟨settings', ignore', scanned'⟩ := scan_pieces fun piece mem => adjust piece (List.mem_append_right _ mem)
  have opened (middle : List String) := Arguments.scan_open said noSeparator noValue (middle ++ back)
  rw [Arguments.ofList, opened, scanned] at whole
  cases rest : Arguments.scan verb.grammar none back with
  | error e =>
    rw [rest] at whole
    cases whole
  | ok c =>
    have read (middle : List String) (between : List Setting)
        (said : ∀ back, Arguments.scan verb.grammar none (middle ++ back) =
          (Arguments.scan verb.grammar none back).map (Arguments.addSettings between)) :
        Arguments.ofList verb.grammar (front ++ (middle ++ back)) =
          .ok ⟨a.settings ++ (between ++ c.settings), a.values ++ c.values⟩ := by
      rw [Arguments.ofList, opened, said, rest]
      rfl
    have dropped {between : List Setting} (ignore : ∀ s ∈ between, s.1 ∈ ignored) :
        between.filter (fun s => s.1 ∉ ignored) = [] := by
      rw [List.filter_eq_nil_iff]
      intro s mem
      simpa using ignore s mem
    refine ⟨_, _, read _ settings scanned, read _ settings' scanned', ?_⟩
    simp only [Arguments.without, List.filter_append, dropped ignore, dropped ignore']

theorem eq_vector_of_printsTree {verb : Verb} {a : Arguments} {task : Task} (read : verb.task a = .ok task)
    (prints : task.PrintsTree) : verb = .vector := by
  obtain ⟨limit, source, rfl⟩ := prints
  cases verb with
  | vector => rfl
  | signed | unsigned =>
    simp only [Verb.task, bind_eq_ok_iff] at read
    obtain ⟨_, -, _, -, _, -, _, -, made⟩ := read
    cases made
  | sections | opcodes =>
    simp only [Verb.task, bind_eq_ok_iff] at read
    obtain ⟨_, -, made⟩ := read
    cases made
  | preamble =>
    simp only [Verb.task, bind_eq_ok_iff] at read
    obtain ⟨_, -, _, -, made⟩ := read
    cases made

/-- **Detail and colours stay outside the results.** In any command line, the options on them can be
exchanged wherever an option may stand. If two lines that say the same apart from them are accepted,
both runs succeed or both fail, they leave the same files, print the same but for its emphasis, and
report the same but for lines of the log. If the colours are the same, too, exactly the same is printed.
Escapes are printed for the frame of a tree only, and only if it is not saved. -/
theorem detail_and_colours_stay_outside {name : String} {verb : Verb} (named : Verb.ofName? name = some verb) :
    (∀ ignored (pieces pieces' : List (List String)) front back a b,
      (∀ piece ∈ pieces ++ pieces', ∃ flag ∈ ignored, Adjusts verb.grammar flag piece) →
      Arguments.ofList verb.grammar front = .ok a → "--" ∉ front →
      (verb.grammar.dashedValues = true → a.values = []) →
      Arguments.ofList verb.grammar (front ++ (pieces.flatten ++ back)) = .ok b →
      SameBut verb.grammar ignored (front ++ (pieces.flatten ++ back)) (front ++ (pieces'.flatten ++ back))) ∧
    (∀ arguments arguments' job job', SameBut verb.grammar [.verbose, .color] arguments arguments' →
      Request.ofArguments (name :: arguments) = .ok (.job job) →
      Request.ofArguments (name :: arguments') = .ok (.job job') → job.task.PathUnbroken → ∀ world,
        SameResults (job.run world) (job'.run world) ∧
        (SameBut verb.grammar [.verbose] arguments arguments' →
          (job.run world).printed = (job'.run world).printed)) ∧
    ∀ arguments job, Request.ofArguments (name :: arguments) = .ok (.job job) → ∀ world,
      '\x1b' ∈ (job.run world).printed.toList → verb = .vector ∧ job.task.output? = some none := by
  refine ⟨?_, ?_, ?_⟩
  · intro ignored pieces pieces' front back a b adjust said noSeparator noValue whole
    exact sameBut_of_adjusts adjust said noSeparator noValue whole
  · intro arguments arguments' job job' same accepted accepted' unbroken world
    rw [ofArguments_eq_ok_iff named] at accepted accepted'
    obtain ⟨verbosity, color, task⟩ := job
    obtain ⟨verbosity', color', task'⟩ := job'
    obtain rfl : task = task' := same.task accepted accepted' (by decide)
    refine ⟨run_sameResults unbroken verbosity verbosity' color world color', fun same => ?_⟩
    obtain rfl : color = color' := same.color accepted accepted' (by decide)
    exact printed_run_eq unbroken verbosity verbosity' color world
  · intro arguments job accepted world escape
    rw [ofArguments_eq_ok_iff named, job_eq_ok_iff] at accepted
    obtain ⟨a, -, -, -, -, read⟩ := accepted
    have prints := printsTree_of_escape escape
    refine ⟨eq_vector_of_printsTree read prints, ?_⟩
    obtain ⟨limit, source, task⟩ := prints
    rw [task]
    rfl

/-- A frame is printed in colours and with notes, or without either. A section kind is told before the
first name that is none is refused, in whatever detail. -/
theorem detail_and_colours_stay_outside_twice :
    let world : World := ⟨[], .pipe, ⟨["home"], [(["home"], .directory)]⟩⟩
    (Verb.ofName? "vector" = some .vector ∧ Verb.ofName? "section" = some .sections) ∧
    (∃ job job', Request.ofArguments ["vector", "--color=always", "-vv", "[7,[9]]"] = .ok (.job job) ∧
      Request.ofArguments ["vector", "[7,[9]]"] = .ok (.job job') ∧
      '\x1b' ∈ (job.run world).printed.toList ∧ (job.run world).reported ≠ (job'.run world).reported ∧
      SameResults (job.run world) (job'.run world) ∧ (job'.run world).printed = "02 07 09\n") ∧
    (∃ job job', Request.ofArguments ["section", "--verbose", "--verbose", "Type", "nope"] = .ok (.job job) ∧
      Request.ofArguments ["section", "Type", "nope"] = .ok (.job job') ∧
      (job.run world).reported ≠ (job'.run world).reported ∧ SameResults (job.run world) (job'.run world) ∧
      (job.run world).printed = (job'.run world).printed ∧ (job'.run world).printed = "1\n" ∧
      (job.run world).success = false) := by
  intro world
  refine ⟨⟨by decide, by decide⟩, ?_, ?_⟩
  · obtain ⟨exchange, runs, -⟩ := @detail_and_colours_stay_outside "vector" .vector (by decide)
    have adjust : ∀ piece ∈ [["--color=always"], ["-vv"]] ++ ([] : List (List String)),
        ∃ flag ∈ [Flag.verbose, .color], Adjusts Verb.vector.grammar flag piece := by
      simp only [List.append_nil, List.forall_mem_cons]
      refine ⟨⟨.color, by decide, .joined "always"⟩, ⟨.verbose, by decide, .letters 1⟩, nofun⟩
    have same := exchange _ _ _ [] ["[7,[9]]"] ⟨[], []⟩ _ adjust rfl nofun nofun rfl
    have coloured : Request.ofArguments ["vector", "--color=always", "-vv", "[7,[9]]"] =
        .ok (.job ⟨2, .always, .vector none (some "[7,[9]]") none⟩) := by decide +kernel
    have plain : Request.ofArguments ["vector", "[7,[9]]"] =
        .ok (.job ⟨0, .auto, .vector none (some "[7,[9]]") none⟩) := by decide +kernel
    obtain ⟨results, -⟩ := runs _ _ _ _ same coloured plain nofun world
    exact ⟨_, _, coloured, plain, by decide +kernel, by decide +kernel, results, by decide +kernel⟩
  · obtain ⟨exchange, runs, -⟩ := @detail_and_colours_stay_outside "section" .sections (by decide)
    have adjust (ignored : List Flag) (verbose : Flag.verbose ∈ ignored) :
        ∀ piece ∈ [["--verbose"], ["--verbose"]] ++ ([] : List (List String)),
          ∃ flag ∈ ignored, Adjusts Verb.sections.grammar flag piece := by
      simp only [List.append_nil, List.forall_mem_cons]
      exact ⟨⟨.verbose, verbose, .name⟩, ⟨.verbose, verbose, .name⟩, nofun⟩
    have same (ignored : List Flag) (verbose : Flag.verbose ∈ ignored) :=
      exchange _ _ _ [] ["Type", "nope"] ⟨[], []⟩ _ (adjust ignored verbose) rfl nofun nofun rfl
    have detailed : Request.ofArguments ["section", "--verbose", "--verbose", "Type", "nope"] =
        .ok (.job ⟨2, .auto, .sections (.queries ["Type", "nope"])⟩) := by decide +kernel
    have plain : Request.ofArguments ["section", "Type", "nope"] =
        .ok (.job ⟨0, .auto, .sections (.queries ["Type", "nope"])⟩) := by decide +kernel
    obtain ⟨results, printed⟩ := runs _ _ _ _ (same _ (by decide)) detailed plain nofun world
    exact ⟨_, _, detailed, plain, by decide +kernel, results, printed (same _ (by decide)), by decide +kernel,
      by decide +kernel⟩

end WasmBinary.Command
