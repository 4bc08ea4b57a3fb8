import WasmBinary.Proofs.Command.Alike

/-! Output that nobody reads.

Two runs, one with a reader and one without, do the same up to the first text that is printed, and there
the second one stops in silence (`performAll_closed`). No text is empty and no message in front of one
spans lines, so either the first run printed something and the second reports nothing but lines of the
log, or both are the same (`broken_pipes_are_silent`). -/
namespace WasmBinary.Command
open Console

/-- Only what is printed depends on who reads it. -/
theorem perform_output (verbosity : Nat) (output output' : Output) (console : Console) {effect : Effect}
    (silent : ∀ text, effect ≠ .print text) :
    console.perform verbosity output effect = console.perform verbosity output' effect := by
  cases effect with
  | log level message => rw [perform, perform]
  | print text => exact absurd rfl (silent text)
  | save path bytes => rw [perform, perform]

section
variable {verbosity : Nat} {output : Output}

/-- What has been printed stays. -/
theorem printed_ne_empty {console next : Console} {effects : List Effect} {interruption : Option Interruption}
    (ended : performAll verbosity output console effects = (next, interruption))
    (printed : console.printed ≠ "") : next.printed ≠ "" := by
  refine performAll_keeps (I := fun console => console.printed ≠ "") (fun effect _ => ?_) ended printed
  intro console next before performed
  obtain ⟨level, message, -, rfl⟩ | ⟨text, -, -, rfl⟩ | ⟨path, bytes, files, -, -, rfl⟩ :=
    perform_cases performed
  · exact before
  · exact fun none => before (String.append_eq_empty_iff.1 none).1
  · exact before

/-- **Without a reader, the first text that is printed ends a run**, and up to it nothing is different. -/
theorem performAll_closed {R : String → String → Prop} (reads : output ≠ .brokenPipe)
    {effects effects' : List Effect} (same : List.Forall₂ (Effect.Alike R) effects effects')
    (texts : ∀ text, .print text ∈ effects → text ≠ "") {console next : Console}
    (quiet : console.printed = "") {interruption : Option Interruption}
    (ended : performAll verbosity output console effects = (next, interruption)) :
    (next.printed = "" ∧ performAll verbosity .brokenPipe console effects' = (next, interruption)) ∨
    (next.printed ≠ "" ∧
      ∃ stopped, performAll verbosity .brokenPipe console effects' = (stopped, some .brokenPipe)) := by
  induction same generalizing console with
  | nil =>
    obtain ⟨rfl, rfl⟩ := Prod.mk.inj ended
    exact .inl ⟨quiet, rfl⟩
  -- As long as nothing is printed, both runs are at the same console.
  | @cons effect effect' effects effects' first rest ih =>
    rw [performAll] at ended ⊢
    obtain ⟨rfl, silent⟩ | ⟨a, b, rfl, rfl, -⟩ := first.same_or_print
    · rw [perform_output verbosity .brokenPipe output console silent]
      cases performed : console.perform verbosity output effect' with
      | error stop =>
        rw [performed] at ended
        obtain ⟨rfl, rfl⟩ := Prod.mk.inj ended
        exact .inl ⟨quiet, rfl⟩
      | ok between =>
        rw [performed] at ended
        have still : between.printed = "" := by
          obtain ⟨_, _, -, rfl⟩ | ⟨text, rfl, -⟩ | ⟨_, _, _, -, -, rfl⟩ := perform_cases performed
          · exact quiet
          · exact absurd rfl (silent text)
          · exact quiet
        exact ih (fun text mem => texts text (List.mem_cons_of_mem _ mem)) still ended
    · rw [perform, if_neg reads] at ended
      refine .inr ⟨printed_ne_empty ended ?_, console, ?_⟩
      · exact fun none => texts a List.mem_cons_self (String.append_eq_empty_iff.1 none).2
      · rw [perform, if_pos rfl]

end

theorem not_error_of_isRecord {line : List Char} (record : isRecord line = true) : ¬"error:".toList <+: line := by
  rintro ⟨rest, rfl⟩
  cases record

/-- **A broken pipe is silent, and nothing else is.** If a job prints anything to a reader, then without
one it fails, and no line of its report is an error, whatever the end with a reader is. If it prints
nothing, it ends, reports and leaves the files as it does with a reader. -/
theorem broken_pipes_are_silent (job : Job) {world : World} (reads : world.output ≠ .brokenPipe) :
    let opened := job.run world
    let closed := job.run { world with output := .brokenPipe }
    (opened.printed ≠ "" →
      closed.success = false ∧ ∀ line ∈ closed.reportedLines, ¬"error:".toList <+: line.toList) ∧
    (opened.printed = "" →
      closed.success = opened.success ∧ closed.reported = opened.reported ∧ closed.files = opened.files) := by
  intro opened closed
  let unread : World := { world with output := .brokenPipe }
  obtain ⟨same, result⟩ : List.Forall₂ _ (job.script world).effects (job.script unread).effects ∧
      (job.script world).result = (job.script unread).result := job.task.alike_script _ _ world.input
  have tame : (job.script world).Tame _ _ := job.task.tame_script _ world.input
  have tame' : (job.script unread).Tame _ _ := job.task.tame_script _ world.input
  rcases ended : performAll job.verbosity world.output (.start world) (job.script world).effects with
    ⟨console, interruption⟩
  have opening : opened = _ := Script.outcome_eq ended
  obtain ⟨quiet, ended'⟩ | ⟨loud, stopped, ended'⟩ :=
    performAll_closed reads same (fun text mem => (tame.print mem).1) rfl ended
  · have closing : closed = _ := @Script.outcome_eq _ _ unread _ _ ended'
    rw [opening, closing, result]
    exact ⟨fun printed => absurd quiet printed, fun _ => ⟨rfl, rfl, rfl⟩⟩
  · have closing : closed = _ := @Script.outcome_eq _ _ unread _ _ ended'
    have unlogged : closed.unloggedLines = [] := @Script.Tame.unloggedLines _ _ _ _ tame' unread _ _ ended' nofun
    rw [opening]
    refine ⟨fun _ => ⟨?_, fun line mem => ?_⟩, fun none => absurd none loud⟩
    · rw [closing]
      rfl
    · have record := List.filter_eq_nil_iff.1 unlogged line mem
      rw [Bool.not_eq_true, Bool.not_eq_false'] at record
      exact not_error_of_isRecord record

/-- A name is refused behind an answer, which is an error only if the answer can be read. A name that is
refused at once is an error in any case, and a file gets its bytes. -/
theorem broken_pipes_are_silent_queries :
    let world : World := ⟨[], .pipe, ⟨["home"], [(["home"], .directory)]⟩⟩
    let unread : World := { world with output := .brokenPipe }
    world.output ≠ .brokenPipe ∧
    (∃ job, Request.ofArguments ["section", "-vv", "Type", "nope"] = .ok (.job job) ∧
      (job.run world).printed = "1\n" ∧ (job.run unread).success = false ∧
      (∃ line ∈ (job.run world).reportedLines, "error:".toList <+: line.toList) ∧
      ∀ line ∈ (job.run unread).reportedLines, ¬"error:".toList <+: line.toList) ∧
    (∃ job, Request.ofArguments ["section", "nope", "Type"] = .ok (.job job) ∧
      (job.run unread).success = false ∧
      ∃ line ∈ (job.run unread).reportedLines, "error:".toList <+: line.toList) ∧
    (∃ job, Request.ofArguments ["uleb", "-o", "out", "300"] = .ok (.job job) ∧
      (job.run unread).success = true ∧ (job.run unread).files.content? "out" = some #[0xac, 0x02]) := by
  intro world unread
  have reads : world.output ≠ .brokenPipe := nofun
  refine ⟨reads, ?_, ?_, ?_⟩
  · have accepted : Request.ofArguments ["section", "-vv", "Type", "nope"] =
        .ok (.job ⟨2, .auto, .sections (.queries ["Type", "nope"])⟩) := by decide +kernel
    obtain ⟨silent, -⟩ := broken_pipes_are_silent ⟨2, .auto, .sections (.queries ["Type", "nope"])⟩ reads
    obtain ⟨failed, noError⟩ := silent (by decide +kernel)
    exact ⟨_, accepted, by decide +kernel, failed, by decide +kernel, noError⟩
  · have accepted : Request.ofArguments ["section", "nope", "Type"] =
        .ok (.job ⟨0, .auto, .sections (.queries ["nope", "Type"])⟩) := by decide +kernel
    obtain ⟨-, same⟩ := broken_pipes_are_silent ⟨0, .auto, .sections (.queries ["nope", "Type"])⟩ reads
    obtain ⟨success, reported, -⟩ := same (by decide +kernel)
    refine ⟨_, accepted, success.trans (by decide +kernel), ?_⟩
    rw [Outcome.reportedLines, reported]
    decide +kernel
  · have accepted : Request.ofArguments ["uleb", "-o", "out", "300"] =
        .ok (.job ⟨0, .auto, .unsigned none [300] (some "out")⟩) := by decide +kernel
    obtain ⟨-, same⟩ := broken_pipes_are_silent ⟨0, .auto, .unsigned none [300] (some "out")⟩ reads
    obtain ⟨success, -, files⟩ := same (by decide +kernel)
    refine ⟨_, accepted, success.trans (by decide +kernel), ?_⟩
    rw [files]
    decide +kernel

end WasmBinary.Command
