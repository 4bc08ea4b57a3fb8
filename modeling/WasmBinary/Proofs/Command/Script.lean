import WasmBinary.Command.Script

/-! Performing a script.

Effects are performed one by one, so a list of them is taken apart where it was put together
(`performAll_append`), and what each of them keeps, the run keeps (`performAll_keeps`). Lines of the log
only go to the report, text that is printed while somebody reads it goes to the output, and neither
touches a file. -/
namespace WasmBinary.Command
variable {α β : Type}

/-! ### Putting scripts together -/

theorem Script.pure_bind (x : α) (next : α → Script β) : (Pure.pure x : Script α) >>= next = next x := rfl

theorem Script.ofExcept_ok {ε : Type} (describe : ε → Failure) (x : α) :
    Script.ofExcept describe (.ok x) = Pure.pure x := rfl

theorem Script.ok_bind (effects : List Effect) (x : α) (next : α → Script β) :
    (⟨effects, .ok x⟩ : Script α) >>= next = ⟨effects ++ (next x).effects, (next x).result⟩ := rfl

theorem Script.error_bind (effects : List Effect) (failure : Failure) (next : α → Script β) :
    (⟨effects, .error failure⟩ : Script α) >>= next = ⟨effects, .error failure⟩ := rfl

theorem Script.bind_assoc {γ : Type} (s : Script α) (next : α → Script β) (last : β → Script γ) :
    s >>= next >>= last = s >>= fun x => next x >>= last := by
  obtain ⟨effects, result⟩ := s
  cases result with
  | error failure => rfl
  | ok x =>
    rw [ok_bind, ok_bind]
    rcases next x with ⟨more, failure | y⟩
    · rfl
    · rw [ok_bind, ok_bind, List.append_assoc]

theorem Script.bind_eq_ok {s : Script α} {next : α → Script β} {y : β} (h : (s >>= next).result = .ok y) :
    ∃ x, s.result = .ok x ∧ (next x).result = .ok y := by
  obtain ⟨effects, result⟩ := s
  cases result with
  | error failure => cases h
  | ok x => exact ⟨x, rfl, h⟩

/-! ### Every effect of a script -/

/-- Every effect of a script has a property. -/
def Script.Each (P : Effect → Prop) (s : Script α) : Prop := ∀ effect ∈ s.effects, P effect

namespace Script
variable {P : Effect → Prop}

theorem Each.of_nil {s : Script α} (none : s.effects = []) : s.Each P := by
  intro effect mem
  rw [none] at mem
  cases mem

theorem Each.doing {effect : Effect} (h : P effect) : (Script.doing effect).Each P :=
  List.forall_mem_singleton.2 h

theorem Each.bind {s : Script α} (first : s.Each P) {next : α → Script β}
    (rest : ∀ x, s.result = .ok x → (next x).Each P) : (s >>= next).Each P := by
  obtain ⟨effects, result⟩ := s
  cases result with
  | error failure => exact first
  | ok x =>
    intro effect mem
    rw [ok_bind, List.mem_append] at mem
    exact mem.elim (first effect) (rest x rfl effect)

theorem each_ofExcept {ε : Type} (describe : ε → Failure) (given : Except ε α) :
    (Script.ofExcept describe given).Each P := by
  cases given <;> exact .of_nil rfl

theorem eq_ok_of_ofExcept {ε : Type} {describe : ε → Failure} {given : Except ε α} {x : α}
    (h : (Script.ofExcept describe given).result = .ok x) : given = .ok x := by
  cases given with
  | error e => cases h
  | ok y => exact congrArg Except.ok (Except.ok.inj h)

end Script

/-! ### Notes -/

/-- A script does nothing but write debug lines. -/
def Script.Noting (s : Script α) : Prop := ∃ notes : List String, s.effects = notes.map (.log .debug)

namespace Console
variable {verbosity : Nat} {output : Output}

theorem performAll_append {console next : Console} {front : List Effect}
    (done : performAll verbosity output console front = (next, none)) (back : List Effect) :
    performAll verbosity output console (front ++ back) = performAll verbosity output next back := by
  induction front generalizing console with
  | nil =>
    obtain rfl := (Prod.mk.inj done).1
    rfl
  | cons effect front ih =>
    rw [performAll] at done
    rw [List.cons_append, performAll]
    cases performed : console.perform verbosity output effect with
    | error interruption =>
      simp only [performed] at done
      cases done
    | ok between =>
      simp only [performed] at done
      exact ih done

/-- Nothing is done behind an effect that does not succeed. -/
theorem performAll_stopped {console next : Console} {front : List Effect} {interruption : Interruption}
    (stopped : performAll verbosity output console front = (next, some interruption)) (back : List Effect) :
    performAll verbosity output console (front ++ back) = (next, some interruption) := by
  induction front generalizing console with
  | nil => cases stopped
  | cons effect front ih =>
    rw [performAll] at stopped
    rw [List.cons_append, performAll]
    cases performed : console.perform verbosity output effect with
    | error other =>
      simp only [performed] at stopped
      exact stopped
    | ok between =>
      simp only [performed] at stopped
      exact ih stopped

/-- What each effect keeps, all of them keep. -/
theorem performAll_keeps {I : Console → Prop} {effects : List Effect}
    (keeps : ∀ effect ∈ effects, ∀ console next, I console → console.perform verbosity output effect = .ok next →
      I next)
    {console next : Console} {interruption : Option Interruption}
    (ended : performAll verbosity output console effects = (next, interruption)) (initial : I console) :
    I next := by
  induction effects generalizing console with
  | nil =>
    obtain rfl := (Prod.mk.inj ended).1
    exact initial
  | cons effect effects ih =>
    obtain ⟨first, others⟩ := List.forall_mem_cons.1 keeps
    rw [performAll] at ended
    cases performed : console.perform verbosity output effect with
    | error stop =>
      simp only [performed] at ended
      obtain rfl := (Prod.mk.inj ended).1
      exact initial
    | ok between =>
      simp only [performed] at ended
      exact ih others ended (first console between initial performed)

/-! ### Effects of one kind -/

/-- What messages of one level add to the report. -/
def logged (verbosity : Nat) (level : Level) (messages : List String) : String :=
  if level.threshold ≤ verbosity then .join (messages.map level.text) else ""

theorem logged_singleton (verbosity : Nat) (level : Level) (message : String) :
    logged verbosity level [message] = if level.threshold ≤ verbosity then level.text message else "" := by
  simp [logged]

theorem logged_append (verbosity : Nat) (level : Level) (a b : List String) :
    logged verbosity level (a ++ b) = logged verbosity level a ++ logged verbosity level b := by
  unfold logged
  split
  · rw [List.map_append, String.join_append]
  · rfl

/-- What an effect does when it succeeds. -/
theorem perform_cases {console next : Console} {effect : Effect}
    (performed : console.perform verbosity output effect = .ok next) :
    (∃ level message, effect = .log level message ∧
      next = { console with reported := console.reported ++ logged verbosity level [message] }) ∨
    (∃ text, effect = .print text ∧ output ≠ .brokenPipe ∧
      next = { console with printed := console.printed ++ text }) ∨
    ∃ path bytes files, effect = .save path bytes ∧ console.files.write path bytes = .ok files ∧
      next = { console with files } := by
  cases effect with
  | log level message =>
    refine .inl ⟨level, message, rfl, ?_⟩
    rw [perform] at performed
    rw [logged_singleton]
    split at performed
    · rename_i seen
      rw [if_pos seen]
      exact (Except.ok.inj performed).symm
    · rename_i hidden
      rw [if_neg hidden, String.append_empty]
      exact (Except.ok.inj performed).symm
  | print text =>
    rw [perform] at performed
    split at performed
    · cases performed
    · rename_i reads
      exact .inr (.inl ⟨text, rfl, reads, (Except.ok.inj performed).symm⟩)
  | save path bytes =>
    rw [perform] at performed
    split at performed
    · rename_i files written
      exact .inr (.inr ⟨path, bytes, files, rfl, written, (Except.ok.inj performed).symm⟩)
    · cases performed

theorem performAll_log (console : Console) (level : Level) (messages : List String) :
    performAll verbosity output console (messages.map (.log level)) =
      ({ console with reported := console.reported ++ logged verbosity level messages }, none) := by
  induction messages generalizing console with
  | nil => simp [performAll, logged]
  | cons message messages ih =>
    rw [List.map_cons, performAll, perform]
    by_cases shown : level.threshold ≤ verbosity
    · simp only [if_pos shown, ih, logged, List.map_cons, String.join_cons, String.append_assoc]
    · simp only [if_neg shown, ih, logged]

theorem performAll_print (read : output ≠ .brokenPipe) (console : Console) (texts : List String) :
    performAll verbosity output console (texts.map .print) =
      ({ console with printed := console.printed ++ .join texts }, none) := by
  induction texts generalizing console with
  | nil => simp [performAll]
  | cons text texts ih =>
    rw [List.map_cons, performAll, perform, if_neg read]
    simp only [ih, String.join_cons, String.append_assoc]

end Console

/-! ### The end -/

/-- What is reported in the end of a script, behind what its effects reported. -/
def complaint : Option Interruption → Except Failure Unit → String
  | some .brokenPipe, _ => ""
  | some (.failed failure), _ => failure.text
  | none, .error failure => failure.text
  | none, .ok () => ""

theorem Script.outcome_eq {script : Script Unit} {verbosity : Nat} {world : World} {console : Console}
    {interruption : Option Interruption}
    (ended : Console.performAll verbosity world.output (.start world) script.effects = (console, interruption)) :
    script.outcome verbosity world =
      ⟨interruption.isNone && script.result.isOk, console.printed,
        console.reported ++ complaint interruption script.result, console.files⟩ := by
  rw [Script.outcome, ended]
  rcases interruption with _ | _ | failure
  · cases script.result with
    | error failure => rfl
    | ok _ => exact congrArg (Outcome.mk _ _ · _) String.append_empty.symm
  · rfl
  · rfl

end WasmBinary.Command
