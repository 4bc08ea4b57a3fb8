import WasmBinary.Command.Basic
import WasmBinary.Proofs.Numeral.Sign
import WasmBinary.Proofs.Results

/-! Options in front of values.

Options say the same whatever values stand behind them, as long as every value is taken for one
(`scan_append`). A numeral always is: an unsigned one has no dash, and a signed one, whatever sign
it has, holds a digit, which is the letter of no option (`readArgument_signed`). Where an option may
stand, the arguments can be cut: what is behind is read as if it stood alone (`scan_open`). -/
namespace WasmBinary.Command

/-! ### One argument -/

theorem readArgument_of_no_dash (g : Grammar) {argument : String} (noDash : ¬['-'] <+: argument.toList) :
    g.readArgument argument = .ok .value := by
  unfold Grammar.readArgument
  split
  · rename_i dashes
    exact absurd ⟨['-'], dashes.symm⟩ noDash
  · rename_i text _ dashes
    exact absurd ⟨'-' :: text, dashes.symm⟩ noDash
  · rename_i letter rest _ _ dash
    exact absurd ⟨letter :: rest, dash.symm⟩ noDash
  · rfl

/-- Where values may start with a dash, one that no option has a letter for is among them. -/
theorem readArgument_of_letter {g : Grammar} (dashed : g.dashedValues = true) {argument : String}
    {rest : List Char} (text : argument.toList = '-' :: rest) (noDash : '-' ∉ rest) {c : Char} (mem : c ∈ rest)
    (unknown : g.short? c = none) : g.readArgument argument = .ok .value := by
  have some_unknown : rest.any (fun c => (g.short? c).isNone) = true :=
    List.any_eq_true.2 ⟨c, mem, by rw [unknown]; rfl⟩
  cases rest with
  | nil => cases mem
  | cons letter rest =>
    unfold Grammar.readArgument
    rw [text]
    split
    · rename_i dashes
      exact absurd (by simp [(List.cons.inj (List.cons.inj dashes).2).1]) noDash
    · rename_i dashes
      exact absurd (by simp [(List.cons.inj (List.cons.inj dashes).2).1]) noDash
    · rename_i _ _ same
      obtain ⟨rfl, rfl⟩ := List.cons.inj (List.cons.inj same).2
      rw [dashed, some_unknown]
      rfl
    · rfl

/-- A digit is the letter of no option. -/
theorem short?_digit (g : Grammar) {base : Numeral.Base} {c : Char} (digit : base.isDigit c) :
    g.short? c = none := by
  refine List.find?_eq_none.2 fun flag _ same => ?_
  have letter := eq_of_beq same
  cases flag <;> cases letter <;> cases base <;> exact absurd digit (by decide)

/-- A numeral that is read holds a digit. -/
theorem exists_isDigit {text : List Char} {n : Nat} (read : Numeral.magnitude text = .ok n) :
    ∃ base : Numeral.Base, ∃ c ∈ text, base.isDigit c := by
  obtain ⟨-, base, digits, marked, spells⟩ := Numeral.magnitude_eq_ok_iff.1 read
  obtain ⟨c, mem⟩ := List.exists_mem_of_ne_nil digits spells.nonempty
  have kept : c ∈ text.filter (· ≠ '_') := marked.split ▸ List.mem_append_right _ mem
  exact ⟨base, c, (List.mem_filter.1 kept).1, spells.each c mem⟩

theorem no_dash_of_magnitude {text : List Char} {n : Nat} (read : Numeral.magnitude text = .ok n) :
    '-' ∉ text :=
  fun mem => Numeral.magnitude_ne_ok_of_sign mem (.inr rfl) n read

theorem readArgument_unsigned (g : Grammar) {text : String} {v : UInt64}
    (read : Numeral.unsigned text = .ok v) : g.readArgument text = .ok .value := by
  have noDash := no_dash_of_magnitude (Numeral.unsigned_eq_ok_iff.1 read)
  exact readArgument_of_no_dash g fun dash => noDash (dash.subset (List.mem_singleton_self '-'))

theorem readArgument_signed {g : Grammar} (dashed : g.dashedValues = true) {text : String} {v : Int64}
    (read : Numeral.signed text = .ok v) : g.readArgument text = .ok .value := by
  by_cases sign : ['-'] <+: text.toList
  · obtain ⟨rest, same⟩ := sign
    have split : Numeral.splitSign text.toList = (true, rest) := by rw [← same]; rfl
    obtain ⟨n, magnitude, -⟩ := (Numeral.signed_eq_ok_iff split).1 read
    obtain ⟨base, c, mem, digit⟩ := exists_isDigit magnitude
    exact readArgument_of_letter dashed same.symm (no_dash_of_magnitude magnitude) mem (short?_digit g digit)
  · exact readArgument_of_no_dash g sign

theorem readShort_ne_separator (g : Grammar) (argument : String) (letters : List Char) :
    g.readShort argument letters ≠ .ok .separator := by
  induction letters with
  | nil => exact nofun
  | cons letter rest ih =>
    unfold Grammar.readShort
    split
    · exact nofun
    · split
      · split <;> exact nofun
      · split
        · exact nofun
        · exact ih

theorem readLong_ne_separator (g : Grammar) (argument : String) (text : List Char) :
    g.readLong argument text ≠ .ok .separator := by
  simp only [Grammar.readLong]
  split
  · split <;> exact nofun
  · split <;> exact nofun
  · split <;> exact nofun

theorem eq_dashes_of_separator {g : Grammar} {argument : String} (read : g.readArgument argument = .ok .separator) :
    argument = "--" := by
  unfold Grammar.readArgument at read
  split at read
  · rename_i dashes
    exact String.toList_inj.1 dashes
  · exact absurd read (readLong_ne_separator g _ _)
  · split at read
    · cases read
    · exact absurd read (readShort_ne_separator g _ _)
  · cases read

/-! ### All arguments -/

namespace Arguments
variable {g : Grammar}

theorem scan_values {texts : List String} (values : ∀ text ∈ texts, g.readArgument text = .ok .value) :
    scan g none texts = .ok ⟨[], texts⟩ := by
  induction texts with
  | nil => rw [scan]
  | cons text texts ih =>
    obtain ⟨first, others⟩ := List.forall_mem_cons.1 values
    rw [scan, bind_eq_ok_iff]
    refine ⟨.value, first, ?_⟩
    by_cases dashed : g.dashedValues
    · exact if_pos dashed
    · refine (if_neg dashed).trans ?_
      rw [bind_eq_ok_iff]
      exact ⟨_, ih others, rfl⟩

/-- **Options say the same in front of values**, and all that is behind them are the values. -/
theorem scan_append {waiting : Option Flag} {options : List String} {a : Arguments}
    (said : scan g waiting options = .ok a) (only : a.values = []) {texts : List String}
    (values : ∀ text ∈ texts, g.readArgument text = .ok .value) :
    scan g waiting (options ++ texts) = .ok ⟨a.settings, texts⟩ := by
  induction options generalizing waiting a with
  | nil =>
    cases waiting with
    | none =>
      rw [scan] at said
      obtain rfl := Except.ok.inj said
      exact scan_values values
    | some flag =>
      rw [scan] at said
      cases said
  | cons argument rest ih =>
    rw [scan, bind_eq_ok_iff] at said
    obtain ⟨reading, read, said⟩ := said
    rw [List.cons_append, scan, bind_eq_ok_iff]
    refine ⟨reading, read, ?_⟩
    cases waiting with
    | some flag =>
      cases reading with
      | value =>
        obtain ⟨b, more, said⟩ := bind_eq_ok_iff.1 said
        obtain rfl := Except.ok.inj said
        exact bind_eq_ok_iff.2 ⟨_, ih more only, rfl⟩
      | _ => cases said
    | none =>
      cases reading with
      | separator =>
        obtain rfl := Except.ok.inj said
        obtain rfl : rest = [] := only
        rfl
      | options settings next =>
        obtain ⟨b, more, said⟩ := bind_eq_ok_iff.1 said
        obtain rfl := Except.ok.inj said
        exact bind_eq_ok_iff.2 ⟨_, ih more only, rfl⟩
      | value =>
        -- then there would be a value among the options
        by_cases dashed : g.dashedValues
        · obtain rfl := Except.ok.inj ((if_pos dashed).symm.trans said)
          cases only
        · obtain ⟨b, more, said⟩ := bind_eq_ok_iff.1 ((if_neg dashed).symm.trans said)
          obtain rfl := Except.ok.inj said
          cases only

/-- Arguments behind which an option may stand are read as if they stood alone. -/
theorem scan_open {waiting : Option Flag} {front : List String} {a : Arguments}
    (said : scan g waiting front = .ok a) (noSeparator : "--" ∉ front)
    (noValue : g.dashedValues = true → a.values = []) (back : List String) :
    scan g waiting (front ++ back) = (scan g none back).map fun b =>
      ⟨a.settings ++ b.settings, a.values ++ b.values⟩ := by
  induction front generalizing waiting a with
  | nil =>
    cases waiting with
    | some flag => cases said
    | none =>
      rw [scan] at said
      obtain rfl := Except.ok.inj said
      rw [List.nil_append]
      cases scan g none back <;> rfl
  | cons argument rest ih =>
    rw [scan, bind_eq_ok_iff] at said
    obtain ⟨reading, read, said⟩ := said
    have later : "--" ∉ rest := fun mem => noSeparator (List.mem_cons_of_mem _ mem)
    rw [List.cons_append, scan, read]
    cases waiting with
    | some flag =>
      cases reading with
      | value =>
        obtain ⟨c, more, said⟩ := bind_eq_ok_iff.1 said
        obtain rfl := Except.ok.inj said
        simp only [bind, Except.bind, ih more later noValue]
        cases scan g none back <;> rfl
      | _ => cases said
    | none =>
      cases reading with
      | separator =>
        exact absurd (eq_dashes_of_separator read ▸ List.mem_cons_self) noSeparator
      | options settings next =>
        obtain ⟨c, more, said⟩ := bind_eq_ok_iff.1 said
        obtain rfl := Except.ok.inj said
        simp only [bind, Except.bind, ih more later noValue]
        cases scan g none back with
        | error e => rfl
        | ok b => simp [Except.map, addSettings, pure, Except.pure]
      | value =>
        by_cases dashed : g.dashedValues
        · obtain rfl := Except.ok.inj ((if_pos dashed).symm.trans said)
          cases noValue dashed
        · obtain ⟨c, more, said⟩ := bind_eq_ok_iff.1 ((if_neg dashed).symm.trans said)
          obtain rfl := Except.ok.inj said
          simp only [bind, Except.bind, if_neg dashed, ih more later fun h => absurd h dashed]
          cases scan g none back <;> rfl

theorem scan_waiting {option value : String} {flag : Flag}
    (waits : g.readArgument option = .ok (.options [] (some flag))) (read : g.readArgument value = .ok .value)
    (back : List String) :
    scan g none (option :: value :: back) =
      (scan g none back).map (addSettings [(flag, some value)]) := by
  rw [scan, waits]
  simp only [bind, Except.bind]
  rw [scan, read]
  simp only [bind, Except.bind]
  cases scan g none back <;> rfl

theorem scan_options {argument : String} {settings : List Setting}
    (read : g.readArgument argument = .ok (.options settings none)) (back : List String) :
    scan g none (argument :: back) = (scan g none back).map (addSettings settings) := by
  rw [scan, read]
  simp only [bind, Except.bind]
  cases scan g none back <;> rfl

end Arguments

/-! ### What options are read for -/

section
variable {a b : Arguments}

theorem atMostOnce_congr {flag : Flag} (same : b.uses flag = a.uses flag) : b.atMostOnce flag = a.atMostOnce flag := by
  rw [Arguments.atMostOnce, Arguments.atMostOnce, same]

theorem value?_congr {flag : Flag} (same : b.uses flag = a.uses flag) : b.value? flag = a.value? flag := by
  rw [Arguments.value?, Arguments.value?, atMostOnce_congr same]

theorem bits_congr (same : b.uses .bits = a.uses .bits) : b.bits = a.bits := by
  rw [Arguments.bits, Arguments.bits, value?_congr same]

theorem maxDepth_congr (same : b.uses .maxDepth = a.uses .maxDepth) : b.maxDepth = a.maxDepth := by
  rw [Arguments.maxDepth, Arguments.maxDepth, value?_congr same]

theorem output_congr (same : b.uses .output = a.uses .output) : b.output = a.output := by
  rw [Arguments.output, Arguments.output, value?_congr same]

theorem color_congr (same : b.uses .color = a.uses .color) : b.color = a.color := by
  rw [Arguments.color, Arguments.color, value?_congr same]

/-- A task is read from the values and from the options that are not on detail and colours. -/
theorem task_congr (values : b.values = a.values)
    (uses : ∀ flag ∈ [Flag.output, .bits, .maxDepth, .list], b.uses flag = a.uses flag) (verb : Verb) :
    verb.task b = verb.task a := by
  have output : b.output = a.output := output_congr (uses .output (by decide))
  have bits : b.bits = a.bits := bits_congr (uses .bits (by decide))
  have maxDepth : b.maxDepth = a.maxDepth := maxDepth_congr (uses .maxDepth (by decide))
  have list : b.atMostOnce .list = a.atMostOnce .list := atMostOnce_congr (uses .list (by decide))
  cases verb with
  | signed | unsigned => simp only [Verb.task, output, bits, Arguments.someValues, values]
  | vector => simp only [Verb.task, output, maxDepth, Arguments.oneValue?, values]
  | sections | opcodes => simp only [Verb.task, Arguments.lookup, list, values]
  | preamble => simp only [Verb.task, output, Arguments.noValue, values]

end

/-! ### Requests -/

/-- A job is read from a command line that does not ask for help, one part after the other. -/
theorem job_eq_ok_iff {verb : Verb} {arguments : List String} {job : Job} :
    verb.job arguments = .ok job ↔ ∃ a, Arguments.ofList verb.grammar arguments = .ok a ∧ a.uses .help = [] ∧
      (a.uses .verbose).length = job.verbosity ∧ a.color = .ok job.color ∧ verb.task a = .ok job.task := by
  rw [Verb.job, bind_eq_ok_iff]
  refine exists_congr fun a => and_congr_right fun _ => ?_
  by_cases help : a.uses .help = []
  · rw [if_neg (not_not.2 help), and_iff_right help]
    simp only [bind_eq_ok_iff]
    constructor
    · rintro ⟨color, chosen, task, read, made⟩
      obtain rfl := Except.ok.inj made
      exact ⟨rfl, chosen, read⟩
    · rintro ⟨verbosity, chosen, read⟩
      exact ⟨_, chosen, _, read, by rw [verbosity]; rfl⟩
  · rw [if_pos help]
    exact iff_of_false nofun fun h => help h.1

theorem asksVersion_of_named {name : String} {verb : Verb} (named : Verb.ofName? name = some verb) :
    asksVersion name = false := by
  unfold Verb.ofName? at named
  split_ifs at named with h h h h h h <;> subst h <;> decide

theorem ofArguments_eq_ok_iff {name : String} {verb : Verb} (named : Verb.ofName? name = some verb)
    {arguments : List String} {job : Job} :
    Request.ofArguments (name :: arguments) = .ok (.job job) ↔ verb.job arguments = .ok job := by
  have request : Request.ofArguments (name :: arguments) = (verb.job arguments >>= fun j => .ok (.job j)) := by
    simp only [Request.ofArguments, asksVersion_of_named named, named]
    rfl
  rw [request, bind_eq_ok_iff]
  simp

theorem readValues_ok {α : Type} {read : String → Except NumeralError α} {texts : List String} {values : List α}
    (each : texts.map read = values.map .ok) : readValues read texts = .ok values := by
  induction texts generalizing values with
  | nil =>
    obtain rfl := List.map_eq_nil_iff.1 each.symm
    rfl
  | cons text texts ih =>
    cases values with
    | nil => cases each
    | cons value values =>
      obtain ⟨first, others⟩ := List.cons.inj each
      simp only [readValues, first, ih others]
      rfl

/-- What the options of a command on integers say. -/
structure Options where
  verbosity : Nat
  color : ColorChoice
  bits : Option Nat
  output : Option String

/-- These arguments are options of the command and nothing else, and this is what they say. -/
def Options.Given (o : Options) (verb : Verb) (arguments : List String) : Prop :=
  ∃ a, Arguments.ofList verb.grammar arguments = .ok a ∧ a.values = [] ∧ a.uses .help = [] ∧
    (a.uses .verbose).length = o.verbosity ∧ a.color = .ok o.color ∧ a.bits = .ok o.bits ∧
    a.output = .ok o.output

theorem someValues_of_ne_nil {a : Arguments} (nonempty : a.values ≠ []) : a.someValues = .ok a.values := by
  unfold Arguments.someValues
  split
  · contradiction
  · rfl

section
variable {α : Type} {numeral : String → Except NumeralError α} {texts : List String} {values : List α}
  (each : texts.map numeral = values.map .ok)
include each

theorem exists_numeral {text : String} (mem : text ∈ texts) : ∃ v, numeral text = .ok v := by
  have found : numeral text ∈ values.map .ok := each ▸ List.mem_map_of_mem mem
  obtain ⟨v, -, same⟩ := List.mem_map.1 found
  exact ⟨v, same.symm⟩

theorem values_ne_nil (nonempty : texts ≠ []) : values ≠ [] := by
  rintro rfl
  exact nonempty (List.map_eq_nil_iff.1 each)

/-- The job of a command on integers, which may read them in any way that leaves none to be taken
for an option. -/
theorem job_of_given {o : Options} {verb : Verb} {options : List String} (given : o.Given verb options)
    {task : Option Nat → List α → Option String → Task}
    (works : ∀ a : Arguments, verb.task a = do
      return task (← a.bits) (← readValues numeral (← a.someValues)) (← a.output))
    (taken : ∀ text v, numeral text = .ok v → verb.grammar.readArgument text = .ok .value)
    (nonempty : texts ≠ []) :
    verb.job (options ++ texts) = .ok ⟨o.verbosity, o.color, task o.bits values o.output⟩ := by
  obtain ⟨a, said, only, noHelp, verbosity, color, bits, output⟩ := given
  have scanned : Arguments.ofList verb.grammar (options ++ texts) = .ok ⟨a.settings, texts⟩ := by
    refine Arguments.scan_append said only fun text mem => ?_
    obtain ⟨v, read⟩ := exists_numeral each mem
    exact taken text v read
  -- what the options say does not depend on the values
  have bits : (Arguments.mk a.settings texts).bits = .ok o.bits := bits
  have output : (Arguments.mk a.settings texts).output = .ok o.output := output
  have task_eq : verb.task ⟨a.settings, texts⟩ = .ok (task o.bits values o.output) := by
    rw [works, bits, someValues_of_ne_nil nonempty, output]
    simp only [bind, Except.bind, readValues_ok each]
    rfl
  exact job_eq_ok_iff.2 ⟨_, scanned, noHelp, verbosity, color, task_eq⟩

end

theorem ofArguments_signed {o : Options} {options : List String} (given : o.Given .signed options)
    {texts : List String} (nonempty : texts ≠ []) {values : List Int64}
    (each : texts.map Numeral.signed = values.map .ok) :
    Request.ofArguments ("sleb" :: (options ++ texts)) =
      .ok (.job ⟨o.verbosity, o.color, .signed o.bits values o.output⟩) := by
  refine (ofArguments_eq_ok_iff (show Verb.ofName? "sleb" = some .signed by decide)).2 ?_
  exact job_of_given each given (fun _ => rfl) (fun _ _ => readArgument_signed rfl) nonempty

theorem ofArguments_unsigned {o : Options} {options : List String} (given : o.Given .unsigned options)
    {texts : List String} (nonempty : texts ≠ []) {values : List UInt64}
    (each : texts.map Numeral.unsigned = values.map .ok) :
    Request.ofArguments ("uleb" :: (options ++ texts)) =
      .ok (.job ⟨o.verbosity, o.color, .unsigned o.bits values o.output⟩) := by
  refine (ofArguments_eq_ok_iff (show Verb.ofName? "uleb" = some .unsigned by decide)).2 ?_
  exact job_of_given each given (fun _ => rfl) (fun _ _ => readArgument_unsigned _) nonempty

/-! ### Everything that options can say -/

/-- An option by its name, with its value behind an equals sign. -/
def spelling : Setting → String
  | (flag, none) => .ofList ('-' :: '-' :: flag.long)
  | (flag, some value) => .ofList ('-' :: '-' :: (flag.long ++ '=' :: value.toList))

theorem readArgument_long (g : Grammar) {text : List Char} (more : text ≠ []) :
    g.readArgument (.ofList ('-' :: '-' :: text)) = g.readLong (.ofList ('-' :: '-' :: text)) text := by
  obtain ⟨c, rest, rfl⟩ := List.exists_cons_of_ne_nil more
  simp only [Grammar.readArgument, String.toList_ofList]

theorem readArgument_spelling {g : Grammar} {flag : Flag} (known : g.long? flag.long = some flag)
    {value : Option String} (takes : flag.takesValue = value.isSome) :
    g.readArgument (spelling (flag, value)) = .ok (.options [(flag, value)] none) := by
  have name : ∀ c ∈ flag.long, decide (c ≠ '=') = true := List.all_eq_true.1 (by cases flag <;> decide)
  have nonempty : flag.long ≠ [] := by cases flag <;> decide
  cases value with
  | none =>
    have front : flag.long.takeWhile (· ≠ '=') = flag.long := List.takeWhile_eq_self_iff.2 name
    have back : flag.long.dropWhile (· ≠ '=') = [] := List.dropWhile_eq_nil_iff.2 name
    rw [spelling, readArgument_long g nonempty, Grammar.readLong, front, back]
    simp [known, takes]
  | some value =>
    have front : (flag.long ++ '=' :: value.toList).takeWhile (· ≠ '=') = flag.long := by
      rw [List.takeWhile_append_of_pos name, List.takeWhile_cons_of_neg (by decide), List.append_nil]
    have back : (flag.long ++ '=' :: value.toList).dropWhile (· ≠ '=') = '=' :: value.toList := by
      rw [List.dropWhile_append_of_pos name, List.dropWhile_cons_of_neg (by decide)]
    rw [spelling, readArgument_long g (List.append_ne_nil_of_left_ne_nil nonempty _), Grammar.readLong, front,
      back]
    simp [known, takes]

/-- An option with its value behind an equals sign is read wherever an option may stand. -/
theorem scan_joined {g : Grammar} {flag : Flag} (known : g.long? flag.long = some flag)
    (takes : flag.takesValue = true) {front : String} (name : front.toList = '-' :: '-' :: (flag.long ++ ['=']))
    (value : String) (back : List String) :
    Arguments.scan g none ([front ++ value] ++ back) =
      (Arguments.scan g none back).map (Arguments.addSettings [(flag, some value)]) := by
  have spelled : front ++ value = spelling (flag, some value) := by
    rw [← String.toList_inj, spelling, String.toList_ofList, String.toList_append, name]
    simp
  have read : g.readArgument (spelling (flag, some value)) = _ := readArgument_spelling known takes
  rw [List.singleton_append, spelled]
  exact Arguments.scan_options read back

theorem scan_spelling {g : Grammar} {settings : List Setting}
    (each : ∀ s ∈ settings, g.long? s.1.long = some s.1 ∧ s.1.takesValue = s.2.isSome) :
    Arguments.scan g none (settings.map spelling) = .ok ⟨settings, []⟩ := by
  induction settings with
  | nil => rw [List.map_nil, Arguments.scan]
  | cons s settings ih =>
    obtain ⟨⟨known, takes⟩, others⟩ := List.forall_mem_cons.1 each
    rw [List.map_cons, Arguments.scan, bind_eq_ok_iff]
    refine ⟨_, readArgument_spelling known takes, ?_⟩
    exact bind_eq_ok_iff.2 ⟨_, ih others, rfl⟩

/-- The name of a colour choice. -/
def ColorChoice.name : ColorChoice → String
  | auto => "auto"
  | always => "always"
  | alwaysAnsi => "always-ansi"
  | never => "never"

theorem decimal?_toDigits (n : Nat) : decimal? (Nat.toDigits 10 n) = some n := by
  have digits : (Nat.toDigits 10 n).all Char.isDigit = true :=
    List.all_eq_true.2 fun c mem => Nat.isDigit_of_mem_toDigits (by decide) (by decide) mem
  have value : (Nat.toDigits 10 n).foldl (fun n c => 10 * n + (c.toNat - '0'.toNat)) 0 = n :=
    Nat.ofDigitChars_eq_foldl.symm.trans Nat.ofDigitChars_ten_toDigits
  rw [decimal?, if_pos ⟨Nat.toDigits_ne_nil, digits⟩, value]

theorem readWidth?_toString {bits : Nat} (word : bits < 2 ^ 32) : readWidth? (toString bits) = some bits := by
  have digit : ∀ c ∈ Nat.toDigits 10 bits, c.isDigit := fun c mem =>
    Nat.isDigit_of_mem_toDigits (by decide) (by decide) mem
  have text : (toString bits).toList = Nat.toDigits 10 bits := Nat.toList_repr
  have read : (decimal? (Nat.toDigits 10 bits)).filter (· < UInt32.size) = some bits := by
    rw [decimal?_toDigits]
    exact Option.filter_some_pos (decide_eq_true word)
  rw [readWidth?, readNumber?, text]
  split
  · rename_i minus
    exact absurd (digit '-' (minus ▸ List.mem_cons_self)) (by decide)
  · split
    · rename_i plus
      exact absurd (digit '+' (plus ▸ List.mem_cons_self)) (by decide)
    · exact read

/-- The options one by one. -/
def Options.settings (o : Options) : List Setting :=
  List.replicate o.verbosity (.verbose, none) ++ (.color, some o.color.name) ::
    ((o.bits.map fun bits => (.bits, some (toString bits))).toList ++
      (o.output.map fun path => (.output, some path)).toList)

theorem value?_of_uses {a : Arguments} {flag : Flag} {value : Option String}
    (uses : a.uses flag = (value.map some).toList) : a.value? flag = .ok value := by
  rw [Arguments.value?, Arguments.atMostOnce, uses]
  cases value <;> rfl

theorem uses_settings (o : Options) (flag : Flag) :
    (Arguments.mk o.settings []).uses flag = match flag with
      | .verbose => List.replicate o.verbosity none
      | .color => [some o.color.name]
      | .bits => ((o.bits.map toString).map some).toList
      | .output => (o.output.map some).toList
      | .maxDepth | .list | .help => [] := by
  obtain ⟨verbosity, color, bits, output⟩ := o
  cases flag <;> cases bits <;> cases output <;> simp [Arguments.uses, Options.settings]

/-- Both commands can be told any verbosity, colour choice, width below `2 ^ 32` and path but the
empty one. -/
theorem given_settings (o : Options) (word : ∀ bits, o.bits = some bits → bits < 2 ^ 32)
    (path : o.output ≠ some "") {verb : Verb} (integers : verb = .signed ∨ verb = .unsigned) :
    o.Given verb (o.settings.map spelling) := by
  have long : ∀ flag ∈ [Flag.verbose, .color, .bits, .output], verb.grammar.long? flag.long = some flag := by
    rcases integers with rfl | rfl <;> decide
  have known : ∀ s ∈ o.settings, verb.grammar.long? s.1.long = some s.1 ∧ s.1.takesValue = s.2.isSome := by
    intro s mem
    simp only [Options.settings, List.mem_append, List.mem_replicate, List.mem_cons, Option.mem_toList,
      Option.map_eq_some_iff] at mem
    obtain ⟨-, rfl⟩ | rfl | ⟨b, -, rfl⟩ | ⟨p, -, rfl⟩ := mem <;> exact ⟨long _ (by simp), rfl⟩
  have uses := uses_settings o
  obtain ⟨verbosity, color, bits, output⟩ := o
  refine ⟨_, scan_spelling known, rfl, uses .help, ?_, ?_, ?_, ?_⟩
  · rw [uses]
    exact List.length_replicate
  · rw [Arguments.color, @value?_of_uses _ .color (some color.name) (uses .color)]
    cases color <;> rfl
  · rw [Arguments.bits, value?_of_uses (uses .bits)]
    cases bits with
    | none => rfl
    | some bits =>
      show readValue readWidth? (some (toString bits)) = .ok (some bits)
      rw [readValue, readWidth?_toString (word bits rfl)]
  · rw [Arguments.output, value?_of_uses (uses .output)]
    cases output with
    | none => rfl
    | some file =>
      have nonempty : file ≠ "" := fun same => path (congrArg some same)
      show readValue (fun path => if path = "" then none else some path) (some file) = .ok (some file)
      simp only [readValue, if_neg nonempty]

end WasmBinary.Command
