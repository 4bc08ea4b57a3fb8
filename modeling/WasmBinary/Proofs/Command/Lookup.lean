import WasmBinary.Command.Run
import WasmBinary.Proofs.Command.Arguments
import WasmBinary.Proofs.Command.Script
import WasmBinary.Proofs.Leading
import WasmBinary.Proofs.Symbol

/-! The commands that look things up.

A query is a code or a name, and its first character tells which. What it is answered and why it is
refused can be said by the table alone (`answer_eq_ok_iff`, `answer_eq_error_iff`). Answers are printed
as they come, so those in front of the first query that is refused stay, and nothing behind it matters
(`queries_answered_in_order`). -/
namespace WasmBinary.Command
open Console

/-! ### One query -/

/-- A query is for a code if it starts with a decimal digit. -/
def AsksCode (query : String) : Prop := query.toList.head?.any Char.isDigit

section
variable (α : Type) [Symbol α]

/-- What a query is answered: the name of a code, or the code of a name. -/
inductive Answers (spell : UInt8 → String) (query : String) : String → Prop where
  | code (x : α) (n : UInt64) (asks : AsksCode query) (read : Numeral.unsigned query = .ok n)
    (same : (Symbol.code x).toNat = n.toNat) : Answers spell query (Symbol.name x)
  | name (x : α) (asks : ¬AsksCode query) (same : Symbol.name x = query) :
    Answers spell query (spell (Symbol.code x))

/-- Why a query is refused: it is no numeral, its value is no byte or no code, or it is no name. -/
inductive Refuses (unnamed : String → Failure) (query : String) : Failure → Prop where
  | numeral (e : NumeralError) (asks : AsksCode query) (read : Numeral.unsigned query = .error e) :
    Refuses unnamed query ⟨e.message, some e.cause.message⟩
  | wide (n : UInt64) (asks : AsksCode query) (read : Numeral.unsigned query = .ok n) (wide : 256 ≤ n.toNat) :
    Refuses unnamed query
      ⟨s!"code `{query}` does not fit in a byte", some "number too large to fit in target type"⟩
  | code (c : UInt8) (n : UInt64) (asks : AsksCode query) (read : Numeral.unsigned query = .ok n)
    (same : c.toNat = n.toNat) (unknown : ∀ x : α, Symbol.code x ≠ c) :
    Refuses unnamed query ⟨s!"unknown {Symbol.table α} code 0x{String.ofList (Hex.lower c)}", none⟩
  | name (asks : ¬AsksCode query) (unknown : ∀ x : α, Symbol.name x ≠ query) :
    Refuses unnamed query (unnamed query)

/-- Answers a query from a table. -/
def answer (spell : UInt8 → String) (unnamed : String → Failure) (query : String) : Except Failure String :=
  match Numeral.code? query with
  | some (.error e) => .error (.ofNumeral e)
  | some (.ok code) =>
    match (Symbol.ofCode code : Except EncodingError α) with
    | .ok x => .ok (Symbol.name x)
    | .error e => .error (.ofEncoding e)
  | none =>
    match (Symbol.ofName query : Except EncodingError α) with
    | .ok x => .ok (spell (Symbol.code x))
    | .error _ => .error (unnamed query)

end

theorem answerSection_eq : answerSection = answer SectionKind (fun code => toString code.toNat)
    fun query => ⟨s!"failed to look up `{query}`", some s!"unknown section name `{query}`"⟩ := by
  funext query
  unfold answerSection answer
  rcases Numeral.code? query with _ | e | code
  · dsimp only
    cases found : (Symbol.ofName query : Except EncodingError SectionKind) with
    | ok kind => rfl
    | error e =>
      obtain ⟨-, rfl⟩ := Symbol.ofName_eq_error_iff.1 found
      rfl
  · rfl
  · dsimp only
    cases (Symbol.ofCode code : Except EncodingError SectionKind) <;> rfl

theorem answerOpcode_eq : answerOpcode = answer Opcode hexCode
    fun query => ⟨s!"unknown opcode name `{query}`", none⟩ := by
  funext query
  unfold answerOpcode answer
  rcases Numeral.code? query with _ | e | code
  · dsimp only
    cases found : (Symbol.ofName query : Except EncodingError Opcode) with
    | ok opcode => rfl
    | error e =>
      obtain ⟨-, rfl⟩ := Symbol.ofName_eq_error_iff.1 found
      rfl
  · rfl
  · dsimp only
    cases (Symbol.ofCode code : Except EncodingError Opcode) <;> rfl

theorem code?_of_asks {query : String} (asks : AsksCode query) : Numeral.code? query =
    some (Numeral.unsigned query >>= fun n =>
      if n.toNat < 256 then .ok n.toUInt8 else .error (.outsideByte query)) := if_pos asks

theorem code?_of_not_asks {query : String} (asks : ¬AsksCode query) : Numeral.code? query = none := if_neg asks

/-- A query is read as the code that its value is. -/
theorem code?_of_toNat {query : String} (asks : AsksCode query) {n : UInt64} (read : Numeral.unsigned query = .ok n)
    {code : UInt8} (same : code.toNat = n.toNat) : Numeral.code? query = some (.ok code) := by
  have small := code.toNat_lt
  have byte : n.toUInt8 = code := by
    rw [← UInt8.toNat_inj, UInt64.toNat_toUInt8]
    omega
  rw [code?_of_asks asks, read]
  exact congrArg some ((if_pos (by omega)).trans (congrArg _ byte))

section
variable {α : Type} [Symbol α] [LawfulSymbol α] {spell : UInt8 → String} {unnamed : String → Failure}
  {query : String}

theorem answer_of_answers {text : String} (answers : Answers α spell query text) :
    answer α spell unnamed query = .ok text := by
  cases answers with
  | code x n asks read same =>
    rw [answer, code?_of_toNat asks read same]
    simp only [Symbol.ofCode_code]
  | name x asks same =>
    rw [answer, code?_of_not_asks asks]
    simp only [Symbol.ofName_eq_ok_iff.2 same]

theorem answer_of_refuses {failure : Failure} (refuses : Refuses α unnamed query failure) :
    answer α spell unnamed query = .error failure := by
  cases refuses with
  | numeral e asks read =>
    rw [answer, code?_of_asks asks, read]
    rfl
  | wide n asks read wide =>
    rw [answer, code?_of_asks asks, read]
    simp only [bind, Except.bind, if_neg (Nat.not_lt.2 wide)]
    rfl
  | code c n asks read same unknown =>
    rw [answer, code?_of_toNat asks read same]
    simp only [Symbol.ofCode_eq_error_iff.2 ⟨unknown, rfl⟩]
    rfl
  | name asks unknown =>
    rw [answer, code?_of_not_asks asks]
    simp only [Symbol.ofName_eq_error_iff.2 ⟨unknown, rfl⟩]

omit [LawfulSymbol α] in
/-- Every query is answered or refused. -/
theorem answers_or_refuses (spell : UInt8 → String) (unnamed : String → Failure) (query : String) :
    (∃ text, Answers α spell query text) ∨ ∃ failure, Refuses α unnamed query failure := by
  by_cases asks : AsksCode query
  · cases read : Numeral.unsigned query with
    | error e => exact .inr ⟨_, .numeral e asks read⟩
    | ok n =>
      by_cases wide : 256 ≤ n.toNat
      · exact .inr ⟨_, .wide n asks read wide⟩
      · have same : n.toUInt8.toNat = n.toNat := by
          rw [UInt64.toNat_toUInt8]
          omega
        by_cases known : ∃ x : α, Symbol.code x = n.toUInt8
        · obtain ⟨x, code⟩ := known
          exact .inl ⟨_, .code x n asks read (code ▸ same)⟩
        · exact .inr ⟨_, .code _ n asks read same (not_exists.1 known)⟩
  · by_cases known : ∃ x : α, Symbol.name x = query
    · obtain ⟨x, name⟩ := known
      exact .inl ⟨_, .name x asks name⟩
    · exact .inr ⟨_, .name asks (not_exists.1 known)⟩

theorem answer_eq_ok_iff {text : String} :
    answer α spell unnamed query = .ok text ↔ Answers α spell query text := by
  refine ⟨fun answered => ?_, answer_of_answers⟩
  rcases answers_or_refuses (α := α) spell unnamed query with ⟨other, answers⟩ | ⟨failure, refuses⟩
  · obtain rfl := Except.ok.inj (answered.symm.trans (answer_of_answers answers))
    exact answers
  · cases answered.symm.trans (answer_of_refuses refuses)

theorem answer_eq_error_iff {failure : Failure} :
    answer α spell unnamed query = .error failure ↔ Refuses α unnamed query failure := by
  refine ⟨fun refused => ?_, answer_of_refuses⟩
  rcases answers_or_refuses (α := α) spell unnamed query with ⟨text, answers⟩ | ⟨other, refuses⟩
  · cases refused.symm.trans (answer_of_answers answers)
  · obtain rfl := Except.error.inj (refused.symm.trans (answer_of_refuses refuses))
    exact refuses

end

/-! ### All queries -/

section
variable {answer : String → Except Failure String} {note : String → String → Script Unit}
  {notes : String → String → List String}

/-- What is done for queries that are answered. -/
def answering (notes : String → String → List String) (answered : List (String × String)) : List Effect :=
  answered.flatMap fun p => (notes p.1 p.2).map (.log .debug) ++ [p.2 ++ "\n"].map .print

theorem performAll_answering {verbosity : Nat} {output : Output} (reads : output ≠ .brokenPipe) (console : Console)
    (answered : List (String × String)) :
    performAll verbosity output console (answering notes answered) =
      ({ console with
        printed := console.printed ++ .join (answered.map fun p => p.2 ++ "\n")
        reported := console.reported ++ logged verbosity .debug (answered.flatMap fun p => notes p.1 p.2) },
        none) := by
  induction answered generalizing console with
  | nil => simp [answering, performAll, logged]
  | cons p answered ih =>
    rw [answering, List.flatMap_cons, List.append_assoc, performAll_append (performAll_log ..),
      performAll_append (performAll_print reads ..), ← answering, ih]
    simp [logged_append, String.append_assoc]

theorem answerAll_append {answered : List (String × String)} (each : ∀ p ∈ answered, answer p.1 = .ok p.2)
    (noted : ∀ query text, note query text = ⟨(notes query text).map (.log .debug), .ok ()⟩) (rest : List String) :
    answerAll answer note (answered.map Prod.fst ++ rest) =
      (⟨answering notes answered, .ok ()⟩ : Script Unit) >>= fun _ => answerAll answer note rest := by
  induction answered with
  | nil => rfl
  | cons p answered ih =>
    obtain ⟨first, others⟩ := List.forall_mem_cons.1 each
    rw [List.map_cons, List.cons_append, answerAll, first, ih others]
    simp only [Script.ofExcept_ok, Script.pure_bind, noted, printLine, Script.doing, Script.ok_bind, answering,
      List.flatMap_cons, List.append_assoc]
    rfl

/-- Of any queries, the first ones are answered, and then there are none left or one is refused. -/
theorem exists_answered (answer : String → Except Failure String) (queries : List String) :
    ∃ (answered : List (String × String)) (rest : List String), queries = answered.map Prod.fst ++ rest ∧
      (∀ p ∈ answered, answer p.1 = .ok p.2) ∧ (rest = [] ∨
        ∃ query more failure, rest = query :: more ∧ answer query = .error failure) := by
  induction queries with
  | nil => exact ⟨[], [], rfl, nofun, .inl rfl⟩
  | cons query queries ih =>
    cases first : answer query with
    | error failure => exact ⟨[], query :: queries, rfl, nofun, .inr ⟨query, queries, failure, rfl, first⟩⟩
    | ok text =>
      obtain ⟨answered, rest, rfl, each, stops⟩ := ih
      exact ⟨(query, text) :: answered, rest, rfl, List.forall_mem_cons.2 ⟨first, each⟩, stops⟩

/-- Nothing behind a query that is refused matters. -/
theorem answerAll_refused {query : String} {failure : Failure} (refused : answer query = .error failure)
    (front rest : List String) :
    answerAll answer note (front ++ query :: rest) = answerAll answer note (front ++ [query]) := by
  induction front with
  | nil =>
    rw [List.nil_append, List.nil_append, answerAll, answerAll, refused]
    rfl
  | cons first front ih => rw [List.cons_append, List.cons_append, answerAll, answerAll, ih]

end

/-! ### The tables -/

/-- A command that looks things up in a table. -/
structure Table where
  name : String
  verb : Verb
  task : Lookup → Task
  /-- What a query is answered. -/
  answers : String → String → Prop
  /-- Why a query is refused. -/
  refuses : String → Failure → Prop
  /-- What is noted on an answer. -/
  notes : String → String → List String

def sectionTable : Table where
  name := "section"
  verb := .sections
  task := .sections
  answers := Answers SectionKind fun code => toString code.toNat
  refuses := Refuses SectionKind fun query =>
    ⟨s!"failed to look up `{query}`", some s!"unknown section name `{query}`"⟩
  notes query text := [s!"section `{query}` is `{text}`"]

/-- A code as two hexadecimal digits behind `0x`. -/
def twoDigits (code : UInt8) : String := "0x" ++ .ofList ((Nat.toDigits 16 code.toNat).leftpad 2 '0')

def opcodeTable : Table where
  name := "opcode"
  verb := .opcodes
  task := .opcodes
  answers := Answers Opcode twoDigits
  refuses := Refuses Opcode fun query => ⟨s!"unknown opcode name `{query}`", none⟩
  notes _ _ := []

def tables : List Table := [sectionTable, opcodeTable]

theorem hexCode_eq : hexCode = twoDigits := by
  funext code
  have digits := forall_byte (p := fun b => Hex.lower b = (Nat.toDigits 16 b.toNat).leftpad 2 '0')
    (by decide +kernel) code
  rw [hexCode, twoDigits, ← digits]
  rfl

/-- What a command does for its queries, one after the other. -/
structure Table.Runs (table : Table) (answer : String → Except Failure String)
    (note : String → String → Script Unit) : Prop where
  named : Verb.ofName? table.name = some table.verb
  reads : ∀ a : Arguments, table.verb.task a = (do return table.task (← a.lookup))
  runs : ∀ verbosity color queries world, (Job.mk verbosity color (table.task (.queries queries))).run world =
    (answerAll answer note queries).outcome verbosity world
  answers : ∀ {query text}, answer query = .ok text ↔ table.answers query text
  refuses : ∀ {query failure}, answer query = .error failure ↔ table.refuses query failure
  notes : ∀ query text, note query text = ⟨(table.notes query text).map (.log .debug), .ok ()⟩

theorem exists_runs {table : Table} (known : table ∈ tables) : ∃ answer note, table.Runs answer note := by
  simp only [tables, List.mem_cons, List.not_mem_nil, or_false] at known
  rcases known with rfl | rfl
  · refine ⟨answerSection, _, by decide, fun _ => rfl, fun _ _ _ _ => rfl, ?_, ?_, fun _ _ => rfl⟩
    · rw [answerSection_eq]
      exact answer_eq_ok_iff
    · rw [answerSection_eq]
      exact answer_eq_error_iff
  · refine ⟨answerOpcode, _, by decide, fun _ => rfl, fun _ _ _ _ => rfl, ?_, ?_, fun _ _ => rfl⟩
    · rw [answerOpcode_eq, hexCode_eq]
      exact answer_eq_ok_iff
    · rw [answerOpcode_eq]
      exact answer_eq_error_iff

/-! ### Answers in order -/

/-- Queries are answered as far as they can be, in order, a line each. If one is left, it is refused. -/
structure InOrder (table : Table) (world : World) (verbosity : Nat) (queries : List String)
    (answered : List (String × String)) (outcome : Outcome) : Prop where
  each : ∀ p ∈ answered, table.answers p.1 p.2
  leading : Leading (fun query => ∃ text, table.answers query text) (answered.map Prod.fst) queries
  printed : outcome.printed = .join (answered.map fun p => p.2 ++ "\n")
  files : outcome.files = world.files
  whole : queries = answered.map Prod.fst → outcome.success = true ∧
    outcome.reported = logged verbosity .debug (answered.flatMap fun p => table.notes p.1 p.2)
  stops : ∀ query rest, queries = answered.map Prod.fst ++ query :: rest → ∃ failure,
    table.refuses query failure ∧ outcome.success = false ∧
    outcome.reported =
      logged verbosity .debug (answered.flatMap fun p => table.notes p.1 p.2) ++ failure.text

section
variable {table : Table} {answer : String → Except Failure String} {note : String → String → Script Unit}
  (runs : table.Runs answer note)
include runs

theorem exists_inOrder {world : World} (reads : world.output ≠ .brokenPipe) (verbosity : Nat) (color : ColorChoice)
    (queries : List String) :
    ∃ answered, InOrder table world verbosity queries answered
      ((Job.mk verbosity color (table.task (.queries queries))).run world) := by
  obtain ⟨answered, rest, rfl, each, stops⟩ := exists_answered answer queries
  have answers : ∀ p ∈ answered, table.answers p.1 p.2 := fun p mem => runs.answers.1 (each p mem)
  have front : ∀ query ∈ answered.map Prod.fst, ∃ text, table.answers query text := by
    simp only [List.forall_mem_map]
    exact fun p mem => ⟨p.2, answers p mem⟩
  have performed := performAll_append
    (@performAll_answering table.notes verbosity _ reads (start world) answered)
  refine ⟨answered, ?_⟩
  rw [runs.runs, answerAll_append each runs.notes, Script.ok_bind, Script.outcome, performed]
  rcases stops with rfl | ⟨query, more, failure, rfl, refused⟩
  · refine ⟨answers, leading_of_stop front ?_, String.empty_append, rfl,
      fun _ => ⟨rfl, String.empty_append⟩, fun query rest same => ?_⟩
    · rintro _ ⟨⟩
    · cases List.append_cancel_left same
  · have stopped : answerAll answer note (query :: more) = ⟨[], .error failure⟩ := by
      rw [answerAll, refused]
      rfl
    have refuses := runs.refuses.1 refused
    rw [stopped]
    refine ⟨answers, leading_of_stop front ?_, String.empty_append, rfl, fun same => ?_,
      fun other rest same => ?_⟩
    · rintro _ ⟨⟩ ⟨text, answered⟩
      cases refused.symm.trans (runs.answers.2 answered)
    · simp at same
    · obtain ⟨rfl, rfl⟩ := List.cons.inj (List.append_cancel_left same)
      exact ⟨failure, refuses, rfl, congrArg (· ++ _) String.empty_append⟩

/-- Behind their options, queries are taken as they are. -/
theorem ofArguments_queries {options : List String} {a : Arguments}
    (said : Arguments.ofList table.verb.grammar options = .ok a) (only : a.values = [])
    (noHelp : a.uses .help = []) (noList : a.uses .list = []) {verbosity : Nat} {color : ColorChoice}
    (verbose : (a.uses .verbose).length = verbosity) (chosen : a.color = .ok color) {queries : List String}
    (nonempty : queries ≠ []) (values : ∀ query ∈ queries, table.verb.grammar.readArgument query = .ok .value) :
    Request.ofArguments (table.name :: (options ++ queries)) =
      .ok (.job ⟨verbosity, color, table.task (.queries queries)⟩) := by
  have lookup : (Arguments.mk a.settings queries).lookup = .ok (.queries queries) := by
    have none : (Arguments.mk a.settings queries).atMostOnce .list = .ok none := by
      rw [Arguments.atMostOnce, show (Arguments.mk a.settings queries).uses .list = [] from noList]
    obtain ⟨query, more, rfl⟩ := List.exists_cons_of_ne_nil nonempty
    rw [Arguments.lookup, none]
    rfl
  rw [ofArguments_eq_ok_iff runs.named, job_eq_ok_iff]
  refine ⟨⟨a.settings, queries⟩, Arguments.scan_append said only values, noHelp, verbose, chosen, ?_⟩
  rw [runs.reads, lookup]
  rfl

end

/-- These arguments are options of the command and nothing else, and they do not ask for every entry. -/
def Table.Given (table : Table) (options : List String) (verbosity : Nat) (color : ColorChoice) : Prop :=
  ∃ a, Arguments.ofList table.verb.grammar options = .ok a ∧ a.values = [] ∧ a.uses .help = [] ∧
    a.uses .list = [] ∧ (a.uses .verbose).length = verbosity ∧ a.color = .ok color

/-- **Queries are answered in order up to the first that is refused.** Every query has one answer or one
refusal. Behind their options, queries that are not taken for options are accepted. The longest front of
them that can be answered is, a line each. If that is all, the command succeeds; otherwise it fails with
the error of the first query that is refused, and what stands behind that one makes no difference. -/
theorem queries_answered_in_order {table : Table} (known : table ∈ tables) :
    (∃ answer : String → Except Failure String,
      (∀ query text, answer query = .ok text ↔ table.answers query text) ∧
      ∀ query failure, answer query = .error failure ↔ table.refuses query failure) ∧
    (∀ options verbosity color queries, table.Given options verbosity color → queries ≠ [] →
      (∀ query ∈ queries, table.verb.grammar.readArgument query = .ok .value) →
      Request.ofArguments (table.name :: (options ++ queries)) =
        .ok (.job ⟨verbosity, color, table.task (.queries queries)⟩)) ∧
    ∀ world : World, world.output ≠ .brokenPipe → ∀ verbosity color,
      (∀ queries, ∃ answered, InOrder table world verbosity queries answered
        ((Job.mk verbosity color (table.task (.queries queries))).run world)) ∧
      ∀ front query failure rest, table.refuses query failure →
        (Job.mk verbosity color (table.task (.queries (front ++ query :: rest)))).run world =
          (Job.mk verbosity color (table.task (.queries (front ++ [query])))).run world := by
  obtain ⟨answer, note, runs⟩ := exists_runs known
  refine ⟨⟨answer, fun _ _ => runs.answers, fun _ _ => runs.refuses⟩, ?_, ?_⟩
  · rintro options verbosity color queries ⟨a, said, only, noHelp, noList, verbose, chosen⟩ nonempty values
    exact ofArguments_queries runs said only noHelp noList verbose chosen nonempty values
  · intro world reads verbosity color
    refine ⟨fun queries => exists_inOrder runs reads verbosity color queries, ?_⟩
    intro front query failure rest refuses
    rw [runs.runs, runs.runs, answerAll_refused (runs.refuses.2 refuses)]

/-- The name of a kind of section and a code with needless zeros are answered, and a code that no kind
has is refused, whatever stands behind it. -/
theorem queries_answered_in_order_sections :
    let world : World := ⟨[], .pipe, ⟨[], []⟩⟩
    (sectionTable ∈ tables ∧ sectionTable.Given ["--color", "never"] 0 .never ∧ world.output ≠ .brokenPipe) ∧
    ∃ job, Request.ofArguments ["section", "--color", "never", "Type", "0x0_1", "0b1111", "-"] =
        .ok (.job job) ∧
      (∃ answered, InOrder sectionTable world 0 ["Type", "0x0_1", "0b1111", "-"] answered (job.run world)) ∧
      (job.run world).success = false ∧ (job.run world).printed = "1\nType\n" ∧
      (job.run world).reported = "error: unknown section code 0x0f\n" := by
  intro world
  have known : sectionTable ∈ tables := by simp [tables]
  have given : sectionTable.Given ["--color", "never"] 0 .never :=
    ⟨⟨[(.color, some "never")], []⟩, rfl, rfl, rfl, rfl, rfl, rfl⟩
  obtain ⟨-, accepts, runs⟩ := queries_answered_in_order known
  have accepted := accepts _ _ _ ["Type", "0x0_1", "0b1111", "-"] given nofun
    (by simp only [List.forall_mem_cons]; exact ⟨rfl, rfl, rfl, rfl, nofun⟩)
  exact ⟨⟨known, given, nofun⟩, _, accepted, (runs world nofun 0 .never).1 _, by decide +kernel,
    by decide +kernel, by decide +kernel⟩

end WasmBinary.Command
