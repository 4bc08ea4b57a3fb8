import WasmBinary.Proofs.Command.Lookup
import WasmBinary.Proofs.Command.Output
import WasmBinary.Proofs.Command.Report
import WasmBinary.Proofs.Numeral.Spelling

/-! What a task does, effect by effect.

Whatever a task logs is printable, since it quotes numbers and names and such queries as are numerals,
and whatever it prints is some text, which has an escape only in colours (`Effect.Tame`). The one message
that quotes something else is on a path, and nothing is behind it (`Task.tame_script`). So up to its end,
a run reports nothing but lines of the log, and what else is reported depends on nothing but how it ends
(`Script.Tame.unloggedLines`). -/
namespace WasmBinary.Command
open Console
variable {α β : Type}

/-! ### Printable texts -/

theorem printable_nat (n : Nat) : Printable (toString n) := by
  intro c mem
  have digits : (toString n).toList = Nat.toDigits 10 n := Nat.toList_repr
  rw [digits] at mem
  have digit := Nat.isDigit_of_mem_toDigits (by decide) (by decide) mem
  obtain ⟨low, high⟩ := Bool.and_eq_true_iff.1 digit
  have low : '0'.val ≤ c.val := of_decide_eq_true low
  have high : c.val ≤ '9'.val := of_decide_eq_true high
  refine ⟨UInt32.le_trans (by decide) low, ?_⟩
  rintro rfl
  exact absurd high (by decide)

theorem printable_int (n : Int) : Printable (toString n) := by
  cases n with
  | ofNat n => exact printable_nat n
  | negSucc n =>
    have minus : Printable "-" := by decide
    exact minus.append (printable_nat (n + 1))

theorem printable_digit {base : Numeral.Base} {c : Char} (digit : base.isDigit c) : ' ' ≤ c ∧ c ≠ '\x7f' := by
  have value : Numeral.digitValue c < 16 :=
    lt_of_lt_of_le (of_decide_eq_true digit) (by cases base <;> decide)
  by_cases ascii : c.toNat < 128
  · exact Numeral.forall_ascii (p := fun c => Numeral.digitValue c < 16 → ' ' ≤ c ∧ c ≠ '\x7f')
      (by decide +kernel) ascii value
  · rw [Numeral.digitValue_of_not_ascii ascii] at value
    contradiction

/-- A numeral has nothing but underscores, the mark of its base and digits. -/
theorem printable_numeral {text : String} {n : UInt64} (read : Numeral.unsigned text = .ok n) :
    Printable text := by
  obtain ⟨-, base, digits, marked, spells⟩ := Numeral.magnitude_eq_ok_iff.1 (Numeral.unsigned_eq_ok_iff.1 read)
  intro c mem
  by_cases underscore : c = '_'
  · subst underscore
    decide
  · have kept : c ∈ text.toList.filter (· ≠ '_') := List.mem_filter.2 ⟨mem, decide_eq_true underscore⟩
    rw [marked.split, List.mem_append] at kept
    rcases kept with mark | digit
    · have all : Printable (.ofList base.mark) := by cases base <;> decide
      exact all c (by rwa [String.toList_ofList])
    · exact printable_digit (spells.each c digit)

theorem printable_of_answers [Symbol α] {spell : UInt8 → String} (names : ∀ x : α, Printable (Symbol.name x))
    (codes : ∀ code, Printable (spell code)) {query text : String} (answers : Answers α spell query text) :
    Printable query ∧ Printable text := by
  cases answers with
  | code x n asks read same => exact ⟨printable_numeral read, names x⟩
  | name x asks same => exact ⟨same ▸ names x, codes _⟩

theorem printable_sectionKind (kind : SectionKind) : Printable (Symbol.name kind) := by
  cases kind <;> decide

theorem printable_opcode (opcode : Opcode) : Printable (Symbol.name opcode) := by
  cases opcode <;> decide

theorem printable_hexCode (code : UInt8) : Printable (hexCode code) := by
  have mark : Printable "0x" := by decide
  refine mark.append fun c mem => ?_
  have all : ∀ i : Fin 16, ' ' ≤ Hex.lowerDigit i.val ∧ Hex.lowerDigit i.val ≠ '\x7f' := by decide
  have small := code.toNat_lt
  have digits : c ∈ (String.ofList (Hex.lower code)).toList := mem
  rw [String.toList_ofList] at digits
  rcases List.mem_cons.1 digits with rfl | mem
  · exact all ⟨code.toNat / 16, by omega⟩
  · rw [List.mem_singleton.1 mem]
    exact all ⟨code.toNat % 16, by omega⟩

/-! ### Notes -/

/-- A printable debug line. -/
def Effect.Note (effect : Effect) : Prop := ∃ message, effect = .log .debug message ∧ Printable message

theorem Script.Each.noting {s : Script α} (each : s.Each Effect.Note) : s.Noting := by
  obtain ⟨effects, result⟩ := s
  induction effects with
  | nil => exact ⟨[], rfl⟩
  | cons effect effects ih =>
    obtain ⟨⟨message, rfl, -⟩, others⟩ := List.forall_mem_cons.1 each
    obtain ⟨notes, same⟩ := ih others
    exact ⟨message :: notes, congrArg (_ :: ·) same⟩

theorem each_encodeAll (encode : α → Except EncodingError Varint) {spell : α → String}
    (printable : ∀ x, Printable (spell x)) (values : List α) :
    (encodeAll encode spell values).Each Effect.Note := by
  induction values with
  | nil => exact .of_nil rfl
  | cons value values ih =>
    refine (Script.each_ofExcept _ _).bind fun v _ => ?_
    have noted : (log .debug s!"{spell value} encodes to {v.length} bytes").Each Effect.Note := by
      have between : Printable " encodes to " := by decide
      have behind : Printable " bytes" := by decide
      exact .doing ⟨_, rfl, (((printable value).append between).append (printable_nat v.length)).append behind⟩
    exact noted.bind fun _ _ => ih.bind fun _ _ => .of_nil rfl

theorem each_encodeTree (limit : Option Nat) (input : List UInt8) (source : Option String) :
    (encodeTree limit input source).Each Effect.Note := by
  have text : (treeText input source).Each Effect.Note := by
    unfold treeText
    split
    · exact .of_nil rfl
    · split <;> exact .of_nil rfl
  refine text.bind fun bytes _ => .bind ?_ fun _ _ => .of_nil rfl
  refine (Script.each_ofExcept _ _).bind fun tree _ => ?_
  have noted : (log .debug s!"byte-tree has {tree.leafCount} leaves nested {tree.depth} deep").Each
      Effect.Note := by
    have front : Printable "byte-tree has " := by decide
    have between : Printable " leaves nested " := by decide
    have behind : Printable " deep" := by decide
    exact .doing ⟨_, rfl, (((front.append (printable_nat tree.leafCount)).append between).append
      (printable_nat tree.depth)).append behind⟩
  exact noted.bind fun _ _ => (Script.each_ofExcept _ _).bind fun _ _ => .of_nil rfl

/-- **While encodings are worked out, nothing but notes is written.** -/
theorem Task.each_encode (task : Task) (input : List UInt8) :
    (task.encode input).Each Effect.Note := by
  cases task with
  | signed bits values output =>
    have spelled (n : Int64) : Printable (toString n.toInt) := printable_int n.toInt
    exact each_encodeAll _ spelled values
  | unsigned bits values output =>
    have spelled (n : UInt64) : Printable (toString n.toNat) := printable_nat n.toNat
    exact each_encodeAll _ spelled values
  | vector limit source output => exact each_encodeTree limit input source
  | preamble output => exact .of_nil rfl
  | sections lookup => exact .of_nil rfl
  | opcodes lookup => exact .of_nil rfl

theorem Task.noting_encode (task : Task) (input : List UInt8) : (task.encode input).Noting :=
  (task.each_encode input).noting

/-! ### Tame effects -/

/-- A message is printable, and a text is not empty and has no escape where there are none. -/
def Effect.Tame (escapes : Prop) : Effect → Prop
  | .log _ message => Printable message
  | .print text => text ≠ "" ∧ ('\x1b' ∈ text.toList → escapes)
  | .save _ _ => True

/-- The message on a file that has been written. -/
def savedNote (size : Nat) (path : String) : String := s!"wrote {size} bytes to `{path}`"

/-- Every effect is tame, but for a message on the path of the output at the very end. -/
inductive Script.Tame (escapes : Prop) (path? : Option String) : Script Unit → Prop where
  | whole {s : Script Unit} (each : s.Each (Effect.Tame escapes)) : s.Tame escapes path?
  | saved {front : List Effect} {path : String} (size : Nat) (names : path? = some path)
    (each : ∀ effect ∈ front, effect.Tame escapes) :
    Script.Tame escapes path? ⟨front ++ [.log .info (savedNote size path)], .ok ()⟩

section
variable {escapes : Prop}

theorem Script.Tame.print {s : Script Unit} {path? : Option String} (tame : s.Tame escapes path?) {text : String}
    (mem : .print text ∈ s.effects) : text ≠ "" ∧ ('\x1b' ∈ text.toList → escapes) := by
  cases tame with
  | whole each => exact each _ mem
  | saved size names each =>
    rcases List.mem_append.1 mem with front | last
    · exact each _ front
    · cases List.mem_singleton.1 last

theorem Effect.Note.tame {effect : Effect} (note : effect.Note) : effect.Tame escapes := by
  obtain ⟨message, rfl, printable⟩ := note
  exact printable

theorem Effect.tame_line {text : String} (printable : Printable text) :
    (Effect.print (text ++ "\n")).Tame escapes := by
  refine ⟨fun empty => ?_, fun mem => ?_⟩
  · simpa using congrArg String.toList empty
  · rw [String.toList_append, List.mem_append] at mem
    rcases mem with mem | mem
    · exact absurd mem (printable.not_mem (by decide))
    · exact absurd mem (by decide)

theorem Effect.tame_hexLine {coloured : Bool} {line : HexLine}
    (plain : line.emphasisedBytes coloured ≠ 0 → escapes) :
    (Effect.print (.ofList (line.text coloured))).Tame escapes := by
  refine ⟨fun empty => ?_, fun mem => plain fun none => ?_⟩
  · simpa [HexLine.text] using congrArg String.toList empty
  · rw [String.toList_ofList] at mem
    exact HexLine.escape_not_mem_text none mem

theorem plain_encodeAll {encode : α → Except EncodingError Varint} {spell : α → String} {values : List α}
    {lines : List HexLine} (encoded : (encodeAll encode spell values).result = .ok lines) :
    ∀ line ∈ lines, line.marked = 0 := by
  induction values generalizing lines with
  | nil =>
    obtain rfl := Except.ok.inj encoded
    exact nofun
  | cons value values ih =>
    obtain ⟨v, -, noted⟩ := Script.bind_eq_ok encoded
    obtain ⟨_, -, rest⟩ := Script.bind_eq_ok noted
    obtain ⟨more, others, made⟩ := Script.bind_eq_ok rest
    obtain rfl := Except.ok.inj made
    exact List.forall_mem_cons.2 ⟨rfl, ih others⟩

/-- Only the line of a tree has marked bytes. -/
theorem Task.marked_encode {task : Task} {input : List UInt8} {lines : List HexLine}
    (encoded : (task.encode input).result = .ok lines) {line : HexLine} (mem : line ∈ lines)
    (marked : line.marked ≠ 0) : ∃ limit source output, task = .vector limit source output := by
  cases task with
  | signed bits values output => exact absurd (plain_encodeAll encoded line mem) marked
  | unsigned bits values output => exact absurd (plain_encodeAll encoded line mem) marked
  | vector limit source output => exact ⟨limit, source, output, rfl⟩
  | preamble output =>
    obtain rfl := Except.ok.inj encoded
    obtain rfl := List.mem_singleton.1 mem
    exact absurd rfl marked
  | sections lookup | opcodes lookup =>
    obtain rfl := Except.ok.inj encoded
    cases mem

/-- What encodings are put out with is tame, but for the message on the path. -/
theorem tame_emit {encode : Script (List HexLine)} (each : encode.Each (Effect.Tame escapes)) {coloured : Bool}
    {output : Option String}
    (plain : ∀ lines, encode.result = .ok lines → ∀ line ∈ lines, output = none →
      line.emphasisedBytes coloured ≠ 0 → escapes) :
    (encode >>= emit coloured output).Tame escapes output := by
  cases output with
  | none =>
    refine .whole (each.bind fun lines encoded => ?_)
    rw [emit, printHex_eq]
    intro effect mem
    obtain ⟨_, text, rfl⟩ := List.mem_map.1 mem
    obtain ⟨line, among, rfl⟩ := List.mem_map.1 text
    exact Effect.tame_hexLine (plain lines encoded line among rfl)
  | some path =>
    obtain ⟨effects, result⟩ := encode
    cases result with
    | error failure => exact .whole each
    | ok lines =>
      let bytes : Bytes := (lines.flatMap HexLine.bytes).toArray
      have save : ∀ effect ∈ effects ++ [Effect.save path bytes], effect.Tame escapes := by
        intro effect mem
        rcases List.mem_append.1 mem with mem | mem
        · exact each effect mem
        · obtain rfl := List.mem_singleton.1 mem
          trivial
      have last : Script.Tame escapes (some path) _ := .saved bytes.size rfl save
      rw [List.append_assoc] at last
      exact last

theorem each_printLines {texts : List String} (printable : ∀ text ∈ texts, Printable text) :
    (printLines texts).Each (Effect.Tame escapes) := by
  induction texts with
  | nil => exact .of_nil rfl
  | cons text texts ih =>
    obtain ⟨first, others⟩ := List.forall_mem_cons.1 printable
    exact (Script.Each.doing (Effect.tame_line first)).bind fun _ _ => ih others

theorem each_answerAll {answer : String → Except Failure String} {note : String → String → Script Unit}
    (printable : ∀ {query text}, answer query = .ok text →
      Printable text ∧ (note query text).Each (Effect.Tame escapes))
    (queries : List String) : (answerAll answer note queries).Each (Effect.Tame escapes) := by
  induction queries with
  | nil => exact .of_nil rfl
  | cons query queries ih =>
    refine (Script.each_ofExcept _ _).bind fun text answered => ?_
    obtain ⟨line, noted⟩ := printable (Script.eq_ok_of_ofExcept answered)
    exact noted.bind fun _ _ => (Script.Each.doing (Effect.tame_line line)).bind fun _ _ => ih

theorem each_lookupSections (lookup : Lookup) : (lookupSections lookup).Each (Effect.Tame escapes) := by
  cases lookup with
  | all =>
    refine each_printLines fun text mem => ?_
    obtain ⟨kind, -, rfl⟩ := List.mem_map.1 mem
    cases kind <;> decide +kernel
  | queries queries =>
    refine each_answerAll (fun {query text} answered => ?_) queries
    rw [answerSection_eq, answer_eq_ok_iff] at answered
    obtain ⟨asked, told⟩ := printable_of_answers printable_sectionKind (fun code => printable_nat _) answered
    have front : Printable "section `" := by decide
    have between : Printable "` is `" := by decide
    have behind : Printable "`" := by decide
    exact ⟨told, .doing ((((front.append asked).append between).append told).append behind)⟩

theorem each_lookupOpcodes (lookup : Lookup) : (lookupOpcodes lookup).Each (Effect.Tame escapes) := by
  cases lookup with
  | all =>
    refine each_printLines fun text mem => ?_
    obtain ⟨opcode, -, rfl⟩ := List.mem_map.1 mem
    have blank : Printable " " := by decide
    exact ((printable_hexCode _).append blank).append (printable_opcode opcode)
  | queries queries =>
    refine each_answerAll (fun {query text} answered => ?_) queries
    rw [answerOpcode_eq, answer_eq_ok_iff] at answered
    exact ⟨(printable_of_answers printable_opcode printable_hexCode answered).2, .of_nil rfl⟩

end

/-- The task prints the frame of a tree. -/
def Task.PrintsTree (task : Task) : Prop := ∃ limit source, task = .vector limit source none

/-- **Whatever a task does is tame**, but for a last message on the path of its output. Only the frame of
a tree has escapes, and only in colours. -/
theorem Task.tame_script (task : Task) (coloured : Bool) (input : List UInt8) :
    (task.script coloured input).Tame (coloured = true ∧ task.PrintsTree) task.output?.join := by
  cases puts : task.output? with
  | some output =>
    rw [Task.script_eq puts]
    refine tame_emit (fun effect mem => (task.each_encode input effect mem).tame) ?_
    intro lines encoded line mem none emphasised
    subst none
    rw [HexLine.emphasisedBytes] at emphasised
    split at emphasised
    · rename_i colours
      obtain ⟨limit, source, output, rfl⟩ := Task.marked_encode encoded mem emphasised
      obtain rfl := Option.some.inj puts
      exact ⟨colours, limit, source, rfl⟩
    · contradiction
  | none =>
    cases task with
    | sections lookup => exact .whole (each_lookupSections lookup)
    | opcodes lookup => exact .whole (each_lookupOpcodes lookup)
    | signed bits values output => cases puts
    | unsigned bits values output => cases puts
    | vector limit source output => cases puts
    | preamble output => cases puts

/-! ### Runs -/

section
variable {escapes : Prop} {verbosity : Nat} {output : Output}

theorem silent_logged (verbosity : Nat) (level : Level) {message : String} (printable : Printable message) :
    Silent (logged verbosity level [message]) := by
  rw [logged_singleton]
  split
  · exact silent_text level printable
  · exact .empty

/-- Up to its end, a run reports nothing but lines of the log. -/
theorem silent_performAll {effects : List Effect} (tame : ∀ effect ∈ effects, effect.Tame escapes)
    {console next : Console} {interruption : Option Interruption}
    (ended : performAll verbosity output console effects = (next, interruption))
    (silent : Silent console.reported) : Silent next.reported := by
  refine performAll_keeps (I := fun console => Silent console.reported) (fun effect mem => ?_) ended silent
  intro console next before performed
  obtain ⟨level, message, rfl, rfl⟩ | ⟨text, rfl, -, rfl⟩ | ⟨path, bytes, files, rfl, -, rfl⟩ :=
    perform_cases performed
  · exact before.append (silent_logged verbosity level (tame _ mem))
  · exact before
  · exact before

/-- A message on a path makes one line if the path does. -/
theorem unlogged_saved (verbosity size : Nat) {path : String} (unbroken : '\n' ∉ path.toList) :
    unlogged (logged verbosity .info [savedNote size path]).toList = [] := by
  rw [logged_singleton]
  split
  · apply unlogged_text
    have front : Printable s!"wrote {size} bytes to `" := by
      have before : Printable "wrote " := by decide
      have behind : Printable " bytes to `" := by decide
      exact (before.append (printable_nat size)).append behind
    intro mem
    change '\n' ∈ (s!"wrote {size} bytes to `" ++ path ++ "`").toList at mem
    rw [String.toList_append, List.mem_append, String.toList_append, List.mem_append] at mem
    obtain (mem | mem) | mem := mem
    · exact front.not_mem (by decide) mem
    · exact unbroken mem
    · exact absurd mem (by decide)
  · rfl

/-- **The lines that are not of the log are those of the end**, if a message on a path makes one line. -/
theorem Script.Tame.unloggedLines {s : Script Unit} {path? : Option String} (tame : s.Tame escapes path?)
    {world : World} {console : Console} {interruption : Option Interruption}
    (ended : performAll verbosity world.output (.start world) s.effects = (console, interruption))
    (unbroken : interruption = none → ∀ path, path? = some path → '\n' ∉ path.toList) :
    (s.outcome verbosity world).unloggedLines =
      (unlogged (complaint interruption s.result).toList).map String.ofList := by
  rw [Outcome.unloggedLines_eq, Script.outcome_eq ended, String.toList_append]
  cases tame with
  | whole each =>
    have silent := silent_performAll each ended .empty
    rw [silent]
  | @saved front path size names each =>
    -- The message on the path is written only if nothing stopped the run in front of it.
    rcases reached : performAll verbosity world.output (.start world) front with ⟨between, _ | stop⟩
    · have silent := silent_performAll each reached .empty
      have last := @performAll_log verbosity world.output between .info [savedNote size path]
      obtain ⟨rfl, rfl⟩ := Prod.mk.inj (ended.symm.trans ((performAll_append reached _).trans last))
      rw [String.toList_append, List.append_assoc, silent]
      have nothing : (complaint none (.ok ())).toList = [] := rfl
      rw [nothing, List.append_nil, unlogged_saved verbosity size (unbroken rfl path names)]
      rfl
    · have silent := silent_performAll each reached .empty
      obtain ⟨rfl, rfl⟩ := Prod.mk.inj (ended.symm.trans (performAll_stopped reached _))
      rw [silent]

/-- An escape that is printed is in some text. -/
theorem Script.Tame.of_escape {s : Script Unit} {path? : Option String} (tame : s.Tame escapes path?)
    {world : World} {console : Console} {interruption : Option Interruption}
    (ended : performAll verbosity world.output (.start world) s.effects = (console, interruption)) :
    '\x1b' ∈ console.printed.toList → escapes := by
  refine performAll_keeps (I := fun console => '\x1b' ∈ console.printed.toList → escapes)
    (fun effect mem => ?_) ended nofun
  intro console next before performed
  obtain ⟨level, message, rfl, rfl⟩ | ⟨text, rfl, -, rfl⟩ | ⟨path, bytes, files, rfl, -, rfl⟩ :=
    perform_cases performed
  · exact before
  · rw [String.toList_append, List.mem_append]
    exact fun escape => escape.elim before (tame.print mem).2
  · exact before

end

end WasmBinary.Command
