import WasmBinary.Proofs.Command.Lookup
import WasmBinary.Proofs.Numeral.Spelling

/-! Looking up an answer.

What a command answers can be looked up in turn. A name does not start with a digit and the spelling of a
code does, and no name spells a number (`Apart`), so a query for a name is answered with a code and a query
for a code with a name, whichever of them was asked for first. The way there and back ends at the query
itself, or at the one spelling that the command has for its code (`lookups_two_way`). -/
namespace WasmBinary.Command
open Console

/-! ### Numbers that are spelled -/

/-- The query spells this number: behind the mark of a base, digits of that base, whatever zeros stand in
front of them and wherever underscores stand. -/
def SpellsNumber (query : String) (n : Nat) : Prop :=
  ∃ base digits, Numeral.Marked (query.toList.filter (· ≠ '_')) base digits ∧ Numeral.Spells base digits n

theorem spellsNumber_iff {query : String} {n : UInt64} :
    SpellsNumber query n.toNat ↔ Numeral.unsigned query = .ok n := by
  rw [Numeral.unsigned_eq_ok_iff, Numeral.magnitude_eq_ok_iff]
  exact ⟨fun spelled => ⟨n.toNat_lt, spelled⟩, And.right⟩

/-- A byte is spelled as the word of its value. -/
theorem spellsNumber_byte_iff {query : String} {c : UInt8} :
    SpellsNumber query c.toNat ↔ Numeral.unsigned query = .ok c.toUInt64 := by
  rw [← spellsNumber_iff, UInt8.toNat_toUInt64]

/-! ### Tables in both directions -/

/-- A code is found under a name exactly when the name is found under the code. -/
def Inverse (α : Type) [Symbol α] : Prop :=
  ∀ (s : String) (c : UInt8),
    Symbol.code <$> (Symbol.ofName s : Except EncodingError α) = .ok c ↔
      Symbol.name <$> (Symbol.ofCode c : Except EncodingError α) = .ok s

theorem inverse (α : Type) [Symbol α] [LawfulSymbol α] : Inverse α := by
  intro s c
  simp only [map_eq_ok_iff, Symbol.ofName_eq_ok_iff, Symbol.ofCode_eq_ok_iff]
  exact exists_congr fun x => and_comm

/-! ### One query -/

instance (query : String) : Decidable (AsksCode query) :=
  inferInstanceAs (Decidable (query.toList.head?.any Char.isDigit = true))

/-- The command is asked this and nothing else. Wherever its output goes, as long as somebody reads it, it
succeeds and prints this line. -/
def Replies (task : Lookup → Task) (query text : String) : Prop :=
  ∀ (verbosity : Nat) (color : ColorChoice) (world : World), world.output ≠ .brokenPipe →
    let outcome := (Job.mk verbosity color (task (.queries [query]))).run world
    outcome.success = true ∧ outcome.printed = text ++ "\n"

section
variable {table : Table} {answer : String → Except Failure String} {note : String → String → Script Unit}
  (runs : table.Runs answer note) {query text : String}
include runs

theorem replies_of_answer (answered : answer query = .ok text) : Replies table.task query text := by
  intro verbosity color world reads
  have one : ∀ p ∈ [(query, text)], answer p.1 = .ok p.2 := List.forall_mem_singleton.2 answered
  have script := answerAll_append one runs.notes []
  have performed := @performAll_answering table.notes verbosity _ reads (start world) [(query, text)]
  have all := performAll_append performed []
  rw [runs.runs, show [query] = [(query, text)].map Prod.fst ++ [] from rfl, script, Script.ok_bind,
    Script.outcome, show (answerAll answer note []).effects = [] from rfl, all]
  refine ⟨rfl, ?_⟩
  show "" ++ String.join [text ++ "\n"] = _
  simp

theorem replies_iff : Replies table.task query text ↔ table.answers query text := by
  rw [← runs.answers]
  refine ⟨fun replies => ?_, replies_of_answer runs⟩
  let world : World := ⟨[], .pipe, ⟨[], []⟩⟩
  have reads : world.output ≠ .brokenPipe := nofun
  obtain ⟨success, printed⟩ := replies 0 .auto world reads
  cases answered : answer query with
  | ok other =>
    obtain ⟨-, same⟩ := replies_of_answer runs answered 0 .auto world reads
    rw [(String.append_left_inj _).1 (printed.symm.trans same)]
  | error failure =>
    have refused : answerAll answer note [query] = ⟨[], .error failure⟩ := by
      rw [answerAll, answered]
      rfl
    rw [runs.runs, refused] at success
    cases success

end

/-! ### There and back -/

/-- The names in a table and the spellings of its codes cannot be taken for each other. -/
structure Apart (α : Type) [Symbol α] (spell : UInt8 → String) : Prop where
  name : ∀ x : α, ¬AsksCode (Symbol.name x)
  number : ∀ (x : α) (n : UInt64), Numeral.unsigned (Symbol.name x) ≠ .ok n
  asks : ∀ c, AsksCode (spell c)
  read : ∀ c, Numeral.unsigned (spell c) = .ok c.toUInt64

/-- What a command answers leads back to what it was asked for. -/
structure TwoWay (α : Type) [Symbol α] (task : Lookup → Task) (spell : UInt8 → String) : Prop where
  /-- An answer is answered, and that answer is answered with the first one again. It is the query if that
  is a name, and the spelling of its code if it spells one. -/
  back : ∀ {query text}, Replies task query text →
    ∃ again, Replies task text again ∧ Replies task again text ∧
      ((∃ x : α, Symbol.name x = query) → again = query) ∧
      ∀ c : UInt8, SpellsNumber query c.toNat → again = spell c
  /-- Nothing is answered but names and what spells a code. -/
  only : ∀ {query text}, Replies task query text →
    ∃ x : α, Symbol.name x = query ∨ AsksCode query ∧ SpellsNumber query (Symbol.code x).toNat
  /-- Every name is answered. -/
  name : ∀ x : α, Replies task (Symbol.name x) (spell (Symbol.code x))
  /-- So is whatever spells a code, if it starts with a digit. -/
  code : ∀ (x : α) {query}, AsksCode query → SpellsNumber query (Symbol.code x).toNat →
    Replies task query (Symbol.name x)
  /-- The spelling of a code spells it. -/
  spelling : ∀ c : UInt8, SpellsNumber (spell c) c.toNat

section
variable {α : Type} [Symbol α] {spell : UInt8 → String} (apart : Apart α spell)
include apart

theorem answers_name (x : α) : Answers α spell (Symbol.name x) (spell (Symbol.code x)) :=
  .name x (apart.name x) rfl

theorem answers_spelling (x : α) : Answers α spell (spell (Symbol.code x)) (Symbol.name x) :=
  .code x _ (apart.asks _) (apart.read _) (UInt8.toNat_toUInt64 _).symm

theorem answers_back {query text : String} (answers : Answers α spell query text) :
    ∃ again, Answers α spell text again ∧ Answers α spell again text ∧
      ((∃ x : α, Symbol.name x = query) → again = query) ∧
      ∀ c : UInt8, SpellsNumber query c.toNat → again = spell c := by
  cases answers with
  | code x n asks read same =>
    refine ⟨_, answers_name apart x, answers_spelling apart x, ?_, fun c spelled => ?_⟩
    · rintro ⟨y, rfl⟩
      exact absurd asks (apart.name y)
    · obtain rfl := Except.ok.inj (read.symm.trans (spellsNumber_byte_iff.1 spelled))
      rw [UInt8.toNat_toUInt64] at same
      rw [UInt8.toNat_inj.1 same]
  | name x asks same =>
    subst same
    refine ⟨_, answers_spelling apart x, answers_name apart x, fun _ => rfl, fun c spelled => ?_⟩
    exact absurd (spellsNumber_byte_iff.1 spelled) (apart.number x _)

/-- A command is two-way if its table and its spelling of codes do not get mixed up. -/
theorem twoWay {task : Lookup → Task}
    (replies : ∀ {query text}, Replies task query text ↔ Answers α spell query text) :
    TwoWay α task spell where
  back answered := by
    obtain ⟨again, there, back, same⟩ := answers_back apart (replies.1 answered)
    exact ⟨again, replies.2 there, replies.2 back, same⟩
  only answered := by
    cases replies.1 answered with
    | code x n asks read same => exact ⟨x, .inr ⟨asks, same ▸ spellsNumber_iff.2 read⟩⟩
    | name x asks same => exact ⟨x, .inl same⟩
  name x := replies.2 (answers_name apart x)
  code x _ asks spelled :=
    replies.2 (.code x _ asks (spellsNumber_byte_iff.1 spelled) (UInt8.toNat_toUInt64 _).symm)
  spelling c := spellsNumber_byte_iff.2 (apart.read c)

end

theorem asks_ofList {digits : List Char} (start : digits.head?.any Char.isDigit) : AsksCode (.ofList digits) := by
  rwa [AsksCode, String.toList_ofList]

theorem unsigned_ofList {digits : List Char} {c : UInt8} (read : Numeral.magnitude digits = .ok c.toNat) :
    Numeral.unsigned (.ofList digits) = .ok c.toUInt64 := by
  rw [Numeral.unsigned_eq_ok_iff, String.toList_ofList, UInt8.toNat_toUInt64, read]

theorem apart_sections : Apart SectionKind fun c => toString c.toNat where
  name x := by cases x <;> decide
  number x := by cases x <;> exact nofun
  asks c := asks_ofList <|
    forall_byte (p := fun c => (Nat.toDigits 10 c.toNat).head?.any Char.isDigit) (by decide +kernel) c
  read c := unsigned_ofList <|
    forall_byte (p := fun c => Numeral.magnitude (Nat.toDigits 10 c.toNat) = .ok c.toNat) (by decide +kernel) c

/-- The characters of `twoDigits`. -/
def twoDigitChars (c : UInt8) : List Char := '0' :: 'x' :: (Nat.toDigits 16 c.toNat).leftpad 2 '0'

theorem twoDigits_eq (c : UInt8) : twoDigits c = .ofList (twoDigitChars c) :=
  (@String.ofList_append ['0', 'x'] _).symm

theorem apart_opcodes : Apart Opcode twoDigits where
  name x := by cases x <;> decide
  number x := by cases x <;> exact nofun
  asks c := twoDigits_eq c ▸ asks_ofList rfl
  read c := by
    rw [twoDigits_eq]
    exact unsigned_ofList <|
      forall_byte (p := fun c => Numeral.magnitude (twoDigitChars c) = .ok c.toNat) (by decide +kernel) c

/-- **Looking things up goes both ways.** Whatever a command answers, the answer can be asked for, and its
answer is answered with it again: a name leads back to itself, and any spelling of a code to the decimal one
of a section kind or to the two hexadecimal digits of an opcode. Underneath, each table maps a name to a
code exactly when it maps the code to the name, that of the value types included. -/
theorem lookups_two_way :
    TwoWay SectionKind Task.sections (fun c => toString c.toNat) ∧ TwoWay Opcode Task.opcodes twoDigits ∧
    Inverse SectionKind ∧ Inverse Opcode ∧ Inverse ValueType := by
  obtain ⟨_, _, sections⟩ := exists_runs (show sectionTable ∈ tables by simp [tables])
  obtain ⟨_, _, opcodes⟩ := exists_runs (show opcodeTable ∈ tables by simp [tables])
  exact ⟨twoWay apart_sections (replies_iff sections), twoWay apart_opcodes (replies_iff opcodes),
    inverse SectionKind, inverse Opcode, inverse ValueType⟩

/-- A needless zero and an underscore are lost on the way. -/
theorem lookups_two_way_branch :
    Replies Task.opcodes "0x0_0d" "BrIf" ∧ Replies Task.opcodes "BrIf" "0x0d" ∧
      Replies Task.opcodes "0x0d" "BrIf" := by
  obtain ⟨-, opcodes, -⟩ := lookups_two_way
  have spelled : SpellsNumber "0x0_0d" (0x0d : UInt8).toNat := spellsNumber_byte_iff.2 (by decide +kernel)
  have asked := opcodes.code Opcode.brIf (by decide) spelled
  obtain ⟨again, there, back, -, same⟩ := opcodes.back asked
  obtain rfl : again = "0x0d" := (same 0x0d spelled).trans (by decide +kernel)
  exact ⟨asked, there, back⟩

end WasmBinary.Command
