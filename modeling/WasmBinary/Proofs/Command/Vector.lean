import WasmBinary.Proofs.ByteTree.Depth
import WasmBinary.Proofs.Command.Arguments
import WasmBinary.Proofs.Command.Output
import WasmBinary.Proofs.Json.Reading

/-! The command on byte-trees.

However the text of a tree is spelled, and wherever it comes from, the command reads the tree
(`encodeTree_within`, `encodeTree_beyond`). What it puts out then is the frame of the tree, and the part
of the line that is emphasised is measured apart from it: both agree on where the count ends
(`take_countedLine`). A limit that the tree nests beyond leaves nothing but the error
(`vector_frames_or_refuses`). -/
namespace WasmBinary.Command
open Console

/-! ### Texts and their bytes -/

/-- The bytes of a text. -/
def utf8 (text : String) : List UInt8 := text.toUTF8.data.toList

theorem utf8_eq_flatMap (text : String) : utf8 text = text.toList.flatMap String.utf8EncodeChar := by
  rw [utf8, String.toUTF8_eq_toByteArray, ← String.utf8Encode_toList, List.utf8Encode, List.toList_data_toByteArray]

/-- Any bytes below 128 are those of a text. -/
theorem exists_utf8_eq {bytes : List UInt8} (ascii : ∀ b ∈ bytes, b.toNat < 128) :
    ∃ text, utf8 text = bytes := by
  refine ⟨.ofList (bytes.map Char.ofUInt8), ?_⟩
  rw [utf8_eq_flatMap, String.toList_ofList]
  induction bytes with
  | nil => rfl
  | cons b bytes ih =>
    obtain ⟨first, others⟩ := List.forall_mem_cons.1 ascii
    have alone : String.utf8EncodeChar (Char.ofUInt8 b) = [b] := by
      have value : (Char.ofUInt8 b).val.toNat = b.toNat := UInt8.toNat_toUInt32 b
      rw [String.utf8EncodeChar, value, if_pos (Nat.le_of_lt_succ first), UInt8.ofNat_toNat]
    rw [List.map_cons, List.flatMap_cons, alone, ih others]
    rfl

/-- The text that the command reads: the one that is given, or else standard input. -/
def readText (world : World) (source : Option String) : List UInt8 := source.elim world.input utf8

/-- Standard input that holds a text is read as that text. -/
theorem treeText_eq {world : World} {source : Option String} {text : String}
    (same : readText world source = utf8 text) : treeText world.input source = pure (utf8 text) := by
  cases source with
  | some argument => exact congrArg pure same
  | none =>
    have input : world.input = utf8 text := same
    have valid : ByteArray.validateUTF8 ⟨(utf8 text).toArray⟩ = true :=
      ByteArray.validateUTF8_eq_true_iff.2 text.isValidUTF8
    rw [treeText, input, if_pos valid]

/-! ### Spellings of a tree -/

section
variable {tree : ByteTree} {spelling : List UInt8} (spelled : Json.Spaced tree.tokens spelling)
include spelled

/-- Blanks, digits and marks are no dash and no part of a longer character. -/
theorem plain_of_spaced {b : UInt8} (mem : b ∈ spelling) : b.toNat < 128 ∧ b ≠ 0x2d := by
  rcases spelled.mem_cases tree.isToken_of_mem_tokens mem with blank | digit | mark
  · rcases Json.isBlank_iff.1 blank with rfl | rfl | rfl | rfl <;> decide
  · have range := Json.isDigit_iff.1 digit
    refine ⟨by omega, ?_⟩
    rintro rfl
    exact absurd range.1 (by decide)
  · rcases Json.mem_marks_iff.1 mark with rfl | rfl | rfl <;> decide

theorem readArgument_spelling_of_tree (g : Grammar) {text : String} (same : utf8 text = spelling) :
    g.readArgument text = .ok .value := by
  apply readArgument_of_no_dash g
  rintro ⟨rest, dash⟩
  have first : (0x2d : UInt8) ∈ spelling := by
    rw [← same, utf8_eq_flatMap, ← dash]
    exact List.mem_cons_self
  exact (plain_of_spaced spelled first).2 rfl

end

/-! ### The line of a tree -/

/-- The bytes of the number of leaves. -/
def countBytes (tree : ByteTree) : List UInt8 := (Varint.ofUInt64 (UInt64.ofNat tree.leafCount)).toList

/-- The frame of a tree, with its count marked. -/
def countedLine (tree : ByteTree) : HexLine :=
  ⟨tree.frame.toList, (Varint.ofUInt64 (UInt64.ofNat tree.leafCount)).length⟩

theorem toList_frame_eq (tree : ByteTree) : tree.frame.toList = countBytes tree ++ tree.flatten.toList := by
  rw [ByteTree.frame_eq, toList_frame, ByteTree.size_flatten, countBytes, Varint.toList_ofUInt64,
    UInt64.toNat_ofNat']

theorem marked_countedLine (tree : ByteTree) : (countedLine tree).marked = (countBytes tree).length :=
  (Varint.length_toList _).symm

/-- **The marks end where the count ends.** -/
theorem take_countedLine (tree : ByteTree) :
    (countedLine tree).bytes.take (countedLine tree).marked = countBytes tree := by
  rw [marked_countedLine, countedLine, toList_frame_eq, List.take_left]

theorem drop_countedLine (tree : ByteTree) :
    (countedLine tree).bytes.drop (countedLine tree).marked = tree.flatten.toList := by
  rw [marked_countedLine, countedLine, toList_frame_eq, List.drop_left]

/-! ### What is worked out -/

/-- A limit, if there is one, is not exceeded. -/
def Within (limit : Option Nat) (tree : ByteTree) : Prop := ∀ d, limit = some d → tree.depth ≤ d

/-- The note on a tree. -/
def treeNote (tree : ByteTree) : String :=
  s!"byte-tree has {tree.leafCount} leaves nested {tree.depth} deep"

section
variable {world : World} {source : Option String} {text : String} (same : readText world source = utf8 text)
  {tree : ByteTree} (read : ByteTree.ofJson (utf8 text) = .ok tree)
include same read

theorem encodeTree_within {limit : Option Nat} (within : Within limit tree) :
    encodeTree limit world.input source = ⟨[treeNote tree].map (.log .debug), .ok [countedLine tree]⟩ := by
  have framed : frameTree limit tree = .ok tree.frame := by
    cases limit with
    | none => rfl
    | some d => rw [frameTree, ByteTree.frameWithin_eq, if_pos (within d rfl)]
  simp only [encodeTree, treeText_eq same, vectorLine, read, Script.ofExcept_ok, Script.pure_bind, framed]
  rfl

theorem encodeTree_beyond {limit : Nat} (beyond : limit < tree.depth) :
    encodeTree (some limit) world.input source =
      ⟨[treeNote tree].map (.log .debug), .error (.ofEncoding (.tooDeep limit))⟩ := by
  have refused : frameTree (some limit) tree = .error (.tooDeep limit) := by
    rw [frameTree, ByteTree.frameWithin_eq, if_neg (Nat.not_le_of_lt beyond)]
  simp only [encodeTree, treeText_eq same, vectorLine, read, Script.ofExcept_ok, Script.pure_bind, refused]
  rfl

end

/-! ### What is put out -/

/-- The frame of a tree is put out: as a line, on which nothing but the count is emphasised, and that
only in colours, or as the new content of a file. -/
structure Framed (world : World) (output : Option String) (coloured : Bool) (tree : ByteTree)
    (outcome : Outcome) : Prop where
  success : outcome.success = true
  onLine : output = none → outcome.files = world.files ∧
    String.ofList (HexLine.visible outcome.printed.toList) = hexText tree.frame.toList
  plain : output = none → coloured = false → outcome.printed = hexText tree.frame.toList
  count : output = none → coloured = true →
    Hex.pairs? (HexLine.emphasised outcome.printed.toList) = some (countBytes tree)
  leaves : output = none → coloured = true →
    Hex.pairs? (HexLine.unemphasised outcome.printed.toList) = some tree.flatten.toList
  inFile : ∀ path, output = some path → outcome.printed = "" ∧
    outcome.files.content? path = some tree.frame ∧
    ∀ place, world.files.locate path ≠ .ok place → outcome.files.node? place = world.files.node? place

section
variable {world : World} {verbosity : Nat} {notes : List String} {tree : ByteTree} {outcome : Outcome}

theorem Printed.framed {coloured : Bool}
    (h : Printed world verbosity notes coloured [countedLine tree] outcome) :
    Framed world none coloured tree outcome := by
  have printed : outcome.printed = .ofList ((countedLine tree).text coloured) := by
    simpa using h.printed
  have chars : outcome.printed.toList = (countedLine tree).text coloured := by
    rw [printed, String.toList_ofList]
  refine ⟨h.success, fun _ => ⟨h.files, ?_⟩, ?_, ?_, ?_, nofun⟩
  · rw [chars, HexLine.visible_text]
    exact ofList_text_of_plain rfl
  · intro _ plain
    subst plain
    rw [printed]
    exact ofList_text_of_plain rfl
  · intro _ colours
    subst colours
    rw [chars, HexLine.emphasised_text, ← take_countedLine]
    exact Hex.pairs?_flatMap_upper _
  · intro _ colours
    subst colours
    rw [chars, HexLine.unemphasised_text, ← drop_countedLine]
    exact Hex.pairs?_flatMap_upper _

theorem Saved.framed {path : String} (h : Saved world verbosity notes path
      ([countedLine tree].flatMap HexLine.bytes).toArray outcome) (coloured : Bool) :
    Framed world (some path) coloured tree outcome := by
  have bytes : ([countedLine tree].flatMap HexLine.bytes).toArray = tree.frame := by
    simp [countedLine]
  refine ⟨h.success, nofun, nofun, nofun, nofun, fun other same => ?_⟩
  obtain rfl := Option.some.inj same
  exact ⟨h.printed, bytes ▸ h.content, h.others⟩

/-- A tree within the limit is framed. -/
theorem framed_of_within {source : Option String} {text : String} (same : readText world source = utf8 text)
    (read : ByteTree.ofJson (utf8 text) = .ok tree) {limit : Option Nat} (within : Within limit tree)
    (reads : world.output ≠ .brokenPipe) {output : Option String}
    (writable : ∀ path, output = some path → world.files.Writable path) (color : ColorChoice) :
    Framed world output (color.colours (world.output = .terminal)) tree
      ((Job.mk verbosity color (.vector limit source output)).run world) := by
  have encoded := encodeTree_within same read within
  have noted := congrArg Script.effects encoded
  have done := congrArg Script.result encoded
  have script := @Task.script_eq (.vector limit source output) output rfl
  rw [Job.run, Job.script, script]
  cases output with
  | none => exact (printed_of_ok noted done reads _).framed
  | some path => exact (saved_of_ok noted done _ (writable path rfl)).framed _

/-- A tree beyond the limit is not. -/
theorem halted_of_beyond {source : Option String} {text : String} (same : readText world source = utf8 text)
    (read : ByteTree.ofJson (utf8 text) = .ok tree) {limit : Nat} (beyond : limit < tree.depth)
    (output : Option String) (color : ColorChoice) :
    Halted world verbosity [treeNote tree] (.ofEncoding (.tooDeep limit))
      ((Job.mk verbosity color (.vector (some limit) source output)).run world) := by
  have encoded := encodeTree_beyond same read beyond
  have script := @Task.script_eq (.vector (some limit) source output) output rfl
  rw [Job.run, Job.script, script]
  exact halted_of_error (congrArg Script.effects encoded) (congrArg Script.result encoded) _ output

end

/-- A text is framed the same whether it is given or stands on standard input. -/
theorem run_given_eq (verbosity : Nat) (color : ColorChoice) (limit : Option Nat) (output : Option String)
    (text : String) (world : World) :
    (Job.mk verbosity color (.vector limit (some text) output)).run world =
      (Job.mk verbosity color (.vector limit none output)).run { world with input := utf8 text } := by
  have script : (Task.vector limit (some text) output).encode world.input =
      (Task.vector limit none output).encode (utf8 text) := by
    have argument : treeText world.input (some text) = pure (utf8 text) := rfl
    rw [Task.encode, Task.encode, encodeTree, encodeTree, argument,
      @treeText_eq { world with input := utf8 text } none text rfl]
  rw [Job.run, Job.run, Job.script, Job.script, @Task.script_eq (.vector limit (some text) output) output rfl,
    @Task.script_eq (.vector limit none output) output rfl, script]
  rfl

/-! ### The command line -/

theorem oneValue?_eq_ok_iff {a : Arguments} {value : Option String} :
    a.oneValue? = .ok value ↔ a.values = value.toList := by
  unfold Arguments.oneValue?
  cases value <;> split <;> simp_all

theorem vectorTask_eq_ok_iff {a : Arguments} {limit : Option Nat} {source output : Option String} :
    Verb.vector.task a = .ok (.vector limit source output) ↔
      a.maxDepth = .ok limit ∧ a.values = source.toList ∧ a.output = .ok output := by
  rw [← oneValue?_eq_ok_iff]
  simp only [Verb.task, bind_eq_ok_iff]
  constructor
  · rintro ⟨_, depth, _, value, _, path, made⟩
    obtain ⟨rfl, rfl, rfl⟩ := Task.vector.inj (Except.ok.inj made)
    exact ⟨depth, value, path⟩
  · rintro ⟨depth, value, path⟩
    exact ⟨_, depth, _, value, _, path, rfl⟩

/-- Behind its options, the command takes the text of a tree. -/
theorem ofArguments_vector {options : List String} {verbosity : Nat} {color : ColorChoice} {limit : Option Nat}
    {output : Option String}
    (accepted : Request.ofArguments ("vector" :: options) =
      .ok (.job ⟨verbosity, color, .vector limit none output⟩))
    {text : String} (value : Verb.vector.grammar.readArgument text = .ok .value) :
    Request.ofArguments ("vector" :: (options ++ [text])) =
      .ok (.job ⟨verbosity, color, .vector limit (some text) output⟩) := by
  have named : Verb.ofName? "vector" = some .vector := by decide
  rw [ofArguments_eq_ok_iff named, job_eq_ok_iff] at accepted ⊢
  obtain ⟨a, said, noHelp, verbose, chosen, task⟩ := accepted
  obtain ⟨depth, only, path⟩ := vectorTask_eq_ok_iff.1 task
  refine ⟨⟨a.settings, [text]⟩, ?_, noHelp, verbose, chosen, vectorTask_eq_ok_iff.2 ⟨depth, rfl, path⟩⟩
  exact Arguments.scan_append said only (List.forall_mem_singleton.2 value)

end WasmBinary.Command
