import WasmBinary.Proofs.Json.Reading

/-! The texts of byte-trees, and near misses.

A text is read as a tree exactly when it is a row of that tree's tokens with blanks around them
(`ofJson_eq_ok_iff`). Such a text can be cut at any place that tears no digits apart, and both parts
are rows of their own (`Spaced.split`). So what no tree has in the middle of its tokens, no text
that is read has anywhere: a byte of another kind of value, digits that are no numeral of a byte,
a comma in front of a closing bracket, or something behind the whole. -/
namespace WasmBinary.Json
open ByteTree

/-! ### Cutting a text -/

/-- Only digits can be torn apart. -/
theorem IsToken.torn {front back : List UInt8} (h : IsToken (front ++ back)) (hf : front ≠ [])
    (hb : back ≠ []) : front.getLast?.any isDigit ∧ back.head?.any isDigit := by
  generalize whole : front ++ back = token at h
  cases h with
  | mark mark =>
    rcases List.append_eq_singleton_iff.1 whole with ⟨none, -⟩ | ⟨-, none⟩
    · exact absurd none hf
    · exact absurd none hb
  | numeral value =>
    have each : ∀ d ∈ front ++ back, isDigit d := whole ▸ (numeral_render value).each
    obtain ⟨left, right⟩ := List.forall_mem_append.1 each
    rw [List.getLast?_eq_some_getLast hf, List.head?_eq_some_head hb]
    exact ⟨left _ (List.getLast_mem hf), right _ (List.head_mem hb)⟩

/-- A text that is cut where no digits are torn apart is cut between tokens. -/
theorem Spaced.split {tokens : List (List UInt8)} {front back : List UInt8} (h : Spaced tokens (front ++ back))
    (each : ∀ token ∈ tokens, IsToken token) (cut : ¬(front.getLast?.any isDigit ∧ back.head?.any isDigit)) :
    ∃ before behind, tokens = before ++ behind ∧ Spaced before front ∧ Spaced behind back := by
  generalize whole : front ++ back = text at h
  induction h generalizing front with
  | nil blank =>
    subst whole
    obtain ⟨hf, hb⟩ := List.forall_mem_append.1 blank
    exact ⟨[], [], rfl, .nil hf, .nil hb⟩
  | @cons token blanks text tokens blank rest ih =>
    obtain ⟨first, others⟩ := List.forall_mem_cons.1 each
    rcases List.append_eq_append_iff.1 whole with ⟨inner, outer, rfl⟩ | ⟨more, rfl, rfl⟩
    · rcases List.append_eq_append_iff.1 outer with ⟨part, rfl, rfl⟩ | ⟨part, rfl, rfl⟩
      · -- inside the token, or at one of its ends
        by_cases none : part = []
        · subst none
          rw [List.append_nil]
          exact ⟨[], inner :: tokens, rfl, .nil blank, rest.cons_token inner⟩
        by_cases all : inner = []
        · subst all
          rw [List.append_nil]
          have one : Spaced [part] (blanks ++ part ++ []) := .cons blank (.nil nofun)
          rw [List.append_nil] at one
          exact ⟨[part], tokens, rfl, one, rest⟩
        · obtain ⟨left, right⟩ := first.torn none all
          refine absurd ⟨?_, ?_⟩ cut
          · rwa [List.getLast?_append_of_ne_nil _ none]
          · rwa [List.head?_append_of_ne_nil _ all]
      · -- among the blanks in front of it
        obtain ⟨hf, hb⟩ := List.forall_mem_append.1 blank
        exact ⟨[], token :: tokens, rfl, .nil hf, .cons hb rest⟩
    · have cut' : ¬(more.getLast?.any isDigit ∧ back.head?.any isDigit) := by
        rintro ⟨left, right⟩
        refine cut ⟨?_, right⟩
        rwa [List.getLast?_append_of_ne_nil]
        rintro rfl
        cases left
      obtain ⟨before, behind, rfl, hf, hb⟩ := ih others cut' rfl
      exact ⟨token :: before, behind, rfl, .cons blank hf, hb⟩

/-! ### Parts of rows -/

/-- Tokens that are together written as a mark and more start with that mark. -/
theorem eq_cons_of_flatten {tokens : List (List UInt8)} (each : ∀ token ∈ tokens, IsToken token) {b : UInt8}
    (mark : b ∈ marks) {rest : List UInt8} (same : tokens.flatten = b :: rest) :
    ∃ more, tokens = [b] :: more ∧ more.flatten = rest := by
  cases tokens with
  | nil => cases same
  | cons token tokens =>
    rw [List.flatten_cons] at same
    cases each token List.mem_cons_self with
    | mark _ =>
      obtain ⟨rfl, rest⟩ := List.cons.inj same
      exact ⟨tokens, rfl, rest⟩
    | numeral value =>
      obtain ⟨d, digits, shape⟩ := List.exists_cons_of_ne_nil (numeral_render value).nonempty
      rw [shape] at same
      have digit := (numeral_render value).each d (shape ▸ List.mem_cons_self)
      exact absurd (List.head_eq_of_cons_eq same ▸ digit) (not_isDigit_of_mark mark)

/-- Digits that stand alone in a row are one numeral. -/
theorem Row.numeral {tokens : List (List UInt8)} (row : Row tokens) (nonempty : tokens.flatten ≠ [])
    (digits : ∀ d ∈ tokens.flatten, isDigit d) : ∃ value, tokens.flatten = (byte value).render := by
  have one : ∀ token ∈ tokens, ∃ value, token = (byte value).render := by
    intro token mem
    cases row.each token mem with
    | mark mark =>
      have digit := digits _ (List.mem_flatten.2 ⟨_, mem, List.mem_singleton_self _⟩)
      exact absurd digit (not_isDigit_of_mark mark)
    | numeral value => exact ⟨value, rfl⟩
  match tokens with
  | [] => exact absurd rfl nonempty
  | [token] =>
    obtain ⟨value, rfl⟩ := one token (List.mem_singleton_self _)
    exact ⟨value, List.append_nil _⟩
  | a :: b :: more =>
    obtain ⟨x, rfl⟩ := one a List.mem_cons_self
    obtain ⟨y, rfl⟩ := one b (List.mem_cons_of_mem _ List.mem_cons_self)
    exact absurd (List.isChain_cons_cons.1 row.chain).1 (not_numeral_precedes x y)

/-- A part of a text that is read, cut off where no digits are torn apart, is a row itself. -/
theorem row_of_part {front part behind : List UInt8} {tree : ByteTree}
    (read : ByteTree.ofJson (front ++ (part ++ behind)) = .ok tree)
    (left : ¬(front.getLast?.any isDigit ∧ (part ++ behind).head?.any isDigit))
    (right : ¬(part.getLast?.any isDigit ∧ behind.head?.any isDigit)) :
    ∃ tokens, Row tokens ∧ part.filter (fun b => !isBlank b) = tokens.flatten := by
  obtain ⟨-, spaced⟩ := ofJson_eq_ok_iff.1 read
  obtain ⟨before, rest, whole, -, spaced⟩ := spaced.split tree.isToken_of_mem_tokens left
  have row : Row rest := tree.row_tokens.infix (whole ▸ (List.suffix_append before rest).isInfix)
  obtain ⟨tokens, after, rfl, spaced, -⟩ := spaced.split row.each right
  have row : Row tokens := row.infix (List.prefix_append tokens after).isInfix
  exact ⟨tokens, row, spaced.filter row.each⟩

/-! ### Near misses -/

/-- The text is no tree's. -/
def Refused (text : List UInt8) : Prop := ∃ e, ByteTree.ofJson text = .error e

theorem refused_of_not_ok {text : List UInt8} (other : ∀ tree, ByteTree.ofJson text ≠ .ok tree) :
    Refused text := by
  rcases read : ByteTree.ofJson text with e | tree
  · exact ⟨e, read⟩
  · exact absurd read (other tree)

/-- No byte of another kind of value stands anywhere: no sign, point or exponent, no quote, no letter,
no brace and no colon. -/
theorem refused_of_foreign {text : List UInt8} {b : UInt8} (mem : b ∈ text) (blank : ¬isBlank b)
    (digit : ¬isDigit b) (mark : b ∉ marks) : Refused text := by
  refine refused_of_not_ok fun tree read => ?_
  obtain ⟨-, spaced⟩ := ofJson_eq_ok_iff.1 read
  exact (spaced.mem_cases tree.isToken_of_mem_tokens mem).elim blank (Or.elim · digit mark)

/-- No run of digits anywhere starts with a needless zero or is worth more than a byte. -/
theorem refused_of_digits {front digits behind : List UInt8} (nonempty : digits ≠ [])
    (each : ∀ d ∈ digits, isDigit d) (left : ¬front.getLast?.any isDigit) (right : ¬behind.head?.any isDigit)
    (wrong : (digits.head? = some 0x30 ∧ digits ≠ [0x30]) ∨ 255 < decimalValue digits) :
    Refused (front ++ (digits ++ behind)) := by
  refine refused_of_not_ok fun tree read => ?_
  obtain ⟨tokens, row, same⟩ := row_of_part read (fun h => left h.1) (fun h => right h.2)
  have all : digits.filter (fun b => !isBlank b) = digits :=
    List.filter_eq_self.2 fun d mem => by simpa using not_isBlank_of_isDigit (each d mem)
  rw [all] at same
  obtain ⟨value, single⟩ := row.numeral (same ▸ nonempty) (same ▸ each)
  have numeral := numeral_render value
  have known := decimalValue_render value
  rw [← single, ← same] at numeral known
  rcases wrong with ⟨zero, more⟩ | large
  · exact more (numeral.plain zero)
  · have := value.toNat_lt
    omega

/-- No comma anywhere stands in front of a closing bracket. -/
theorem refused_of_trailing_comma {front blanks behind : List UInt8} (blank : ∀ b ∈ blanks, isBlank b) :
    Refused (front ++ (0x2c :: blanks ++ [0x5d] ++ behind)) := by
  refine refused_of_not_ok fun tree read => ?_
  obtain ⟨tokens, row, same⟩ := row_of_part read (fun h => not_isDigit_of_mark (b := 0x2c) (by decide) h.2)
    (fun h => absurd h.1 (by rw [List.getLast?_concat]; decide))
  have none : blanks.filter (fun b => !isBlank b) = [] := by simpa using blank
  have both : (0x2c :: blanks ++ [0x5d]).filter (fun b => !isBlank b) = [0x2c, 0x5d] := by
    rw [List.filter_append, List.filter_cons_of_pos (by decide), none]
    rfl
  rw [both] at same
  obtain ⟨rest, rfl, close⟩ := eq_cons_of_flatten row.each (by decide) same.symm
  obtain ⟨rest, rfl, -⟩ := eq_cons_of_flatten row.tail.each (by decide) close
  exact (List.isChain_cons_cons.1 row.chain).1.noTrailingComma ⟨rfl, rfl⟩

/-- Nothing but blanks stands behind the text of a tree, save for digits that go on with a numeral. -/
theorem refused_of_trailing {text more : List UInt8} {tree : ByteTree} (whole : ByteTree.ofJson text = .ok tree)
    (other : ∃ b ∈ more, ¬isBlank b) (cut : ¬(text.getLast?.any isDigit ∧ more.head?.any isDigit)) :
    Refused (text ++ more) := by
  refine refused_of_not_ok fun wider read => ?_
  obtain ⟨-, spaced⟩ := ofJson_eq_ok_iff.1 whole
  obtain ⟨-, wide⟩ := ofJson_eq_ok_iff.1 read
  obtain ⟨before, behind, same, front, back⟩ := wide.split wider.isToken_of_mem_tokens cut
  have row : Row before := wider.row_tokens.infix (same ▸ (List.prefix_append before behind).isInfix)
  obtain rfl : before = tree.tokens := spelled_unique ((spelled_lexemes_iff row).2 front)
    ((spelled_lexemes_iff tree.row_tokens).2 spaced)
  obtain ⟨-, rfl⟩ := wider.tokens_append_inj tree ((List.append_nil _).trans same)
  obtain ⟨b, mem, black⟩ := other
  cases back with
  | nil blank => exact black (blank b mem)

/-- No text of a tree that is too deep is that of another. -/
theorem refused_of_deep {tree : ByteTree} (deep : maxDepth < tree.depth) {text : List UInt8}
    (spaced : Spaced tree.tokens text) : Refused text := by
  refine refused_of_not_ok fun other read => ?_
  obtain ⟨fits, spaced'⟩ := ofJson_eq_ok_iff.1 read
  have same : other.tokens = tree.tokens := spelled_unique ((spelled_lexemes_iff other.row_tokens).2 spaced')
    ((spelled_lexemes_iff tree.row_tokens).2 spaced)
  obtain ⟨rfl, -⟩ := other.tokens_append_inj tree (congrArg (· ++ []) same)
  exact Nat.not_le.2 deep fits

/-- **Exactly the texts of byte-trees are read, and each as its tree.** The text of a tree is its
rendering with any blanks around the tokens, for every tree that is at most 127 sequences deep. What is
read is of that form, with the rendering as all that is not blank in it. So nothing is read that holds
a byte of another kind of value anywhere, or a numeral with a needless zero or above 255, or a comma in
front of a closing bracket, or more than blanks behind a whole tree. -/
theorem ofJson_reads_spaced_renderings :
    (∀ tree : ByteTree, tree.tokens.flatten = tree.render) ∧
    (∀ (tree : ByteTree) (text : List UInt8), tree.depth ≤ 127 → Spaced tree.tokens text →
      ByteTree.ofJson text = .ok tree) ∧
    (∀ (tree : ByteTree) (text : List UInt8), 127 < tree.depth → Spaced tree.tokens text → Refused text) ∧
    (∀ (tree : ByteTree) (text : List UInt8), ByteTree.ofJson text = .ok tree →
      tree.depth ≤ 127 ∧ Spaced tree.tokens text ∧ text.filter (fun b => !isBlank b) = tree.render) ∧
    (∀ (text : List UInt8) (b : UInt8), b ∈ text → ¬isBlank b → ¬isDigit b → b ∉ marks → Refused text) ∧
    (∀ front digits behind : List UInt8, digits ≠ [] → (∀ d ∈ digits, isDigit d) →
      ¬front.getLast?.any isDigit → ¬behind.head?.any isDigit →
      (digits.head? = some 0x30 ∧ digits ≠ [0x30]) ∨ 255 < decimalValue digits →
      Refused (front ++ (digits ++ behind))) ∧
    (∀ front blanks behind : List UInt8, (∀ b ∈ blanks, isBlank b) →
      Refused (front ++ (0x2c :: blanks ++ [0x5d] ++ behind))) ∧
    (∀ (tree : ByteTree) (text more : List UInt8), ByteTree.ofJson text = .ok tree → (∃ b ∈ more, ¬isBlank b) →
      ¬(text.getLast?.any isDigit ∧ more.head?.any isDigit) → Refused (text ++ more)) := by
  refine ⟨flatten_tokens, fun tree text fits spaced => ofJson_eq_ok_iff.2 ⟨fits, spaced⟩,
    fun tree text deep spaced => refused_of_deep deep spaced, fun tree text read => ?_,
    fun text b mem blank digit mark => refused_of_foreign mem blank digit mark,
    fun front digits behind nonempty each left right wrong => refused_of_digits nonempty each left right wrong,
    fun front blanks behind blank => refused_of_trailing_comma blank,
    fun tree text more whole other cut => refused_of_trailing whole other cut⟩
  obtain ⟨fits, spaced⟩ := ofJson_eq_ok_iff.1 read
  exact ⟨fits, spaced, (spaced.filter tree.isToken_of_mem_tokens).trans tree.flatten_tokens⟩

/-- A byte and an empty sequence with blanks in between; then a fraction, a needless zero, a number above
255, a trailing comma, a second value and 128 sequences around each other. -/
theorem ofJson_reads_spaced_renderings_nested :
    (seq [byte 7, seq []]).depth ≤ 127 ∧
      Spaced (seq [byte 7, seq []]).tokens [0x20, 0x5b, 0x37, 0x20, 0x2c, 0x0a, 0x5b, 0x5d, 0x5d] ∧
      ByteTree.ofJson [0x20, 0x5b, 0x37, 0x20, 0x2c, 0x0a, 0x5b, 0x5d, 0x5d] = .ok (seq [byte 7, seq []]) ∧
      Refused [0x37, 0x2e, 0x30] ∧ Refused [0x5b, 0x30, 0x37, 0x5d] ∧ Refused [0x5b, 0x32, 0x35, 0x36, 0x5d] ∧
      Refused [0x5b, 0x37, 0x2c, 0x09, 0x5d] ∧
      Refused ([0x20, 0x5b, 0x37, 0x20, 0x2c, 0x0a, 0x5b, 0x5d, 0x5d] ++ [0x20, 0x37]) ∧
      Refused (Nat.repeat (fun tree => seq [tree]) 127 empty).tokens.flatten := by
  obtain ⟨-, reads, deep, -, foreign, digits, comma, trailing⟩ := ofJson_reads_spaced_renderings
  have spaced : Spaced (seq [byte 7, seq []]).tokens
      [0x20, 0x5b, 0x37, 0x20, 0x2c, 0x0a, 0x5b, 0x5d, 0x5d] := by
    have tail : Spaced [[0x5b], [0x5d], [0x5d]] [0x0a, 0x5b, 0x5d, 0x5d] :=
      ((((@Spaced.nil [] nofun).cons_token [0x5d]).cons_token [0x5d]).cons_token [0x5b]).cons_blank rfl
    exact (((tail.cons_token [0x2c]).cons_blank rfl).cons_token [0x37]).cons_token [0x5b] |>.cons_blank rfl
  have read := reads _ _ (by decide) spaced
  exact ⟨by decide, spaced, read, foreign _ 0x2e (by decide) (by decide) (by decide) (by decide),
    digits [0x5b] [0x30, 0x37] [0x5d] (by decide) (List.all_eq_true.1 rfl) (by decide) (by decide)
      (.inl (by decide)),
    digits [0x5b] [0x32, 0x35, 0x36] [0x5d] (by decide) (List.all_eq_true.1 rfl) (by decide) (by decide)
      (.inr (by decide)),
    comma [0x5b, 0x37] [0x09] [] (List.all_eq_true.1 rfl),
    trailing _ _ _ read ⟨0x37, by decide, by decide⟩ (by decide),
    deep _ _ (by decide +kernel) (spaced_flatten _)⟩

end WasmBinary.Json
