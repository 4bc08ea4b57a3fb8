import WasmBinary.Proofs.Json.Tokens

/-! The tokens found in a text.

A text is cut into the tokens that byte-trees are written with exactly when it is a row of
them with blanks around (`spelled_lexemes_iff`). One direction holds of any tokens, since a token
is cut off where its spelling ends. The other needs a `Row`: a numeral is cut off at the right
place only if nothing of a number stands behind it. -/
namespace WasmBinary.Json

/-- The spelling of a token, if byte-trees are written with it. -/
def Token.spelling? : Token → Option (List UInt8)
  | openArray => some [0x5b]
  | closeArray => some [0x5d]
  | comma => some [0x2c]
  | number (some value) => some (ByteTree.byte value).render
  | _ => none

/-- The tokens found are spelled like this, one by one. -/
def Spelled (found : List Lexeme) (tokens : List (List UInt8)) : Prop :=
  found.map (fun lexeme => lexeme.token.spelling?) = tokens.map some

theorem spelled_cons_iff {lexeme : Lexeme} {found : List Lexeme} {tokens : List (List UInt8)} :
    Spelled (lexeme :: found) tokens ↔
      ∃ token rest, tokens = token :: rest ∧ lexeme.token.spelling? = some token ∧ Spelled found rest := by
  simp only [Spelled, List.map_cons]
  rw [eq_comm, List.map_eq_cons_iff]
  constructor
  · rintro ⟨token, rest, rfl, first, more⟩
    exact ⟨token, rest, rfl, first.symm, more.symm⟩
  · rintro ⟨token, rest, rfl, first, more⟩
    exact ⟨token, rest, rfl, first.symm, more.symm⟩

theorem spelled_unique {found : List Lexeme} {a b : List (List UInt8)} (ha : Spelled found a)
    (hb : Spelled found b) : a = b :=
  List.map_injective_iff.2 (Option.some_injective _) (ha.symm.trans hb)

/-! ### One token -/

/-- A token of a single byte is spelled as that byte. -/
theorem punctuation?_spelling {b : UInt8} {found : Token} {token : List UInt8}
    (single : punctuation? b = some found) (spelled : found.spelling? = some token) : token = [b] := by
  have all := forall_byte (p := fun b => ∀ token ∈ (punctuation? b).bind Token.spelling?, token = [b])
    (by decide +kernel) b
  exact all token (by rw [single]; exact spelled)

theorem readNumberFrom_split {b : UInt8} {rest token : List UInt8}
    (spelled : (readNumberFrom b rest).1.spelling? = some token) :
    b :: rest = token ++ (readNumberFrom b rest).2 := by
  unfold readNumberFrom at spelled ⊢
  split at spelled
  · rename_i byte after read
    cases byte with
    | none => cases spelled
    | some value =>
      obtain rfl := Option.some.inj spelled
      split at read
      · cases (readNumber_eq_byte_iff.1 read).1
      · exact (readNumber_eq_byte_iff.1 read).2.1
  · cases spelled

/-- A token that byte-trees are written with ends where its spelling does. -/
theorem readToken_split {b : UInt8} {rest token : List UInt8}
    (spelled : (readToken b rest).1.spelling? = some token) : b :: rest = token ++ (readToken b rest).2 := by
  unfold readToken at spelled ⊢
  split at spelled
  · rename_i single
    rw [punctuation?_spelling single spelled]
    rfl
  · split at spelled <;> cases spelled
  · split at spelled
    · split at spelled <;> cases spelled
    · split at spelled
      · rename_i noWord noString number
        rw [if_neg noString, if_pos number]
        exact readNumberFrom_split spelled
      · cases spelled

theorem readToken_mark {b : UInt8} (mark : b ∈ marks) (rest : List UInt8) :
    (readToken b rest).1.spelling? = some [b] ∧ (readToken b rest).2 = rest := by
  rcases mem_marks_iff.1 mark with rfl | rfl | rfl <;> exact ⟨rfl, rfl⟩

theorem starts_number_of_isDigit {b : UInt8} (digit : isDigit b) :
    punctuation? b = none ∧ wordLetters? b = none ∧ b ≠ 0x22 ∧ b ≠ 0x2d := by
  exact forall_byte
    (p := fun b => isDigit b → punctuation? b = none ∧ wordLetters? b = none ∧ b ≠ 0x22 ∧ b ≠ 0x2d)
    (by decide +kernel) b digit

/-- A numeral with nothing of a number behind it is found. -/
theorem readToken_numeral {value b : UInt8} {rest after : List UInt8} (apart : Apart after)
    (text : b :: rest = (ByteTree.byte value).render ++ after) :
    readToken b rest = (.number (some value), after) := by
  have numeral := numeral_render value
  obtain ⟨d, digits, shape⟩ := List.exists_cons_of_ne_nil numeral.nonempty
  have digit : isDigit b := by
    rw [shape] at text numeral
    rw [List.head_eq_of_cons_eq text]
    exact numeral.each d List.mem_cons_self
  obtain ⟨noMark, noWord, noString, noSign⟩ := starts_number_of_isDigit digit
  have read := readNumber_eq_byte_iff.2 ⟨rfl, text, apart⟩
  simp only [readToken, noMark, noWord, if_neg noString, digit, or_true, if_true, readNumberFrom, if_neg noSign,
    read]

/-! ### All tokens -/

theorem lexemes_blanks {blanks : List UInt8} (blank : ∀ b ∈ blanks, isBlank b) (text : List UInt8) :
    lexemes (blanks ++ text) = lexemes text := by
  induction blanks with
  | nil => rfl
  | cons b blanks ih =>
    obtain ⟨first, more⟩ := List.forall_mem_cons.1 blank
    rw [List.cons_append, lexemes, if_pos first, ih more]

theorem spaced_of_spelled {text : List UInt8} {tokens : List (List UInt8)}
    (spelled : Spelled (lexemes text) tokens) : Spaced tokens text := by
  induction text using lexemes.induct generalizing tokens with
  | case1 =>
    rw [lexemes] at spelled
    obtain rfl := List.map_eq_nil_iff.1 spelled.symm
    exact .nil (by simp)
  | case2 b rest blank ih =>
    rw [lexemes, if_pos blank] at spelled
    exact (ih spelled).cons_blank blank
  | case3 b rest black ih =>
    rw [lexemes, if_neg black, spelled_cons_iff] at spelled
    obtain ⟨token, tokens, rfl, first, more⟩ := spelled
    rw [readToken_split first]
    exact (ih more).cons_token token

theorem apart_cons {b : UInt8} (h : isBlank b ∨ b ∈ marks) (rest : List UInt8) : Apart (b :: rest) := by
  rw [isBlank_iff, mem_marks_iff] at h
  rcases h with (rfl | rfl | rfl | rfl) | rfl | rfl | rfl <;> exact ⟨rfl, Bool.false_ne_true⟩

/-- Nothing of a number stands behind a numeral in a row. -/
theorem Spaced.apart {value : UInt8} {tokens : List (List UInt8)} {text : List UInt8} (h : Spaced tokens text)
    (row : Row ((ByteTree.byte value).render :: tokens)) : Apart text := by
  cases h with
  | nil blank =>
    cases text with
    | nil => exact ⟨rfl, Bool.false_ne_true⟩
    | cons b blanks => exact apart_cons (.inl (blank b List.mem_cons_self)) blanks
  | @cons token blanks text tokens blank rest =>
    cases blanks with
    | cons b blanks => exact apart_cons (.inl (blank b List.mem_cons_self)) _
    | nil =>
      cases row.each token (by simp) with
      | mark mark => exact apart_cons (.inr mark) text
      | numeral other =>
        exact absurd (List.isChain_cons_cons.1 row.chain).1 (not_numeral_precedes value other)

/-- **The tokens found in a text** are a row exactly when the text is that row with blanks. -/
theorem spelled_lexemes_iff {text : List UInt8} {tokens : List (List UInt8)} (row : Row tokens) :
    Spelled (lexemes text) tokens ↔ Spaced tokens text := by
  refine ⟨spaced_of_spelled, fun spaced => ?_⟩
  induction spaced with
  | @nil blanks blank =>
    rw [← List.append_nil blanks, lexemes_blanks blank, lexemes]
    rfl
  | @cons token blanks text tokens blank rest ih =>
    have more := ih row.tail
    rw [List.append_assoc, lexemes_blanks blank]
    cases row.each token List.mem_cons_self with
    | @mark b mark =>
      obtain ⟨spelled, behind⟩ := readToken_mark mark text
      rw [List.singleton_append, lexemes, if_neg (not_isBlank_of_mark mark), behind, spelled_cons_iff]
      exact ⟨[b], tokens, rfl, spelled, more⟩
    | numeral value =>
      obtain ⟨b, digits, shape⟩ := List.exists_cons_of_ne_nil (numeral_render value).nonempty
      have digit : isDigit b := (numeral_render value).each b (shape ▸ List.mem_cons_self)
      have found : readToken b (digits ++ text) = (.number (some value), text) :=
        readToken_numeral (rest.apart row) (congrArg (· ++ text) shape).symm
      rw [shape, List.cons_append, lexemes, if_neg (not_isBlank_of_isDigit digit), found, spelled_cons_iff,
        ← shape]
      exact ⟨_, tokens, rfl, rfl, more⟩

end WasmBinary.Json
