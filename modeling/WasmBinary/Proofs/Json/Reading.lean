import WasmBinary.Proofs.Json.Lexemes

/-! Reading a byte-tree.

What a state of the reader leaves to be written is a fact about trees: behind an item, say, the
rest of the array and then what the containers around it still want. `Ends` says so, without
the reader. One token read is one token less to be written (`read_iff`), so a run gives a tree
exactly when the tokens are what the state leaves to be written of it (`run_eq_ok_iff`). No tokens
end a state with a value in it that is no byte-tree. -/
namespace WasmBinary.Json
open ByteTree

/-! ### What is still to be written -/

/-- A tree is not too deep with this many containers around it. A byte never is: only the opening
of a container is refused. -/
def Fits (around : Nat) (tree : ByteTree) : Prop := tree.depth = 0 ∨ around + tree.depth ≤ maxDepth

/-- No item of an array is too deep inside these containers. -/
def Room (outer : List Frame) (items : List ByteTree) : Prop := ∀ item ∈ items, Fits (outer.length + 1) item

theorem fits_zero_iff {tree : ByteTree} : Fits 0 tree ↔ tree.depth ≤ maxDepth := by
  rw [Fits]
  omega

theorem depthItems_fits_iff {around : Nat} {items : List ByteTree} :
    around + (1 + depthItems items) ≤ maxDepth ↔
      around < maxDepth ∧ ∀ item ∈ items, Fits (around + 1) item := by
  induction items with
  | nil =>
    rw [and_iff_left nofun, depthItems]
    omega
  | cons item items ih =>
    rw [List.forall_mem_cons, and_left_comm, ← ih, depthItems, Fits]
    omega

theorem fits_seq_iff {around : Nat} {items : List ByteTree} :
    Fits around (seq items) ↔ around < maxDepth ∧ ∀ item ∈ items, Fits (around + 1) item := by
  rw [← depthItems_fits_iff, Fits, depth]
  exact or_iff_right (by omega)

/-- Behind what has been read, these tokens are the rest of the text of the tree. -/
inductive Ends : State → List (List UInt8) → ByteTree → Prop where
  | done {tree : ByteTree} : Ends (.done (some tree)) [] tree
  | start {tree : ByteTree} (fits : tree.depth ≤ maxDepth) : Ends .start tree.tokens tree
  | first {items more : List ByteTree} {outer : List Frame} {tokens : List (List UInt8)} {tree : ByteTree}
    (room : Room outer more) (rest : Ends (.closeArray (some (more.reverse ++ items)) outer) tokens tree) :
    Ends (.inArray (some items) .first outer) (tokensItems more ++ tokens) tree
  | item {item : ByteTree} {items more : List ByteTree} {outer : List Frame} {tokens : List (List UInt8)}
    {tree : ByteTree} (room : Room outer (item :: more))
    (rest : Ends (.closeArray (some (more.reverse ++ item :: items)) outer) tokens tree) :
    Ends (.inArray (some items) .item outer) (item.tokens ++ (tokensMore more ++ tokens)) tree
  | behindItem {items more : List ByteTree} {outer : List Frame} {tokens : List (List UInt8)} {tree : ByteTree}
    (room : Room outer more) (rest : Ends (.closeArray (some (more.reverse ++ items)) outer) tokens tree) :
    Ends (.inArray (some items) .behindItem outer) (tokensMore more ++ tokens) tree

/-- These tokens are a value, inside these containers, and what is still to be written behind it. -/
def EndsValue (outer : List Frame) (tokens : List (List UInt8)) (tree : ByteTree) : Prop :=
  ∃ value rest, tokens = value.tokens ++ rest ∧ Fits outer.length value ∧
    Ends (.behindValue (some value) outer) rest tree

theorem not_ends_behindValue_none {outer : List Frame} {tokens : List (List UInt8)} {tree : ByteTree} :
    ¬Ends (.behindValue none outer) tokens tree := by
  cases outer with
  | nil => exact nofun
  | cons frame outer =>
    cases frame with
    | object => exact nofun
    | array items => cases items <;> exact nofun

/-- What is left of an array inside does not start a value. -/
theorem not_endsValue_close {outer : List Frame} {rest : List (List UInt8)} {tree : ByteTree} :
    ¬EndsValue outer ([0x5d] :: rest) tree := by
  rintro ⟨value, behind, text, -⟩
  exact value.tokens_append_ne_close text.symm

theorem ends_start_iff {tokens : List (List UInt8)} {tree : ByteTree} :
    Ends .start tokens tree ↔ EndsValue [] tokens tree := by
  constructor
  · rintro ⟨⟩
    rename_i fits
    exact ⟨tree, [], (List.append_nil _).symm, fits_zero_iff.2 fits, .done⟩
  · rintro ⟨value, rest, rfl, fits, ends⟩
    cases ends
    rw [List.append_nil]
    exact .start (fits_zero_iff.1 fits)

theorem ends_item_iff {items : Option (List ByteTree)} {outer : List Frame} {tokens : List (List UInt8)}
    {tree : ByteTree} :
    Ends (.inArray items .item outer) tokens tree ↔ EndsValue (.array items :: outer) tokens tree := by
  constructor
  · intro ends
    cases ends with
    | item room rest =>
      obtain ⟨first, more⟩ := List.forall_mem_cons.1 room
      exact ⟨_, _, rfl, first, .behindItem more rest⟩
  · rintro ⟨value, rest, rfl, first, ends⟩
    cases items with
    | none => cases ends
    | some items =>
      cases ends with
      | behindItem more rest => exact .item (List.forall_mem_cons.2 ⟨first, more⟩) rest

theorem ends_first_iff {items : Option (List ByteTree)} {outer : List Frame} {tokens : List (List UInt8)}
    {tree : ByteTree} : Ends (.inArray items .first outer) tokens tree ↔
      (∃ rest, tokens = [0x5d] :: rest ∧ Ends (.closeArray items outer) rest tree) ∨
        EndsValue (.array items :: outer) tokens tree := by
  constructor
  · intro ends
    cases ends with
    | @first items more _ tokens _ room rest =>
      cases more with
      | nil => exact .inl ⟨tokens, rfl, rest⟩
      | cons item more =>
        rw [← ends_item_iff, tokensItems, List.append_assoc]
        rw [List.reverse_cons, List.append_assoc] at rest
        exact .inr (.item room rest)
  · rintro (⟨rest, rfl, ends⟩ | ends)
    · cases items with
      | none => cases not_ends_behindValue_none ends
      | some items => exact @Ends.first items [] outer rest tree nofun ends
    · rw [← ends_item_iff] at ends
      cases ends with
      | @item item items more _ tokens _ room rest =>
        rw [← List.append_assoc]
        refine @Ends.first items (item :: more) outer tokens tree room ?_
        rwa [List.reverse_cons, List.append_assoc]

theorem ends_behindItem_iff {items : Option (List ByteTree)} {outer : List Frame} {tokens : List (List UInt8)}
    {tree : ByteTree} : Ends (.inArray items .behindItem outer) tokens tree ↔
      (∃ rest, tokens = [0x5d] :: rest ∧ Ends (.closeArray items outer) rest tree) ∨
        ∃ rest, tokens = [0x2c] :: rest ∧ Ends (.inArray items .item outer) rest tree := by
  constructor
  · intro ends
    cases ends with
    | @behindItem items more _ tokens _ room rest =>
      cases more with
      | nil => exact .inl ⟨tokens, rfl, rest⟩
      | cons item more =>
        rw [List.reverse_cons, List.append_assoc] at rest
        refine .inr ⟨_, ?_, .item room rest⟩
        rw [tokensMore, List.cons_append, List.cons_append, List.append_assoc]
  · rintro (⟨rest, rfl, ends⟩ | ⟨rest, rfl, ends⟩)
    · cases items with
      | none => cases not_ends_behindValue_none ends
      | some items => exact @Ends.behindItem items [] outer rest tree nofun ends
    · cases ends with
      | @item item items more _ tokens _ room rest =>
        rw [← List.append_assoc, ← List.cons_append]
        refine @Ends.behindItem items (item :: more) outer tokens tree room ?_
        rwa [List.reverse_cons, List.append_assoc]

/-! ### One token -/

theorem spelling?_cases {found : Token} {token : List UInt8} (spelled : found.spelling? = some token) :
    (found = .openArray ∧ token = [0x5b]) ∨ (found = .closeArray ∧ token = [0x5d]) ∨
      (found = .comma ∧ token = [0x2c]) ∨
        ∃ value, found = .number (some value) ∧ token = (byte value).render := by
  cases found with
  | openArray => exact .inl ⟨rfl, (Option.some.inj spelled).symm⟩
  | closeArray => exact .inr (.inl ⟨rfl, (Option.some.inj spelled).symm⟩)
  | comma => exact .inr (.inr (.inl ⟨rfl, (Option.some.inj spelled).symm⟩))
  | number byte =>
    cases byte with
    | none => cases spelled
    | some value => exact .inr (.inr (.inr ⟨value, rfl, (Option.some.inj spelled).symm⟩))
  | _ => cases spelled

/-- A spelling is that of one token only. -/
theorem spelling?_inj {a b : Token} {token : List UInt8} (ha : a.spelling? = some token)
    (hb : b.spelling? = some token) : a = b := by
  rcases spelling?_cases ha with ⟨rfl, rfl⟩ | ⟨rfl, rfl⟩ | ⟨rfl, rfl⟩ | ⟨value, rfl, rfl⟩
  case inr.inr.inr =>
    rcases spelling?_cases hb with ⟨-, same⟩ | ⟨-, same⟩ | ⟨-, same⟩ | ⟨other, rfl, same⟩
    case inr.inr.inr => rw [render_byte_inj same]
    all_goals exact absurd same (render_byte_ne_mark (by decide))
  all_goals
    rcases spelling?_cases hb with ⟨rfl, same⟩ | ⟨rfl, same⟩ | ⟨rfl, same⟩ | ⟨other, -, same⟩
    case inr.inr.inr => exact absurd same.symm (render_byte_ne_mark (by decide))
    all_goals first | rfl | exact absurd same (by decide)

/-- The first token of a value is read exactly when it is one that the value may start with. -/
theorem readValue_iff {outer : List Frame} {lexeme : Lexeme} {tokens : List (List UInt8)} {tree : ByteTree} :
    (∃ next, State.readValue outer lexeme = .ok next ∧ Ends next tokens tree) ↔
      ∃ token, lexeme.token.spelling? = some token ∧ EndsValue outer (token :: tokens) tree := by
  constructor
  · rintro ⟨next, read, ends⟩
    unfold State.readValue at read
    split at read
    · rename_i byte found
      obtain rfl := Except.ok.inj read
      cases byte with
      | none => cases not_ends_behindValue_none ends
      | some value =>
        exact ⟨(byte value).render, by rw [found]; rfl, .byte value, tokens, rfl, .inl rfl, ends⟩
    · obtain rfl := Except.ok.inj read
      cases not_ends_behindValue_none ends
    · obtain rfl := Except.ok.inj read
      cases not_ends_behindValue_none ends
    · rename_i found
      split at read
      · rename_i deeper
        obtain rfl := Except.ok.inj read
        refine ⟨[0x5b], by rw [found]; rfl, ?_⟩
        cases ends with
        | @first items more _ tokens _ room rest =>
          refine ⟨.seq more, tokens, rfl, fits_seq_iff.2 ⟨deeper, room⟩, ?_⟩
          simpa [State.closeArray] using rest
      · cases read
    · split at read
      · obtain rfl := Except.ok.inj read
        cases ends
      · cases read
    all_goals cases read
  · rintro ⟨token, spelled, value, rest, text, fits, ends⟩
    cases value with
    | byte value =>
      obtain ⟨rfl, rfl⟩ := List.cons.inj text
      have found : lexeme.token = .number (some value) := spelling?_inj spelled rfl
      exact ⟨.behindValue (some (.byte value)) outer, by rw [State.readValue, found]; rfl, ends⟩
    | seq items =>
      obtain ⟨rfl, rfl⟩ := List.cons.inj text
      have found : lexeme.token = .openArray := spelling?_inj spelled rfl
      obtain ⟨deeper, room⟩ := fits_seq_iff.1 fits
      refine ⟨.inArray (some []) .first outer, by simp only [State.readValue, found, if_pos deeper], ?_⟩
      refine @Ends.first [] items outer rest tree room ?_
      simpa [State.closeArray] using ends

/-- A value does not start with a closing bracket, so the reader takes it for no end. -/
theorem not_close_of_endsValue {outer : List Frame} {found : Token} {token : List UInt8}
    (spelled : found.spelling? = some token) {tokens : List (List UInt8)} {tree : ByteTree}
    (ends : EndsValue outer (token :: tokens) tree) : found ≠ .closeArray := by
  rintro rfl
  obtain rfl := Option.some.inj spelled
  exact not_endsValue_close ends

theorem ends_of_readInArray {items : Option (List ByteTree)} {outer : List Frame} {place : ArrayPlace}
    {lexeme : Lexeme} {next : State} (read : State.readInArray items outer lexeme place = .ok next)
    {tokens : List (List UInt8)} {tree : ByteTree} (ends : Ends next tokens tree) :
    ∃ token, lexeme.token.spelling? = some token ∧
      Ends (.inArray items place outer) (token :: tokens) tree := by
  cases place with
  | first =>
    rw [State.readInArray] at read
    split at read
    · rename_i found
      obtain rfl := Except.ok.inj read
      exact ⟨[0x5d], by rw [found]; rfl, ends_first_iff.2 (.inl ⟨tokens, rfl, ends⟩)⟩
    · obtain ⟨token, spelled, ends⟩ := readValue_iff.1 ⟨next, read, ends⟩
      exact ⟨token, spelled, ends_first_iff.2 (.inr ends)⟩
  | item =>
    rw [State.readInArray] at read
    split at read
    · cases read
    · obtain ⟨token, spelled, ends⟩ := readValue_iff.1 ⟨next, read, ends⟩
      exact ⟨token, spelled, ends_item_iff.2 ends⟩
  | behindItem =>
    rw [State.readInArray] at read
    split at read
    · rename_i found
      obtain rfl := Except.ok.inj read
      exact ⟨[0x5d], by rw [found]; rfl, ends_behindItem_iff.2 (.inl ⟨tokens, rfl, ends⟩)⟩
    · rename_i found
      obtain rfl := Except.ok.inj read
      exact ⟨[0x2c], by rw [found]; rfl, ends_behindItem_iff.2 (.inr ⟨tokens, rfl, ends⟩)⟩
    · cases read

theorem readInArray_of_ends {items : Option (List ByteTree)} {outer : List Frame} {place : ArrayPlace}
    {lexeme : Lexeme} {token : List UInt8} (spelled : lexeme.token.spelling? = some token)
    {tokens : List (List UInt8)} {tree : ByteTree}
    (ends : Ends (.inArray items place outer) (token :: tokens) tree) :
    ∃ next, State.readInArray items outer lexeme place = .ok next ∧ Ends next tokens tree := by
  cases place with
  | first =>
    rcases ends_first_iff.1 ends with ⟨rest, same, ends⟩ | ends
    · obtain ⟨rfl, rfl⟩ := List.cons.inj same
      have found : lexeme.token = .closeArray := spelling?_inj spelled rfl
      exact ⟨_, by rw [State.readInArray, found], ends⟩
    · have item := not_close_of_endsValue spelled ends
      obtain ⟨next, read, ends⟩ := readValue_iff.2 ⟨token, spelled, ends⟩
      refine ⟨next, ?_, ends⟩
      rw [State.readInArray]
      split
      · contradiction
      · exact read
  | item =>
    have item := not_close_of_endsValue spelled (ends_item_iff.1 ends)
    obtain ⟨next, read, ends⟩ := readValue_iff.2 ⟨token, spelled, ends_item_iff.1 ends⟩
    refine ⟨next, ?_, ends⟩
    rw [State.readInArray]
    split
    · contradiction
    · exact read
  | behindItem =>
    rcases ends_behindItem_iff.1 ends with ⟨rest, same, ends⟩ | ⟨rest, same, ends⟩
    · obtain ⟨rfl, rfl⟩ := List.cons.inj same
      have found : lexeme.token = .closeArray := spelling?_inj spelled rfl
      exact ⟨_, by rw [State.readInArray, found], ends⟩
    · obtain ⟨rfl, rfl⟩ := List.cons.inj same
      have found : lexeme.token = .comma := spelling?_inj spelled rfl
      exact ⟨_, by rw [State.readInArray, found], ends⟩

theorem readKey_not_ends {outer : List Frame} {lexeme : Lexeme} {next : State}
    (read : State.readKey outer lexeme = .ok next) {tokens : List (List UInt8)} {tree : ByteTree} :
    ¬Ends next tokens tree := by
  unfold State.readKey at read
  split at read
  · obtain rfl := Except.ok.inj read
    exact nofun
  all_goals cases read

/-- No token leads out of an object. -/
theorem readInObject_not_ends {outer : List Frame} {place : ObjectPlace} {lexeme : Lexeme} {next : State}
    (read : State.readInObject outer lexeme place = .ok next) {tokens : List (List UInt8)} {tree : ByteTree} :
    ¬Ends next tokens tree := by
  cases place with
  | value =>
    intro ends
    obtain ⟨token, -, value, rest, -, -, ends⟩ := readValue_iff.1 ⟨next, read, ends⟩
    cases ends
  | first =>
    rw [State.readInObject] at read
    split at read
    · obtain rfl := Except.ok.inj read
      exact not_ends_behindValue_none
    · exact readKey_not_ends read
  | key =>
    rw [State.readInObject] at read
    split at read
    · cases read
    · exact readKey_not_ends read
  | colon =>
    rw [State.readInObject] at read
    split at read
    · obtain rfl := Except.ok.inj read
      exact nofun
    · cases read
  | behindMember =>
    rw [State.readInObject] at read
    split at read
    · obtain rfl := Except.ok.inj read
      exact not_ends_behindValue_none
    · obtain rfl := Except.ok.inj read
      exact nofun
    · cases read

/-- **One token read is one token less to be written.** -/
theorem read_iff {state : State} {lexeme : Lexeme} {tokens : List (List UInt8)} {tree : ByteTree} :
    (∃ next, state.read lexeme = .ok next ∧ Ends next tokens tree) ↔
      ∃ token, lexeme.token.spelling? = some token ∧ Ends state (token :: tokens) tree := by
  cases state with
  | start => simp only [ends_start_iff, State.read, readValue_iff]
  | inArray items place outer =>
    constructor
    · rintro ⟨next, read, ends⟩
      exact ends_of_readInArray read ends
    · rintro ⟨token, spelled, ends⟩
      exact readInArray_of_ends spelled ends
  | inObject place outer =>
    refine iff_of_false ?_ nofun
    rintro ⟨next, read, ends⟩
    exact readInObject_not_ends read ends
  | done tree =>
    refine iff_of_false ?_ nofun
    rintro ⟨next, read, -⟩
    cases tree <;> cases read

/-! ### All tokens -/

theorem finish_iff {state : State} {tree : ByteTree} : state.finish = .ok tree ↔ state = .done (some tree) := by
  constructor
  · intro finish
    unfold State.finish at finish
    split at finish <;> cases finish
    rfl
  · rintro rfl
    rfl

theorem ends_nil_iff {state : State} {tree : ByteTree} : Ends state [] tree ↔ state = .done (some tree) := by
  constructor
  · intro ends
    generalize none_left : ([] : List (List UInt8)) = tokens at ends
    cases ends with
    | done => rfl
    | start => exact absurd none_left.symm (tokens_ne_nil tree)
    | @item item => exact absurd (List.append_eq_nil_iff.1 none_left.symm).1 (tokens_ne_nil item)
    | @first items more => cases more <;> simp [tokensItems, tokens_ne_nil] at none_left
    | @behindItem items more => cases more <;> simp [tokensMore] at none_left
  · rintro rfl
    exact .done

/-- **A run gives a tree** exactly when the tokens are what is still to be written of it. -/
theorem run_eq_ok_iff {state : State} {found : List Lexeme} {tree : ByteTree} :
    state.run found = .ok tree ↔ ∃ tokens, Spelled found tokens ∧ Ends state tokens tree := by
  induction found generalizing state with
  | nil =>
    rw [State.run, finish_iff, ← ends_nil_iff]
    constructor
    · exact fun ends => ⟨[], rfl, ends⟩
    · rintro ⟨tokens, spelled, ends⟩
      obtain rfl := List.map_eq_nil_iff.1 spelled.symm
      exact ends
  | cons lexeme found ih =>
    have steps : state.run (lexeme :: found) = .ok tree ↔
        ∃ next, state.read lexeme = .ok next ∧ next.run found = .ok tree := by
      rw [State.run]
      cases state.read lexeme <;> simp
    rw [steps]
    constructor
    · rintro ⟨next, read, run⟩
      obtain ⟨tokens, spelled, ends⟩ := ih.1 run
      obtain ⟨token, first, ends⟩ := read_iff.1 ⟨next, read, ends⟩
      exact ⟨token :: tokens, spelled_cons_iff.2 ⟨token, tokens, rfl, first, spelled⟩, ends⟩
    · rintro ⟨tokens, spelled, ends⟩
      obtain ⟨token, tokens, rfl, first, spelled⟩ := spelled_cons_iff.1 spelled
      obtain ⟨next, read, ends⟩ := read_iff.2 ⟨token, first, ends⟩
      exact ⟨next, read, ih.2 ⟨tokens, spelled, ends⟩⟩

/-- **The texts of a tree** are its tokens with blanks around, if it is not too deep. -/
theorem ofJson_eq_ok_iff {text : List UInt8} {tree : ByteTree} :
    ByteTree.ofJson text = .ok tree ↔ tree.depth ≤ maxDepth ∧ Spaced tree.tokens text := by
  have result : ByteTree.ofJson text = .ok tree ↔ State.start.run (lexemes text) = .ok tree := by
    rw [ByteTree.ofJson]
    split <;> simp_all
  rw [result, run_eq_ok_iff]
  constructor
  · rintro ⟨tokens, spelled, ends⟩
    cases ends with
    | start fits => exact ⟨fits, spaced_of_spelled spelled⟩
  · rintro ⟨fits, spaced⟩
    exact ⟨tree.tokens, (spelled_lexemes_iff tree.row_tokens).2 spaced, .start fits⟩

end WasmBinary.Json
