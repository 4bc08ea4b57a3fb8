import Mathlib.Data.List.Chain
import WasmBinary.Json.Spacing
import WasmBinary.Proofs.Json.Number

/-! Rows of tokens.

The text of a tree is made of marks and numerals. Not every row of them is one: two numerals
side by side would run together, and no comma stands in front of a closing bracket. The rest of
the nesting does not matter for finding the tokens in a text again, so these two rules are all
that a `Row` keeps. -/
namespace WasmBinary
namespace Json

/-- The brackets and the comma. -/
def marks : List UInt8 := [0x5b, 0x5d, 0x2c]

theorem mem_marks_iff {b : UInt8} : b ∈ marks ↔ b = 0x5b ∨ b = 0x5d ∨ b = 0x2c := by
  simp [marks]

theorem isBlank_iff {b : UInt8} : isBlank b ↔ b = 0x20 ∨ b = 0x09 ∨ b = 0x0a ∨ b = 0x0d := by
  simp [isBlank, or_assoc]

theorem not_isDigit_of_mark {b : UInt8} (mark : b ∈ marks) : ¬isDigit b := by
  rcases mem_marks_iff.1 mark with rfl | rfl | rfl <;> decide

theorem not_isBlank_of_mark {b : UInt8} (mark : b ∈ marks) : ¬isBlank b := by
  rcases mem_marks_iff.1 mark with rfl | rfl | rfl <;> decide

theorem not_isBlank_of_isDigit {b : UInt8} (digit : isDigit b) : ¬isBlank b := by
  intro blank
  rcases isBlank_iff.1 blank with rfl | rfl | rfl | rfl <;> exact absurd digit (by decide)

/-! ### Single tokens -/

/-- A mark, or the numeral of a byte. -/
inductive IsToken : List UInt8 → Prop where
  | mark {b : UInt8} (mark : b ∈ marks) : IsToken [b]
  | numeral (value : UInt8) : IsToken (ByteTree.byte value).render

theorem IsToken.isDigit_or_mark {token : List UInt8} (h : IsToken token) {b : UInt8} (mem : b ∈ token) :
    isDigit b ∨ b ∈ marks := by
  cases h with
  | mark mark => exact .inr (List.mem_singleton.1 mem ▸ mark)
  | numeral value => exact .inl ((numeral_render value).each b mem)

theorem IsToken.not_isBlank {token : List UInt8} (h : IsToken token) {b : UInt8} (mem : b ∈ token) :
    ¬isBlank b :=
  (h.isDigit_or_mark mem).elim not_isBlank_of_isDigit not_isBlank_of_mark

theorem render_byte_ne_mark {value b : UInt8} (mark : b ∈ marks) :
    (ByteTree.byte value).render ≠ [b] := fun same =>
  not_isDigit_of_mark mark ((numeral_render value).each b (same ▸ List.mem_cons_self))

theorem render_byte_inj {a b : UInt8} (same : (ByteTree.byte a).render = (ByteTree.byte b).render) : a = b := by
  rw [← UInt8.toNat_inj, ← decimalValue_render a, ← decimalValue_render b, same]

/-! ### Rows -/

/-- One token may stand right in front of another. -/
structure Precedes (a b : List UInt8) : Prop where
  apart : ¬(a.getLast?.any isDigit ∧ b.head?.any isDigit)
  noTrailingComma : ¬(a = [0x2c] ∧ b = [0x5d])

theorem precedes_of_mark {b : UInt8} (mark : b ∈ marks) {token : List UInt8}
    (other : b = 0x2c → token ≠ [0x5d]) : Precedes [b] token where
  apart h := not_isDigit_of_mark mark h.1
  noTrailingComma h := other (List.head_eq_of_cons_eq h.1) h.2

theorem close_precedes (token : List UInt8) : Precedes [0x5d] token :=
  precedes_of_mark (by decide) fun comma => absurd comma (by decide)

theorem numeral_precedes (value : UInt8) {b : UInt8} (mark : b ∈ marks) :
    Precedes (ByteTree.byte value).render [b] where
  apart h := not_isDigit_of_mark mark h.2
  noTrailingComma h := render_byte_ne_mark (by decide) h.1

/-- Two numerals side by side would be one. -/
theorem not_numeral_precedes (a b : UInt8) :
    ¬Precedes (ByteTree.byte a).render (ByteTree.byte b).render := fun h =>
  h.apart ⟨(numeral_render a).getLast?_any, (numeral_render b).head?_any⟩

/-- Tokens, of which each may stand in front of the next. -/
structure Row (tokens : List (List UInt8)) : Prop where
  each : ∀ token ∈ tokens, IsToken token
  chain : tokens.IsChain Precedes

theorem Row.infix {part tokens : List (List UInt8)} (h : Row tokens) (inside : part <:+: tokens) : Row part :=
  ⟨fun token mem => h.each token (inside.subset mem), h.chain.infix inside⟩

theorem Row.tail {token : List UInt8} {tokens : List (List UInt8)} (h : Row (token :: tokens)) : Row tokens :=
  h.infix (List.suffix_cons token tokens).isInfix

end Json

/-! ### The tokens of a tree -/

namespace ByteTree
open Json

mutual

theorem isToken_of_mem_tokens (tree : ByteTree) : ∀ token ∈ tree.tokens, IsToken token := by
  cases tree with
  | byte value => exact List.forall_mem_singleton.2 (.numeral value)
  | seq items =>
    rw [tokens]
    exact List.forall_mem_cons.2 ⟨.mark (by decide), isToken_of_mem_tokensItems items⟩

theorem isToken_of_mem_tokensItems (items : List ByteTree) : ∀ token ∈ tokensItems items, IsToken token := by
  cases items with
  | nil => exact List.forall_mem_singleton.2 (.mark (by decide))
  | cons item items =>
    rw [tokensItems]
    exact List.forall_mem_append.2 ⟨item.isToken_of_mem_tokens, isToken_of_mem_tokensMore items⟩

theorem isToken_of_mem_tokensMore (items : List ByteTree) : ∀ token ∈ tokensMore items, IsToken token := by
  cases items with
  | nil => exact List.forall_mem_singleton.2 (.mark (by decide))
  | cons item items =>
    rw [tokensMore, List.cons_append]
    exact List.forall_mem_cons.2 ⟨.mark (by decide),
      List.forall_mem_append.2 ⟨item.isToken_of_mem_tokens, isToken_of_mem_tokensMore items⟩⟩

end

/-- What follows an item is a closing bracket or a comma. -/
theorem head?_tokensMore (items : List ByteTree) (tail : List (List UInt8)) :
    ∃ b ∈ marks, (tokensMore items ++ tail).head? = some [b] := by
  cases items with
  | nil => exact ⟨0x5d, by decide, rfl⟩
  | cons item items => exact ⟨0x2c, by decide, rfl⟩

mutual

/-- A tree may stand behind an opening bracket or a comma, and in front of another mark. -/
theorem chain_tokens (tree : ByteTree) {b : UInt8} (mark : b ∈ marks) {tail : List (List UInt8)}
    (chain : tail.IsChain Precedes) (ends : ∀ token ∈ tail.head?, ∃ c ∈ marks, token = [c]) :
    ([b] :: (tree.tokens ++ tail)).IsChain Precedes := by
  cases tree with
  | byte value =>
    have other : (byte value).render ≠ [0x5d] := render_byte_ne_mark (by decide)
    rw [tokens, List.singleton_append, List.isChain_cons_cons, List.isChain_cons]
    refine ⟨precedes_of_mark mark fun _ => other, fun token first => ?_, chain⟩
    obtain ⟨c, mark, rfl⟩ := ends token first
    exact numeral_precedes value mark
  | seq items =>
    rw [tokens, List.cons_append, List.isChain_cons_cons]
    exact ⟨precedes_of_mark mark fun _ => by decide, chain_tokensItems items chain⟩

theorem chain_tokensItems (items : List ByteTree) {tail : List (List UInt8)} (chain : tail.IsChain Precedes) :
    ([0x5b] :: (tokensItems items ++ tail)).IsChain Precedes := by
  cases items with
  | nil =>
    rw [tokensItems, List.singleton_append, List.isChain_cons_cons, List.isChain_cons]
    exact ⟨precedes_of_mark (by decide) (by decide), fun token _ => close_precedes token, chain⟩
  | cons item items =>
    obtain ⟨c, mark, head⟩ := head?_tokensMore items tail
    rw [tokensItems, List.append_assoc]
    exact item.chain_tokens (by decide) (chain_tokensMore items chain) fun token first =>
      ⟨c, mark, Option.some.inj (first.symm.trans head)⟩

theorem chain_tokensMore (items : List ByteTree) {tail : List (List UInt8)} (chain : tail.IsChain Precedes) :
    (tokensMore items ++ tail).IsChain Precedes := by
  cases items with
  | nil =>
    rw [tokensMore, List.singleton_append, List.isChain_cons]
    exact ⟨fun token _ => close_precedes token, chain⟩
  | cons item items =>
    obtain ⟨c, mark, head⟩ := head?_tokensMore items tail
    rw [tokensMore, List.cons_append, List.cons_append, List.append_assoc]
    exact item.chain_tokens (by decide) (chain_tokensMore items chain) fun token first =>
      ⟨c, mark, Option.some.inj (first.symm.trans head)⟩

end

theorem row_tokens (tree : ByteTree) : Row tree.tokens where
  each := tree.isToken_of_mem_tokens
  chain := by
    have chain := tree.chain_tokens (b := 0x5b) (by decide) .nil (by simp)
    rw [List.append_nil] at chain
    exact chain.tail

theorem tokens_ne_nil (tree : ByteTree) : tree.tokens ≠ [] := by
  cases tree <;> exact List.cons_ne_nil _ _

/-- A tree starts with a numeral or an opening bracket. -/
theorem tokens_append_ne_close (tree : ByteTree) {tail rest : List (List UInt8)} :
    tree.tokens ++ tail ≠ [0x5d] :: rest := by
  intro same
  cases tree with
  | byte value => exact render_byte_ne_mark (by decide) (List.cons.inj same).1
  | seq items => exact absurd (List.cons.inj same).1 (by decide)

mutual

/-- The tokens tell the tree, and where it ends. -/
theorem tokens_append_inj (a b : ByteTree) {left right : List (List UInt8)}
    (same : a.tokens ++ left = b.tokens ++ right) : a = b ∧ left = right := by
  cases a with
  | byte x =>
    cases b with
    | byte y =>
      obtain ⟨first, rest⟩ := List.cons.inj same
      exact ⟨congrArg byte (render_byte_inj first), rest⟩
    | seq ys => exact absurd (List.cons.inj same).1 (render_byte_ne_mark (by decide))
  | seq xs =>
    cases b with
    | byte y => exact absurd (List.cons.inj same).1.symm (render_byte_ne_mark (by decide))
    | seq ys =>
      obtain ⟨inside, rest⟩ := tokensItems_append_inj xs ys (List.cons.inj same).2
      exact ⟨congrArg seq inside, rest⟩

theorem tokensItems_append_inj (xs ys : List ByteTree) {left right : List (List UInt8)}
    (same : tokensItems xs ++ left = tokensItems ys ++ right) : xs = ys ∧ left = right := by
  cases xs with
  | nil =>
    cases ys with
    | nil => exact ⟨rfl, (List.cons.inj same).2⟩
    | cons y ys =>
      rw [tokensItems, tokensItems, List.append_assoc] at same
      exact absurd same.symm y.tokens_append_ne_close
  | cons x xs =>
    cases ys with
    | nil =>
      rw [tokensItems, tokensItems, List.append_assoc] at same
      exact absurd same x.tokens_append_ne_close
    | cons y ys =>
      rw [tokensItems, tokensItems, List.append_assoc, List.append_assoc] at same
      obtain ⟨rfl, more⟩ := tokens_append_inj x y same
      obtain ⟨rfl, rest⟩ := tokensMore_append_inj xs ys more
      exact ⟨rfl, rest⟩

theorem tokensMore_append_inj (xs ys : List ByteTree) {left right : List (List UInt8)}
    (same : tokensMore xs ++ left = tokensMore ys ++ right) : xs = ys ∧ left = right := by
  cases xs with
  | nil =>
    cases ys with
    | nil => exact ⟨rfl, (List.cons.inj same).2⟩
    | cons y ys => exact absurd (List.cons.inj same).1 (by decide)
  | cons x xs =>
    cases ys with
    | nil => exact absurd (List.cons.inj same).1 (by decide)
    | cons y ys =>
      rw [tokensMore, tokensMore, List.cons_append, List.cons_append, List.append_assoc, List.cons_append,
        List.cons_append, List.append_assoc] at same
      obtain ⟨rfl, more⟩ := tokens_append_inj x y (List.cons.inj same).2
      obtain ⟨rfl, rest⟩ := tokensMore_append_inj xs ys more
      exact ⟨rfl, rest⟩

end

mutual

/-- The tokens put together are the text without blanks. -/
theorem flatten_tokens (tree : ByteTree) : tree.tokens.flatten = tree.render := by
  cases tree with
  | byte value => exact List.append_nil _
  | seq items => rw [tokens, List.flatten_cons, flatten_tokensItems, render, List.singleton_append]

theorem flatten_tokensItems (items : List ByteTree) : (tokensItems items).flatten = renderItems items := by
  cases items with
  | nil => rfl
  | cons item items =>
    rw [tokensItems, List.flatten_append, item.flatten_tokens, flatten_tokensMore, renderItems]

theorem flatten_tokensMore (items : List ByteTree) : (tokensMore items).flatten = renderMore items := by
  cases items with
  | nil => rfl
  | cons item items =>
    rw [tokensMore, List.flatten_append, List.flatten_cons, item.flatten_tokens, flatten_tokensMore, renderMore]
    rfl

end

end ByteTree

/-! ### Rows in a text -/

namespace Json

theorem Spaced.cons_token {tokens : List (List UInt8)} {text : List UInt8} (h : Spaced tokens text)
    (token : List UInt8) : Spaced (token :: tokens) (token ++ text) :=
  @Spaced.cons token [] text tokens nofun h

/-- Tokens need no blanks. -/
theorem spaced_flatten (tokens : List (List UInt8)) : Spaced tokens tokens.flatten := by
  induction tokens with
  | nil => exact .nil nofun
  | cons token tokens ih => exact ih.cons_token token

theorem Spaced.cons_blank {tokens : List (List UInt8)} {text : List UInt8} (h : Spaced tokens text) {b : UInt8}
    (blank : isBlank b) : Spaced tokens (b :: text) := by
  cases h with
  | nil blanks => exact .nil (List.forall_mem_cons.2 ⟨blank, blanks⟩)
  | @cons token before text tokens blanks rest =>
    exact @Spaced.cons token (b :: before) text tokens (List.forall_mem_cons.2 ⟨blank, blanks⟩) rest

/-- What is not blank in a text belongs to its tokens, in order. -/
theorem Spaced.filter {tokens : List (List UInt8)} {text : List UInt8} (h : Spaced tokens text)
    (each : ∀ token ∈ tokens, IsToken token) : text.filter (fun b => !isBlank b) = tokens.flatten := by
  induction h with
  | nil blank => simpa using blank
  | @cons token before text tokens blanks rest ih =>
    have none : before.filter (fun b => !isBlank b) = [] := by simpa using blanks
    have all : token.filter (fun b => !isBlank b) = token := by
      refine List.filter_eq_self.2 fun b mem => ?_
      simpa using (each token List.mem_cons_self).not_isBlank mem
    rw [List.filter_append, List.filter_append, none, all, List.nil_append, List.flatten_cons,
      ih fun token mem => each token (List.mem_cons_of_mem _ mem)]

/-- There is nothing else in a text than blanks, digits and marks. -/
theorem Spaced.mem_cases {tokens : List (List UInt8)} {text : List UInt8} (h : Spaced tokens text)
    (each : ∀ token ∈ tokens, IsToken token) {b : UInt8} (mem : b ∈ text) :
    isBlank b ∨ isDigit b ∨ b ∈ marks := by
  by_cases blank : isBlank b
  · exact .inl blank
  · have kept : b ∈ text.filter (fun b => !isBlank b) := List.mem_filter.2 ⟨mem, by simpa using blank⟩
    rw [h.filter each] at kept
    obtain ⟨token, inside, mem⟩ := List.mem_flatten.1 kept
    exact .inr ((each token inside).isDigit_or_mark mem)

end Json
end WasmBinary
