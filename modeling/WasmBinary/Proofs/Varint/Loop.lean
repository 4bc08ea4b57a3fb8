import WasmBinary.Proofs.Varint.Reading

/-! The loop of an encoder.

In each round a loop pushes the lowest group of what is left of a word, and it returns with the group
behind which nothing is left. Here the rounds are taken one at a time, by a machine that notes every
push with its place and stops for good at a push outside the buffer. From any window it comes to what
the writer answers there (`exists_rounds_eq_write?`). From an empty window, a word has been shifted by
as many groups as bytes were pushed (`Under`). Behind nine of them only the last group is left, so the
loop returns while there is room (`loops_end_in_buffer`). -/
namespace WasmBinary.Varint
variable {α : Type}

/-! ### The machine -/

/-- What an encoder does with the words of a type. -/
structure Encoder (α : Type) where
  /-- The integer that is written. -/
  value : α → Int
  /-- The lowest group. -/
  group : α → UInt8
  /-- What is left above the lowest group. -/
  rest : α → α
  /-- The lowest group is the last one. -/
  ends : α → Bool
  /-- The writer, which goes through all rounds. -/
  write? : α → Varint → Option Varint

/-- The encoder of signed words. -/
def signedEncoder : Encoder Int64 := ⟨Int64.toInt, signedGroup, (· >>> 7), signedEnds, writeSigned?⟩

/-- The encoder of unsigned words. -/
def unsignedEncoder : Encoder UInt64 :=
  ⟨fun n => n.toNat, unsignedGroup, (· >>> 7), unsignedEnds, writeUnsigned?⟩

/-- How far a loop has come. -/
inductive Progress (α : Type) where
  /-- It goes on with this word. -/
  | going (n : α) (v : Varint)
  /-- It has pushed outside the buffer. -/
  | outside
  | returned (v : Varint)

/-- The end that a writer's answer tells. -/
def Progress.ofAnswer : Option Varint → Progress α
  | none => .outside
  | some v => .returned v

/-- A loop, and the bytes that it has pushed so far with the places they were pushed to. -/
structure Loop (α : Type) where
  progress : Progress α
  pushes : List (UInt8 × Nat)

namespace Encoder

/-- The byte that is pushed for a word: its lowest group, with the continuation bit unless it is the
last one. -/
def byte (e : Encoder α) (n : α) : UInt8 := if e.ends n then e.group n else e.group n ||| continuation

/-- One round of a loop. -/
def round (e : Encoder α) (l : Loop α) : Loop α :=
  match l.progress with
  | .going n v =>
    { progress := match v.push? (e.byte n) with
        | none => .outside
        | some w => if e.ends n then .returned w else .going (e.rest n) w
      pushes := l.pushes ++ [(e.byte n, v.stop)] }
  | .outside | .returned _ => l

/-- So many rounds of a loop. -/
def rounds (e : Encoder α) : Nat → Loop α → Loop α
  | 0, l => l
  | k + 1, l => e.round (e.rounds k l)

/-- The loop for a word, after so many rounds. -/
def after (e : Encoder α) (n : α) (k : Nat) : Loop α := e.rounds k ⟨.going n empty, []⟩

/-- What the loops of an encoder rest on. -/
structure Lawful (e : Encoder α) : Prop where
  group_lt : ∀ n, (e.group n).toNat < 128
  value_rest : ∀ n, e.value (e.rest n) = e.value n / 128
  /-- Behind nine groups only the last one is left. -/
  ends_of_nine : ∀ n m, e.value m = e.value n / 128 ^ 9 → e.ends m = true
  write?_last : ∀ n v, e.ends n = true → e.write? n v = v.push? (e.group n)
  write?_more : ∀ n v, ¬e.ends n = true →
    e.write? n v = (v.push? (e.group n ||| continuation)).bind (e.write? (e.rest n))

end Encoder

theorem lawful_signedEncoder : signedEncoder.Lawful where
  group_lt := signedGroup_lt
  value_rest := toInt_shiftRight_group
  ends_of_nine n m same := by
    have low := n.le_toInt
    have high := n.toInt_lt
    change m.toInt = n.toInt / 128 ^ 9 at same
    exact (signedEnds_iff m).2 (by omega)
  write?_last n v ends := by
    show writeSigned? n v = _
    rw [writeSigned?]
    exact if_pos ends
  write?_more n v more := by
    show writeSigned? n v = (v.push? (signedGroup n ||| continuation)).bind (writeSigned? (n >>> 7))
    rw [writeSigned?, if_neg (show ¬signedEnds n = true from more)]
    split <;> simp_all

theorem lawful_unsignedEncoder : unsignedEncoder.Lawful where
  group_lt := unsignedGroup_lt
  value_rest n := by
    show ((n >>> 7).toNat : Int) = n.toNat / 128
    rw [toNat_shiftRight_group]
    rfl
  ends_of_nine n m same := by
    have high := n.toNat_lt
    change (m.toNat : Int) = n.toNat / 128 ^ 9 at same
    exact (unsignedEnds_iff m).2 (by omega)
  write?_last n v ends := by
    show writeUnsigned? n v = _
    rw [writeUnsigned?]
    exact if_pos ends
  write?_more n v more := by
    show writeUnsigned? n v = (v.push? (unsignedGroup n ||| continuation)).bind (writeUnsigned? (n >>> 7))
    rw [writeUnsigned?, if_neg (show ¬unsignedEnds n = true from more)]
    split <;> simp_all

/-! ### Rounds -/

namespace Encoder

section
variable {e : Encoder α}

theorem rounds_succ (k : Nat) (l : Loop α) : e.rounds (k + 1) l = e.rounds k (e.round l) := by
  induction k with
  | zero => rfl
  | succ k ih => rw [rounds, ih, rounds]

/-- A loop that has returned stays as it is. -/
theorem round_of_returned {l : Loop α} {v : Varint} (returned : l.progress = .returned v) :
    e.round l = l := by
  rw [round, returned]

theorem round_of_push? {l : Loop α} {n : α} {v w : Varint} (going : l.progress = .going n v)
    (pushed : v.push? (e.byte n) = some w) :
    e.round l = ⟨if e.ends n then .returned w else .going (e.rest n) w, l.pushes ++ [(e.byte n, v.stop)]⟩ := by
  rw [round, going]
  simp only [pushed]

variable (lawful : e.Lawful)
include lawful

/-- **A round is the writer's own**: what the writer answers for a word and a window, it answers for what
one round makes of them, unless the round ends the loop with this answer. -/
theorem round_answers {l : Loop α} {n : α} {v : Varint} (going : l.progress = .going n v) :
    (e.round l).progress = .ofAnswer (e.write? n v) ∨
      ∃ w, v.push? (e.byte n) = some w ∧ (e.round l).progress = .going (e.rest n) w ∧
        e.write? (e.rest n) w = e.write? n v := by
  by_cases ends : e.ends n = true
  · refine .inl ?_
    rw [lawful.write?_last n v ends, round, going]
    simp only [byte, ends, if_true]
    cases v.push? (e.group n) <;> rfl
  · rw [lawful.write?_more n v ends]
    cases pushed : v.push? (e.group n ||| continuation) with
    | none => simp [round, going, byte, ends, pushed, Progress.ofAnswer]
    | some w => simp [round, going, byte, ends, pushed]

/-- From any window, a loop comes to what the writer answers there. -/
theorem exists_rounds_eq_write? {l : Loop α} {n : α} {v : Varint} (going : l.progress = .going n v) :
    ∃ k, (e.rounds k l).progress = .ofAnswer (e.write? n v) := by
  induction room : v.room using Nat.strong_induction_on generalizing l n v with
  | _ room ih =>
    subst room
    obtain ended | ⟨w, pushed, next, same⟩ := round_answers lawful going
    · exact ⟨1, ended⟩
    · have less := room_push? pushed
      obtain ⟨k, reached⟩ := ih w.room (by omega) next rfl
      exact ⟨k + 1, by rw [rounds_succ, reached, same]⟩

end

/-! ### From an empty window -/

/-- After `k` rounds the loop goes on. The word is shifted by `k` groups, and `k` bytes were pushed, one
behind the other, none of them a last one. -/
structure Under (e : Encoder α) (n : α) (k : Nat) (m : α) (w : Varint) : Prop where
  going : (e.after n k).progress = .going m w
  pushes : (e.after n k).pushes = w.toList.zipIdx
  start : w.start = 0
  stop : w.stop = k
  value : e.value m = e.value n / 128 ^ k
  goesOn : ∀ b ∈ w.toList, b &&& continuation ≠ 0
  answer : e.write? m w = e.write? n empty

/-- After `len` rounds the loop has returned. As many bytes were pushed, one behind the other, and only
the last of them is a last one. -/
structure Returned (e : Encoder α) (n : α) (len : Nat) (v : Varint) : Prop where
  returned : (e.after n len).progress = .returned v
  pushes : (e.after n len).pushes = v.toList.zipIdx
  start : v.start = 0
  stop : v.stop = len
  last : ∃ front b, v.toList = front ++ [b] ∧ (∀ c ∈ front, c &&& continuation ≠ 0) ∧ b &&& continuation = 0
  answer : e.write? n empty = some v

section
variable {e : Encoder α} {n m : α} {k : Nat} {w : Varint}

theorem under_zero (e : Encoder α) (n : α) : Under e n 0 n empty where
  going := rfl
  pushes := rfl
  start := rfl
  stop := rfl
  value := by simp
  goesOn := nofun
  answer := rfl

/-- With room in the buffer, the next byte is pushed behind the others. -/
theorem Under.pushed (h : Under e n k m w) (room : k < maxLength) :
    ∃ u, w.push? (e.byte m) = some u ∧ u.toList = w.toList ++ [e.byte m] ∧ u.start = 0 ∧ u.stop = k + 1 ∧
      e.after n (k + 1) = ⟨if e.ends m then .returned u else .going (e.rest m) u, u.toList.zipIdx⟩ := by
  have fits : 0 < w.room := by
    have stop := h.stop
    rw [Varint.room]
    omega
  obtain ⟨u, pushed⟩ := Option.isSome_iff_exists.1 ((w.push?_isSome_iff (e.byte m)).2 fits)
  have bytes := toList_push? pushed
  have count : w.toList.length = w.stop := by
    rw [length_toList, length, h.start, Nat.sub_zero]
  refine ⟨u, pushed, bytes, ?_, ?_, ?_⟩
  · rw [start_push? pushed, h.start]
  · rw [stop_push? pushed, h.stop]
  · show e.round (e.after n k) = _
    rw [round_of_push? h.going pushed, h.pushes, bytes, List.zipIdx_append, Nat.zero_add, count]
    rfl

variable (lawful : e.Lawful)
include lawful

/-- **One round of the loop**: it returns with the last group, and goes on behind any other. -/
theorem Under.step (h : Under e n k m w) (room : k < maxLength) :
    (e.ends m = true → ∃ v, Returned e n (k + 1) v) ∧
      (¬e.ends m = true → ∃ u, Under e n (k + 1) (e.rest m) u) := by
  obtain ⟨u, pushed, bytes, start, stop, next⟩ := h.pushed room
  constructor
  · intro ends
    have byte : e.byte m = e.group m := if_pos ends
    refine ⟨u, by rw [next, ends]; rfl, by rw [next], start, stop, ⟨_, _, bytes, h.goesOn, ?_⟩, ?_⟩
    · rw [and_continuation_eq_zero_iff, byte]
      exact lawful.group_lt m
    · rw [← h.answer, lawful.write?_last m w ends, ← byte, pushed]
  · intro more
    have byte : e.byte m = e.group m ||| continuation := if_neg more
    refine ⟨u, by rw [next]; exact if_neg more, by rw [next], start, stop, ?_, ?_, ?_⟩
    · have weight : (0 : Int) ≤ 128 ^ k := Int.pow_nonneg (by decide)
      rw [lawful.value_rest, h.value, Int.ediv_ediv_of_nonneg weight, Int.pow_succ]
    · intro b mem
      rw [bytes, List.mem_append, List.mem_singleton] at mem
      obtain front | rfl := mem
      · exact h.goesOn b front
      · have high := or_continuation_toNat _ (lawful.group_lt m)
        rw [ne_eq, and_continuation_eq_zero_iff, byte]
        omega
    · rw [← h.answer, lawful.write?_more m w more, ← byte, pushed, Option.bind_some]

end

/-- The loop for a word ends with this window, after `len` rounds. -/
structure Ends (e : Encoder α) (n : α) (v : Varint) (len : Nat) : Prop where
  positive : 1 ≤ len
  short : len ≤ 10
  /-- In front of each round, there is room for its push. -/
  goesOn : ∀ k < len, ∃ m w, Under e n k m w ∧ w.stop < maxLength
  returned : Returned e n len v
  stays : ∀ k, len ≤ k → e.after n k = e.after n len

section
variable {e : Encoder α} (lawful : e.Lawful)
include lawful

/-- Up to the last round that there can be, the loop goes on until it returns. -/
theorem returned_or_under (n : α) {k : Nat} (room : k < maxLength) :
    (∃ len v, 1 ≤ len ∧ len ≤ k ∧ (∀ j < len, ∃ m w, Under e n j m w) ∧ Returned e n len v) ∨
      ∀ j ≤ k, ∃ m w, Under e n j m w := by
  induction k with
  | zero =>
    refine .inr fun j first => ?_
    obtain rfl := Nat.le_zero.1 first
    exact ⟨n, empty, under_zero e n⟩
  | succ k ih =>
    obtain ⟨len, v, positive, earlier, before, returned⟩ | before := ih (by omega)
    · exact .inl ⟨len, v, positive, by omega, before, returned⟩
    · obtain ⟨m, w, under⟩ := before k (Nat.le_refl k)
      obtain ⟨last, more⟩ := under.step lawful (by omega)
      by_cases ends : e.ends m = true
      · obtain ⟨v, returned⟩ := last ends
        exact .inl ⟨k + 1, v, by omega, Nat.le_refl _, fun j earlier => before j (by omega), returned⟩
      · obtain ⟨u, next⟩ := more ends
        refine .inr fun j earlier => ?_
        obtain earlier | rfl := Nat.lt_or_eq_of_le earlier
        · exact before j (by omega)
        · exact ⟨_, u, next⟩

/-- **The loop for a word ends in the buffer.** At the latest it returns with the tenth byte, since a word
that is shifted by nine groups is a last group. -/
theorem exists_ends {n : α} {v : Varint} (written : e.write? n empty = some v) : ∃ len, Ends e n v len := by
  have goes : ∃ len u, 1 ≤ len ∧ len ≤ 10 ∧ (∀ j < len, ∃ m w, Under e n j m w) ∧ Returned e n len u := by
    obtain ⟨len, u, positive, early, before, returned⟩ | before :=
      returned_or_under lawful n (show 9 < maxLength by decide)
    · exact ⟨len, u, positive, by omega, before, returned⟩
    · obtain ⟨m, w, under⟩ := before 9 (Nat.le_refl 9)
      obtain ⟨u, returned⟩ := (under.step lawful (by decide)).1 (lawful.ends_of_nine n m under.value)
      exact ⟨10, u, by decide, by decide, fun j early => before j (by omega), returned⟩
  obtain ⟨len, u, positive, short, before, returned⟩ := goes
  obtain rfl := Option.some.inj (written.symm.trans returned.answer)
  refine ⟨len, positive, short, fun k early => ?_, returned, fun k late => ?_⟩
  · obtain ⟨m, w, under⟩ := before k early
    exact ⟨m, w, under, by rw [under.stop, maxLength]; omega⟩
  · obtain ⟨more, rfl⟩ := Nat.exists_eq_add_of_le late
    induction more with
    | zero => rfl
    | succ more ih =>
      show e.round (e.after n (len + more)) = _
      rw [ih (by omega), round_of_returned returned.returned]

end
end Encoder

/-- **The loops of the encoders end in the buffer.** For every word, the loop goes on for at least one
and at most ten rounds, and each of them starts with room for the byte that it pushes. Then it returns
for good, with the encoding of the word, which is the window from the place 0 to the number of rounds.
Of the bytes pushed, one behind the other, only the last is without the continuation bit. From any
window, rounds come to what the writer answers there, so a push outside the buffer would be seen. -/
theorem loops_end_in_buffer :
    (∀ n : Int64, ∃ len, signedEncoder.Ends n (ofInt64 n) len) ∧
    (∀ n : UInt64, ∃ len, unsignedEncoder.Ends n (ofUInt64 n) len) ∧
    (∀ (n : Int64) (v : Varint), ∃ k,
      (signedEncoder.rounds k ⟨.going n v, []⟩).progress = .ofAnswer (writeSigned? n v)) ∧
    (∀ (n : UInt64) (v : Varint), ∃ k,
      (unsignedEncoder.rounds k ⟨.going n v, []⟩).progress = .ofAnswer (writeUnsigned? n v)) := by
  refine ⟨fun n => ?_, fun n => ?_, fun n v => ?_, fun n v => ?_⟩
  · exact Encoder.exists_ends lawful_signedEncoder (Option.some_get _).symm
  · exact Encoder.exists_ends lawful_unsignedEncoder (Option.some_get _).symm
  · exact Encoder.exists_rounds_eq_write? lawful_signedEncoder rfl
  · exact Encoder.exists_rounds_eq_write? lawful_unsignedEncoder rfl

/-- The least word takes all of the buffer. -/
example : (signedEncoder.after Int64.minValue 10).pushes = (List.replicate 9 (0x80 : UInt8) ++ [0x7f]).zipIdx := by
  decide +kernel

end WasmBinary.Varint
