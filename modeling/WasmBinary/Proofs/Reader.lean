import WasmBinary.Reader

/-! Readers, one after the other.

A reader `Takes` some bytes for a value when it gives the value and leaves what stands
behind them, whatever that is. This is what makes readers compose: one behind the other they
take the bytes one behind the other (`Takes.bind`), and repeated they take a list
(`Takes.times`). It also makes what they read unambiguous: two texts that the same reader
takes cannot start with the same bytes unless they are the same (`Takes.unique`). -/
namespace WasmBinary.Reader
variable {α β : Type}

/-- The reader gives this value for these bytes, and leaves what stands behind them. -/
def Takes (read : Reader α) (bytes : List UInt8) (x : α) : Prop :=
  ∀ rest, read.run (bytes ++ rest) = some (x, rest)

theorem Recovers.takes {read : Reader α} {written : α → List UInt8} (h : Recovers read written) (x : α) :
    Takes read (written x) x := h x

/-! ### Composing readers -/

theorem Takes.pure (x : α) : Takes (pure x) [] x := fun _ => rfl

theorem Takes.bind {read : Reader α} {next : α → Reader β} {front back : List UInt8} {x : α} {y : β}
    (h : Takes read front x) (h' : Takes (next x) back y) : Takes (read >>= next) (front ++ back) y := by
  intro rest
  rw [StateT.run_bind, List.append_assoc, h]
  exact h' rest

/-- Something that takes no byte may follow. -/
theorem Takes.thenReturn {read : Reader α} {next : α → Reader β} {bytes : List UInt8} {x : α} {y : β}
    (h : Takes read bytes x) (h' : Takes (next x) [] y) : Takes (read >>= next) bytes y := by
  have := h.bind h'
  rwa [List.append_nil] at this

theorem Takes.guarded {p : Prop} [Decidable p] (h : p) : Takes (guard p) [] () := by
  intro rest
  show StateT.run (if p then Pure.pure () else failure) rest = _
  rw [if_pos h]
  rfl

/-- What was read may be checked and then put into a type. -/
theorem Takes.checked {read : Reader α} {p : α → Prop} [DecidablePred p] {f : α → β} {bytes : List UInt8}
    {x : α} {y : β} (h : Takes read bytes x) (passes : p x) (same : f x = y) :
    Takes (do let x ← read; guard (p x); return f x) bytes y := by
  subst same
  exact h.thenReturn ((Takes.guarded passes).thenReturn (.pure (f x)))

theorem Takes.byte (b : UInt8) : Takes byte [b] b := fun _ => rfl

theorem Takes.bytes (front : List UInt8) : Takes (bytes front.length) front front := by
  intro rest
  have enough : front.length ≤ (front ++ rest).length := by simp
  show (if front.length ≤ (front ++ rest).length then some ((front ++ rest).splitAt front.length) else none) = _
  rw [if_pos enough, List.splitAt_eq, List.take_left, List.drop_left]

theorem Takes.times {read : Reader α} {written : α → List UInt8} {xs : List α}
    (each : ∀ x ∈ xs, Takes read (written x) x) : Takes (read.times xs.length) (xs.flatMap written) xs := by
  induction xs with
  | nil => exact .pure []
  | cons x xs ih =>
    have first := each x List.mem_cons_self
    have others := ih fun y hy => each y (List.mem_cons_of_mem x hy)
    exact first.bind (others.thenReturn (.pure (x :: xs)))

/-- Up to the end, a reader gives back every value that was written. -/
theorem Takes.toEnd {read : Reader β} {written : α → List UInt8} {value : α → β} {xs : List α}
    (each : ∀ x ∈ xs, Takes read (written x) (value x)) (nonempty : ∀ x, written x ≠ []) :
    read.toEnd (xs.flatMap written) = some (xs.map value) := by
  induction xs with
  | nil =>
    rw [Reader.toEnd]
    rfl
  | cons x xs ih =>
    have first := each x List.mem_cons_self (xs.flatMap written)
    have others := ih fun y mem => each y (List.mem_cons_of_mem x mem)
    have more : written x ++ xs.flatMap written ≠ [] := List.append_ne_nil_of_left_ne_nil (nonempty x) _
    have shorter : (xs.flatMap written).length < (written x ++ xs.flatMap written).length := by
      have := List.length_pos_iff.2 (nonempty x)
      rw [List.length_append]
      omega
    rw [List.flatMap_cons, Reader.toEnd, if_neg more, first]
    simp only [if_pos shorter, others, Option.map_some, List.map_cons]

/-! ### Bytes can be read in one way only -/

theorem Takes.unique {read : Reader α} {front back : List UInt8} {x y : α} {rest behind : List UInt8}
    (h : Takes read front x) (h' : Takes read back y) (same : front ++ rest = back ++ behind) :
    x = y ∧ rest = behind := by
  have left := h rest
  rw [same, h' behind] at left
  obtain ⟨rfl, rfl⟩ := Prod.mk.inj (Option.some.inj left)
  exact ⟨rfl, rfl⟩

/-- A list of values is known from its bytes alone, without the number of the values. -/
theorem eq_of_flatMap_eq {read : Reader α} {written : α → List UInt8} {xs ys : List α}
    (left : ∀ x ∈ xs, Takes read (written x) x) (right : ∀ y ∈ ys, Takes read (written y) y)
    (nonempty : ∀ x, written x ≠ []) (same : xs.flatMap written = ys.flatMap written) : xs = ys := by
  induction xs generalizing ys with
  | nil =>
    cases ys with
    | nil => rfl
    | cons y ys => exact absurd same.symm (by simp [nonempty])
  | cons x xs ih =>
    cases ys with
    | nil => exact absurd same (by simp [nonempty])
    | cons y ys =>
      rw [List.flatMap_cons, List.flatMap_cons] at same
      obtain ⟨rfl, others⟩ := (left x List.mem_cons_self).unique (right y List.mem_cons_self) same
      rw [ih (fun z hz => left z (List.mem_cons_of_mem x hz))
        (fun z hz => right z (List.mem_cons_of_mem x hz)) others]

end WasmBinary.Reader
