import Mathlib.Data.List.TakeWhile

/-! The longest front of a list.

Whatever stops at the first member without a property has gone through the longest front on which all
members have it. There is only one, so it is found by going through the list (`leading_iff`) or by
knowing where it stops (`leading_of_stop`). -/
namespace WasmBinary

/-- The longest front of a list on which a property holds throughout. -/
structure Leading {α : Type} (holds : α → Prop) (front list : List α) : Prop where
  start : front <+: list
  each : ∀ x ∈ front, holds x
  longest : ∀ other, other <+: list → (∀ x ∈ other, holds x) → other <+: front

variable {α : Type}

theorem leading_takeWhile (test : α → Bool) (list : List α) :
    Leading (fun x => test x) (list.takeWhile test) list where
  start := List.takeWhile_prefix _
  each _ mem := List.mem_takeWhile_imp mem
  longest := by
    rintro other ⟨rest, rfl⟩ each
    rw [List.takeWhile_append_of_pos each]
    exact List.prefix_append other _

theorem leading_iff {test : α → Bool} {front list : List α} :
    Leading (fun x => test x) front list ↔ list.takeWhile test = front := by
  constructor
  · intro leading
    have whole := leading_takeWhile test list
    have inside := leading.longest _ whole.start whole.each
    have outside := whole.longest _ leading.start leading.each
    exact inside.eq_of_length_le outside.length_le
  · rintro rfl
    exact leading_takeWhile test list

/-- A front on which a property holds is the longest one if it is the whole list or the property does
not hold behind it. -/
theorem leading_of_stop {holds : α → Prop} {front rest : List α} (each : ∀ x ∈ front, holds x)
    (stop : ∀ x, rest.head? = some x → ¬holds x) : Leading holds front (front ++ rest) where
  start := List.prefix_append front rest
  each := each
  longest := by
    intro other start every
    rcases List.prefix_or_prefix_of_prefix start (List.prefix_append front rest) with inside | ⟨more, rfl⟩
    · exact inside
    · obtain ⟨last, whole⟩ := start
      rw [List.append_assoc] at whole
      have same := List.append_cancel_left whole
      cases more with
      | nil => simp
      | cons x more => exact absurd (every x (by simp)) (stop x (by rw [← same]; rfl))

end WasmBinary
