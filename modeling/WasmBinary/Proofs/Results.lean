/-! Steps that may fail, one after the other.

What several steps give together is given exactly when each gives something, so a computation that
went through is taken apart step by step (`bind_eq_ok_iff`). -/
namespace WasmBinary
variable {ε α β : Type}

theorem bind_eq_ok_iff {x : Except ε α} {next : α → Except ε β} {y : β} :
    (x >>= next) = .ok y ↔ ∃ a, x = .ok a ∧ next a = .ok y := by
  cases x with
  | error e => exact iff_of_false nofun nofun
  | ok a => exact ⟨fun h => ⟨a, rfl, h⟩, fun ⟨b, same, h⟩ => Except.ok.inj same ▸ h⟩

theorem map_eq_ok_iff {f : α → β} {x : Except ε α} {y : β} : f <$> x = .ok y ↔ ∃ a, x = .ok a ∧ f a = y := by
  cases x with
  | error e => exact iff_of_false nofun nofun
  | ok a => exact ⟨fun h => ⟨a, rfl, Except.ok.inj h⟩, fun ⟨b, same, h⟩ => by rw [same, ← h]; rfl⟩

/-- Steps that go through one by one go through together. -/
theorem foldlM_ok_of_imp {f g : β → α → Except ε β} (each : ∀ s x t, f s x = .ok t → g s x = .ok t)
    {xs : List α} {s t : β} (h : xs.foldlM f s = .ok t) : xs.foldlM g s = .ok t := by
  induction xs generalizing s with
  | nil => exact h
  | cons x xs ih =>
    rw [List.foldlM_cons, bind_eq_ok_iff] at h ⊢
    obtain ⟨next, first, rest⟩ := h
    exact ⟨next, each s x next first, ih rest⟩

end WasmBinary
