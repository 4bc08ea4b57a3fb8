import Mathlib.Data.List.Nodup
import WasmBinary.Symbol

/-! Tables that can be searched in both directions.

A table is `Lawful` when it lists every member and no two members share a name or a code.
Then a look-up finds a member exactly under the name and under the code that it has. -/
namespace WasmBinary

/-- Every member is listed, under a name and a code of its own. -/
class LawfulSymbol (α : Type) [Symbol α] : Prop where
  mem_all : ∀ x : α, x ∈ Symbol.all
  names_nodup : ((Symbol.all : List α).map Symbol.name).Nodup
  codes_nodup : ((Symbol.all : List α).map Symbol.code).Nodup

namespace Symbol
variable {α : Type} [Symbol α] [LawfulSymbol α]

theorem name_injective : Function.Injective (name : α → String) := fun x y same =>
  List.inj_on_of_nodup_map LawfulSymbol.names_nodup (LawfulSymbol.mem_all x) (LawfulSymbol.mem_all y) same

theorem code_injective : Function.Injective (code : α → UInt8) := fun x y same =>
  List.inj_on_of_nodup_map LawfulSymbol.codes_nodup (LawfulSymbol.mem_all x) (LawfulSymbol.mem_all y) same

/-- Searching for what only one member has finds that member. -/
theorem find?_all_eq_some_iff {β : Type} [BEq β] [LawfulBEq β] {f : α → β}
    (injective : Function.Injective f) {key : β} {x : α} :
    (all : List α).find? (fun y => f y == key) = some x ↔ f x = key := by
  constructor
  · intro found
    have hit := List.find?_some found
    exact eq_of_beq hit
  · rintro rfl
    have hits : ((all : List α).find? fun y => f y == f x).isSome :=
      List.find?_isSome.2 ⟨x, LawfulSymbol.mem_all x, beq_iff_eq.2 rfl⟩
    obtain ⟨y, found⟩ := Option.isSome_iff_exists.1 hits
    have hit := List.find?_some found
    rw [found, injective (eq_of_beq hit)]

theorem ofName_eq_ok_iff {key : String} {x : α} : ofName key = .ok x ↔ name x = key := by
  rw [← find?_all_eq_some_iff name_injective, ofName]
  cases (all : List α).find? (fun y => name y == key) <;> simp

theorem ofCode_eq_ok_iff {key : UInt8} {x : α} : ofCode key = .ok x ↔ code x = key := by
  rw [← find?_all_eq_some_iff code_injective, ofCode]
  cases (all : List α).find? (fun y => code y == key) <;> simp

/-- A look-up fails exactly for what no member has. -/
theorem find?_all_eq_none_iff {β : Type} [BEq β] [LawfulBEq β] {f : α → β} {key : β} :
    (all : List α).find? (fun y => f y == key) = none ↔ ∀ x, f x ≠ key := by
  rw [List.find?_eq_none]
  constructor
  · intro none x same
    exact none x (LawfulSymbol.mem_all x) (beq_iff_eq.2 same)
  · intro none x _ hit
    exact none x (beq_iff_eq.1 hit)

theorem ofName_eq_error_iff {key : String} {e : EncodingError} :
    (ofName key : Except EncodingError α) = .error e ↔
      (∀ x : α, name x ≠ key) ∧ e = .unknownName (table α) key := by
  rw [← find?_all_eq_none_iff, ofName]
  cases (all : List α).find? (fun y => name y == key) <;> simp [eq_comm]

theorem ofCode_eq_error_iff {key : UInt8} {e : EncodingError} :
    (ofCode key : Except EncodingError α) = .error e ↔
      (∀ x : α, code x ≠ key) ∧ e = .unknownCode (table α) key := by
  rw [← find?_all_eq_none_iff, ofCode]
  cases (all : List α).find? (fun y => code y == key) <;> simp [eq_comm]

theorem ofCode_code (x : α) : ofCode (code x) = .ok x := ofCode_eq_ok_iff.2 rfl

end Symbol

/-! ### The tables -/

instance : LawfulSymbol SectionKind where
  mem_all x := by cases x <;> decide
  names_nodup := by decide
  codes_nodup := by decide

instance : LawfulSymbol Opcode where
  mem_all x := by cases x <;> decide
  names_nodup := by decide
  codes_nodup := by decide

instance : LawfulSymbol ValueType where
  mem_all x := by cases x <;> decide
  names_nodup := by decide
  codes_nodup := by decide

end WasmBinary
