import WasmBinary.Decode.Basic
import WasmBinary.Proofs.ByteTree.Leaves
import WasmBinary.Proofs.Decode

/-! Function types.

A function type is known from its parameters and its results, although both lie in one array
(`ofLists_inj`): the place where the results start tells them apart, and it is inside the array
(`slices_ofLists`).

The two halves are written as trees of codes and read as lists of value types. A value type is a
single byte, so that counts leaves here and elements there makes no difference
(`toList_frameValueTypes`). So the same is true of the bytes: they are read back as both halves, and
those of two function types are never confused (`function_types_faithful`). -/
namespace WasmBinary
open Reader Varint

namespace FunctionType

theorem params_append_results (f : FunctionType) : f.params.toArray ++ f.results = f.types := by
  rw [← Array.toList_inj, Array.toList_appendList, params, results, ← Array.toList_append,
    Array.extract_append_extract, Nat.zero_min, Nat.max_eq_right f.arity_le, Array.extract_size]

theorem length_params (f : FunctionType) : f.params.length = f.arity := by
  simp [params, f.arity_le]

/-- A function type is the one of its parameters and its results. -/
theorem ofLists_params_results (f : FunctionType) : ofLists f.params f.results = f := by
  cases f with
  | mk types arity arity_le =>
    simp only [ofLists, params_append_results, length_params]

/-! ### Slices -/

/-- A slice of an array; there is none unless its ends are in order and inside. -/
def slice? (types : Array ValueType) (start stop : Nat) : Option (List ValueType) :=
  if start ≤ stop ∧ stop ≤ types.size then some (types.extract start stop).toList else none

theorem params_ofLists (params results : List ValueType) : (ofLists params results).params = params := by
  simp [FunctionType.params, ofLists]

theorem results_ofLists (params results : List ValueType) : (ofLists params results).results = results := by
  simp [FunctionType.results, ofLists]

/-- Both slices end where they may. -/
theorem slices_ofLists (params results : List ValueType) :
    let f := ofLists params results
    slice? f.types 0 f.arity = some params ∧ slice? f.types f.arity f.types.size = some results := by
  intro f
  have front : f.params = params := params_ofLists params results
  have back : f.results = results := results_ofLists params results
  constructor
  · rw [slice?, if_pos ⟨Nat.zero_le _, f.arity_le⟩]
    exact congrArg some front
  · rw [slice?, if_pos ⟨f.arity_le, Nat.le_refl _⟩]
    exact congrArg some back

/-- Function types are the same if their parameters are and their results are. -/
theorem ofLists_inj {params results params' results' : List ValueType} :
    ofLists params results = ofLists params' results' ↔ params = params' ∧ results = results' := by
  constructor
  · intro same
    have front := congrArg FunctionType.params same
    have back := congrArg FunctionType.results same
    rw [params_ofLists, params_ofLists] at front
    rw [results_ofLists, results_ofLists] at back
    exact ⟨front, back⟩
  · rintro ⟨rfl, rfl⟩
    rfl

end FunctionType

/-! ### Bytes -/

theorem toList_frameValueTypes (types : List ValueType) :
    (frameValueTypes types).toList = encoding types := by
  have codes : types.flatMap encoding = types.map Symbol.code := List.flatMap_pure_eq_map Symbol.code types
  rw [frameValueTypes, ByteTree.frame_eq, ByteTree.flatten_ofBytes, toList_frame, encoding_list, codes]
  simp

theorem encoding_functionType (f : FunctionType) :
    encoding f = functionTypeTag :: (encoding f.params ++ encoding f.results) := by
  rw [← toList_frameValueTypes, ← toList_frameValueTypes]
  simp [encoding, encode]

instance : LawfulEncode FunctionType where
  toList_encode f out := by simp [encoding, encode]

/-- A function type is read back as its tag, its parameters and its results. -/
theorem takes_functionType {f : FunctionType} (params : f.params.length < 2 ^ 64)
    (results : f.results.length < 2 ^ 64) : Takes decode (encoding f) f := by
  have front := takes_vector params fun type _ => recovers_valueType.takes type
  have back := takes_vector results fun type _ => recovers_valueType.takes type
  have whole : Takes (pure (FunctionType.ofLists f.params f.results)) [] f := by
    rw [f.ofLists_params_results]
    exact .pure f
  rw [encoding_functionType]
  exact (Takes.byte functionTypeTag).bind ((Takes.guarded rfl).bind (front.bind (back.thenReturn whole)))

/-- The numbers of parameters and of results have room in a word. -/
def FunctionType.Countable (f : FunctionType) : Prop := f.params.length < 2 ^ 64 ∧ f.results.length < 2 ^ 64

/-- **A function type is its parameters and its results.** Whichever they are, both are slices of its
array. Two function types are the same only if both lists are, so a type that moves from the parameters
to the results makes another one. From its bytes, behind which anything may stand, it is read back, and
the bytes of one function type are never the beginning of those of another. -/
theorem function_types_faithful :
    (∀ params results : List ValueType,
      let f := FunctionType.ofLists params results
      f.params = params ∧ f.results = results ∧ FunctionType.slice? f.types 0 f.arity = some params ∧
        FunctionType.slice? f.types f.arity f.types.size = some results) ∧
    (∀ params results params' results' : List ValueType,
      FunctionType.ofLists params results = FunctionType.ofLists params' results' ↔
        params = params' ∧ results = results') ∧
    (∀ (params : List ValueType) (type : ValueType) (results : List ValueType),
      FunctionType.ofLists (params ++ [type]) results ≠ FunctionType.ofLists params (type :: results)) ∧
    (∀ (params results : List ValueType) (rest : List UInt8), params.length < 2 ^ 64 → results.length < 2 ^ 64 →
      (decode : Reader FunctionType).run (encoding (FunctionType.ofLists params results) ++ rest) =
        some (FunctionType.ofLists params results, rest)) ∧
    (∀ f g : FunctionType, f.Countable → g.Countable → encoding f <+: encoding g → f = g) := by
  refine ⟨fun params results => ?_, fun _ _ _ _ => FunctionType.ofLists_inj, fun params type results same => ?_,
    fun params results rest front back => ?_, fun f g hf hg begins => ?_⟩
  · exact ⟨FunctionType.params_ofLists params results, FunctionType.results_ofLists params results,
      FunctionType.slices_ofLists params results⟩
  · have longer := (FunctionType.ofLists_inj.1 same).1
    simp at longer
  · refine takes_functionType ?_ ?_ rest
    · rwa [FunctionType.params_ofLists]
    · rwa [FunctionType.results_ofLists]
  · obtain ⟨rest, whole⟩ := begins
    rw [← List.append_nil (encoding g)] at whole
    exact ((takes_functionType hf.1 hf.2).unique (takes_functionType hg.1 hg.2) whole).1

/-- The same three value types, divided in two ways, with a byte behind them. -/
theorem function_types_faithful_moved :
    let f := FunctionType.ofLists [.i32, .i64] [.f32]
    let g := FunctionType.ofLists [.i32] [.i64, .f32]
    (f.Countable ∧ g.Countable) ∧ f ≠ g ∧ ¬encoding f <+: encoding g ∧
      (decode : Reader FunctionType).run ([0x60, 0x02, 0x7f, 0x7e, 0x01, 0x7d] ++ [0x60]) = some (f, [0x60]) := by
  intro f g
  have countable : f.Countable ∧ g.Countable := ⟨⟨by decide, by decide⟩, by decide, by decide⟩
  obtain ⟨-, -, moved, read, never⟩ := function_types_faithful
  have different : f ≠ g := moved [.i32] .i64 [.f32]
  have bytes : encoding f = [0x60, 0x02, 0x7f, 0x7e, 0x01, 0x7d] := by decide +kernel
  refine ⟨countable, different, fun begins => different (never f g countable.1 countable.2 begins), ?_⟩
  rw [← bytes]
  exact read [.i32, .i64] [.f32] [0x60] (by decide) (by decide)

end WasmBinary
