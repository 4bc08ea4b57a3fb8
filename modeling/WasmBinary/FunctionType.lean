import WasmBinary.Encode

/-! Function types.

Parameters and results lie in one array with the place where the results start, so a
function type is one allocation and either part is a slice of it. -/
namespace WasmBinary

/-- A function signature. -/
structure FunctionType where
  /-- The parameters and then the results. -/
  types : Array ValueType
  /-- How many of them are parameters. -/
  arity : Nat
  arity_le : arity ≤ types.size
deriving DecidableEq

namespace FunctionType

def ofLists (params results : List ValueType) : FunctionType where
  types := params.toArray ++ results
  arity := params.length
  arity_le := by simp

def params (f : FunctionType) : List ValueType := (f.types.extract 0 f.arity).toList

def results (f : FunctionType) : List ValueType := (f.types.extract f.arity f.types.size).toList

end FunctionType

/-- The codes of some value types as a vector of bytes. -/
def frameValueTypes (types : List ValueType) : Bytes :=
  (ByteTree.ofBytes (types.map Symbol.code)).frame

instance : Encode FunctionType where
  encode f out := out.push functionTypeTag ++ frameValueTypes f.params ++ frameValueTypes f.results

end WasmBinary
