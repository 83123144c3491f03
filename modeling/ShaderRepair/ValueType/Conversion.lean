import ShaderRepair.ValueType.Catalog

/-!
# Conversions

A value converts without being asked to the scalars above its own on the ladder int, uint, float,
double, and keeps its shape. A constructor call converts any value to any other.
-/

namespace ShaderRepair

namespace Scalar

/-- The scalars a scalar turns into by itself, itself first. -/
def ladder : Scalar → List Scalar
  | .bool => [.bool]
  | .int => [.int, .uint, .float, .double]
  | .uint => [.uint, .float, .double]
  | .float => [.float, .double]
  | .double => [.double]

end Scalar

namespace Base

def ladder : Base → List Base
  | .error => []
  | .void => [.void]
  | .scalar s => s.ladder.map .scalar

end Base

namespace ValueType

/-- The types `t` turns into by itself, `t` first. -/
def implicitConversions (t : ValueType) : List ValueType :=
  (t.base.ladder.map t.withBase).filter fun c => !c.isError

def implicitlyConvertible (source target : ValueType) : Bool :=
  !source.isError && !target.isError && source.implicitConversions.contains target

/-- The type both operands turn into: the higher-ranked one, if the other converts to it. -/
def common (a b : ValueType) : ValueType :=
  if a.isError || b.isError then .error
  else
    let (high, low) := if a.rank > b.rank then (a, b) else (b, a)
    if low.implicitlyConvertible high then high else .error

/-- The types a constructor call makes of a value. -/
def explicitConversions (t : ValueType) : List ValueType :=
  if t.isValue then values else []

def explicitlyConvertible (source target : ValueType) : Bool :=
  source.isValue && target.isValue

end ValueType

end ShaderRepair
