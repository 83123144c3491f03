import ShaderRepair.ValueType

/-!
# The catalog of types

Every type but `error`, in catalog order: void, scalars, vectors by scalar, matrices by scalar,
columns and rows; and finding a type by its name.
-/

namespace ShaderRepair

namespace ValueType

def vectors : List ValueType :=
  Scalar.all.flatMap fun s => Dim.all.map fun n => .vector s n

def matrices : List ValueType :=
  [Floating.float, Floating.double].flatMap fun f =>
    Dim.all.flatMap fun c => Dim.all.map fun r => .matrix f c r

/-- Every scalar, vector and matrix. -/
def values : List ValueType :=
  Scalar.all.map .scalar ++ vectors ++ matrices

def catalog : List ValueType :=
  .void :: values

/-- The type a name spells. -/
def lookup (name : Text) : Option ValueType :=
  catalog.find? fun t => t.names.contains name

/-- Whether a call of `name` builds a value of the type it names. -/
def isConstructorName (name : Text) : Bool :=
  match lookup name with
  | some t => t.isValue
  | none => false

end ValueType

end ShaderRepair
