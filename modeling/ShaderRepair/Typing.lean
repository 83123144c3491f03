import ShaderRepair.Tree.Expr
import ShaderRepair.ValueType.Conversion

/-!
# Typing

The type of an expression, as far as literals and constructor calls determine it. Names, members and
elements have no known type, so `error` spreads through everything computed from them, except that
comparisons and logical operators always give a `bool`.
-/

namespace ShaderRepair

namespace Typing

/-- `t` if it belongs to a class. -/
def provided (member : ValueType → Bool) (t : ValueType) : ValueType :=
  if member t then t else .error

/-- A binary operation. A shift has the type of its left operand; nobody asks for the value of an
assignment. -/
def binary (family : Family) (left right : ValueType) : ValueType :=
  match family with
  | .assignment => .error
  | .logical => .scalar .bool
  | .comparison => .scalar .bool
  | .bitwise => provided ValueType.isInteger (left.common right)
  | .shift => if left.isInteger && right.isInteger then left else .error
  | .arithmetic => provided ValueType.isNumeric (left.common right)

def unary (op : Text) (operand : ValueType) : ValueType :=
  match Expr.unaryFamily op with
  | .logical => provided ValueType.isBool operand
  | .bitwise => provided ValueType.isInteger operand
  | _ => provided ValueType.isNumeric operand

end Typing

namespace Expr

variable {α : Type}

/-- The type that a call of this expression constructs. -/
def constructed : Expr α → ValueType
  | .identifier _ name => Typing.provided ValueType.isValue ((ValueType.lookup name).getD .error)
  | _ => .error

mutual

/-- The type of an expression. -/
def type : Expr α → ValueType
  | .sequence _ items => typeLast items
  | .initializers _ _ => .error
  | .conditional _ _ yes no => (type yes).common (type no)
  | .binary _ family _ left right => Typing.binary family (type left) (type right)
  | .unary _ op _ operand => Typing.unary op (type operand)
  | .call _ callee _ => callee.constructed
  | .member _ _ _ => .error
  | .index _ _ _ => .error
  | .unsized _ _ => .error
  | .identifier _ _ => .error
  | .literal _ kind _ => kind.type

/-- A sequence has the type of its last expression. -/
def typeLast : List (Expr α) → ValueType
  | [] => .error
  | [e] => type e
  | _ :: more => typeLast more

end

/-- Whether an initializer has to be converted for a variable of the named type: a constructor call
can do it, and it does not happen by itself. -/
def needsConversion (typeName : Text) (e : Expr α) : Bool :=
  match ValueType.lookup typeName with
  | some declared => !e.type.implicitlyConvertible declared && e.type.explicitlyConvertible declared
  | none => false

end Expr

end ShaderRepair
