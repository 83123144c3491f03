import ShaderRepair.Tree.Numbering
import ShaderRepair.Typing

/-!
# Tables of types

Typing numbered expressions, operands first, with a table of the types found so far: an expression
that is in the table is not typed again. This file contains:
- `TypeTable`, and `TypeTable.remember`, which consults and extends it;
- `Expr.resolve`, which types an expression and everything in it;
- `Expr.resolveTypes` and `Module.resolve`, the tables of an expression and of a module.
-/

namespace ShaderRepair

/-- Types by the number of the expression. The latest entry comes first. -/
abbrev TypeTable := List (Nat × ValueType)

/-- The entry for a number, or if there is none what `find` answers, which becomes the entry. -/
def TypeTable.remember (number : Nat) (find : StateM TypeTable ValueType) :
    StateM TypeTable ValueType := do
  match (← get).lookup number with
  | some t => return t
  | none =>
    let t ← find
    modify fun table => (number, t) :: table
    return t

namespace Expr

variable {α : Type}

mutual

/-- Types an expression. Its operands get their entries even where it does not depend on them. -/
def resolve : Expr (Nat × α) → StateM TypeTable ValueType
  | .sequence a items => TypeTable.remember a.1 (resolveAll items)
  | .initializers a items => TypeTable.remember a.1 do
    let _ ← resolveAll items
    return .error
  | .conditional a c y n => TypeTable.remember a.1 do
    let _ ← resolve c
    return (← resolve y).common (← resolve n)
  | .binary a family _ l r => TypeTable.remember a.1 do
    return Typing.binary family (← resolve l) (← resolve r)
  | .unary a op _ e => TypeTable.remember a.1 do
    return Typing.unary op (← resolve e)
  | .call a callee args => TypeTable.remember a.1 do
    let _ ← resolve callee
    let _ ← resolveAll args
    return callee.constructed
  | .member a e _ => TypeTable.remember a.1 do
    let _ ← resolve e
    return .error
  | .index a e i => TypeTable.remember a.1 do
    let _ ← resolve e
    let _ ← resolve i
    return .error
  | .unsized a e => TypeTable.remember a.1 do
    let _ ← resolve e
    return .error
  | .identifier a _ => TypeTable.remember a.1 (return .error)
  | .literal a kind _ => TypeTable.remember a.1 (return kind.type)

/-- Types expressions one after the other, and answers with the type of the last one. -/
def resolveAll : List (Expr (Nat × α)) → StateM TypeTable ValueType
  | [] => return .error
  | [e] => resolve e
  | e :: more => do
    let _ ← resolve e
    resolveAll more

end

/-- The types of an expression and of everything in it. -/
def resolveTypes (e : Expr (Nat × α)) : TypeTable :=
  (e.resolve.run []).2

end Expr

/-- The types of what is found in the slots of each node on the way down. -/
def Module.resolve {μ α : Type} (m : Module μ (Expr (Nat × α))) : TypeTable :=
  ((Expr.resolveAll (m.nodes.flatMap Node.roots)).run []).2

end ShaderRepair
