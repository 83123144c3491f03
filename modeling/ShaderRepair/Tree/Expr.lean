import ShaderRepair.Token

/-!
# Expressions

Expression trees, with an annotation of any type on every node: where the expression stands in the
source, a number, or nothing at all. Trees that differ in annotations only have the same shape.
Grouping parentheses leave no trace. This file contains:
- `Expr`, with one constructor for each form;
- annotations: reading, replacing and mapping them;
- listing subexpressions, parents first (`preorder`) and children first (`postorder`).
-/

namespace ShaderRepair

/-- The families of binary operators. -/
inductive Family where
  | assignment
  | logical
  | bitwise
  | shift
  | comparison
  | arithmetic
  deriving DecidableEq, Repr

/-- On which side of its operand a unary operator stands. -/
inductive Side where
  | before
  | after
  deriving DecidableEq, Repr

inductive Expr (α : Type) where
  | sequence (note : α) (items : List (Expr α))
  | initializers (note : α) (items : List (Expr α))
  | conditional (note : α) (condition yes no : Expr α)
  | binary (note : α) (family : Family) (op : Text) (left right : Expr α)
  | unary (note : α) (op : Text) (side : Side) (operand : Expr α)
  | call (note : α) (callee : Expr α) (arguments : List (Expr α))
  | member (note : α) (object : Expr α) (name : Text)
  | index (note : α) (object position : Expr α)
  | unsized (note : α) (object : Expr α)
  | identifier (note : α) (name : Text)
  | literal (note : α) (kind : LiteralKind) (text : Text)
  deriving Repr

namespace Expr

variable {α β : Type}

/-! ## Annotations -/

def note : Expr α → α
  | .sequence a _ => a
  | .initializers a _ => a
  | .conditional a _ _ _ => a
  | .binary a _ _ _ _ => a
  | .unary a _ _ _ => a
  | .call a _ _ => a
  | .member a _ _ => a
  | .index a _ _ => a
  | .unsized a _ => a
  | .identifier a _ => a
  | .literal a _ _ => a

/-- Replaces the annotation at the top. -/
def setNote (a : α) : Expr α → Expr α
  | .sequence _ items => .sequence a items
  | .initializers _ items => .initializers a items
  | .conditional _ c y n => .conditional a c y n
  | .binary _ family op l r => .binary a family op l r
  | .unary _ op side e => .unary a op side e
  | .call _ callee args => .call a callee args
  | .member _ e name => .member a e name
  | .index _ e i => .index a e i
  | .unsized _ e => .unsized a e
  | .identifier _ name => .identifier a name
  | .literal _ kind text => .literal a kind text

mutual

/-- Changes every annotation. -/
def map (f : α → β) : Expr α → Expr β
  | .sequence a items => .sequence (f a) (mapAll f items)
  | .initializers a items => .initializers (f a) (mapAll f items)
  | .conditional a c y n => .conditional (f a) (map f c) (map f y) (map f n)
  | .binary a family op l r => .binary (f a) family op (map f l) (map f r)
  | .unary a op side e => .unary (f a) op side (map f e)
  | .call a callee args => .call (f a) (map f callee) (mapAll f args)
  | .member a e name => .member (f a) (map f e) name
  | .index a e i => .index (f a) (map f e) (map f i)
  | .unsized a e => .unsized (f a) (map f e)
  | .identifier a name => .identifier (f a) name
  | .literal a kind text => .literal (f a) kind text

def mapAll (f : α → β) : List (Expr α) → List (Expr β)
  | [] => []
  | e :: more => map f e :: mapAll f more

end

/-! ## Subexpressions -/

/-- The operands, from left to right. -/
def children : Expr α → List (Expr α)
  | .sequence _ items => items
  | .initializers _ items => items
  | .conditional _ c y n => [c, y, n]
  | .binary _ _ _ l r => [l, r]
  | .unary _ _ _ e => [e]
  | .call _ callee args => callee :: args
  | .member _ e _ => [e]
  | .index _ e i => [e, i]
  | .unsized _ e => [e]
  | .identifier _ _ => []
  | .literal _ _ _ => []

mutual

/-- How many expressions there are in a tree. -/
def size : Expr α → Nat
  | .sequence _ items => sizeAll items + 1
  | .initializers _ items => sizeAll items + 1
  | .conditional _ c y n => size c + size y + size n + 1
  | .binary _ _ _ l r => size l + size r + 1
  | .unary _ _ _ e => size e + 1
  | .call _ callee args => size callee + sizeAll args + 1
  | .member _ e _ => size e + 1
  | .index _ e i => size e + size i + 1
  | .unsized _ e => size e + 1
  | .identifier _ _ => 1
  | .literal _ _ _ => 1

def sizeAll : List (Expr α) → Nat
  | [] => 0
  | e :: more => size e + sizeAll more

end

mutual

/-- Every expression of a tree, operands before what they are operands of. -/
def postorder : Expr α → List (Expr α)
  | .sequence a items => postorderAll items ++ [.sequence a items]
  | .initializers a items => postorderAll items ++ [.initializers a items]
  | .conditional a c y n =>
    postorder c ++ postorder y ++ postorder n ++ [.conditional a c y n]
  | .binary a family op l r => postorder l ++ postorder r ++ [.binary a family op l r]
  | .unary a op side e => postorder e ++ [.unary a op side e]
  | .call a callee args => postorder callee ++ postorderAll args ++ [.call a callee args]
  | .member a e name => postorder e ++ [.member a e name]
  | .index a e i => postorder e ++ postorder i ++ [.index a e i]
  | .unsized a e => postorder e ++ [.unsized a e]
  | .identifier a name => [.identifier a name]
  | .literal a kind text => [.literal a kind text]

def postorderAll : List (Expr α) → List (Expr α)
  | [] => []
  | e :: more => postorder e ++ postorderAll more

end

mutual

/-- The expressions met on the way down, an expression before its operands. The operands of an
expression that fails `enter` are left out. -/
def preorder (enter : Expr α → Bool) : Expr α → List (Expr α)
  | .sequence a items =>
    let e := .sequence a items
    e :: if enter e then preorderAll enter items else []
  | .initializers a items =>
    let e := .initializers a items
    e :: if enter e then preorderAll enter items else []
  | .conditional a c y n =>
    let e := .conditional a c y n
    e :: if enter e then preorder enter c ++ preorder enter y ++ preorder enter n else []
  | .binary a family op l r =>
    let e := .binary a family op l r
    e :: if enter e then preorder enter l ++ preorder enter r else []
  | .unary a op side x =>
    let e := .unary a op side x
    e :: if enter e then preorder enter x else []
  | .call a callee args =>
    let e := .call a callee args
    e :: if enter e then preorder enter callee ++ preorderAll enter args else []
  | .member a x name =>
    let e := .member a x name
    e :: if enter e then preorder enter x else []
  | .index a x i =>
    let e := .index a x i
    e :: if enter e then preorder enter x ++ preorder enter i else []
  | .unsized a x =>
    let e := .unsized a x
    e :: if enter e then preorder enter x else []
  | .identifier a name => [.identifier a name]
  | .literal a kind text => [.literal a kind text]

def preorderAll (enter : Expr α → Bool) : List (Expr α) → List (Expr α)
  | [] => []
  | e :: more => preorder enter e ++ preorderAll enter more

end

/-! ## Names of the forms -/

def unaryFamily (op : Text) : Family :=
  if op = Text.ascii "!" then .logical
  else if op = Text.ascii "~" then .bitwise
  else .arithmetic

/-- The name of the form of an expression. -/
def formName : Expr α → Text
  | .sequence _ _ => Text.ascii "Sequence"
  | .initializers _ _ => Text.ascii "InitializerList"
  | .conditional _ _ _ _ => Text.ascii "Conditional"
  | .binary _ .assignment _ _ _ => Text.ascii "Assignment"
  | .binary _ .logical _ _ _ => Text.ascii "Logical"
  | .binary _ .bitwise _ _ _ => Text.ascii "Bitwise"
  | .binary _ .shift _ _ _ => Text.ascii "Shift"
  | .binary _ .comparison _ _ _ => Text.ascii "Comparison"
  | .binary _ .arithmetic _ _ _ => Text.ascii "Arithmetic"
  | .unary _ op _ _ =>
    match unaryFamily op with
    | .logical => Text.ascii "UnaryLogical"
    | .bitwise => Text.ascii "UnaryBitwise"
    | _ => Text.ascii "UnaryArithmetic"
  | .call _ _ _ => Text.ascii "Call"
  | .member _ _ _ => Text.ascii "Member"
  | .index _ _ _ => Text.ascii "Index"
  | .unsized _ _ => Text.ascii "Index"
  | .identifier _ _ => Text.ascii "Ident"
  | .literal _ _ _ => Text.ascii "Literal"

end Expr

end ShaderRepair
