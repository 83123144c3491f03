import ShaderRepair.Tree.Node

/-!
# Modules and the numbering of expressions

A module is what parsing has produced so far: finished items, and between them the loose expressions
of items that could not be finished. Expressions are numbered through the whole module in the order
in which they are completed, operands before what they are operands of. This file contains:
- `Node.slots`, the expressions of a node in source order;
- `Expr.number` and `Node.number`, which put the numbers into the annotations;
- `Module`, its items, its numbered items and the list of all its expressions by number.
-/

namespace ShaderRepair

/-! ## Slots in source order -/

section Slots

variable {μ ε : Type}

def ForInit.slots : ForInit μ ε → List ε
  | .none => []
  | .vars _ v => v.roots
  | .expression _ e => [e]

mutual

/-- All expressions in the slots of a node and of the nodes inside it, in source order. -/
def Node.slots : Node μ ε → List ε
  | .function _ s _ body => s.roots ++ Node.slotsAll body
  | .block _ body => Node.slotsAll body
  | .ifThen _ c yes => c :: Node.slots yes
  | .ifElse _ c yes no => c :: (Node.slots yes ++ Node.slots no)
  | .switch _ e cases => e :: Case.slotsAll cases
  | .forLoop _ init c u body => init.slots ++ c.toList ++ u.toList ++ Node.slots body
  | .whileLoop _ c body => c :: Node.slots body
  | .doWhile _ body c => Node.slots body ++ [c]
  | n => n.roots

def Node.slotsAll : List (Node μ ε) → List ε
  | [] => []
  | n :: more => Node.slots n ++ Node.slotsAll more

def Case.slots : Case μ ε → List ε
  | .mk _ label body => label.toList ++ Node.slotsAll body

def Case.slotsAll : List (Case μ ε) → List ε
  | [] => []
  | c :: more => Case.slots c ++ Case.slotsAll more

end

end Slots

/-! ## Numbering -/

namespace Expr

variable {α : Type}

mutual

/-- Numbers the expressions of a tree from `base` on, operands first. The expression at the top gets
the last number, `base + size - 1`. -/
def number (base : Nat) : Expr α → Expr (Nat × α)
  | .sequence a items => .sequence (base + sizeAll items, a) (numberAll base items)
  | .initializers a items => .initializers (base + sizeAll items, a) (numberAll base items)
  | .conditional a c y n =>
    .conditional (base + c.size + y.size + n.size, a) (number base c)
      (number (base + c.size) y) (number (base + c.size + y.size) n)
  | .binary a family op l r =>
    .binary (base + l.size + r.size, a) family op (number base l) (number (base + l.size) r)
  | .unary a op side e => .unary (base + e.size, a) op side (number base e)
  | .call a callee args =>
    .call (base + callee.size + sizeAll args, a) (number base callee)
      (numberAll (base + callee.size) args)
  | .member a e name => .member (base + e.size, a) (number base e) name
  | .index a e i => .index (base + e.size + i.size, a) (number base e) (number (base + e.size) i)
  | .unsized a e => .unsized (base + e.size, a) (number base e)
  | .identifier a name => .identifier (base, a) name
  | .literal a kind text => .literal (base, a) kind text

def numberAll (base : Nat) : List (Expr α) → List (Expr (Nat × α))
  | [] => []
  | e :: more => number base e :: numberAll (base + e.size) more

end

/-- The number of a numbered expression. -/
def handle (e : Expr (Nat × α)) : Nat :=
  e.note.1

/-- Numbers a tree from the state on, and moves the state behind it. -/
def numberNext (e : Expr α) : StateM Nat (Expr (Nat × α)) :=
  fun base => (e.number base, base + e.size)

end Expr

section Traverse

variable {μ ε η : Type} (f : ε → StateM Nat η)

def traverseOption : Option ε → StateM Nat (Option η)
  | none => pure none
  | some e => return some (← f e)

def LayoutParam.traverse (p : LayoutParam μ ε) : StateM Nat (LayoutParam μ η) :=
  return ⟨p.name, ← traverseOption f p.value⟩

def Qualifiers.traverse (q : Qualifiers μ ε) : StateM Nat (Qualifiers μ η) :=
  return ⟨← q.layout.mapM (LayoutParam.traverse f), q.words⟩

def TypeSpec.traverse (t : TypeSpec μ ε) : StateM Nat (TypeSpec μ η) :=
  return ⟨t.name, ← t.dims.mapM (traverseOption f)⟩

def Declarator.traverse (d : Declarator μ ε) : StateM Nat (Declarator μ η) :=
  return ⟨d.name, ← d.dims.mapM (traverseOption f), ← traverseOption f d.init⟩

def Member.traverse (m : Member μ ε) : StateM Nat (Member μ η) :=
  return ⟨m.extent, ← m.qualifiers.traverse f, ← m.type.traverse f,
    ← m.declarators.mapM (Declarator.traverse f)⟩

def Param.traverse (p : Param μ ε) : StateM Nat (Param μ η) :=
  return ⟨← p.qualifiers.traverse f, ← p.type.traverse f, p.name,
    ← p.dims.mapM (traverseOption f)⟩

def Variables.traverse (v : Variables μ ε) : StateM Nat (Variables μ η) :=
  return ⟨← v.qualifiers.traverse f, ← v.type.traverse f,
    ← v.declarators.mapM (Declarator.traverse f)⟩

def Signature.traverse (s : Signature μ ε) : StateM Nat (Signature μ η) :=
  return ⟨← s.qualifiers.traverse f, ← s.result.traverse f, s.name,
    ← s.params.mapM (Param.traverse f)⟩

def ForInit.traverse : ForInit μ ε → StateM Nat (ForInit μ η)
  | .none => return .none
  | .vars x v => return .vars x (← v.traverse f)
  | .expression x e => return .expression x (← f e)

mutual

/-- Replaces the expressions of a node one after the other, in source order. -/
def Node.traverse : Node μ ε → StateM Nat (Node μ η)
  | .struct x q name ms ds =>
    return .struct x (← q.traverse f) name (← ms.mapM (Member.traverse f))
      (← ds.mapM (Declarator.traverse f))
  | .interface x q name ms ds =>
    return .interface x (← q.traverse f) name (← ms.mapM (Member.traverse f))
      (← ds.mapM (Declarator.traverse f))
  | .vars x v => return .vars x (← v.traverse f)
  | .prototype x s => return .prototype x (← s.traverse f)
  | .function x s y body => return .function x (← s.traverse f) y (← Node.traverseAll body)
  | .precision x word t => return .precision x word (← t.traverse f)
  | .qualifiers x q names => return .qualifiers x (← q.traverse f) names
  | .expression x e => return .expression x (← f e)
  | .empty x => return .empty x
  | .block x body => return .block x (← Node.traverseAll body)
  | .ifThen x c yes => return .ifThen x (← f c) (← Node.traverse yes)
  | .ifElse x c yes no => return .ifElse x (← f c) (← Node.traverse yes) (← Node.traverse no)
  | .switch x e cases => return .switch x (← f e) (← Case.traverseAll cases)
  | .forLoop x init c u body =>
    return .forLoop x (← init.traverse f) (← traverseOption f c) (← traverseOption f u)
      (← Node.traverse body)
  | .whileLoop x c body => return .whileLoop x (← f c) (← Node.traverse body)
  | .doWhile x body c => return .doWhile x (← Node.traverse body) (← f c)
  | .break x => return .break x
  | .continue x => return .continue x
  | .return x value => return .return x (← traverseOption f value)
  | .discard x => return .discard x

def Node.traverseAll : List (Node μ ε) → StateM Nat (List (Node μ η))
  | [] => return []
  | n :: more => return (← Node.traverse n) :: (← Node.traverseAll more)

def Case.traverse : Case μ ε → StateM Nat (Case μ η)
  | .mk x label body => return .mk x (← traverseOption f label) (← Node.traverseAll body)

def Case.traverseAll : List (Case μ ε) → StateM Nat (List (Case μ η))
  | [] => return []
  | c :: more => return (← Case.traverse c) :: (← Case.traverseAll more)

end

end Traverse

/-! ## Modules -/

/-- A piece of a module: a finished item, or the expressions that an unfinished one left behind. -/
inductive Fragment (μ ε : Type) where
  | item (node : Node μ ε)
  | loose (exprs : List ε)
  deriving Repr

namespace Fragment

variable {μ ν ε η : Type}

def map (f : μ → ν) (g : ε → η) : Fragment μ ε → Fragment ν η
  | .item n => .item (n.map f g)
  | .loose es => .loose (es.map g)

def item? : Fragment μ ε → Option (Node μ ε)
  | .item n => some n
  | .loose _ => none

def slots : Fragment μ ε → List ε
  | .item n => n.slots
  | .loose es => es

def traverse (f : ε → StateM Nat η) : Fragment μ ε → StateM Nat (Fragment μ η)
  | .item n => return .item (← n.traverse f)
  | .loose es => return .loose (← es.mapM f)

end Fragment

/-- The pieces of a source in order. -/
abbrev Module (μ ε : Type) := List (Fragment μ ε)

namespace Module

variable {μ ν ε η α : Type}

def mapWith (f : μ → ν) (g : ε → η) (m : Module μ ε) : Module ν η :=
  List.map (Fragment.map f g) m

/-- The finished items. -/
def items (m : Module μ ε) : List (Node μ ε) :=
  List.filterMap Fragment.item? m

/-- The module with the expressions numbered from zero. -/
def numbered (m : Module μ (Expr α)) : Module μ (Expr (Nat × α)) :=
  (List.mapM (Fragment.traverse Expr.numberNext) m |>.run 0).1

/-- All expressions; the one with number `n` stands at place `n`. -/
def arena (m : Module μ (Expr α)) : List (Expr α) :=
  List.flatMap (fun f => f.slots.flatMap Expr.postorder) m

/-- The nodes of a module, outer ones first. -/
def nodes (m : Module μ ε) : List (Node μ ε) :=
  m.items.flatMap Node.within

/-- The expressions of the finished items on the way down from each node. -/
def walk (enter : Expr α → Bool) (m : Module μ (Expr α)) : List (Expr α) :=
  m.nodes.flatMap fun n => n.roots.flatMap (Expr.preorder enter)

end Module

end ShaderRepair
