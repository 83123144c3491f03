import ShaderRepair.Tree.Expr

/-!
# Declarations and statements

The items of a shader. A node is parameterised by the marks `μ` that say where a word stands and by
the expressions `ε` in its slots: a parsed node has expression trees there, a numbered one trees
whose expressions carry their numbers. This file contains:
- names, qualifiers, types, declarators, members and parameters;
- `Node`, with one constructor for each kind of declaration and statement;
- mapping marks and expressions;
- the expressions a node holds itself (`roots`) and the nodes inside it (`inspect`).
-/

namespace ShaderRepair

/-- From the first to the last word of a piece of source. -/
structure Extent (μ : Type) where
  first : μ
  last : μ
  deriving DecidableEq, Repr

def Extent.map {μ ν : Type} (f : μ → ν) (x : Extent μ) : Extent ν :=
  ⟨f x.first, f x.last⟩

/-- An identifier or a keyword, with its mark. -/
structure Name (μ : Type) where
  text : Text
  mark : μ
  deriving DecidableEq, Repr

def Name.map {μ ν : Type} (f : μ → ν) (n : Name μ) : Name ν :=
  ⟨n.text, f n.mark⟩

/-- A qualifier keyword of a declaration. -/
structure Qualifier (μ : Type) where
  name : Name μ
  kind : QualifierClass
  deriving DecidableEq, Repr

def Qualifier.map {μ ν : Type} (f : μ → ν) (q : Qualifier μ) : Qualifier ν :=
  ⟨q.name.map f, q.kind⟩

/-! ## Parts of declarations -/

/-- A layout parameter, with its value if it has one. -/
structure LayoutParam (μ ε : Type) where
  name : Name μ
  value : Option ε
  deriving Repr

/-- The layout parameters and the qualifier keywords before a declaration. -/
structure Qualifiers (μ ε : Type) where
  layout : List (LayoutParam μ ε)
  words : List (Qualifier μ)
  deriving Repr

/-- A type name with array dimensions; a dimension may be left open. -/
structure TypeSpec (μ ε : Type) where
  name : Name μ
  dims : List (Option ε)
  deriving Repr

/-- A declared name with array dimensions and perhaps an initializer. -/
structure Declarator (μ ε : Type) where
  name : Name μ
  dims : List (Option ε)
  init : Option ε
  deriving Repr

/-- A line of a struct or an interface block. -/
structure Member (μ ε : Type) where
  extent : Extent μ
  qualifiers : Qualifiers μ ε
  type : TypeSpec μ ε
  declarators : List (Declarator μ ε)
  deriving Repr

structure Param (μ ε : Type) where
  qualifiers : Qualifiers μ ε
  type : TypeSpec μ ε
  name : Option (Name μ)
  dims : List (Option ε)
  deriving Repr

/-- A variable declaration without its semicolon. -/
structure Variables (μ ε : Type) where
  qualifiers : Qualifiers μ ε
  type : TypeSpec μ ε
  declarators : List (Declarator μ ε)
  deriving Repr

/-- A function up to its body. -/
structure Signature (μ ε : Type) where
  qualifiers : Qualifiers μ ε
  result : TypeSpec μ ε
  name : Name μ
  params : List (Param μ ε)
  deriving Repr

/-- The first clause of a for statement. -/
inductive ForInit (μ ε : Type) where
  | none
  | vars (extent : Extent μ) (decl : Variables μ ε)
  | expression (extent : Extent μ) (e : ε)
  deriving Repr

/-! ## Nodes -/

mutual

/-- A declaration or a statement. -/
inductive Node (μ ε : Type) where
  | struct (extent : Extent μ) (qualifiers : Qualifiers μ ε) (name : Option (Name μ))
      (members : List (Member μ ε)) (instances : List (Declarator μ ε))
  | interface (extent : Extent μ) (qualifiers : Qualifiers μ ε) (name : Name μ)
      (members : List (Member μ ε)) (instances : List (Declarator μ ε))
  | vars (extent : Extent μ) (decl : Variables μ ε)
  | prototype (extent : Extent μ) (signature : Signature μ ε)
  | function (extent : Extent μ) (signature : Signature μ ε) (bodyExtent : Extent μ)
      (body : List (Node μ ε))
  | precision (extent : Extent μ) (word : Name μ) (type : TypeSpec μ ε)
  | qualifiers (extent : Extent μ) (qualifiers : Qualifiers μ ε) (names : List (Name μ))
  | expression (extent : Extent μ) (e : ε)
  | empty (extent : Extent μ)
  | block (extent : Extent μ) (body : List (Node μ ε))
  | ifThen (extent : Extent μ) (condition : ε) (yes : Node μ ε)
  | ifElse (extent : Extent μ) (condition : ε) (yes no : Node μ ε)
  | switch (extent : Extent μ) (selector : ε) (cases : List (Case μ ε))
  | forLoop (extent : Extent μ) (init : ForInit μ ε) (condition update : Option ε)
      (body : Node μ ε)
  | whileLoop (extent : Extent μ) (condition : ε) (body : Node μ ε)
  | doWhile (extent : Extent μ) (body : Node μ ε) (condition : ε)
  | break (extent : Extent μ)
  | continue (extent : Extent μ)
  | return (extent : Extent μ) (value : Option ε)
  | discard (extent : Extent μ)
  deriving Repr

/-- A label of a switch, none for the default one, and the items after it. -/
inductive Case (μ ε : Type) where
  | mk (extent : Extent μ) (label : Option ε) (body : List (Node μ ε))
  deriving Repr

end

/-! ## Mapping -/

section Map

variable {μ ν ε η : Type} (f : μ → ν) (g : ε → η)

def LayoutParam.map (p : LayoutParam μ ε) : LayoutParam ν η :=
  ⟨p.name.map f, p.value.map g⟩

def Qualifiers.map (q : Qualifiers μ ε) : Qualifiers ν η :=
  ⟨q.layout.map (LayoutParam.map f g), q.words.map (Qualifier.map f)⟩

def TypeSpec.map (t : TypeSpec μ ε) : TypeSpec ν η :=
  ⟨t.name.map f, t.dims.map (Option.map g)⟩

def Declarator.map (d : Declarator μ ε) : Declarator ν η :=
  ⟨d.name.map f, d.dims.map (Option.map g), d.init.map g⟩

def Member.map (m : Member μ ε) : Member ν η :=
  ⟨m.extent.map f, m.qualifiers.map f g, m.type.map f g, m.declarators.map (Declarator.map f g)⟩

def Param.map (p : Param μ ε) : Param ν η :=
  ⟨p.qualifiers.map f g, p.type.map f g, p.name.map (Name.map f), p.dims.map (Option.map g)⟩

def Variables.map (v : Variables μ ε) : Variables ν η :=
  ⟨v.qualifiers.map f g, v.type.map f g, v.declarators.map (Declarator.map f g)⟩

def Signature.map (s : Signature μ ε) : Signature ν η :=
  ⟨s.qualifiers.map f g, s.result.map f g, s.name.map f, s.params.map (Param.map f g)⟩

def ForInit.map : ForInit μ ε → ForInit ν η
  | .none => .none
  | .vars x v => .vars (x.map f) (v.map f g)
  | .expression x e => .expression (x.map f) (g e)

mutual

/-- Changes marks and expressions. -/
def Node.map : Node μ ε → Node ν η
  | .struct x q name ms ds =>
    .struct (x.map f) (q.map f g) (name.map (Name.map f)) (ms.map (Member.map f g))
      (ds.map (Declarator.map f g))
  | .interface x q name ms ds =>
    .interface (x.map f) (q.map f g) (name.map f) (ms.map (Member.map f g))
      (ds.map (Declarator.map f g))
  | .vars x v => .vars (x.map f) (v.map f g)
  | .prototype x s => .prototype (x.map f) (s.map f g)
  | .function x s y body => .function (x.map f) (s.map f g) (y.map f) (Node.mapAll body)
  | .precision x word t => .precision (x.map f) (word.map f) (t.map f g)
  | .qualifiers x q names => .qualifiers (x.map f) (q.map f g) (names.map (Name.map f))
  | .expression x e => .expression (x.map f) (g e)
  | .empty x => .empty (x.map f)
  | .block x body => .block (x.map f) (Node.mapAll body)
  | .ifThen x c yes => .ifThen (x.map f) (g c) (Node.map yes)
  | .ifElse x c yes no => .ifElse (x.map f) (g c) (Node.map yes) (Node.map no)
  | .switch x e cases => .switch (x.map f) (g e) (Case.mapAll cases)
  | .forLoop x init c u body =>
    .forLoop (x.map f) (init.map f g) (c.map g) (u.map g) (Node.map body)
  | .whileLoop x c body => .whileLoop (x.map f) (g c) (Node.map body)
  | .doWhile x body c => .doWhile (x.map f) (Node.map body) (g c)
  | .break x => .break (x.map f)
  | .continue x => .continue (x.map f)
  | .return x value => .return (x.map f) (value.map g)
  | .discard x => .discard (x.map f)

def Node.mapAll : List (Node μ ε) → List (Node ν η)
  | [] => []
  | n :: more => Node.map n :: Node.mapAll more

def Case.map : Case μ ε → Case ν η
  | .mk x label body => .mk (x.map f) (label.map g) (Node.mapAll body)

def Case.mapAll : List (Case μ ε) → List (Case ν η)
  | [] => []
  | c :: more => Case.map c :: Case.mapAll more

end

end Map

/-! ## What a node holds -/

section Roots

variable {μ ε : Type}

def LayoutParam.roots (p : LayoutParam μ ε) : List ε :=
  p.value.toList

def Qualifiers.roots (q : Qualifiers μ ε) : List ε :=
  q.layout.flatMap LayoutParam.roots

def TypeSpec.roots (t : TypeSpec μ ε) : List ε :=
  t.dims.filterMap id

def Declarator.roots (d : Declarator μ ε) : List ε :=
  d.dims.filterMap id ++ d.init.toList

def Member.roots (m : Member μ ε) : List ε :=
  m.qualifiers.roots ++ m.type.roots ++ m.declarators.flatMap Declarator.roots

def Param.roots (p : Param μ ε) : List ε :=
  p.qualifiers.roots ++ p.type.roots ++ p.dims.filterMap id

def Variables.roots (v : Variables μ ε) : List ε :=
  v.qualifiers.roots ++ v.type.roots ++ v.declarators.flatMap Declarator.roots

def Signature.roots (s : Signature μ ε) : List ε :=
  s.qualifiers.roots ++ s.result.roots ++ s.params.flatMap Param.roots

def Case.label : Case μ ε → Option ε
  | .mk _ label _ => label

def Case.extent : Case μ ε → Extent μ
  | .mk x _ _ => x

def Case.body : Case μ ε → List (Node μ ε)
  | .mk _ _ body => body

/-- The node that the first clause of a for statement stands for. -/
def ForInit.node? : ForInit μ ε → Option (Node μ ε)
  | .none => .none
  | .vars x v => some (.vars x v)
  | .expression x e => some (.expression x e)

namespace Node

def extent : Node μ ε → Extent μ
  | .struct x _ _ _ _ => x
  | .interface x _ _ _ _ => x
  | .vars x _ => x
  | .prototype x _ => x
  | .function x _ _ _ => x
  | .precision x _ _ => x
  | .qualifiers x _ _ => x
  | .expression x _ => x
  | .empty x => x
  | .block x _ => x
  | .ifThen x _ _ => x
  | .ifElse x _ _ _ => x
  | .switch x _ _ => x
  | .forLoop x _ _ _ _ => x
  | .whileLoop x _ _ => x
  | .doWhile x _ _ => x
  | .break x => x
  | .continue x => x
  | .return x _ => x
  | .discard x => x

/-- The expressions in a node's own slots, not those of the nodes inside it. -/
def roots : Node μ ε → List ε
  | .struct _ q _ ms ds => q.roots ++ ms.flatMap Member.roots ++ ds.flatMap Declarator.roots
  | .interface _ q _ ms ds => q.roots ++ ms.flatMap Member.roots ++ ds.flatMap Declarator.roots
  | .vars _ v => v.roots
  | .prototype _ s => s.roots
  | .function _ s _ _ => s.roots
  | .precision _ _ t => t.roots
  | .qualifiers _ q _ => q.roots
  | .expression _ e => [e]
  | .empty _ => []
  | .block _ _ => []
  | .ifThen _ c _ => [c]
  | .ifElse _ c _ _ => [c]
  | .switch _ e cases => e :: cases.filterMap Case.label
  | .forLoop _ _ c u _ => c.toList ++ u.toList
  | .whileLoop _ c _ => [c]
  | .doWhile _ _ c => [c]
  | .break _ => []
  | .continue _ => []
  | .return _ value => value.toList
  | .discard _ => []

mutual

/-- A node and the nodes inside it, outer ones first. What is inside a node that fails `enter` is
left out. -/
def inspect (enter : Node μ ε → Bool) : Node μ ε → List (Node μ ε)
  | .function x s y body =>
    let n := .function x s y body
    let b := .block y body
    n :: if enter n then b :: (if enter b then inspectAll enter body else []) else []
  | .block x body =>
    let n := .block x body
    n :: if enter n then inspectAll enter body else []
  | .ifThen x c yes =>
    let n := .ifThen x c yes
    n :: if enter n then inspect enter yes else []
  | .ifElse x c yes no =>
    let n := .ifElse x c yes no
    n :: if enter n then inspect enter yes ++ inspect enter no else []
  | .switch x e cases =>
    let n := .switch x e cases
    n :: if enter n then inspectCases enter cases else []
  | .forLoop x init c u body =>
    let n := .forLoop x init c u body
    n :: if enter n then init.node?.toList ++ inspect enter body else []
  | .whileLoop x c body =>
    let n := .whileLoop x c body
    n :: if enter n then inspect enter body else []
  | .doWhile x body c =>
    let n := .doWhile x body c
    n :: if enter n then inspect enter body else []
  | n => [n]

def inspectAll (enter : Node μ ε → Bool) : List (Node μ ε) → List (Node μ ε)
  | [] => []
  | n :: more => inspect enter n ++ inspectAll enter more

def inspectCase (enter : Node μ ε → Bool) : Case μ ε → List (Node μ ε)
  | .mk _ _ body => inspectAll enter body

def inspectCases (enter : Node μ ε → Bool) : List (Case μ ε) → List (Node μ ε)
  | [] => []
  | c :: more => inspectCase enter c ++ inspectCases enter more

end

/-- A node and all nodes inside it. -/
def within (n : Node μ ε) : List (Node μ ε) :=
  inspect (fun _ => true) n

/-- The name of the kind of node. -/
def kindName : Node μ ε → Text
  | .struct _ _ _ _ _ => Text.ascii "StructDecl"
  | .interface _ _ _ _ _ => Text.ascii "InterfaceDecl"
  | .vars _ _ => Text.ascii "VarDecl"
  | .prototype _ _ => Text.ascii "FunctionDecl"
  | .function _ _ _ _ => Text.ascii "FunctionDecl"
  | .precision _ _ _ => Text.ascii "PrecisionDecl"
  | .qualifiers _ _ _ => Text.ascii "QualifierDecl"
  | .expression _ _ => Text.ascii "ExprStmt"
  | .empty _ => Text.ascii "EmptyStmt"
  | .block _ _ => Text.ascii "BlockStmt"
  | .ifThen _ _ _ => Text.ascii "IfStmt"
  | .ifElse _ _ _ _ => Text.ascii "IfStmt"
  | .switch _ _ _ => Text.ascii "SwitchStmt"
  | .forLoop _ _ _ _ _ => Text.ascii "ForStmt"
  | .whileLoop _ _ _ => Text.ascii "WhileStmt"
  | .doWhile _ _ _ => Text.ascii "DoWhileStmt"
  | .break _ => Text.ascii "BreakStmt"
  | .continue _ => Text.ascii "ContinueStmt"
  | .return _ _ => Text.ascii "ReturnStmt"
  | .discard _ => Text.ascii "DiscardStmt"

end Node

end Roots

end ShaderRepair
