import ShaderRepair.Session
import ShaderRepair.Text.Blank

/-!
# Outlines

Text that shows the structure of a tree. Expressions are written in operator-first notation with
every grouping explicit; items take one line each, indented by their depth. This file contains:
- `Expr.format`, and `Expr.write`, which puts it in front of another text;
- the text of qualifiers, types, declarators and parameters;
- `Node.outline` and `Module.outline`.
-/

namespace ShaderRepair

open Text (ascii)

/-! ## Expressions -/

namespace Expr

variable {α : Type}

mutual

/-- Puts an expression in front of a text: operator first, in parentheses. Only a trailing operator
stands behind its operand. -/
def write : Expr α → Text → Text
  | .sequence _ items, tail => ascii "(," ++ writeAll items (ascii ")" ++ tail)
  | .initializers _ items, tail => ascii "\x7b" ++ writeWords items (ascii "\x7d" ++ tail)
  | .conditional _ c y n, tail =>
    ascii "(? " ++ write c (ascii " " ++ write y (ascii " " ++ write n (ascii ")" ++ tail)))
  | .binary _ _ op l r, tail =>
    ascii "(" ++ (op ++ (ascii " " ++ write l (ascii " " ++ write r (ascii ")" ++ tail))))
  | .unary _ op .before e, tail =>
    ascii "(" ++ (op ++ (ascii " " ++ write e (ascii ")" ++ tail)))
  | .unary _ op .after e, tail =>
    ascii "(" ++ write e (ascii " " ++ (op ++ (ascii ")" ++ tail)))
  | .call _ callee args, tail =>
    ascii "(call " ++ write callee (writeAll args (ascii ")" ++ tail))
  | .member _ e name, tail =>
    ascii "(. " ++ write e (ascii " " ++ (name ++ (ascii ")" ++ tail)))
  | .index _ e i, tail =>
    ascii "([] " ++ write e (ascii " " ++ write i (ascii ")" ++ tail))
  | .unsized _ e, tail => ascii "([] " ++ write e (ascii ")" ++ tail)
  | .identifier _ name, tail => name ++ tail
  | .literal _ _ text, tail => text ++ tail

/-- Puts expressions in front of a text, with a space before each. -/
def writeAll : List (Expr α) → Text → Text
  | [], tail => tail
  | e :: more, tail => ascii " " ++ write e (writeAll more tail)

/-- Puts expressions in front of a text, with a space between neighbours. -/
def writeWords : List (Expr α) → Text → Text
  | [], tail => tail
  | e :: more, tail => write e (writeAll more tail)

end

/-- An expression in operator-first notation. -/
def format (e : Expr α) : Text :=
  write e []

/-- An expression that may be absent. -/
def formatOption : Option (Expr α) → Text
  | none => ascii "_"
  | some e => e.format

end Expr

/-! ## Parts of declarations -/

section Parts

variable {μ α : Type}

def formatDims (dims : List (Option (Expr α))) : Text :=
  dims.flatMap fun d =>
    match d with
    | none => ascii "[]"
    | some e => ascii "[" ++ (e.format ++ ascii "]")

def TypeSpec.format (t : TypeSpec μ (Expr α)) : Text :=
  t.name.text ++ formatDims t.dims

def LayoutParam.format (p : LayoutParam μ (Expr α)) : Text :=
  match p.value with
  | none => p.name.text
  | some e => p.name.text ++ (ascii "=" ++ e.format)

/-- The layout first, then the keywords, with a space behind each. -/
def Qualifiers.format (q : Qualifiers μ (Expr α)) : Text :=
  let layout :=
    if q.layout.isEmpty then []
    else ascii "layout(" ++ Text.join (ascii ", ") (q.layout.map LayoutParam.format) ++ ascii ") "
  layout ++ q.words.flatMap fun w => w.name.text ++ ascii " "

def Declarator.format (d : Declarator μ (Expr α)) : Text :=
  let init :=
    match d.init with
    | none => []
    | some e => ascii " = " ++ e.format
  d.name.text ++ (formatDims d.dims ++ init)

def formatDeclarators (ds : List (Declarator μ (Expr α))) : Text :=
  Text.join (ascii ", ") (ds.map Declarator.format)

def formatName (name : Option (Name μ)) : Text :=
  match name with
  | none => []
  | some n => n.text

def Param.format (p : Param μ (Expr α)) : Text :=
  Text.strip
    (p.qualifiers.format ++ p.type.format ++ ascii " " ++ formatName p.name ++ formatDims p.dims)

def Variables.format (v : Variables μ (Expr α)) : Text :=
  v.qualifiers.format ++ v.type.format ++ ascii " " ++ formatDeclarators v.declarators

def Signature.format (s : Signature μ (Expr α)) : Text :=
  s.qualifiers.format ++ s.result.format ++ ascii " " ++ s.name.text ++ ascii "(" ++
    Text.join (ascii ", ") (s.params.map Param.format) ++ ascii ")"

end Parts

/-! ## Items -/

section Items

variable {μ α : Type}

/-- A line at a depth, two spaces a level. -/
def outlineLine (depth : Nat) (text : Text) : Text :=
  List.replicate (2 * depth) 32 ++ (text ++ ascii "\n")

def Member.outline (depth : Nat) (m : Member μ (Expr α)) : Text :=
  outlineLine depth
    (ascii "Member " ++ m.qualifiers.format ++ m.type.format ++ ascii " " ++
      formatDeclarators m.declarators)

/-- A struct or an interface block. -/
def outlineFields (depth : Nat) (head : Text) (members : List (Member μ (Expr α)))
    (instances : List (Declarator μ (Expr α))) : Text :=
  outlineLine depth head ++
    members.flatMap (Member.outline (depth + 1)) ++
    if instances.isEmpty then []
    else outlineLine (depth + 1) (ascii "Instances " ++ formatDeclarators instances)

def ForInit.outline (depth : Nat) : ForInit μ (Expr α) → Text
  | .none => []
  | .vars _ v => outlineLine depth (ascii "VarDecl " ++ v.format)
  | .expression _ e => outlineLine depth (ascii "ExprStmt " ++ e.format)

mutual

/-- The lines of an item at a depth. -/
def Node.outline (depth : Nat) : Node μ (Expr α) → Text
  | .struct _ q name ms ds =>
    outlineFields depth (ascii "StructDecl " ++ q.format ++ formatName name) ms ds
  | .interface _ q name ms ds =>
    outlineFields depth (ascii "InterfaceDecl " ++ q.format ++ name.text) ms ds
  | .vars _ v => outlineLine depth (ascii "VarDecl " ++ v.format)
  | .prototype _ s => outlineLine depth (ascii "FunctionPrototype " ++ s.format)
  | .function _ s _ body =>
    outlineLine depth (ascii "FunctionDecl " ++ s.format) ++ Node.outlineAll (depth + 1) body
  | .precision _ word t =>
    outlineLine depth (ascii "PrecisionDecl " ++ word.text ++ ascii " " ++ t.format)
  | .qualifiers _ q names =>
    outlineLine depth
      (ascii "QualifierDecl " ++ q.format ++ Text.join (ascii ", ") (names.map Name.text))
  | .expression _ e => outlineLine depth (ascii "ExprStmt " ++ e.format)
  | .empty _ => outlineLine depth (ascii "EmptyStmt")
  | .block _ body => outlineLine depth (ascii "BlockStmt") ++ Node.outlineAll (depth + 1) body
  | .ifThen _ c yes =>
    outlineLine depth (ascii "IfStmt " ++ c.format) ++ Node.outline (depth + 1) yes
  | .ifElse _ c yes no =>
    outlineLine depth (ascii "IfStmt " ++ c.format) ++ Node.outline (depth + 1) yes ++
      (outlineLine depth (ascii "Else") ++ Node.outline (depth + 1) no)
  | .switch _ e cases =>
    outlineLine depth (ascii "SwitchStmt " ++ e.format) ++ Case.outlineAll (depth + 1) cases
  | .forLoop _ init c u body =>
    outlineLine depth
        (ascii "ForStmt " ++ Expr.formatOption c ++ ascii "; " ++ Expr.formatOption u) ++
      (init.outline (depth + 1) ++ Node.outline (depth + 1) body)
  | .whileLoop _ c body =>
    outlineLine depth (ascii "WhileStmt " ++ c.format) ++ Node.outline (depth + 1) body
  | .doWhile _ body c =>
    outlineLine depth (ascii "DoWhileStmt " ++ c.format) ++ Node.outline (depth + 1) body
  | .break _ => outlineLine depth (ascii "BreakStmt")
  | .continue _ => outlineLine depth (ascii "ContinueStmt")
  | .return _ none => outlineLine depth (ascii "ReturnStmt")
  | .return _ (some e) => outlineLine depth (ascii "ReturnStmt " ++ e.format)
  | .discard _ => outlineLine depth (ascii "DiscardStmt")

def Node.outlineAll (depth : Nat) : List (Node μ (Expr α)) → Text
  | [] => []
  | n :: more => Node.outline depth n ++ Node.outlineAll depth more

def Case.outline (depth : Nat) : Case μ (Expr α) → Text
  | .mk _ none body => outlineLine depth (ascii "Default") ++ Node.outlineAll (depth + 1) body
  | .mk _ (some e) body =>
    outlineLine depth (ascii "Case " ++ e.format) ++ Node.outlineAll (depth + 1) body

def Case.outlineAll (depth : Nat) : List (Case μ (Expr α)) → Text
  | [] => []
  | c :: more => Case.outline depth c ++ Case.outlineAll depth more

end

/-- The lines of all finished items. -/
def Module.outline (m : Module μ (Expr α)) : Text :=
  Node.outlineAll 0 m.items

end Items

end ShaderRepair
