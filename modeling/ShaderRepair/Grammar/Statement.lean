import ShaderRepair.Grammar.Declaration

/-!
# Statements

The rules for statements and for items, which are declarations or statements. Declarations and
statements may stand side by side, at file scope too.
-/

namespace ShaderRepair

namespace Grammar

open Procedure

/-! ## Conditions and branches -/

/-- A condition, with parentheses around it. -/
def condition : Procedure Tree := do
  leftParen
  let e ← run .expression
  rightParen
  return e

def ifStatement : Procedure Item := do
  let first ← take
  let c ← condition
  let yes ← run .statement
  if ← accept (.kind .else) then
    let no ← run .statement
    return .ifElse (← extentFrom first.mark) c yes no
  else
    return .ifThen (← extentFrom first.mark) c yes

/-- Labels of a switch with the items after them, up to the closing brace. -/
def cases : Procedure (List (Case Nat Tree)) := do
  let s ← next
  match s.kind with
  | .rightBrace | .endOfInput => return []
  | _ =>
    let word ← expect [.kind .case, .kind .default]
    let label ← if s.kind = .case then some <$> run .expression else pure none
    colon
    let body ← run (.items .label)
    let c := .mk (← extentFrom word.mark) label body
    return c :: (← run .cases)

def switchStatement : Procedure Item := do
  let first ← take
  let selector ← condition
  let _ ← expect [.kind .leftBrace]
  let cs ← run .cases
  let _ ← expect [.kind .rightBrace]
  return .switch (← extentFrom first.mark) selector cs

/-! ## Loops -/

def whileStatement : Procedure Item := do
  let first ← take
  let c ← condition
  let body ← run .statement
  return .whileLoop (← extentFrom first.mark) c body

def doStatement : Procedure Item := do
  let first ← take
  let body ← run .statement
  let _ ← expect [.kind .while]
  let c ← condition
  statementEnd
  return .doWhile (← extentFrom first.mark) body c

/-- The first clause of a for statement with its semicolon. -/
def forInit : Procedure (ForInit Nat Tree) := do
  let first ← position
  let s ← next
  let declaration ← .ahead .done
  if s.kind = .semicolon then
    let _ ← take
    return .none
  else if s.kind = .qualifier || declaration then
    let quals ← run (.qualifiers ⟨[], []⟩)
    let type ← typeSpec
    let name ← expect [.kind .identifier]
    let ds ← run (.vars type name)
    let x ← extentFrom first
    clauseEnd
    return .vars x ⟨quals, type, ds⟩
  else
    let e ← run .expression
    let x ← extentFrom first
    clauseEnd
    return .expression x e

/-- The second clause of a for statement with its semicolon. -/
def forCondition : Procedure (Option Tree) := do
  if ← accept (.kind .semicolon) then
    return none
  else
    let e ← run .expression
    clauseEnd
    return some e

/-- The third clause of a for statement with the closing parenthesis; a brace ends it too. -/
def forUpdate : Procedure (Option Tree) := do
  match (← next).kind with
  | .rightParen | .leftBrace =>
    rightParen
    return none
  | _ =>
    let e ← run .expression
    rightParen
    return some e

def forStatement : Procedure Item := do
  let first ← take
  leftParen
  let init ← forInit
  let c ← forCondition
  let update ← forUpdate
  let body ← run .statement
  return .forLoop (← extentFrom first.mark) init c update body

/-! ## Other statements -/

/-- The value has to start on the line of the keyword. -/
def returnStatement : Procedure Item := do
  let first ← take
  let s ← next
  let value ←
    match s.kind with
    | .semicolon | .rightBrace | .endOfInput => pure none
    | _ => if s.broken then pure none else some <$> run .expression
  statementEnd
  return .return (← extentFrom first.mark) value

/-- A statement of one word. -/
def wordStatement (node : Extent Nat → Item) : Procedure Item := do
  let first ← take
  statementEnd
  return node (← extentFrom first.mark)

def statement : Procedure Item := do
  let first ← position
  match (← next).kind with
  | .leftBrace =>
    let (x, body) ← block
    return .block x body
  | .if => ifStatement
  | .switch => switchStatement
  | .for => forStatement
  | .while => whileStatement
  | .do => doStatement
  | .return => returnStatement
  | .break => wordStatement .break
  | .continue => wordStatement .continue
  | .discard => wordStatement .discard
  | .semicolon =>
    let _ ← take
    return .empty (← extentFrom first)
  | _ =>
    let e ← run .expression
    statementEnd
    return .expression (← extentFrom first) e

/-! ## Items -/

/-- A declaration or a statement. An identifier starts a declaration if a name follows it, perhaps
after array dimensions. -/
def item : Procedure Item := do
  let first ← position
  match (← next).kind with
  | .precision => precision
  | .layout | .qualifier => qualified
  | .struct => struct first ⟨[], []⟩
  | .identifier =>
    if ← .ahead .done then typed first ⟨[], []⟩ else run .statement
  | _ => run .statement

def items (stop : Stop) : Procedure (List Item) := do
  if stop.ends (← next) then
    return []
  else
    let n ← run .item
    return n :: (← run (.items stop))

end Grammar

end ShaderRepair
