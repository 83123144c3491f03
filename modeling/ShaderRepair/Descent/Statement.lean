import ShaderRepair.Descent.Declaration
import ShaderRepair.Grammar.Run

/-!
# Descent through statements and items

The rules for statements and items, and the whole parse. This file contains:
- one step for each statement, and for an item;
- `Descent.rules`, all rules with calls nested up to a bound;
- `Descent.parse`, which reads items up to the end of input.
-/

namespace ShaderRepair

namespace Descent

section Bodies

variable (rules : Rules)

/-! ## Conditions and branches -/

def condition : Step Tree := do
  leftParen
  let e ← rules.expression
  rightParen
  return e

def ifStatement : Step Declaration := do
  let first ← take
  let c ← condition rules
  let yes ← rules.statement
  if ← accept (.kind .else) then
    let no ← rules.statement
    return .ifElse (← extentFrom first.mark) c yes no
  else
    return .ifThen (← extentFrom first.mark) c yes

/-- Labels of a switch with the items after them, up to the closing brace. -/
def cases : Step (List (Case Token Tree)) := do
  let t ← peek
  match t.kind with
  | .rightBrace | .endOfInput => return []
  | _ =>
    let word ← expect [.kind .case, .kind .default]
    let label ← if t.kind = .case then some <$> rules.expression else pure none
    colon
    let body ← rules.items .label
    let c := .mk (← extentFrom word.mark) label body
    return c :: (← rules.cases)

def switchStatement : Step Declaration := do
  let first ← take
  let selector ← condition rules
  let _ ← expect [.kind .leftBrace]
  let cs ← rules.cases
  let _ ← expect [.kind .rightBrace]
  return .switch (← extentFrom first.mark) selector cs

/-! ## Loops -/

def whileStatement : Step Declaration := do
  let first ← take
  let c ← condition rules
  let body ← rules.statement
  return .whileLoop (← extentFrom first.mark) c body

def doStatement : Step Declaration := do
  let first ← take
  let body ← rules.statement
  let _ ← expect [.kind .while]
  let c ← condition rules
  statementEnd
  return .doWhile (← extentFrom first.mark) body c

/-- The first clause of a for statement with its semicolon. -/
def forInit : Step (ForInit Token Tree) := do
  let first ← peek
  let declaration ← declares
  if first.kind = .semicolon then
    let _ ← take
    return .none
  else if first.kind = .qualifier || declaration then
    let quals ← rules.qualifiers ⟨[], []⟩
    let type ← typeSpec rules
    let name ← expect [.kind .identifier]
    let ds ← rules.vars type name
    let x ← extentFrom first
    clauseEnd
    return .vars x ⟨quals, type, ds⟩
  else
    let e ← rules.expression
    let x ← extentFrom first
    clauseEnd
    return .expression x e

/-- The second clause of a for statement with its semicolon. -/
def forCondition : Step (Option Tree) := do
  if ← accept (.kind .semicolon) then
    return none
  else
    let e ← rules.expression
    clauseEnd
    return some e

/-- The third clause of a for statement with the closing parenthesis; a brace ends it too. -/
def forUpdate : Step (Option Tree) := do
  match (← peek).kind with
  | .rightParen | .leftBrace =>
    rightParen
    return none
  | _ =>
    let e ← rules.expression
    rightParen
    return some e

def forStatement : Step Declaration := do
  let first ← take
  leftParen
  let init ← forInit rules
  let c ← forCondition rules
  let update ← forUpdate rules
  let body ← rules.statement
  return .forLoop (← extentFrom first.mark) init c update body

/-! ## Other statements -/

/-- The value has to start on the line of the keyword. -/
def returnStatement : Step Declaration := do
  let first ← take
  let t ← peek
  let broken : Bool := (← peekStrict).kind = .lineBreak
  let value ←
    match t.kind with
    | .semicolon | .rightBrace | .endOfInput => pure none
    | _ => if broken then pure none else some <$> rules.expression
  statementEnd
  return .return (← extentFrom first.mark) value

/-- A statement of one word. -/
def wordStatement (node : Extent Token → Declaration) : Step Declaration := do
  let first ← take
  statementEnd
  return node (← extentFrom first.mark)

def statement : Step Declaration := do
  let first ← peek
  match first.kind with
  | .leftBrace =>
    let (x, body) ← block rules
    return .block x body
  | .if => ifStatement rules
  | .switch => switchStatement rules
  | .for => forStatement rules
  | .while => whileStatement rules
  | .do => doStatement rules
  | .return => returnStatement rules
  | .break => wordStatement .break
  | .continue => wordStatement .continue
  | .discard => wordStatement .discard
  | .semicolon =>
    let _ ← take
    return .empty (← extentFrom first)
  | _ =>
    let e ← rules.expression
    statementEnd
    return .expression (← extentFrom first) e

/-! ## Items -/

/-- A declaration or a statement. -/
def item : Step Declaration := do
  let first ← peek
  match first.kind with
  | .precision => precision rules
  | .layout | .qualifier => qualified rules
  | .struct => struct rules first ⟨[], []⟩
  | .identifier =>
    if ← declares then typed rules first ⟨[], []⟩ else rules.statement
  | _ => rules.statement

def items (stop : Grammar.Stop) : Step (List Declaration) := do
  if stop.ends (seen (← peek)) then
    return []
  else
    let n ← rules.item
    return n :: (← rules.items stop)

end Bodies

/-! ## All rules -/

/-- Rules that call the given ones. -/
def Rules.around (rules : Rules) : Rules where
  item := Descent.item rules
  items := Descent.items rules
  statement := Descent.statement rules
  cases := Descent.cases rules
  qualifiers := Descent.qualifiers rules
  layoutParams := Descent.layoutParams rules
  dims := Descent.dims rules
  declarators := Descent.declarators rules
  vars := Descent.vars rules
  members := Descent.members rules
  params := Descent.params rules
  names := Descent.names rules
  expression := Descent.expression rules
  sequence := Descent.sequence rules
  assignment := Descent.assignment rules
  conditional := Descent.conditional rules
  binary := Descent.binary rules
  binaryRest := Descent.binaryRest rules
  unary := Descent.unary rules
  suffixes := Descent.suffixes rules
  arguments := Descent.arguments rules
  primary := Descent.primary rules
  initializer := Descent.initializer rules
  elements := Descent.elements rules

/-- The rules, with calls nested at most `depth` deep. -/
def rules : Nat → Rules
  | 0 => .none
  | depth + 1 => (rules depth).around

/-! ## Parsing -/

/-- A depth of calls that suffices for all tokens. -/
def depth (p : Descent) : Nat :=
  (p.tokens.length + 1) * Grammar.callsPerSymbol

/-- Items up to the end of input, at most `count` of them. -/
def declarations : (count : Nat) → Step (List Declaration)
  | 0 => return []
  | count + 1 => do
    if ← check .endOfInput then
      return []
    else
      let n ← (rules (← get).depth).item
      return n :: (← declarations count)

/-- Everything read, with the edits made on the way, or the error that was met. -/
def parse (p : Descent) : Except ParseError Report :=
  match ((declarations p.tokens.length).run).run p with
  | (.ok ns, q) => .ok ⟨ns.map .item, q.edits, q.tally⟩
  | (.error e, _) => .error e

end Descent

end ShaderRepair
