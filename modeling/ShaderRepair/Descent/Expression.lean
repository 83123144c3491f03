import ShaderRepair.Descent

/-!
# Descent through expressions

The rules for expressions, loosest first, each as the step that reads it. The rules they call are
given.
-/

namespace ShaderRepair

namespace Descent

variable (rules : Rules)

/-! ## From sequences to conditionals -/

def expression : Step Tree := do
  let first ← rules.assignment
  if ← check .comma then
    let more ← rules.sequence
    make first.note.first fun x => .sequence x (first :: more)
  else
    return first

def sequence : Step (List Tree) := do
  if ← accept (.kind .comma) then
    let e ← rules.assignment
    return e :: (← rules.sequence)
  else
    return []

def assignment : Step Tree := do
  let left ← rules.conditional
  if (seen (← peek)).plays .assignment then
    let op ← take
    let right ← rules.assignment
    make left.note.first fun x => .binary x .assignment op.text left right
  else
    return left

def conditional : Step Tree := do
  let condition ← rules.binary .logicalOr
  if (seen (← peek)).plays .conditional then
    let _ ← take
    let yes ← rules.expression
    colon
    let no ← rules.assignment
    make condition.note.first fun x => .conditional x condition yes no
  else
    return condition

/-! ## Operators -/

/-- An operand of the operators of a level. -/
def operand (level : Level) : Step Tree :=
  match level.tighter with
  | some tighter => rules.binary tighter
  | none => rules.unary

def binary (level : Level) : Step Tree := do
  rules.binaryRest level (← operand rules level)

def binaryRest (level : Level) (left : Tree) : Step Tree := do
  if (seen (← peek)).plays level.role then
    let op ← take
    let right ← operand rules level
    let e ← make left.note.first fun x => .binary x level.family op.text left right
    rules.binaryRest level e
  else
    return left

def unary : Step Tree := do
  if (seen (← peek)).plays .unary then
    let op ← take
    let operand ← rules.unary
    make op.mark fun x => .unary x op.text .before operand
  else
    rules.suffixes (← rules.primary)

/-- A parenthesis or an operator behind a line break begins something else. -/
def suffixes (object : Tree) : Step Tree := do
  let first := object.note.first
  let t ← peek
  let onLine : Bool := (← peekStrict).kind ≠ .lineBreak
  if t.kind = .dot then
    let _ ← take
    let name ← expect [.kind .identifier]
    rules.suffixes (← make first fun x => .member x object name.text)
  else if t.kind = .leftBracket then
    let _ ← take
    if ← check .rightBracket then
      let _ ← take
      rules.suffixes (← make first fun x => .unsized x object)
    else
      let position ← rules.expression
      let _ ← expect [.kind .rightBracket]
      rules.suffixes (← make first fun x => .index x object position)
  else if t.kind = .leftParen && onLine then
    let _ ← take
    let arguments ← rules.arguments
    rightParen
    rules.suffixes (← make first fun x => .call x object arguments)
  else if (seen t).plays .trailing && onLine then
    let op ← take
    rules.suffixes (← make first fun x => .unary x op.text .after object)
  else
    return object

/-- Between two arguments on one line a comma may be missing. -/
def arguments : Step (List Tree) := do
  if ← check .rightParen then
    return []
  else
    let e ← rules.assignment
    if ← accept (.kind .comma) then
      return e :: (← rules.arguments)
    else if (seen (← peekStrict)).startsExpression then
      comma
      return e :: (← rules.arguments)
    else
      return [e]

/-! ## Operands -/

/-- Parentheses only widen the extent of what they group. -/
def primary : Step Tree := do
  let t ← peek
  match t.kind with
  | .leftParen =>
    let opening ← take
    let inner ← rules.expression
    rightParen
    return inner.setNote (← extentFrom opening.mark)
  | .literal =>
    let word ← take
    make word.mark fun x => .literal x t.tags.literal word.text
  | .identifier =>
    let word ← take
    make word.mark fun x => .identifier x word.text
  | _ => fail (← peek) [.kind .identifier, .kind .literal, .kind .leftParen]

/-! ## Initializers -/

def initializer : Step Tree := do
  if ← check .leftBrace then
    let opening ← take
    let items ← rules.elements
    let _ ← expect [.kind .rightBrace]
    make opening.mark fun x => .initializers x items
  else
    rules.assignment

/-- Between two elements a comma may be missing, also at a line break. -/
def elements : Step (List Tree) := do
  if ← check .rightBrace then
    return []
  else
    let e ← rules.initializer
    let t ← peek
    if t.kind = .comma || (seen t).startsExpression || t.kind = .leftBrace then
      comma
      return e :: (← rules.elements)
    else
      return [e]

end Descent

end ShaderRepair
