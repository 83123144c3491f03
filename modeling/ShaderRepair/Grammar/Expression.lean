import ShaderRepair.Grammar.Procedure
import ShaderRepair.Typing

/-!
# Expressions

The rules for expressions, loosest first: sequences, assignments, conditionals, the ladder of binary
operators, unary operators, what may trail an operand, and the operands themselves. A line break
before an opening parenthesis or a trailing operator ends the expression.
-/

namespace ShaderRepair

namespace Grammar

open Procedure

/-! ## From sequences to conditionals -/

def expression : Procedure Tree := do
  let first ← run .assignment
  if (← next).kind = .comma then
    let more ← run .sequence
    make first.note.first fun x => .sequence x (first :: more)
  else
    return first

def sequence : Procedure (List Tree) := do
  if ← accept (.kind .comma) then
    let e ← run .assignment
    return e :: (← run .sequence)
  else
    return []

/-- Assignments group to the right. -/
def assignment : Procedure Tree := do
  let left ← run .conditional
  if (← next).plays .assignment then
    let op ← take
    let right ← run .assignment
    make left.note.first fun x => .binary x .assignment op.text left right
  else
    return left

def conditional : Procedure Tree := do
  let condition ← run (.binary .logicalOr)
  if (← next).plays .conditional then
    let _ ← take
    let yes ← run .expression
    colon
    let no ← run .assignment
    make condition.note.first fun x => .conditional x condition yes no
  else
    return condition

/-! ## Operators -/

def binary (level : Level) : Procedure Tree := do
  let left ←
    match level.tighter with
    | some tighter => run (.binary tighter)
    | none => run .unary
  run (.binaryRest level left)

/-- Binary operators group to the left. -/
def binaryRest (level : Level) (left : Tree) : Procedure Tree := do
  if (← next).plays level.role then
    let op ← take
    let right ←
      match level.tighter with
      | some tighter => run (.binary tighter)
      | none => run .unary
    let e ← make left.note.first fun x => .binary x level.family op.text left right
    run (.binaryRest level e)
  else
    return left

def unary : Procedure Tree := do
  if (← next).plays .unary then
    let op ← take
    let operand ← run .unary
    make op.mark fun x => .unary x op.text .before operand
  else
    let object ← run .primary
    run (.suffixes object)

def suffixes (object : Tree) : Procedure Tree := do
  let first := object.note.first
  let s ← next
  if s.kind = .dot then
    let _ ← take
    let name ← expect [.kind .identifier]
    run (.suffixes (← make first fun x => .member x object name.text))
  else if s.kind = .leftBracket then
    let _ ← take
    if (← next).kind = .rightBracket then
      let _ ← take
      run (.suffixes (← make first fun x => .unsized x object))
    else
      let position ← run .expression
      let _ ← expect [.kind .rightBracket]
      run (.suffixes (← make first fun x => .index x object position))
  else if s.kind = .leftParen && !s.broken then
    let _ ← take
    let arguments ← run .arguments
    rightParen
    run (.suffixes (← make first fun x => .call x object arguments))
  else if s.plays .trailing && !s.broken then
    let op ← take
    run (.suffixes (← make first fun x => .unary x op.text .after object))
  else
    return object

/-- Arguments up to a closing parenthesis. Between two of them on one line a comma may be
missing. -/
def arguments : Procedure (List Tree) := do
  if (← next).kind = .rightParen then
    return []
  else
    let e ← run .assignment
    if ← accept (.kind .comma) then
      return e :: (← run .arguments)
    else
      let s ← next
      if s.startsExpression && !s.broken then
        comma
        return e :: (← run .arguments)
      else
        return [e]

/-! ## Operands -/

/-- A parenthesised expression is the inner one, with a wider extent. -/
def primary : Procedure Tree := do
  let s ← next
  match s.kind with
  | .leftParen =>
    let opening ← take
    let inner ← run .expression
    rightParen
    let e := inner.setNote (← extentFrom opening.mark)
    .widen e (.done e)
  | .literal =>
    let word ← take
    make word.mark fun x => .literal x s.tags.literal word.text
  | .identifier =>
    let word ← take
    make word.mark fun x => .identifier x word.text
  | _ => .reject (← position) [.kind .identifier, .kind .literal, .kind .leftParen]

/-! ## Initializers -/

def initializer : Procedure Tree := do
  if (← next).kind = .leftBrace then
    let opening ← take
    let items ← run .elements
    let _ ← expect [.kind .rightBrace]
    make opening.mark fun x => .initializers x items
  else
    run .assignment

/-- Elements up to a closing brace, which a comma may precede. Between two of them a comma may be
missing, also at a line break. -/
def elements : Procedure (List Tree) := do
  if (← next).kind = .rightBrace then
    return []
  else
    let e ← run .initializer
    let s ← next
    if s.kind = .comma || s.startsExpression || s.kind = .leftBrace then
      comma
      return e :: (← run .elements)
    else
      return [e]

end Grammar

end ShaderRepair
