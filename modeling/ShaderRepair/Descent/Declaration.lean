import ShaderRepair.Descent.Expression
import ShaderRepair.Grammar.Declaration

/-!
# Descent through declarations

The rules for qualifiers, types, variables, functions, structs and interface blocks. A declaration
is told by the two tokens ahead.
-/

namespace ShaderRepair

namespace Descent

open Grammar (equals precisionWords)

variable (rules : Rules)

/-! ## Qualifiers and types -/

def layoutParams : Step (List (LayoutParam Token Tree)) := do
  if ← check .rightParen then
    return []
  else
    let name ← expect [.kind .identifier, .word .qualifier (Text.ascii "shared")]
    let value ← if ← accept equals then some <$> rules.assignment else pure none
    if ← accept (.kind .comma) then
      return ⟨name, value⟩ :: (← rules.layoutParams)
    else
      return [⟨name, value⟩]

/-- A qualifier of a class that is taken already is passed over. -/
def qualifiers (found : Qualifiers Token Tree) : Step (Qualifiers Token Tree) := do
  let t ← peek
  match t.kind with
  | .layout =>
    let _ ← take
    let _ ← expect [.kind .leftParen]
    let params ← rules.layoutParams
    rightParen
    rules.qualifiers ⟨found.layout ++ params, found.words⟩
  | .qualifier =>
    let word ← take
    if found.words.any fun q => q.kind = t.tags.qualifier then
      rules.qualifiers found
    else
      rules.qualifiers ⟨found.layout, found.words ++ [⟨word, t.tags.qualifier⟩]⟩
  | _ => return found

def dims : Step (List (Option Tree)) := do
  if ← accept (.kind .leftBracket) then
    let size ← if ← check .rightBracket then pure none else some <$> rules.expression
    let _ ← expect [.kind .rightBracket]
    return size :: (← rules.dims)
  else
    return []

def typeSpec : Step (TypeSpec Token Tree) := do
  let name ← expect [.kind .identifier]
  return ⟨name, ← rules.dims⟩

/-! ## Variables -/

def declarators : Step (List (Declarator Token Tree)) := do
  let name ← expect [.kind .identifier]
  let dims ← rules.dims
  if ← accept (.kind .comma) then
    return ⟨name, dims, none⟩ :: (← rules.declarators)
  else
    return [⟨name, dims, none⟩]

/-- The initializer of a variable, if there is one, which may have to be converted. -/
def initialValue (type : TypeSpec Token Tree) (dims : List (Option Tree)) :
    Step (Option Tree) := do
  if ← accept equals then
    let first ← peek
    let e ← rules.initializer
    convert type dims e first
    return some e
  else
    return none

def vars (type : TypeSpec Token Tree) (name : Name Token) :
    Step (List (Declarator Token Tree)) := do
  let dims ← rules.dims
  let init ← initialValue rules type dims
  if ← accept (.kind .comma) then
    let another ← expect [.kind .identifier]
    return ⟨name, dims, init⟩ :: (← rules.vars type another)
  else
    return [⟨name, dims, init⟩]

/-! ## Functions -/

def param : Step (Param Token Tree) := do
  let quals ← rules.qualifiers ⟨[], []⟩
  let type ← typeSpec rules
  if ← check .identifier then
    let name ← take
    return ⟨quals, type, some name, ← rules.dims⟩
  else
    return ⟨quals, type, none, []⟩

/-- Parameters; an opening brace or a semicolon ends them too. -/
def params : Step (List (Param Token Tree)) := do
  match (← peek).kind with
  | .rightParen | .leftBrace | .semicolon => return []
  | _ =>
    let p ← param rules
    if ← accept (.kind .comma) then
      return p :: (← rules.params)
    else
      return [p]

/-- Items in braces, with the extent from brace to brace. -/
def block : Step (Extent Token × List Declaration) := do
  let opening ← expect [.kind .leftBrace]
  let body ← rules.items .brace
  let _ ← expect [.kind .rightBrace]
  return (← extentFrom opening.mark, body)

/-- A function from its parameter list on; without a body it is a prototype. -/
def function (first : Token) (quals : Qualifiers Token Tree) (result : TypeSpec Token Tree)
    (name : Name Token) : Step Declaration := do
  let _ ← take
  let params ← rules.params
  rightParen
  if ← check .leftBrace then
    let (bodyExtent, body) ← block rules
    return .function (← extentFrom first) ⟨quals, result, name, params⟩ bodyExtent body
  else
    statementEnd
    return .prototype (← extentFrom first) ⟨quals, result, name, params⟩

/-- A declaration from its type on: a function if a parenthesis follows the name. -/
def typed (first : Token) (quals : Qualifiers Token Tree) : Step Declaration := do
  let type ← typeSpec rules
  let name ← expect [.kind .identifier]
  if ← check .leftParen then
    function rules first quals type name
  else
    let ds ← rules.vars type name
    statementEnd
    return .vars (← extentFrom first) ⟨quals, type, ds⟩

/-! ## Structs and interface blocks -/

def member : Step (Member Token Tree) := do
  let first ← peek
  let quals ← rules.qualifiers ⟨[], []⟩
  let type ← typeSpec rules
  let ds ← rules.declarators
  statementEnd
  return ⟨← extentFrom first, quals, type, ds⟩

def members : Step (List (Member Token Tree)) := do
  match (← peek).kind with
  | .rightBrace | .endOfInput => return []
  | _ =>
    let m ← member rules
    return m :: (← rules.members)

def memberList : Step (List (Member Token Tree)) := do
  let _ ← expect [.kind .leftBrace]
  let ms ← rules.members
  let _ ← expect [.kind .rightBrace]
  return ms

/-- Variables declared behind a closing brace, on its line. -/
def instances : Step (List (Declarator Token Tree)) := do
  if (← peekStrict).kind = .identifier then rules.declarators else return []

def struct (first : Token) (quals : Qualifiers Token Tree) : Step Declaration := do
  let _ ← take
  let name ← if ← check .identifier then some <$> take else pure none
  let ms ← memberList rules
  let ds ← instances rules
  statementEnd
  return .struct (← extentFrom first) quals name ms ds

def interface (first : Token) (quals : Qualifiers Token Tree) : Step Declaration := do
  let name ← take
  let ms ← memberList rules
  let ds ← instances rules
  statementEnd
  return .interface (← extentFrom first) quals name ms ds

/-! ## Declarations that begin with a word of their own -/

/-- Names between commas. -/
def names : Step (List (Name Token)) := do
  let name ← expect [.kind .identifier]
  if ← accept (.kind .comma) then
    return name :: (← rules.names)
  else
    return [name]

def precision : Step Declaration := do
  let first ← take
  let t ← peek
  let word ← expect [.kind .qualifier]
  if t.tags.qualifier = .precision then
    let type ← typeSpec rules
    statementEnd
    return .precision (← extentFrom first.mark) word type
  else
    fail word.mark precisionWords

/-- A declaration that begins with qualifiers. -/
def qualified : Step Declaration := do
  let first ← peek
  let quals ← rules.qualifiers ⟨[], []⟩
  match (← peek).kind with
  | .struct => struct rules first quals
  | .semicolon =>
    statementEnd
    return .qualifiers (← extentFrom first) quals []
  | .identifier =>
    match (← peekSecond).kind with
    | .leftBrace => interface rules first quals
    | .semicolon | .comma =>
      let ns ← rules.names
      statementEnd
      return .qualifiers (← extentFrom first) quals ns
    | _ => typed rules first quals
  | _ => fail (← peek) [.kind .identifier, .kind .struct, .kind .semicolon]

end Descent

end ShaderRepair
