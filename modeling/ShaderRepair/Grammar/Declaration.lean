import ShaderRepair.Grammar.Expression

/-!
# Declarations

The rules for qualifiers, types, variables, functions, structs and interface blocks. What comes
after qualifiers is told apart by the next two symbols.
-/

namespace ShaderRepair

namespace Grammar

open Procedure

/-- The assignment sign of an initializer or a layout parameter. -/
def equals : Expectation :=
  .word .operator (Text.ascii "=")

/-! ## Qualifiers and types -/

/-- The parameters of a layout up to the closing parenthesis. -/
def layoutParams : Procedure (List (LayoutParam Nat Tree)) := do
  if (← next).kind = .rightParen then
    return []
  else
    let name ← expect [.kind .identifier, .word .qualifier (Text.ascii "shared")]
    let value ← if ← accept equals then some <$> run .assignment else pure none
    if ← accept (.kind .comma) then
      return ⟨name, value⟩ :: (← run .layoutParams)
    else
      return [⟨name, value⟩]

/-- A qualifier of a class that is taken already is passed over. -/
def qualifiers (found : Qualifiers Nat Tree) : Procedure (Qualifiers Nat Tree) := do
  let s ← next
  match s.kind with
  | .layout =>
    let _ ← take
    let _ ← expect [.kind .leftParen]
    let params ← run .layoutParams
    rightParen
    run (.qualifiers ⟨found.layout ++ params, found.words⟩)
  | .qualifier =>
    let word ← take
    if found.words.any fun q => q.kind = s.tags.qualifier then
      run (.qualifiers found)
    else
      run (.qualifiers ⟨found.layout, found.words ++ [⟨word, s.tags.qualifier⟩]⟩)
  | _ => return found

def dims : Procedure (List (Option Tree)) := do
  if ← accept (.kind .leftBracket) then
    let size ← if (← next).kind = .rightBracket then pure none else some <$> run .expression
    let _ ← expect [.kind .rightBracket]
    return size :: (← run .dims)
  else
    return []

def typeSpec : Procedure (TypeSpec Nat Tree) := do
  let name ← expect [.kind .identifier]
  return ⟨name, ← run .dims⟩

/-! ## Variables -/

def declarators : Procedure (List (Declarator Nat Tree)) := do
  let name ← expect [.kind .identifier]
  let dims ← run .dims
  if ← accept (.kind .comma) then
    return ⟨name, dims, none⟩ :: (← run .declarators)
  else
    return [⟨name, dims, none⟩]

/-- The initializer of a variable, if there is one. A plain variable whose initializer would have to
be converted gets a constructor call. -/
def initialValue (type : TypeSpec Nat Tree) (dims : List (Option Tree)) :
    Procedure (Option Tree) := do
  if ← accept equals then
    let first ← position
    let e ← run .initializer
    if type.dims.isEmpty && dims.isEmpty && e.needsConversion type.name.text then
      note (.conversion type.name.text first)
    return some e
  else
    return none

def vars (type : TypeSpec Nat Tree) (name : Name Nat) : Procedure (List (Declarator Nat Tree)) := do
  let dims ← run .dims
  let init ← initialValue type dims
  if ← accept (.kind .comma) then
    let another ← expect [.kind .identifier]
    return ⟨name, dims, init⟩ :: (← run (.vars type another))
  else
    return [⟨name, dims, init⟩]

/-! ## Functions -/

def param : Procedure (Param Nat Tree) := do
  let quals ← run (.qualifiers ⟨[], []⟩)
  let type ← typeSpec
  if (← next).kind = .identifier then
    let name ← take
    return ⟨quals, type, some name, ← run .dims⟩
  else
    return ⟨quals, type, none, []⟩

/-- Parameters; an opening brace or a semicolon ends them too. -/
def params : Procedure (List (Param Nat Tree)) := do
  match (← next).kind with
  | .rightParen | .leftBrace | .semicolon => return []
  | _ =>
    let p ← param
    if ← accept (.kind .comma) then
      return p :: (← run .params)
    else
      return [p]

/-- Items in braces, with the extent from brace to brace. -/
def block : Procedure (Extent Nat × List Item) := do
  let opening ← expect [.kind .leftBrace]
  let body ← run (.items .brace)
  let _ ← expect [.kind .rightBrace]
  return (← extentFrom opening.mark, body)

/-- A function from its parameter list on; without a body it is a prototype. -/
def function (first : Nat) (quals : Qualifiers Nat Tree) (result : TypeSpec Nat Tree)
    (name : Name Nat) : Procedure Item := do
  let _ ← take
  let params ← run .params
  rightParen
  let signature : Signature Nat Tree := ⟨quals, result, name, params⟩
  if (← next).kind = .leftBrace then
    let (bodyExtent, body) ← block
    return .function (← extentFrom first) signature bodyExtent body
  else
    statementEnd
    return .prototype (← extentFrom first) signature

/-- A declaration from its type on: a function if a parenthesis follows the name. -/
def typed (first : Nat) (quals : Qualifiers Nat Tree) : Procedure Item := do
  let type ← typeSpec
  let name ← expect [.kind .identifier]
  if (← next).kind = .leftParen then
    function first quals type name
  else
    let ds ← run (.vars type name)
    statementEnd
    return .vars (← extentFrom first) ⟨quals, type, ds⟩

/-! ## Structs and interface blocks -/

def member : Procedure (Member Nat Tree) := do
  let first ← position
  let quals ← run (.qualifiers ⟨[], []⟩)
  let type ← typeSpec
  let ds ← run .declarators
  statementEnd
  return ⟨← extentFrom first, quals, type, ds⟩

def members : Procedure (List (Member Nat Tree)) := do
  match (← next).kind with
  | .rightBrace | .endOfInput => return []
  | _ =>
    let m ← member
    return m :: (← run .members)

def memberList : Procedure (List (Member Nat Tree)) := do
  let _ ← expect [.kind .leftBrace]
  let ms ← run .members
  let _ ← expect [.kind .rightBrace]
  return ms

/-- Variables declared behind a closing brace, on its line. -/
def instances : Procedure (List (Declarator Nat Tree)) := do
  let s ← next
  if s.kind = .identifier && !s.broken then run .declarators else return []

def struct (first : Nat) (quals : Qualifiers Nat Tree) : Procedure Item := do
  let _ ← take
  let name ← if (← next).kind = .identifier then some <$> take else pure none
  let ms ← memberList
  let ds ← instances
  statementEnd
  return .struct (← extentFrom first) quals name ms ds

def interface (first : Nat) (quals : Qualifiers Nat Tree) : Procedure Item := do
  let name ← take
  let ms ← memberList
  let ds ← instances
  statementEnd
  return .interface (← extentFrom first) quals name ms ds

/-! ## Declarations that begin with a word of their own -/

/-- Names between commas. -/
def names : Procedure (List (Name Nat)) := do
  let name ← expect [.kind .identifier]
  if ← accept (.kind .comma) then
    return name :: (← run .names)
  else
    return [name]

/-- The words that may follow `precision`. -/
def precisionWords : List Expectation :=
  ["highp", "mediump", "lowp"].map fun w => .word .qualifier (Text.ascii w)

def precision : Procedure Item := do
  let first ← take
  let s ← next
  let word ← expect [.kind .qualifier]
  if s.tags.qualifier = .precision then
    let type ← typeSpec
    statementEnd
    return .precision (← extentFrom first.mark) word type
  else
    .reject word.mark precisionWords

/-- A declaration that begins with qualifiers. -/
def qualified : Procedure Item := do
  let first ← position
  let quals ← run (.qualifiers ⟨[], []⟩)
  match (← next).kind with
  | .struct => struct first quals
  | .semicolon =>
    statementEnd
    return .qualifiers (← extentFrom first) quals []
  | .identifier =>
    match (← second).kind with
    | .leftBrace => interface first quals
    | .semicolon | .comma =>
      let ns ← run .names
      statementEnd
      return .qualifiers (← extentFrom first) quals ns
    | _ => typed first quals
  | _ => .reject (← position) [.kind .identifier, .kind .struct, .kind .semicolon]

end Grammar

end ShaderRepair
