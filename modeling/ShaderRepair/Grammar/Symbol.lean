import ShaderRepair.Token

/-!
# Symbols

What the grammar sees of a token: kind, lexeme and tags, and whether a line break stands before it.
White space, comments, directives and places in the source are out of its sight. This file contains:
- `Symbol` and the tests the grammar makes on it;
- `Stream`, the significant tokens before the end of input, whose places are looked up by index.
-/

namespace ShaderRepair

/-- A significant token without its place. -/
structure Symbol where
  kind : Kind
  lexeme : Text
  tags : Tags
  broken : Bool
  deriving DecidableEq, Repr

namespace Symbol

/-- What is seen behind the last symbol. -/
def finish : Symbol :=
  ⟨.endOfInput, [], Tags.none, false⟩

def ofToken (broken : Bool) (t : Token) : Symbol :=
  ⟨t.kind, t.lexeme, t.tags, broken⟩

def plays (s : Symbol) (r : Role) : Bool :=
  s.kind == .operator && s.tags.roles.has r

/-- Whether an expression can begin with this symbol. -/
def startsExpression (s : Symbol) : Bool :=
  match s.kind with
  | .identifier | .literal | .leftParen => true
  | _ => s.plays .unary

end Symbol

/-! ## Lookahead for declarations -/

namespace Symbol

/-- Whether a name follows array dimensions, `depth` of whose brackets are open already. Inside
brackets anything goes, except what ends a statement or a block. -/
def nameAfterDims : Nat → List Symbol → Bool
  | _, [] => false
  | 0, s :: more =>
    if s.kind = .leftBracket then nameAfterDims 1 more else s.kind = .identifier
  | depth + 1, s :: more =>
    match s.kind with
    | .leftBracket => nameAfterDims (depth + 2) more
    | .rightBracket => nameAfterDims depth more
    | .semicolon | .leftBrace | .rightBrace => false
    | _ => nameAfterDims (depth + 1) more

/-- Whether the symbols begin with a type and a name, which makes them a declaration. -/
def startsDeclaration : List Symbol → Bool
  | [] => false
  | s :: more => s.kind = .identifier && nameAfterDims 0 more

end Symbol

/-! ## Streams -/

/-- The significant tokens before the end of input, each with the symbol it shows. -/
structure Stream where
  tokens : Array Token
  symbols : List Symbol
  finish : Token

namespace Stream

/-- Significant tokens, each with whether a line break precedes it; `broken` tells about a line
break that has been passed already. -/
def significant : Bool → List Token → List (Token × Bool)
  | _, [] => []
  | broken, t :: more =>
    if t.isIgnored then significant broken more
    else if t.kind = .lineBreak then significant true more
    else (t, broken) :: significant false more

/-- The end of input of a list of tokens: the first one in it, or one put behind the last token. -/
def finishOf (tokens : List Token) : Token :=
  match tokens.find? fun t => t.kind = .endOfInput with
  | some t => t
  | none =>
    match tokens.getLast? with
    | some t => Token.endAt t.stop
    | none => Token.endAt Position.zero

/-- Nothing behind the first end of input counts. -/
def ofTokens (tokens : List Token) : Stream :=
  let pairs := significant false (tokens.takeWhile fun t => t.kind ≠ .endOfInput)
  ⟨(pairs.map Prod.fst).toArray, pairs.map fun (t, broken) => Symbol.ofToken broken t,
    finishOf tokens⟩

/-- The token with a given index; behind the last one there is the end of input. -/
def token (s : Stream) (index : Nat) : Token :=
  s.tokens.getD index s.finish

end Stream

end ShaderRepair
