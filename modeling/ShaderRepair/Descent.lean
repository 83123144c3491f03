import ShaderRepair.Cursor
import ShaderRepair.Session

/-!
# Recursive descent

Parsing on the tokens themselves, with the punctuation put in on the way. A descent holds a place in
the list of tokens, the options, the edits made so far and how many there are of each mark, and all
of this is within reach of every step. What is missing is put in where it is missed, if the options
ask for it there. This file contains:
- `Descent`, with `Descent.start`;
- `Descent.Step`, a step of a descent, with the steps that look ahead and those that pass tokens;
- the punctuation that may be missing, and the conversion of initializers.
-/

namespace ShaderRepair

/-- A parse of tokens under way. -/
structure Descent where
  /-- The last token is an end of input. -/
  tokens : List Token
  /-- The text to quote in errors, empty if it is not known. -/
  source : Text
  options : Options
  /-- Where the next token is looked for. -/
  place : Nat
  /-- The token passed last. -/
  last : Token
  edits : List Edit
  tally : Tally

namespace Descent

open Text (ascii)

/-- An expression whose parts are marked by tokens. -/
abbrev Tree := Expr (Extent Token)

def start (tokens : List Token) (source : Text) (options : Options) : Descent :=
  ⟨Cursor.ended tokens, source, options, 0, Token.endAt Position.zero, [], fun _ => 0⟩

/-- A step may read and change all that a descent holds, and it may fail. -/
abbrev Step := ExceptT ParseError (StateM Descent)

/-! ## Looking ahead -/

/-- The token at a place. -/
def tokenAt (p : Descent) (i : Nat) : Token :=
  p.tokens.getD i (Token.endAt Position.zero)

/-- The place of the token ahead. A strict look does not go past a line break. -/
def front (p : Descent) (strict : Bool) : Nat :=
  Cursor.skip p.tokens strict p.place

/-- The next token that the grammar sees. -/
def peek : Step Token := do
  let p ← get
  return p.tokenAt (p.front false)

/-- The same, or a line break before it. -/
def peekStrict : Step Token := do
  let p ← get
  return p.tokenAt (p.front true)

/-- The token after the next one. -/
def peekSecond : Step Token := do
  let p ← get
  return p.tokenAt (Cursor.next p.tokens (p.front false))

def check (k : Kind) : Step Bool := do
  return (← peek).kind = k

/-- Whether a name follows array dimensions, `depth` of whose brackets are open already, from the
token at place `i` on. The scan takes at most `fuel` tokens. -/
def scan (p : Descent) : (fuel depth i : Nat) → Bool
  | 0, _, _ => false
  | fuel + 1, 0, i =>
    if (p.tokenAt i).kind = .leftBracket then scan p fuel 1 (Cursor.next p.tokens i)
    else (p.tokenAt i).kind = .identifier
  | fuel + 1, depth + 1, i =>
    match (p.tokenAt i).kind with
    | .leftBracket => scan p fuel (depth + 2) (Cursor.next p.tokens i)
    | .rightBracket => scan p fuel depth (Cursor.next p.tokens i)
    | .endOfInput | .semicolon | .leftBrace | .rightBrace => false
    | _ => scan p fuel (depth + 1) (Cursor.next p.tokens i)

/-- Whether a type and a name are ahead. -/
def declares : Step Bool := do
  let p ← get
  let i := p.front false
  return (p.tokenAt i).kind = .identifier &&
    p.scan p.tokens.length 0 (Cursor.next p.tokens i)

/-! ## Passing tokens -/

/-- What the grammar sees of a token by itself. -/
def seen (t : Token) : Symbol :=
  Symbol.ofToken false t

/-- The next token is passed. An end of input stays where it is. -/
def pass (p : Descent) : Descent :=
  let t := p.tokenAt (p.front false)
  { p with place := if t.kind = .endOfInput then p.place else p.front false + 1, last := t }

def take : Step (Name Token) := do
  let t ← peek
  modify pass
  return ⟨t.lexeme, t⟩

/-- Gives up at a token, in want of one of the expected ones. -/
def fail {α : Type} (t : Token) (expected : List Expectation) : Step α := do
  throw ⟨expected.map Expectation.describe, t, (← get).source⟩

/-- Passes the next token, which has to be one of the expected ones. -/
def expect (expected : List Expectation) : Step (Name Token) := do
  let t ← peek
  if expected.any fun e => e.accepts (seen t) then take else fail t expected

/-- Passes the next token if it is acceptable. -/
def accept (e : Expectation) : Step Bool := do
  if e.accepts (seen (← peek)) then
    let _ ← take
    return true
  else
    return false

/-- From a token to the one passed last. -/
def extentFrom (first : Token) : Step (Extent Token) := do
  return ⟨first, (← get).last⟩

/-- An expression that starts with a token and ends with the one passed last. -/
def make (first : Token) (e : Extent Token → Tree) : Step Tree := do
  return e (← extentFrom first)

/-! ## Putting in -/

/-- Makes edits that count as one insertion of a mark, if they are asked for. -/
def insert (enabled : Bool) (mark : Mark) (edits : List Edit) : Step Unit :=
  if enabled then
    modify fun p =>
      { p with
        edits := p.edits ++ edits
        tally := fun m => if m = mark then p.tally m + 1 else p.tally m }
  else
    pure ()

/-- Puts text behind the token passed last. -/
def insertBehind (enabled : Bool) (mark : Mark) (text : Text) : Step Unit := do
  insert enabled mark [Correction.after (← get).last text]

/-- Puts a semicolon behind the token passed last. The options tell apart whether the next statement
starts on the same line. -/
def insertSemicolon : Step Unit := do
  let next ← peek
  let p ← get
  let inline : Bool := next.start.line = p.last.stop.line && next.kind ≠ .rightBrace &&
    next.kind ≠ .endOfInput
  insertBehind (if inline then p.options.inline else p.options.semicolons) .semicolon (ascii ";")

/-- Passes semicolons, at most `count` of them. -/
def skipSemicolons : Nat → Step Unit
  | 0 => pure ()
  | count + 1 => do
    if ← check .semicolon then
      let _ ← take
      skipSemicolons count

/-- The end of a statement: as many semicolons as there are, and at least one. -/
def statementEnd : Step Unit := do
  if ← check .semicolon then
    skipSemicolons (← get).tokens.length
  else
    insertSemicolon

/-- A single semicolon, as between the clauses of a for statement. -/
def clauseEnd : Step Unit := do
  unless ← accept (.kind .semicolon) do
    insertSemicolon

def colon : Step Unit := do
  unless ← accept (.kind .colon) do
    insertBehind (← get).options.colons .colon (ascii ":")

def comma : Step Unit := do
  unless ← accept (.kind .comma) do
    insertBehind (← get).options.commas .comma (ascii ",")

def rightParen : Step Unit := do
  unless ← accept (.kind .rightParen) do
    insertBehind (← get).options.parens .rightParen (ascii ")")

/-- An opening parenthesis is put before the next token. -/
def leftParen : Step Unit := do
  unless ← accept (.kind .leftParen) do
    let next ← peek
    insert (← get).options.parens .leftParen [Correction.before next (ascii "(")]

/-- Puts a call of a constructor around an initializer that starts with the token `first` and ends
with the one passed last. Unless conversions are asked for, types are not even looked up. -/
def convert (type : TypeSpec Token Tree) (dims : List (Option Tree)) (e : Tree) (first : Token) :
    Step Unit := do
  let p ← get
  if !p.options.conversions || !type.dims.isEmpty || !dims.isEmpty then
    return
  else
    match ValueType.lookup type.name.text with
    | none => return
    | some declared =>
      if e.type.implicitlyConvertible declared || !e.type.explicitlyConvertible declared then
        return
      else
        insert true .conversion
          [Correction.before first (type.name.text ++ ascii "("),
            Correction.after p.last (ascii ")")]

/-! ## Rules -/

/-- The rules that call each other. -/
structure Rules where
  item : Step Declaration
  items (stop : Grammar.Stop) : Step (List Declaration)
  statement : Step Declaration
  cases : Step (List (Case Token Tree))
  qualifiers (found : Qualifiers Token Tree) : Step (Qualifiers Token Tree)
  layoutParams : Step (List (LayoutParam Token Tree))
  dims : Step (List (Option Tree))
  declarators : Step (List (Declarator Token Tree))
  vars (type : TypeSpec Token Tree) (name : Name Token) : Step (List (Declarator Token Tree))
  members : Step (List (Member Token Tree))
  params : Step (List (Param Token Tree))
  names : Step (List (Name Token))
  expression : Step Tree
  sequence : Step (List Tree)
  assignment : Step Tree
  conditional : Step Tree
  binary (level : Level) : Step Tree
  binaryRest (level : Level) (left : Tree) : Step Tree
  unary : Step Tree
  suffixes (object : Tree) : Step Tree
  arguments : Step (List Tree)
  primary : Step Tree
  initializer : Step Tree
  elements : Step (List Tree)

/-- Fails without expecting anything. -/
def stuck {α : Type} : Step α := do
  fail (← peek) []

/-- Rules that may not be called. -/
def Rules.none : Rules where
  item := stuck
  items _ := stuck
  statement := stuck
  cases := stuck
  qualifiers _ := stuck
  layoutParams := stuck
  dims := stuck
  declarators := stuck
  vars _ _ := stuck
  members := stuck
  params := stuck
  names := stuck
  expression := stuck
  sequence := stuck
  assignment := stuck
  conditional := stuck
  binary _ := stuck
  binaryRest _ _ := stuck
  unary := stuck
  suffixes _ := stuck
  arguments := stuck
  primary := stuck
  initializer := stuck
  elements := stuck

end Descent

end ShaderRepair
