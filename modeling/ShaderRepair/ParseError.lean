import ShaderRepair.Token

/-!
# Parse errors

A parse error names the token that no repair can explain and what could have stood there. This file
contains:
- the one-line message, and the message with its place;
- the excerpt that shows the line of the token between its neighbours, with a caret under the token.
-/

namespace ShaderRepair

/-- The offending token, descriptions of what was acceptable there, and the source to quote from
(empty if it is not known). -/
structure ParseError where
  expected : List Text
  token : Token
  source : Text
  deriving DecidableEq, Repr

namespace ParseError

def message (e : ParseError) : Text :=
  if e.expected.isEmpty then
    Text.ascii "unexpected " ++ e.token.describe
  else
    Text.ascii "expected " ++ Text.join (Text.ascii " or ") e.expected ++ Text.ascii ", got " ++
      e.token.describe

/-- The message with its line and column. -/
def text (e : ParseError) : Text :=
  Text.ascii "line " ++ Text.ofInt e.token.start.line ++ Text.ascii ", column " ++
    Text.ofInt e.token.start.column ++ Text.ascii ": " ++ e.message

/-- A numbered source line of the excerpt. -/
def numbered (number : Nat) (line : Text) : Text :=
  Text.padLeft 4 (Text.ofNat number) ++ Text.ascii "| " ++ Text.chomp line ++ Text.ascii "\n"

/-- A column held between the first one and the one after the last rune of a line. -/
def clampColumn (column : Int) (line : Text) : Nat :=
  min (max column 1).toNat ((Text.runes line).length + 1)

/-- The excerpt around line `index`, counted from zero, of the given lines. -/
def excerpt (e : ParseError) (lines : List Text) (index : Nat) (line : Text) : Text :=
  let column := clampColumn e.token.start.column (Text.chomp line)
  let before :=
    match index with
    | 0 => []
    | k + 1 => numbered (k + 1) (lines.getD k [])
  let after :=
    match lines[index + 1]? with
    | some next => numbered (index + 2) next
    | none => []
  Text.ascii "error: " ++ e.message ++ Text.ascii "\n" ++
    Text.ascii "  --> line " ++ Text.ofNat (index + 1) ++ Text.ascii ":" ++ Text.ofNat column ++
    Text.ascii "\n" ++
    Text.ascii "    |\n" ++
    before ++
    numbered (index + 1) line ++
    Text.ascii "    | " ++ List.replicate (column - 1) 32 ++ Text.ascii "^\n" ++
    after

/-- The error with an excerpt, or just the message with its place if there is nothing to quote. -/
def context (e : ParseError) : Text :=
  if e.source.isEmpty || e.token.start.line < 1 then e.text
  else
    let lines := Text.lines e.source
    let index := e.token.start.line.toNat - 1
    match lines[index]? with
    | some line => e.excerpt lines index line
    | none => e.text

end ParseError

end ShaderRepair
