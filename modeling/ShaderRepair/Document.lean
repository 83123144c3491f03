import ShaderRepair.Outline
import ShaderRepair.Token.Lexer
import ShaderRepair.Typing.Table

/-!
# Documents

What can be done with the text of a shader. This file contains:
- `Document.parse`, tree and edits;
- `Document.repair`, the text with the edits made, and repairing again and again;
- `Document.types`, every expression with its type;
- `Document.render`, the output in each mode.
-/

namespace ShaderRepair

/-- What is written about a document. -/
inductive Mode where
  /-- The repaired text. -/
  | fix
  /-- One line for each insertion. -/
  | list
  /-- One line for each token. -/
  | tokens
  /-- The outline of the tree. -/
  | tree
  /-- One line for each expression, with its type. -/
  | types
  deriving DecidableEq, Repr

namespace Document

open Text (ascii)

/-- Parses tokens that were made of a source; an empty source means that it is not known. -/
def parseTokens (tokens : List Token) (source : Text) (options : Options) :
    Except ParseError Report :=
  (((Session.start tokens options).setSource source).parse).1

def parse (source : Text) (options : Options) : Except ParseError Report :=
  parseTokens (Lexer.lex source false) source options

/-! ## Repairing -/

/-- A source with its edits made. -/
structure Repaired where
  text : Text
  edits : List Edit
  tally : Tally

def Repaired.summary (r : Repaired) : Text :=
  r.tally.summary

/-- The source with the edits of a report made. -/
def apply (source : Text) (report : Report) : Repaired :=
  ⟨source.splice (report.edits.map Edit.toInsertion), report.edits, report.tally⟩

def repair (source : Text) (options : Options) : Except ParseError Repaired :=
  (parse source options).map (apply source)

/-- How a failed repair is reported. -/
def failure (e : ParseError) : Text :=
  ascii "parse error: " ++ e.text

/-- Repairs the source, then the repaired text, and so on. An error ends it. -/
def repairTimes (options : Options) : Nat → Text → List (Except ParseError Repaired)
  | 0, _ => []
  | n + 1, source =>
    match repair source options with
    | .ok r => .ok r :: repairTimes options n r.text
    | .error e => [.error e]

/-! ## Types -/

/-- Numbered expressions with their types, by number. -/
def types (exprs : List (Expr (Nat × Extent Token))) : List (Nat × Text × ValueType) :=
  let table := ((Expr.resolveAll exprs).run []).2
  exprs.filterMap fun e => (table.lookup e.handle).map fun t => (e.handle, e.format, t)

/-! ## Output -/

/-- A line that begins with a place. -/
def placed (line column : Int) (text : Text) : Text :=
  Text.ofInt line ++ (ascii ":" ++ (Text.ofInt column ++ (ascii "\t" ++ (text ++ ascii "\n"))))

def tokenLine (t : Token) : Text :=
  placed t.start.line t.start.column t.describe

def editLine (source : Text) (e : Edit) : Text :=
  let (line, column) := source.lineColumn e.offset
  placed line column (ascii "insert " ++ Text.quoted e.text)

def typeLine (table : TypeTable) (e : Expr (Nat × Extent Token)) : Text :=
  let p := e.note.2.first.start
  let t := (table.lookup e.handle).getD .error
  placed p.line p.column (e.format ++ (ascii "\t" ++ t.name))

/-- The output of a mode, and a summary, which is empty where nothing is repaired. -/
def render (mode : Mode) (source : Text) (options : Options) : Except ParseError (Text × Text) :=
  match mode with
  | .tokens => .ok ((Lexer.lex source false).flatMap tokenLine, [])
  | .tree => (parse source options).map fun r => (r.module.outline, [])
  | .types =>
    (parse source options).map fun r =>
      let m := Module.numbered r.module
      ((m.walk fun _ => true).flatMap (typeLine m.resolve), [])
  | .list =>
    (parse source options).map fun r => (r.edits.flatMap (editLine source), r.tally.summary)
  | .fix => (repair source options).map fun r => (r.text, r.summary)

end Document

end ShaderRepair
