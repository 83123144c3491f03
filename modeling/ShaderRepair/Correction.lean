import ShaderRepair.Edit
import ShaderRepair.Grammar.Procedure
import ShaderRepair.Tally

/-!
# Corrections

From what the grammar found missing to edits of the source. Every repair has a category, which the
options switch on or off; the edits and the tally are those of the categories that are on. This file
contains:
- `Options` and `Category`;
- `Correction`, a repair with its place in the source, and `Correction.ofRepair`;
- the edits and the tally under given options.
-/

namespace ShaderRepair

/-- What may be inserted. -/
structure Options where
  /-- Semicolons at line ends, before a closing brace and at the end of input. -/
  semicolons : Bool
  /-- Semicolons between two statements on one line. -/
  inline : Bool
  /-- Colons after labels and in conditionals. -/
  colons : Bool
  /-- Parentheses around conditions and argument lists. -/
  parens : Bool
  /-- Commas between arguments and between elements. -/
  commas : Bool
  /-- Constructor calls around initializers. -/
  conversions : Bool
  deriving DecidableEq, Repr

/-- Everything may be inserted. -/
def Options.all : Options :=
  ⟨true, true, true, true, true, true⟩

/-- The categories of corrections, one for each option. -/
inductive Category where
  | lineEnd
  | inline
  | colon
  | paren
  | comma
  | conversion
  deriving DecidableEq, Repr

def Options.enables (o : Options) : Category → Bool
  | .lineEnd => o.semicolons
  | .inline => o.inline
  | .colon => o.colons
  | .paren => o.parens
  | .comma => o.commas
  | .conversion => o.conversions

/-- The edits that put in what was missing, and what they count as. -/
structure Correction where
  category : Category
  mark : Mark
  edits : List Edit
  deriving DecidableEq, Repr

namespace Correction

open Grammar (Missing Repair)

/-- Text put right before a token. -/
def before (t : Token) (text : Text) : Edit :=
  { offset := t.start.offset, text := text, anchor := t }

/-- Text put right after a token. -/
def after (t : Token) (text : Text) : Edit :=
  { offset := t.stop.offset, text := text, anchor := t }

/-- A missing semicolon is inline if the next statement starts on the line where the last token
ends. -/
def semicolonCategory (last next : Token) : Category :=
  if next.start.line = last.stop.line && next.kind ≠ .rightBrace && next.kind ≠ .endOfInput then
    .inline
  else
    .lineEnd

/-- Marks go behind the last token passed, except for an opening parenthesis, which goes before the
next one. -/
def ofRepair (stream : Stream) (r : Repair) : Correction :=
  let last := stream.token (r.index - 1)
  let next := stream.token r.index
  match r.missing with
  | .semicolon => ⟨semicolonCategory last next, .semicolon, [after last (Text.ascii ";")]⟩
  | .colon => ⟨.colon, .colon, [after last (Text.ascii ":")]⟩
  | .comma => ⟨.comma, .comma, [after last (Text.ascii ",")]⟩
  | .leftParen => ⟨.paren, .leftParen, [before next (Text.ascii "(")]⟩
  | .rightParen => ⟨.paren, .rightParen, [after last (Text.ascii ")")]⟩
  | .conversion type first =>
    ⟨.conversion, .conversion,
      [before (stream.token first) (type ++ Text.ascii "("), after last (Text.ascii ")")]⟩

/-- The corrections that the options ask for. -/
def enabled (o : Options) (corrections : List Correction) : List Correction :=
  corrections.filter fun c => o.enables c.category

/-- All edits, in the order in which they were found. -/
def allEdits (corrections : List Correction) : List Edit :=
  corrections.flatMap Correction.edits

def tally (corrections : List Correction) : Tally :=
  Tally.ofList (corrections.map Correction.mark)

end Correction

end ShaderRepair
