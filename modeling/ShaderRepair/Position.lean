import ShaderRepair.Text.Rune

/-!
# Positions

A place in a source text: a byte offset with the line and the column, both counted from one, and
columns counted in runes. There are two ways to find one: `Position.advance` moves along a text,
`lineColumn` counts afresh from the start of the text.
-/

namespace ShaderRepair

/-- A place in a source text. -/
structure Position where
  offset : Int
  line : Int
  column : Int
  deriving DecidableEq, Repr

namespace Position

/-- The place of a token that stands nowhere. -/
def zero : Position :=
  ⟨0, 0, 0⟩

/-- The start of a source text. -/
def start : Position :=
  ⟨0, 1, 1⟩

/-- Line and column after one more rune. -/
def step (p : Position) (r : Rune) : Position :=
  if r = .scalar 10 then
    { p with line := p.line + 1, column := 1 }
  else
    { p with column := p.column + 1 }

/-- The place after `text`, if `text` starts at `p`. -/
def advance (p : Position) (text : Text) : Position :=
  let moved := text.runes.foldl step p
  { moved with offset := p.offset + text.length }

end Position

namespace Text

/-- The part after the last line feed. -/
def lastLine (s : Text) : Text :=
  (s.reverse.takeWhile (· ≠ lineFeed)).reverse

/-- Line and column of the byte at `offset`. -/
def lineColumn (source : Text) (offset : Int) : Nat × Nat :=
  let before := source.take offset.toNat
  (before.count lineFeed + 1, (runes (lastLine before)).length + 1)

end Text

end ShaderRepair
