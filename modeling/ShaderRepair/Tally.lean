import ShaderRepair.Text

/-!
# Tallies

How many insertions of each mark there were, and the sentence that sums them up.
-/

namespace ShaderRepair

/-- What is inserted: a punctuation mark, or a conversion with its two parts counted as one. -/
inductive Mark where
  | semicolon
  | colon
  | leftParen
  | rightParen
  | comma
  | conversion
  deriving DecidableEq, Repr

namespace Mark

def all : List Mark :=
  [.semicolon, .colon, .leftParen, .rightParen, .comma, .conversion]

def key : Mark → Text
  | .semicolon => Text.ascii ";"
  | .colon => Text.ascii ":"
  | .leftParen => Text.ascii "("
  | .rightParen => Text.ascii ")"
  | .comma => Text.ascii ","
  | .conversion => Text.ascii "type"

end Mark

/-- A number for each mark. -/
abbrev Tally := Mark → Int

namespace Tally

/-- How often each mark occurs in a list. -/
def ofList (marks : List Mark) : Tally :=
  fun m => marks.count m

/-- The marks that occurred, with their numbers. -/
def entries (t : Tally) : List (Mark × Int) :=
  (Mark.all.map fun m => (m, t m)).filter fun e => e.2 ≠ 0

/-- Totals are 64-bit words in two's complement. -/
def wrap (n : Int) : Int :=
  n.bmod 18446744073709551616

/-- A number of things, if there are any. -/
def phrase (n : Int) (one many : String) : Option Text :=
  if n = 1 then some (Text.ascii "1 " ++ Text.ascii one)
  else if n > 1 then some (Text.ofInt n ++ Text.ascii " " ++ Text.ascii many)
  else none

/-- The phrases of a summary; the two parentheses are counted together. -/
def phrases (t : Tally) : List Text :=
  [phrase (t .semicolon) "Semicolon" "Semicolons",
    phrase (t .colon) "Colon" "Colons",
    phrase (wrap (t .leftParen + t .rightParen)) "Parenthesis" "Parentheses",
    phrase (t .comma) "Comma" "Commas",
    phrase (t .conversion) "Explicit Type Conversion" "Explicit Type Conversions"].filterMap id

/-- What was added, in one line. -/
def summary (t : Tally) : Text :=
  match t.phrases.reverse with
  | [] => Text.ascii "nothing to add"
  | [only] => Text.ascii "added " ++ only
  | final :: others =>
    Text.ascii "added " ++ Text.join (Text.ascii ", ") others.reverse ++ Text.ascii " and " ++ final

end Tally

end ShaderRepair
