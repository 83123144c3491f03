import ShaderRepair.Token

/-!
# Places in a list of tokens

The tokens that the grammar sees stand in a list, with tokens between them that it does not see.
What is ahead of a place is found by stepping over tokens from there. This file contains:
- `Cursor.ended`, the tokens with an end of input behind them;
- `Cursor.skip`, the place of the token ahead, and `Cursor.next`, that of the one after it.
-/

namespace ShaderRepair

namespace Cursor

/-- Tokens with an end of input at the end. -/
def ended (tokens : List Token) : List Token :=
  match tokens.getLast? with
  | some t => if t.kind = .endOfInput then tokens else tokens ++ [Token.endAt t.stop]
  | none => [Token.endAt Position.zero]

/-- Whether a cursor steps over a token. A strict one stops at line breaks. -/
def stepsOver (strict : Bool) (t : Token) : Bool :=
  t.isIgnored || (!strict && t.kind = .lineBreak)

section Places

variable (ts : List Token)

/-- The first place from `i` on where a cursor stops, or the last place. -/
def skip (strict : Bool) (i : Nat) : Nat :=
  if h : i < ts.length - 1 then
    if stepsOver strict ts[i] then skip strict (i + 1) else i
  else i
termination_by ts.length - i

/-- The place of the next symbol after the one at place `i`. -/
def next (i : Nat) : Nat :=
  if i < ts.length - 1 then skip ts false (i + 1) else i

end Places

end Cursor

end ShaderRepair
